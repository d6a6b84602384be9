import Xv6Paging.FileSystem.BlockMap

/-! # Truncation

`itrunc` frees the blocks of an inode. Its addresses leave the inode before they are
freed or all at once, so the blocks become loose first, and each `bfree` takes one of the
loose blocks. No loose block is free, so `bfree` does not panic.
-/
namespace Xv6Paging.Fs
open WordPage Sector Ownership Function
variable {sb : Superblock} {start : ℕ} {v v' : ℕ → Dinode} {d d' : Disk} {L : Set ℕ} {p q : Place} {b c i : ℕ}

structure OnlyMap (sb : Superblock) (start : ℕ) (d d' : Disk) : Prop where
  data : ∀ x, start ≤ x → d' x = d x
  dinodes : ∀ i < sb.ninodes, sb.dinode d' i = sb.dinode d i

theorem OnlyMap.refl : OnlyMap sb start d d := ⟨fun _ _ => rfl,fun _ _ => rfl⟩

theorem OnlyMap.trans {d₁ d₂ d₃ : Disk} (h : OnlyMap sb start d₁ d₂) (h' : OnlyMap sb start d₂ d₃) :
    OnlyMap sb start d₁ d₃ :=
  ⟨fun x hx => (h'.data x hx).trans (h.data x hx),fun i hi => (h'.dinodes i hi).trans (h.dinodes i hi)⟩

theorem bfree_loose (hl : Layout sb start) (h : Blocks sb start v d L) {w : Word} (hw : w.toNat ∈ L) :
    Outcome (bfree sb w d) (fun d' => Blocks sb start v d' (L \ {w.toNat}) ∧ OnlyMap sb start d d') fun _ => False := by
  obtain ⟨d',hd',hblocks,hdata,hdin⟩ := bfree_spec hl h hw
  rw [hd']
  exact Outcome.ok ⟨hblocks,hdata,hdin⟩

def clearDirect (ip : Dinode) (l : List (Fin 12)) : Dinode :=
  l.foldl (fun ip k => ip.setAddr k.castSucc 0) ip

theorem clearDirect_zero {ip : Dinode} {a : Fin 13} (h : ip.addrs a = 0) (l : List (Fin 12)) :
    (clearDirect ip l).addrs a = 0 := by
  induction l generalizing ip with
  | nil => exact h
  | cons k l ih =>
    refine @ih (ip.setAddr k.castSucc 0) ?_
    by_cases hk : a = k.castSucc
    · rw [hk]
      exact Dinode.setAddr_self ..
    · exact (update_of_ne hk _ _).trans h

theorem clearDirect_addrs (ip : Dinode) {l : List (Fin 12)} {k : Fin 12} (hk : k ∈ l) :
    (clearDirect ip l).addrs k.castSucc = 0 := by
  induction l generalizing ip with
  | nil => exact absurd hk List.not_mem_nil
  | cons j l ih =>
    rcases List.mem_cons.mp hk with rfl | hk
    · exact clearDirect_zero (Dinode.setAddr_self ip k.castSucc 0) l
    · exact ih (ip.setAddr j.castSucc 0) hk

theorem clearDirect_fields (ip : Dinode) (l : List (Fin 12)) :
    clearDirect ip l = {ip with addrs := (clearDirect ip l).addrs} := by
  induction l generalizing ip with
  | nil => rfl
  | cons k l ih => exact ih (ip.setAddr k.castSucc 0)

theorem Blocks.dropDirect (h : Blocks sb start v d L) (k : Fin 12) (hk : (v i).addrs k.castSucc ≠ 0) :
    Blocks sb start (update v i ((v i).setAddr k.castSucc 0)) d
      (insert ((v i).addrs k.castSucc).toNat L) := by
  have hplace : Place.ofAddr i k.castSucc = .direct i k := by simp [Place.ofAddr]
  have hne : k.castSucc ≠ 12 := Fin.ne_of_lt k.castSucc_lt_last
  have haddr : Place.addr v d (.direct i k) = some ((v i).addrs k.castSucc).toNat := target_of_ne hk
  have hr : Owned (Place.addr (update v i ((v i).setAddr k.castSucc 0)) d) _ _ := h.owned.release {.direct i k}
    (by
      rintro q rfl
      rw [Place.addr,update_self,Dinode.setAddr_self]
      rfl)
    (fun q hq => addr_setAddr _ _ (fun he => (hne he).elim) q (hplace ▸ hq))
  have hset : L ∪ {c | ∃ q ∈ ({.direct i k} : Set Place), Place.addr v d q = some c} =
      insert ((v i).addrs k.castSucc).toNat L := by
    ext c
    simp only [Set.mem_union,Set.mem_ofPred_eq,Set.mem_singleton_iff,exists_eq_left,haddr,Option.some.injEq,
      Set.mem_insert_iff]
    constructor
    · rintro (hc | rfl)
      · exact Or.inr hc
      · exact Or.inl rfl
    · rintro (rfl | hc)
      · exact Or.inr rfl
      · exact Or.inl hc
  rw [hset] at hr
  exact ⟨hr,h.reserved⟩

theorem truncDirect_spec (hl : Layout sb start) (h : Blocks sb start v d ∅) (l : List (Fin 12)) (i : ℕ) :
    Outcome (l.foldlM (truncDirect sb) (v i,d)) (fun x => x.1 = clearDirect (v i) l ∧
      Blocks sb start (update v i x.1) x.2 ∅ ∧ OnlyMap sb start d x.2) fun _ => False := by
  induction l generalizing v d with
  | nil =>
    refine Outcome.ok ⟨rfl,?_,.refl⟩
    rw [update_eq_self]
    exact h
  | cons k l ih =>
    rw [List.foldlM_cons,truncDirect]
    split
    · next hk =>
      refine (ih h).post fun x hx => ⟨?_,hx.2⟩
      -- clearing an address that is zero already
      have hsame : (v i).setAddr k.castSucc 0 = v i := by
        have hu : update (v i).addrs k.castSucc 0 = (v i).addrs := by
          rw [← hk]
          exact update_eq_self ..
        rw [Dinode.setAddr,hu]
      rw [hx.1,clearDirect,clearDirect,List.foldl_cons,hsame]
    · next hk =>
      have hloose := h.dropDirect k hk
      have hnot : ((v i).addrs k.castSucc).toNat ∉ (∅ : Set ℕ) := Set.notMem_empty _
      refine Outcome.bind (Q := fun x => x.1 = (v i).setAddr k.castSucc 0 ∧
        Blocks sb start (update v i x.1) x.2 ∅ ∧ OnlyMap sb start d x.2) ?_ ?_
      · refine (bfree_loose hl hloose (Set.mem_insert _ _)).bind fun d' hd' => Outcome.ok ⟨rfl,?_,hd'.2⟩
        rw [← Set.insert_sdiff_self_of_notMem hnot]
        exact hd'.1
      · rintro ⟨ip,d'⟩ ⟨rfl,hb,ho⟩
        have hself := update_self i ((v i).setAddr k.castSucc 0) v
        have hstep := ih hb
        rw [hself] at hstep
        refine hstep.post fun x hx => ⟨hx.1,?_,ho.trans hx.2.2⟩
        rw [← update_idem]
        exact hx.2.1


def entryBlocks (x : Block) (l : List ℕ) : Set ℕ := {c | ∃ j ∈ l, target (wordAt x j) = some c}

theorem truncEntry_spec (hl : Layout sb start) (h : Blocks sb start v d L) {a : Word} (ha : start ≤ a.toNat)
    (l : List ℕ) (hnd : l.Nodup) (hmem : entryBlocks (d a.toNat) l ⊆ L)
    (hinj : ∀ j ∈ l, ∀ k ∈ l, ∀ c, target (wordAt (d a.toNat) j) = some c →
      target (wordAt (d a.toNat) k) = some c → j = k) :
    Outcome (l.foldlM (truncEntry sb a) d)
      (fun d' => Blocks sb start v d' (L \ entryBlocks (d a.toNat) l) ∧ OnlyMap sb start d d') fun _ => False := by
  induction l generalizing d L with
  | nil =>
    refine Outcome.ok ⟨?_,.refl⟩
    have hnone : entryBlocks (d a.toNat) [] = ∅ := by
      ext c
      simp [entryBlocks]
    rw [hnone,Set.sdiff_empty]
    exact h
  | cons j l ih =>
    obtain ⟨hj,hnd⟩ := List.nodup_cons.mp hnd
    rw [List.foldlM_cons,truncEntry]
    have hinj' : ∀ j ∈ l, ∀ k ∈ l, ∀ c, target (wordAt (d a.toNat) j) = some c →
        target (wordAt (d a.toNat) k) = some c → j = k :=
      fun j hj k hk => hinj j (List.mem_cons_of_mem _ hj) k (List.mem_cons_of_mem _ hk)
    split
    · next hz =>
      have hsame : entryBlocks (d a.toNat) (j :: l) = entryBlocks (d a.toNat) l := by
        ext c
        simp only [entryBlocks,List.mem_cons,exists_eq_or_imp,Set.mem_ofPred_eq,hz,target_zero]
        simp
      rw [hsame] at hmem ⊢
      exact ih h hnd hmem hinj'
    · next hz =>
      have hw := target_of_ne hz
      have hL : (wordAt (d a.toNat) j).toNat ∈ L := hmem ⟨j,List.mem_cons_self,hw⟩
      refine (bfree_loose hl h hL).bind fun d₁ hd₁ => ?_
      have hkeep := hd₁.2.data _ ha
      have hstep := ih hd₁.1 hnd (by
        rw [hkeep]
        rintro c ⟨k,hk,hc⟩
        refine ⟨hmem ⟨k,List.mem_cons_of_mem _ hk,hc⟩,?_⟩
        rintro rfl
        exact hj (hinj k (List.mem_cons_of_mem _ hk) j List.mem_cons_self _ hc hw ▸ hk)) (by
        rw [hkeep]
        exact hinj')
      rw [hkeep] at hstep
      refine hstep.post fun d₂ hd₂ => ⟨?_,hd₁.2.trans hd₂.2⟩
      have hset : L \ entryBlocks (d a.toNat) (j :: l) =
          (L \ {(wordAt (d a.toNat) j).toNat}) \ entryBlocks (d a.toNat) l := by
        ext c
        simp only [entryBlocks,List.mem_cons,exists_eq_or_imp,Set.mem_ofPred_eq,Set.mem_sdiff,
          Set.mem_singleton_iff,hw,Option.some.injEq]
        grind
      rw [hset]
      exact hd₂.1

theorem Blocks.dropIndirect (h : Blocks sb start v d ∅) (hi : (v i).addrs 12 ≠ 0) :
    Blocks sb start (update v i ((v i).setAddr 12 0)) d
      (insert ((v i).addrs 12).toNat (entryBlocks (d ((v i).addrs 12).toNat) (List.range nIndirect))) := by
  have htarget := target_of_ne hi
  have hzero : ((v i).setAddr 12 0).addrs 12 = 0 := Dinode.setAddr_self ..
  have hr : Owned (Place.addr (update v i ((v i).setAddr 12 0)) d) _ _ :=
    h.owned.release {q | q = .indirect i ∨ ∃ j, q = .entry i j}
    (by
      rintro q (rfl | ⟨j,rfl⟩) <;> simp only [Place.addr,update_self,hzero] <;> rfl)
    (by
      intro q hq
      by_cases hqi : q.inode = i
      · cases q with
        | direct j k =>
          obtain rfl : j = i := hqi
          have hne : k.castSucc ≠ 12 := Fin.ne_of_lt k.castSucc_lt_last
          simp only [Place.addr,update_self,Dinode.setAddr,update_of_ne hne]
        | indirect j => exact (hq (Or.inl (by rw [show j = i from hqi]))).elim
        | entry j e => exact (hq (Or.inr ⟨e,by rw [show j = i from hqi]⟩)).elim
      · exact addr_view (update_of_ne hqi _ _))
  have hset : ∅ ∪ {c | ∃ q ∈ ({q | q = .indirect i ∨ ∃ j, q = .entry i j} : Set Place), Place.addr v d q = some c} =
      insert ((v i).addrs 12).toNat (entryBlocks (d ((v i).addrs 12).toNat) (List.range nIndirect)) := by
    ext c
    rw [Set.empty_union,Set.mem_insert_iff]
    constructor
    · rintro ⟨q,rfl | ⟨j,rfl⟩,hc⟩
      · rw [Place.addr,htarget] at hc
        exact Or.inl (Option.some.inj hc).symm
      · rw [Place.addr,htarget,Option.bind_some] at hc
        exact Or.inr ⟨j.val,List.mem_range.mpr j.isLt,hc⟩
    · rintro (rfl | ⟨j,hj,hc⟩)
      · exact ⟨.indirect i,Or.inl rfl,htarget⟩
      · refine ⟨.entry i ⟨j,List.mem_range.mp hj⟩,Or.inr ⟨_,rfl⟩,?_⟩
        rw [Place.addr,htarget,Option.bind_some]
        exact hc
  rw [hset] at hr
  exact ⟨hr,h.reserved⟩

theorem truncIndirect_spec (hl : Layout sb start) (h : Blocks sb start v d ∅) (i : ℕ) :
    Outcome (truncIndirect sb (v i) d) (fun x => x.1 = (v i).setAddr 12 0 ∧
      Blocks sb start (update v i x.1) x.2 ∅ ∧ OnlyMap sb start d x.2) fun _ => False := by
  rw [truncIndirect]
  split
  · next hi =>
    have hsame : (v i).setAddr 12 0 = v i := by
      have hu : update (v i).addrs 12 0 = (v i).addrs := by
        rw [← hi]
        exact update_eq_self ..
      rw [Dinode.setAddr,hu]
    refine Outcome.ok ⟨hsame.symm,?_,.refl⟩
    dsimp only
    rw [update_eq_self]
    exact h
  · next hi =>
    have htarget := target_of_ne hi
    have hind : Place.addr v d (.indirect i) = some ((v i).addrs 12).toNat := htarget
    have hentry : ∀ j (hj : j < nIndirect), Place.addr v d (.entry i ⟨j,hj⟩) =
        target (wordAt (d ((v i).addrs 12).toNat) j) := by
      intro j hj
      rw [Place.addr,htarget,Option.bind_some]
    refine (truncEntry_spec hl (h.dropIndirect hi) (h.addr_range hind).1 _ List.nodup_range
      (Set.subset_insert _ _) ?_).bind fun d₁ hd₁ => ?_
    · intro j hj k hk c hjc hkc
      rw [← hentry j (List.mem_range.mp hj)] at hjc
      rw [← hentry k (List.mem_range.mp hk)] at hkc
      have he := h.owned.inj _ _ _ hjc hkc
      simp only [Place.entry.injEq,true_and] at he
      exact congrArg Fin.val he
    · -- the indirect block is none of the blocks that it names
      have hnot : ((v i).addrs 12).toNat ∉ entryBlocks (d ((v i).addrs 12).toNat) (List.range nIndirect) := by
        rintro ⟨j,hj,hc⟩
        rw [← hentry j (List.mem_range.mp hj)] at hc
        cases h.owned.inj _ _ _ hind hc
      have hone : insert ((v i).addrs 12).toNat (entryBlocks (d ((v i).addrs 12).toNat) (List.range nIndirect)) \
          entryBlocks (d ((v i).addrs 12).toNat) (List.range nIndirect) = {((v i).addrs 12).toNat} := by
        rw [Set.insert_sdiff_of_notMem _ hnot,Set.sdiff_self,LawfulSingleton.insert_empty_eq]
      have hb := hd₁.1
      rw [hone] at hb
      refine (bfree_loose hl hb (Set.mem_singleton _)).bind fun d₂ hd₂ => Outcome.ok ⟨rfl,?_,hd₁.2.trans hd₂.2⟩
      have hlast := hd₂.1
      rw [Set.sdiff_self] at hlast
      exact hlast

/-- What `itrunc` has done: inode `i` has no blocks and no bytes, on the disk as well, and no data block
has been written. -/
structure Truncated (sb : Superblock) (start : ℕ) (v : ℕ → Dinode) (d : Disk) (i : ℕ) (r : Dinode × Disk) : Prop where
  inode : r.1 = {v i with addrs := fun _ => 0, size := 0}
  blocks : Blocks sb start (update v i r.1) r.2 ∅
  data : ∀ x, start ≤ x → r.2 x = d x
  dinode : sb.dinode r.2 i = r.1
  others : ∀ j < sb.ninodes, j ≠ i → sb.dinode r.2 j = sb.dinode d j

theorem Blocks.of_addrs (h : Blocks sb start v d L) (ha : ∀ j, (v' j).addrs = (v j).addrs) : Blocks sb start v' d L :=
  ⟨h.owned.congr (fun p => addr_of_addrs (ha p.inode)) fun _ => Iff.rfl,h.reserved⟩

theorem Layout.iupdate (hl : Layout sb start) (hi : i < sb.ninodes) (ip : Dinode) :
    (∀ x, start ≤ x → Fs.iupdate sb i ip d x = d x) ∧
      ∀ b < sb.size, sb.marked (Fs.iupdate sb i ip d) b = sb.marked d b := by
  refine ⟨fun x hx => ?_,fun b hb => Superblock.marked_congr ?_⟩
  · have hlt := (hl.inodes i hi).trans_le (Layout.bblock_ge sb 0)
    exact update_of_ne ((hlt.trans (hl.bitmap 0 hl.nonempty)).trans_le hx).ne' _ _
  · exact update_of_ne (hl.iblock_ne hi b).symm _ _

theorem Blocks.iupdate (h : Blocks sb start v d L) (hl : Layout sb start) (hi : i < sb.ninodes) (ip : Dinode) :
    Blocks sb start v (Fs.iupdate sb i ip d) L := by
  refine h.congr (fun b hb => ?_) fun j a ha => ?_
  · exact (hl.iupdate hi ip).2 b hb
  · exact (hl.iupdate hi ip).1 a (h.addr_range ha).1

theorem itrunc_spec (hl : Layout sb start) (h : Blocks sb start v d ∅) (hi : i < sb.ninodes) :
    Outcome (itrunc sb i (v i) d) (Truncated sb start v d i) fun _ => False := by
  rw [itrunc]
  refine (truncDirect_spec hl h (List.finRange 12) i).bind ?_
  rintro ⟨ip,d₁⟩ ⟨rfl,hb₁,ho₁⟩
  have hself := update_self i (clearDirect (v i) (List.finRange 12)) v
  have hind := truncIndirect_spec hl hb₁ i
  rw [hself] at hind
  refine hind.bind ?_
  rintro ⟨ip,d₂⟩ ⟨rfl,hb₂,ho₂⟩
  have ho := ho₁.trans ho₂
  rw [update_idem] at hb₂
  have haddrs : ((clearDirect (v i) (List.finRange 12)).setAddr 12 0).addrs = fun _ => 0 := by
    funext a
    by_cases ha : a = 12
    · subst ha
      exact Dinode.setAddr_self ..
    · refine (update_of_ne ha _ _).trans ?_
      have hlt : a.val < 12 := by
        have hne : a.val ≠ 12 := fun he => ha (Fin.ext he)
        omega
      exact clearDirect_addrs (v i) (List.mem_finRange (⟨a.val,hlt⟩ : Fin 12))
  have hinode : ({(clearDirect (v i) (List.finRange 12)).setAddr 12 0 with size := 0} : Dinode) =
      {v i with addrs := fun _ => 0, size := 0} := by
    dsimp only
    rw [haddrs]
    have hf := clearDirect_fields (v i) (List.finRange 12)
    generalize clearDirect (v i) (List.finRange 12) = ip at hf ⊢
    rw [hf]
    rfl
  obtain ⟨hdata,-⟩ := hl.iupdate (d := d₂) hi {(clearDirect (v i) (List.finRange 12)).setAddr 12 0 with size := 0}
  refine Outcome.ok ⟨hinode,?_,fun x hx => (hdata x hx).trans (ho.data x hx),Superblock.dinode_setDinode ..,
    fun j hj hne => (Superblock.dinode_setDinode_of_ne _ hne).trans (ho.dinodes j hj)⟩
  refine Blocks.iupdate (hb₂.of_addrs fun j => ?_) hl hi _
  by_cases hj : j = i
  · subst hj
    rw [update_self,update_self]
  · rw [update_of_ne hj,update_of_ne hj]

end Xv6Paging.Fs
