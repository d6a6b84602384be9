import Xv6Paging.FileSystem.Inodes
import Xv6Paging.Library.Outcome
import Xv6Paging.Library.Ownership

/-! # Which block belongs to which inode

A place is a direct slot, an indirect-block pointer or an entry of an indirect block. The
places own their blocks exclusively, and the free map marks exactly the owned blocks and
the ones before the data area. An inode that is being changed in memory differs from the
one on disk, so the inodes are given by a view, and the blocks that `balloc` has returned
and `bfree` will get are the loose ones.
-/
namespace Xv6Paging.Fs
open WordPage Sector Ownership Function

inductive Place
  | direct (i : ℕ) (k : Fin 12)
  | indirect (i : ℕ)
  | entry (i : ℕ) (j : Fin 128)
  deriving DecidableEq

def Place.inode : Place → ℕ
  | .direct i _ => i
  | .indirect i => i
  | .entry i _ => i

def Place.isData : Place → Bool
  | .indirect _ => false
  | _ => true

def target (w : Word) : Option ℕ := if w = 0 then none else some w.toNat

@[simp] theorem target_zero : target 0 = none := rfl

theorem target_of_ne {w : Word} (h : w ≠ 0) : target w = some w.toNat := if_neg h

theorem target_eq_none {w : Word} : target w = none ↔ w = 0 := by
  rw [target]
  split <;> simp_all

theorem target_eq_some {w : Word} {b : ℕ} : target w = some b ↔ w ≠ 0 ∧ w.toNat = b := by
  rw [target]
  split <;> simp_all

section Places
variable (v : ℕ → Dinode) (d : Disk)

def Place.addr : Place → Option ℕ
  | .direct i k => target ((v i).addrs k.castSucc)
  | .indirect i => target ((v i).addrs 12)
  | .entry i j => (target ((v i).addrs 12)).bind fun a => target (wordAt (d a) j.val)

def placeOf (i bn : ℕ) : Option Place :=
  if h : bn < 12 then some (.direct i ⟨bn,h⟩)
  else if h : bn-12 < 128 then some (.entry i ⟨bn-12,h⟩)
  else none

def blockOf (i bn : ℕ) : Option ℕ := (placeOf i bn).bind (Place.addr v d)

/-- The bytes of a file; blocks that it does not have read as zeros. -/
def bytes (i o : ℕ) : Byte :=
  match blockOf v d i (o/bSize) with
  | some b => d b (Fin.ofNat 512 (o%bSize))
  | none => 0

end Places

theorem placeOf_data {i bn : ℕ} {p : Place} (h : placeOf i bn = some p) : p.isData = true ∧ p.inode = i := by
  rw [placeOf] at h
  split at h
  · cases h
    exact ⟨rfl,rfl⟩
  · split at h
    · cases h
      exact ⟨rfl,rfl⟩
    · cases h

theorem placeOf_inj {i j bn bm : ℕ} {p : Place} (h : placeOf i bn = some p) (h' : placeOf j bm = some p) :
    i = j ∧ bn = bm := by
  rw [placeOf] at h h'
  split at h
  · cases h
    split at h'
    · cases h'
      exact ⟨rfl,rfl⟩
    · split at h' <;> cases h'
  · split at h
    · cases h
      split at h'
      · cases h'
      · split at h'
        · simp only [Option.some.injEq,Place.entry.injEq,Fin.mk.injEq] at h'
          exact ⟨h'.1.symm,by omega⟩
        · cases h'
    · cases h

/-- The regions of the disk in their order: inodes, free map, data. -/
structure Layout (sb : Superblock) (start : ℕ) : Prop where
  inodes : ∀ i < sb.ninodes, sb.iblock i < sb.bmapstart
  bitmap : ∀ b < sb.size, sb.bblock b < start
  size : sb.size < 2^32
  nonempty : 0 < sb.size

def DataUsed (sb : Superblock) (start : ℕ) (d : Disk) (b : ℕ) : Prop :=
  start ≤ b ∧ b < sb.size ∧ sb.marked d b = true

/-- Exclusive ownership of the data blocks, and a free map that is true of all blocks. -/
structure Blocks (sb : Superblock) (start : ℕ) (v : ℕ → Dinode) (d : Disk) (loose : Set ℕ) : Prop where
  owned : Owned (Place.addr v d) (DataUsed sb start d) loose
  reserved : ∀ b < sb.size, b < start → sb.marked d b = true

section Blocks
variable {sb : Superblock} {start : ℕ} {v v' : ℕ → Dinode} {d d' : Disk} {L : Set ℕ} {p q : Place} {b c i : ℕ}

theorem Layout.pos (hl : Layout sb start) (hb : b < sb.size) : 0 < start :=
  (Nat.zero_le _).trans_lt (hl.bitmap b hb)

theorem Layout.bblock_ge (sb : Superblock) (b : ℕ) : sb.bmapstart ≤ sb.bblock b := Nat.le_add_left _ _

theorem Layout.iblock_ne (hl : Layout sb start) (hi : i < sb.ninodes) (b : ℕ) : sb.iblock i ≠ sb.bblock b :=
  ((hl.inodes i hi).trans_le (Layout.bblock_ge sb b)).ne

theorem Blocks.addr_range (h : Blocks sb start v d L) (hp : Place.addr v d p = some b) : start ≤ b ∧ b < sb.size :=
  ⟨(h.owned.used_of_addr hp).1,(h.owned.used_of_addr hp).2.1⟩

theorem Blocks.loose_range (h : Blocks sb start v d L) (hb : b ∈ L) : start ≤ b ∧ b < sb.size :=
  have hu := (h.owned.used_iff b).mpr (Or.inr hb)
  ⟨hu.1,hu.2.1⟩

theorem addr_congr (h : ∀ i a, Place.addr v d (.indirect i) = some a → d' a = d a) (p : Place) :
    Place.addr v d' p = Place.addr v d p := by
  cases p with
  | direct i k => rfl
  | indirect i => rfl
  | entry i j =>
    simp only [Place.addr]
    cases ha : target ((v i).addrs 12) with
    | none => rfl
    | some a => rw [Option.bind_some,Option.bind_some,h i a ha]

theorem addr_of_addrs (h : (v' p.inode).addrs = (v p.inode).addrs) : Place.addr v' d p = Place.addr v d p := by
  cases p with
  | direct i k => exact congrArg (fun a : Fin 13 → Word => target (a k.castSucc)) h
  | indirect i => exact congrArg (fun a : Fin 13 → Word => target (a 12)) h
  | entry i j =>
    exact congrArg (fun a : Fin 13 → Word => (target (a 12)).bind fun a => target (wordAt (d a) j.val)) h

theorem addr_view (h : v' p.inode = v p.inode) : Place.addr v' d p = Place.addr v d p :=
  addr_of_addrs (congrArg Dinode.addrs h)

theorem Blocks.congr (h : Blocks sb start v d L) (hmark : ∀ b < sb.size, sb.marked d' b = sb.marked d b)
    (hind : ∀ i a, Place.addr v d (.indirect i) = some a → d' a = d a) : Blocks sb start v d' L := by
  refine ⟨h.owned.congr (addr_congr hind) fun b => ?_,fun b hb hs => ?_⟩
  · constructor
    · rintro ⟨h1,h2,h3⟩
      exact ⟨h1,h2,hmark b h2 ▸ h3⟩
    · rintro ⟨h1,h2,h3⟩
      exact ⟨h1,h2,(hmark b h2).trans h3⟩
  · rw [hmark b hb]
    exact h.reserved b hb hs

theorem freeBlock_some (hb : freeBlock sb d = some b) : b < sb.size ∧ sb.marked d b = false := by
  obtain ⟨k,-,hk⟩ := List.exists_of_findSome?_eq_some hb
  obtain ⟨bi,hbi,rfl⟩ := Option.map_eq_some_iff.mp hk
  have hlt : bi < bpb := List.mem_range.mp (List.mem_of_find?_eq_some hbi)
  have hcond := List.find?_some hbi
  simp only [decide_eq_true_eq] at hcond
  have hpos : 0 < bpb := by decide
  have hdiv : (k*bpb+bi)/bpb = k*bpb/bpb := by
    rw [Nat.mul_comm,Nat.mul_add_div hpos,Nat.div_eq_of_lt hlt,Nat.mul_div_cancel_left _ hpos,Nat.add_zero]
  have hmod : (k*bpb+bi)%bpb = bi := by
    rw [Nat.mul_comm,Nat.mul_add_mod,Nat.mod_eq_of_lt hlt]
  refine ⟨hcond.1,?_⟩
  rw [Superblock.marked,Superblock.bblock,hdiv,hmod]
  exact hcond.2

theorem Layout.update_data (hl : Layout sb start) (hb : start ≤ b) (hs : b < sb.size) (x : Block) :
    (∀ c < sb.size, sb.marked (update d b x) c = sb.marked d c) ∧
      ∀ i < sb.ninodes, sb.dinode (update d b x) i = sb.dinode d i := by
  refine ⟨fun c hc => Superblock.marked_congr ?_,fun i hi => Superblock.dinode_congr ?_⟩
  · exact update_of_ne ((hl.bitmap c hc).trans_le hb).ne _ _
  · have hlt := (hl.inodes i hi).trans_le (Layout.bblock_ge sb b)
    exact update_of_ne ((hlt.trans (hl.bitmap b hs)).trans_le hb).ne _ _

theorem Layout.update_bitmap (hl : Layout sb start) (hs : b < sb.size) (x : Block) :
    (∀ c, start ≤ c → update d (sb.bblock b) x c = d c) ∧
      ∀ i < sb.ninodes, sb.dinode (update d (sb.bblock b) x) i = sb.dinode d i := by
  refine ⟨fun c hc => ?_,fun i hi => Superblock.dinode_congr ?_⟩
  · exact update_of_ne ((hl.bitmap b hs).trans_le hc).ne' _ _
  · exact update_of_ne (hl.iblock_ne hi b) _ _

structure Allocated (sb : Superblock) (start : ℕ) (v : ℕ → Dinode) (d : Disk) (L : Set ℕ) (w : Word)
    (d' : Disk) : Prop where
  ne : w ≠ 0
  notMem : w.toNat ∉ L
  fresh : ∀ p, Place.addr v d p ≠ some w.toNat
  blocks : Blocks sb start v d' (insert w.toNat L)
  zero : d' w.toNat = fun _ => 0
  keeps : ∀ x, start ≤ x → x ≠ w.toNat → d' x = d x
  dinodes : ∀ i < sb.ninodes, sb.dinode d' i = sb.dinode d i

def OutOfBlocks (e : Fault) : Prop := e = .panic "balloc: out of blocks"

theorem balloc_spec (hl : Layout sb start) (h : Blocks sb start v d L) :
    Outcome (balloc sb d) (fun r => Allocated sb start v d L r.1 r.2) OutOfBlocks := by
  rw [balloc]
  split
  · next b hb =>
    obtain ⟨hsize,hfree⟩ := freeBlock_some hb
    have hb' : start ≤ b := by
      by_contra hlt
      rw [h.reserved b hsize (not_le.mp hlt)] at hfree
      cases hfree
    have hw : (BitVec.ofNat 32 b).toNat = b := by
      rw [BitVec.toNat_ofNat]
      exact Nat.mod_eq_of_lt (hsize.trans hl.size)
    have hunused : ¬ DataUsed sb start d b := by
      rintro ⟨-,-,hm⟩
      rw [hfree] at hm
      cases hm
    have hfresh : ∀ p, Place.addr v d p ≠ some b := fun p hp => hunused (h.owned.used_of_addr hp)
    obtain ⟨hmark,hdin⟩ := hl.update_data (d := sb.mark d b) hb' hsize fun _ => 0
    obtain ⟨hkeep,hdin'⟩ := hl.update_bitmap (d := d) hsize (setBit (d (sb.bblock b)) (b%bpb))
    have hkeeps : ∀ x, start ≤ x → x ≠ b → update (sb.mark d b) b (fun _ => 0) x = d x := by
      intro x hx hne
      rw [update_of_ne hne]
      exact hkeep x hx
    have hmarked : ∀ c < sb.size, sb.marked (update (sb.mark d b) b fun _ => 0) c =
        (sb.marked d c || decide (c = b)) := fun c hc => (hmark c hc).trans Superblock.marked_mark
    refine Outcome.ok ⟨?_,?_,?_,?_,?_,?_,fun i hi => (hdin i hi).trans (hdin' i hi)⟩
    · intro hzero
      have hpos := hl.pos hsize
      have h0 := congrArg BitVec.toNat hzero
      rw [hw] at h0
      exact absurd (hpos.trans_le hb') (by rw [h0]; exact lt_irrefl 0)
    · rw [hw]
      exact fun hL => hunused ((h.owned.used_iff b).mpr (Or.inr hL))
    · rw [hw]
      exact hfresh
    · rw [hw]
      refine ⟨?_,fun c hc hs => ?_⟩
      · refine (h.owned.take hunused fun c => ?_).congr (addr_congr fun i a ha => ?_) fun _ => Iff.rfl
        · constructor
          · rintro ⟨h1,h2,h3⟩
            rw [hmarked c h2,Bool.or_eq_true,decide_eq_true_eq] at h3
            exact h3.imp_left fun h3 => ⟨h1,h2,h3⟩
          · rintro (⟨h1,h2,h3⟩ | rfl)
            · exact ⟨h1,h2,by rw [hmarked c h2,h3]; rfl⟩
            · exact ⟨hb',hsize,by rw [hmarked c hsize]; simp⟩
        · exact hkeeps a (h.addr_range ha).1 fun he => hfresh _ (he ▸ ha)
      · rw [hmarked c hc,h.reserved c hc hs]
        rfl
    · rw [hw]
      exact update_self ..
    · rw [hw]
      exact hkeeps
  · exact Outcome.error rfl

theorem Allocated.addr_eq {w : Word} (h : Blocks sb start v d L) (ha : Allocated sb start v d L w d') (p : Place) :
    Place.addr v d' p = Place.addr v d p :=
  addr_congr (fun _ a hi => ha.keeps a (h.addr_range hi).1 fun he => ha.fresh _ (he ▸ hi)) p

/-- `bfree` of a loose block does not panic, and frees it. -/
theorem bfree_spec (hl : Layout sb start) (h : Blocks sb start v d L) {w : Word} (hw : w.toNat ∈ L) :
    ∃ d', bfree sb w d = .ok d' ∧ Blocks sb start v d' (L \ {w.toNat}) ∧ (∀ x, start ≤ x → d' x = d x) ∧
      ∀ i < sb.ninodes, sb.dinode d' i = sb.dinode d i := by
  obtain ⟨hb,hsize⟩ := h.loose_range hw
  have hm : sb.marked d w.toNat = true := ((h.owned.used_iff _).mpr (Or.inr hw)).2.2
  obtain ⟨hkeep,hdin⟩ := hl.update_bitmap (d := d) hsize (clearBit (d (sb.bblock w.toNat)) (w.toNat%bpb))
  refine ⟨sb.unmark d w.toNat,if_pos hm,⟨?_,fun c hc hs => ?_⟩,hkeep,hdin⟩
  · refine (h.owned.give hw fun c => ?_).congr (addr_congr fun i a ha => hkeep a (h.addr_range ha).1) fun _ => Iff.rfl
    constructor
    · rintro ⟨h1,h2,h3⟩
      rw [Superblock.marked_unmark] at h3
      simp only [Bool.and_eq_true,Bool.not_eq_true',decide_eq_false_iff_not] at h3
      exact ⟨⟨h1,h2,h3.1⟩,h3.2⟩
    · rintro ⟨⟨h1,h2,h3⟩,hne⟩
      refine ⟨h1,h2,?_⟩
      rw [Superblock.marked_unmark,h3]
      simp [hne]
  · have hne : c ≠ w.toNat := (hs.trans_le hb).ne
    rw [Superblock.marked_unmark,h.reserved c hc hs]
    simp [hne]

theorem blocks_of_assign (h : Blocks sb start v d (insert b L)) (hb : b ∉ L) (hp : Place.addr v d p = none)
    (hself : Place.addr v' d' p = some b) (hother : ∀ q, q ≠ p → Place.addr v' d' q = Place.addr v d q)
    (hmark : ∀ c < sb.size, sb.marked d' c = sb.marked d c) : Blocks sb start v' d' L := by
  have ho := h.owned.assign hp (Set.mem_insert b L) hself hother
  rw [Set.insert_sdiff_self_of_notMem hb] at ho
  refine ⟨ho.congr (fun _ => rfl) fun c => ?_,fun c hc hs => ?_⟩
  · constructor
    · rintro ⟨h1,h2,h3⟩
      exact ⟨h1,h2,hmark c h2 ▸ h3⟩
    · rintro ⟨h1,h2,h3⟩
      exact ⟨h1,h2,(hmark c h2).trans h3⟩
  · rw [hmark c hc]
    exact h.reserved c hc hs

structure Grows (sb : Superblock) (v : ℕ → Dinode) (d : Disk) (v' : ℕ → Dinode) (d' : Disk) : Prop where
  bytes : ∀ j o, bytes v' d' j o = bytes v d j o
  blocks : ∀ j bn b, blockOf v d j bn = some b → blockOf v' d' j bn = some b
  dinodes : ∀ i < sb.ninodes, sb.dinode d' i = sb.dinode d i
  fields : ∀ j, v' j = {v j with addrs := (v' j).addrs}

theorem Grows.refl : Grows sb v d v d := ⟨fun _ _ => rfl,fun _ _ _ h => h,fun _ _ => rfl,fun _ => rfl⟩

theorem Grows.trans {v₁ v₂ v₃ : ℕ → Dinode} {d₁ d₂ d₃ : Disk} (h : Grows sb v₁ d₁ v₂ d₂)
    (h' : Grows sb v₂ d₂ v₃ d₃) : Grows sb v₁ d₁ v₃ d₃ := by
  refine ⟨fun j o => (h'.bytes j o).trans (h.bytes j o),fun j bn b hb => h'.blocks j bn b (h.blocks j bn b hb),
    fun i hi => (h'.dinodes i hi).trans (h.dinodes i hi),fun j => ?_⟩
  have h1 := h.fields j
  have h2 := h'.fields j
  rw [h1] at h2
  exact h2

theorem grows_of_places
    (hkeep : ∀ q b, q.isData = true → Place.addr v d q = some b → Place.addr v' d' q = some b ∧ d' b = d b)
    (hnew : ∀ q b, q.isData = true → Place.addr v d q = none → Place.addr v' d' q = some b → d' b = fun _ => 0)
    (hdin : ∀ i < sb.ninodes, sb.dinode d' i = sb.dinode d i)
    (hfields : ∀ j, v' j = {v j with addrs := (v' j).addrs}) : Grows sb v d v' d' := by
  refine ⟨fun j o => ?_,fun j bn b hb => ?_,hdin,hfields⟩
  · rw [Fs.bytes,Fs.bytes]
    simp only [blockOf]
    cases hp : placeOf j (o/bSize) with
    | none => rfl
    | some p =>
      have hdata := (placeOf_data hp).1
      simp only [Option.bind_some]
      cases ha : Place.addr v d p with
      | some b =>
        obtain ⟨h1,h2⟩ := hkeep p b hdata ha
        rw [h1]
        dsimp only
        rw [h2]
      | none =>
        cases ha' : Place.addr v' d' p with
        | none => rfl
        | some b =>
          dsimp only
          rw [hnew p b hdata ha ha']
  · obtain ⟨p,hp,ha⟩ := Option.bind_eq_some_iff.mp hb
    rw [blockOf,hp,Option.bind_some]
    exact (hkeep p b (placeOf_data hp).1 ha).1

theorem Allocated.grows {w : Word} (h : Blocks sb start v d L) (ha : Allocated sb start v d L w d') :
    Grows sb v d v d' := by
  refine grows_of_places (fun q b _ hq => ⟨(ha.addr_eq h q).trans hq,?_⟩) (fun q b _ hq hq' => ?_) ha.dinodes
    fun _ => rfl
  · exact ha.keeps b (h.addr_range hq).1 fun he => ha.fresh q (he ▸ hq)
  · rw [ha.addr_eq h q,hq] at hq'
    cases hq'

def Place.ofAddr (i : ℕ) (k : Fin 13) : Place :=
  if h : k.val < 12 then .direct i ⟨k.val,h⟩ else .indirect i

theorem addr_ofAddr (k : Fin 13) : Place.addr v d (.ofAddr i k) = target ((v i).addrs k) := by
  rw [Place.ofAddr]
  split
  · rfl
  · next hk =>
    have : k = 12 := Fin.ext (by change k.val = 12; omega)
    rw [this]
    rfl

theorem addr_setAddr (k : Fin 13) (w : Word)
    (hind : k = 12 → (v i).addrs 12 = 0 ∧ d w.toNat = fun _ => 0) (q : Place) (hq : q ≠ .ofAddr i k) :
    Place.addr (update v i ((v i).setAddr k w)) d q = Place.addr v d q := by
  by_cases hi : q.inode = i
  · cases q with
    | direct j k' =>
      obtain rfl : j = i := hi
      have hne : k'.castSucc ≠ k := by
        rintro rfl
        exact hq (by simp [Place.ofAddr])
      simp only [Place.addr,update_self,Dinode.setAddr,update_of_ne hne]
    | indirect j =>
      obtain rfl : j = i := hi
      have hne : (12 : Fin 13) ≠ k := by
        rintro rfl
        exact hq rfl
      simp only [Place.addr,update_self,Dinode.setAddr,update_of_ne hne]
    | entry j e =>
      obtain rfl : j = i := hi
      simp only [Place.addr,update_self,Dinode.setAddr]
      by_cases hne : (12 : Fin 13) = k
      · obtain ⟨hk,hz⟩ := hind hne.symm
        subst hne
        rw [update_self,hk,target_zero,Option.bind_none]
        cases hw : target w with
        | none => rfl
        | some a =>
          obtain ⟨-,rfl⟩ := target_eq_some.mp hw
          rw [Option.bind_some,hz]
          exact target_eq_none.mpr (wordAt_zero e.val)
      · rw [update_of_ne hne]
  · exact addr_view (update_of_ne hi _ _)

theorem assign_addr (h : Blocks sb start v d (insert b L)) (hb : b ∉ L) (k : Fin 13) {w : Word} (hw : w ≠ 0)
    (hwb : w.toNat = b) (hk : (v i).addrs k = 0) (hz : d w.toNat = fun _ => 0) :
    Blocks sb start (update v i ((v i).setAddr k w)) d L ∧
      Grows sb v d (update v i ((v i).setAddr k w)) d := by
  have hnone : Place.addr v d (.ofAddr i k) = none := by
    rw [addr_ofAddr,hk]
    rfl
  have hself : Place.addr (update v i ((v i).setAddr k w)) d (.ofAddr i k) = some b := by
    rw [addr_ofAddr,update_self,Dinode.setAddr_self,target_of_ne hw,hwb]
  have hother := addr_setAddr (v := v) (d := d) (i := i) k w fun he => ⟨he ▸ hk,hz⟩
  refine ⟨blocks_of_assign h hb hnone hself hother fun _ _ => rfl,?_⟩
  refine grows_of_places (fun q c _ hq => ⟨?_,rfl⟩) (fun q c _ hq hq' => ?_) (fun _ _ => rfl) fun j => ?_
  · rw [hother q fun he => ?_]
    · exact hq
    · rw [he,hnone] at hq
      cases hq
  · by_cases he : q = .ofAddr i k
    · rw [he,hself] at hq'
      cases hq'
      rw [← hwb]
      exact hz
    · rw [hother q he,hq] at hq'
      cases hq'
  · by_cases hj : j = i
    · subst hj
      rw [update_self]
      rfl
    · rw [update_of_ne hj]

theorem ensureAddr_spec (hl : Layout sb start) (h : Blocks sb start v d L) (i : ℕ) (k : Fin 13) :
    Outcome (ensureAddr sb (v i) k d) (fun r =>
      Blocks sb start (update v i r.2.1) r.2.2 L ∧ Grows sb v d (update v i r.2.1) r.2.2 ∧
      r.1 ≠ 0 ∧ r.2.1.addrs k = r.1 ∧ ((v i).addrs k ≠ 0 → r.2.1 = v i ∧ r.2.2 = d)) OutOfBlocks := by
  rw [ensureAddr]
  split
  · next hk =>
    refine (balloc_spec hl h).bind fun r ha => Outcome.ok ?_
    obtain ⟨hblocks,hgrows⟩ := assign_addr ha.blocks ha.notMem k ha.ne rfl hk ha.zero
    exact ⟨hblocks,(ha.grows h).trans hgrows,ha.ne,update_self ..,fun hne => (hne hk).elim⟩
  · next hk =>
    refine Outcome.ok ?_
    dsimp only
    rw [update_eq_self]
    exact ⟨h,Grows.refl,hk,rfl,fun _ => ⟨rfl,rfl⟩⟩

theorem addr_setEntry (h : Blocks sb start v d L) {a : ℕ} (ha : Place.addr v d (.indirect i) = some a) {j : Fin 128}
    {w : Word} (q : Place) (hq : q ≠ .entry i j) :
    Place.addr v (update d a (setWord (d a) j.val w)) q = Place.addr v d q := by
  cases q with
  | direct _ _ => rfl
  | indirect _ => rfl
  | entry i' j' =>
    simp only [Place.addr]
    cases ha' : target ((v i').addrs 12) with
    | none => rfl
    | some a' =>
      simp only [Option.bind_some]
      by_cases he : a' = a
      · subst he
        -- two inodes never share an indirect block
        have hii : Place.indirect i' = Place.indirect i := h.owned.inj _ _ _ ha' ha
        cases hii
        have hne : j'.val ≠ j.val := fun he => hq (by rw [Fin.ext he])
        rw [update_self,wordAt_setWord_of_ne _ _ j'.isLt hne]
      · rw [update_of_ne he]

theorem assign_entry (hl : Layout sb start) (h : Blocks sb start v d (insert b L)) (hb : b ∉ L) {a : ℕ}
    (ha : Place.addr v d (.indirect i) = some a) {j : Fin 128} (hj : wordAt (d a) j.val = 0) {w : Word} (hw : w ≠ 0)
    (hwb : w.toNat = b) (hz : d b = fun _ => 0) :
    Blocks sb start v (update d a (setWord (d a) j.val w)) L ∧
      Grows sb v d v (update d a (setWord (d a) j.val w)) ∧
      Place.addr v (update d a (setWord (d a) j.val w)) (.entry i j) = some b := by
  obtain ⟨has,hasz⟩ := h.addr_range ha
  have hab : b ≠ a := by
    rintro rfl
    exact h.owned.apart b (Set.mem_insert b L) _ ha
  have hia : target ((v i).addrs 12) = some a := ha
  have hnone : Place.addr v d (.entry i j) = none := by
    simp only [Place.addr,hia,Option.bind_some,hj]
    rfl
  have hself : Place.addr v (update d a (setWord (d a) j.val w)) (.entry i j) = some b := by
    simp only [Place.addr,hia,Option.bind_some,update_self]
    rw [wordAt_setWord _ _ j.isLt,target_of_ne hw,hwb]
  have hother := addr_setEntry h ha (j := j) (w := w)
  obtain ⟨hmark,hdin⟩ := hl.update_data (d := d) has hasz (setWord (d a) j.val w)
  refine ⟨blocks_of_assign h hb hnone hself hother hmark,?_,hself⟩
  refine grows_of_places (fun q c hqd hq => ?_) (fun q c _ hq hq' => ?_) hdin fun _ => rfl
  · have hqe : q ≠ .entry i j := by
      rintro rfl
      rw [hnone] at hq
      cases hq
    have hca : c ≠ a := by
      rintro rfl
      rw [h.owned.inj _ _ _ hq ha] at hqd
      cases hqd
    exact ⟨(hother q hqe).trans hq,update_of_ne hca _ _⟩
  · by_cases hqe : q = .entry i j
    · rw [hqe,hself] at hq'
      cases hq'
      rw [update_of_ne hab]
      exact hz
    · rw [hother q hqe,hq] at hq'
      cases hq'

structure Mapped (sb : Superblock) (start : ℕ) (v : ℕ → Dinode) (d : Disk) (L : Set ℕ) (i bn : ℕ)
    (r : Word × Dinode × Disk) : Prop where
  blocks : Blocks sb start (update v i r.2.1) r.2.2 L
  grows : Grows sb v d (update v i r.2.1) r.2.2
  block : blockOf (update v i r.2.1) r.2.2 i bn = some r.1.toNat
  same : blockOf v d i bn ≠ none → r.2.1 = v i ∧ r.2.2 = d

theorem bmap_spec (hl : Layout sb start) (h : Blocks sb start v d L) (i : ℕ) {bn : ℕ} (hbn : bn < maxFile) :
    Outcome (bmap sb (v i) bn d) (Mapped sb start v d L i bn) OutOfBlocks := by
  have hmax : maxFile = 140 := rfl
  have hnd : nDirect = 12 := rfl
  have hni : nIndirect = 128 := rfl
  rw [bmap]
  split
  · next hd =>
    rw [hnd] at hd
    have hk : (⟨bn,hd⟩ : Fin 12).castSucc = Fin.ofNat 13 bn := Fin.ext (by
      change bn = bn%13
      omega)
    have hblock : ∀ (v : ℕ → Dinode) (d : Disk), blockOf v d i bn = target ((v i).addrs (Fin.ofNat 13 bn)) := by
      intro v d
      rw [blockOf,placeOf,dif_pos hd,Option.bind_some,Place.addr,hk]
    refine (ensureAddr_spec hl h i (Fin.ofNat 13 bn)).post fun r hr => ?_
    obtain ⟨hblocks,hgrows,hne,haddr,hsame⟩ := hr
    refine ⟨hblocks,hgrows,?_,fun hb => hsame fun hz => hb ?_⟩
    · rw [hblock,update_self,haddr,target_of_ne hne]
    · rw [hblock,hz]
      rfl
  · next hd =>
    rw [hnd] at hd
    rw [if_pos (by omega)]
    have hj : bn-12 < 128 := by omega
    have hblock : ∀ (v : ℕ → Dinode) (d : Disk), blockOf v d i bn = Place.addr v d (.entry i ⟨bn-12,hj⟩) := by
      intro v d
      rw [blockOf,placeOf,dif_neg hd,dif_pos hj,Option.bind_some]
    refine (ensureAddr_spec hl h i 12).bind ?_
    rintro ⟨a,ip,d₁⟩ ⟨hblocks,hgrows,hne,haddr,hsame⟩
    dsimp only at hblocks hgrows hne haddr hsame ⊢
    have hind : Place.addr (update v i ip) d₁ (.indirect i) = some a.toNat := by
      rw [Place.addr,update_self,haddr,target_of_ne hne]
    have hentry : ∀ d' : Disk, Place.addr (update v i ip) d' (.entry i ⟨bn-12,hj⟩) =
        target (wordAt (d' a.toNat) (bn-12)) := by
      intro d'
      rw [Place.addr,update_self,haddr,target_of_ne hne,Option.bind_some]
    have hsame' : blockOf v d i bn ≠ none → ip = v i ∧ d₁ = d := by
      intro hb
      refine hsame fun hz => hb ?_
      rw [hblock,Place.addr,hz]
      rfl
    rw [hnd]
    split
    · next hw =>
      refine (balloc_spec hl hblocks).bind ?_
      rintro ⟨b,d₂⟩ ha
      have hkeep : d₂ a.toNat = d₁ a.toNat :=
        ha.keeps _ (hblocks.addr_range hind).1 fun he => ha.fresh _ (he ▸ hind)
      have hz : wordAt (d₂ a.toNat) (⟨bn-12,hj⟩ : Fin 128).val = 0 := by
        rw [hkeep]
        exact hw
      obtain ⟨h1,h2,h3⟩ := assign_entry hl ha.blocks ha.notMem ((ha.addr_eq hblocks _).trans hind) hz ha.ne rfl
        ha.zero
      refine Outcome.ok ⟨h1,hgrows.trans ((ha.grows hblocks).trans h2),(hblock _ _).trans h3,fun hb => ?_⟩
      -- the entry existed before, so it was not zero
      obtain ⟨rfl,rfl⟩ := hsame' hb
      refine (hb ?_).elim
      rw [hblock]
      have he := hentry d₁
      rw [update_eq_self] at he
      rw [he,hw]
      rfl
    · next hw =>
      refine Outcome.ok ⟨hblocks,hgrows,?_,hsame'⟩
      rw [hblock,hentry]
      exact target_of_ne hw

end Blocks

end Xv6Paging.Fs
