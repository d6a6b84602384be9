import Mathlib.Algebra.BigOperators.Group.List.Basic
import Xv6Paging.FileSystem.Consistency
import Xv6Paging.FileSystem.Mkfs

/-! # The image that mkfs builds

`mkfs` allocates blocks by a counter and writes the free map last. Its image is compared
with the one that has the free map for the counter's value already, for which the facts
about the kernel's block map hold: every allocation is one that the kernel could make, and
every iteration of `iappend` is one of `writei`.
-/
namespace Xv6Paging.Mkfs
open WordPage Sector Ownership Fs Function
variable {m m' : Image} {v v' : ℕ → Dinode} {i : ℕ}

theorem super_layout : Layout super nmeta := by
  refine ⟨fun i hi => ?_,fun b hb => ?_,by decide,by decide⟩
  · have hi' : i < 200 := hi
    change i/8+32 < 58
    omega
  · have hb' : b < 1000 := hb
    change b/4096+58 < 59
    omega

theorem bitAt_usedBits {n j : ℕ} (hn : n ≤ bpb) (hj : j < bpb) : bitAt (usedBits n) j = decide (j < n) := by
  induction n with
  | zero =>
    rw [usedBits,List.range_zero,List.foldl_nil,bitAt]
    simp
  | succ n ih =>
    have hstep : usedBits (n+1) = setBit (usedBits n) n := by
      rw [usedBits,List.range_succ,List.foldl_append,List.foldl_cons,List.foldl_nil]
      rfl
    rw [hstep,bitAt_setBit _ (by omega) hj,ih (by omega)]
    by_cases h : j < n
    · simp [h,show j < n+1 by omega]
    · simp only [h,decide_false,Bool.false_or,decide_eq_decide]
      omega

/-- The image with the free map that `balloc` would write now. -/
def Image.sealed (m : Image) : Disk := update m.disk super.bmapstart (usedBits m.freeblock)

theorem sealed_of_ge {b : ℕ} (hb : nmeta ≤ b) : m.sealed b = m.disk b := by
  have hm : super.bmapstart < nmeta := by decide
  exact update_of_ne (by omega) _ _

theorem sealed_dinode (hi : i < nInodes) : super.dinode m.sealed i = super.dinode m.disk i :=
  Superblock.dinode_congr (update_of_ne (super_layout.inodes i hi).ne _ _)

theorem marked_sealed {b : ℕ} (hb : b < fsSize) (hm : m.freeblock ≤ fsSize) :
    super.marked m.sealed b = decide (b < m.freeblock) := by
  have hf : fsSize = 1000 := rfl
  have hp : bpb = 4096 := rfl
  have hz : b/bpb = 0 := Nat.div_eq_of_lt (by omega)
  have hblock : super.bblock b = super.bmapstart := by rw [Superblock.bblock,hz,Nat.zero_add]
  rw [Superblock.marked,hblock,Image.sealed,update_self,bitAt_usedBits (by omega) (Nat.mod_lt _ (by decide)),
    Nat.mod_eq_of_lt (by omega)]

theorem sealed_wsect {sec : ℕ} (hs : nmeta ≤ sec) (buf : Block) :
    (wsect m sec buf).sealed = update m.sealed sec buf := by
  have hm : super.bmapstart < nmeta := by decide
  exact update_comm (by omega) _ _ _

/-- The blocks below the counter are owned exclusively, and those from it on have never been written. -/
structure Building (v : ℕ → Dinode) (m : Image) : Prop where
  blocks : Blocks super nmeta v m.sealed ∅
  zero : ∀ b, m.freeblock ≤ b → m.disk b = fun _ => 0
  low : nmeta ≤ m.freeblock
  high : m.freeblock ≤ fsSize

theorem Building.addr_lt (h : Building v m) {p : Place} {b : ℕ} (hp : Place.addr v m.sealed p = some b) :
    nmeta ≤ b ∧ b < m.freeblock := by
  obtain ⟨h1,h2,h3⟩ := h.blocks.owned.used_of_addr hp
  rw [marked_sealed h2 h.high] at h3
  exact ⟨h1,of_decide_eq_true h3⟩

theorem Building.take (h : Building v m) (hf : m.freeblock < fsSize) :
    Allocated super nmeta v m.sealed ∅ (BitVec.ofNat 32 m.freeblock) ({m with freeblock := m.freeblock+1} : Image).sealed ∧
      (BitVec.ofNat 32 m.freeblock).toNat = m.freeblock := by
  have hsize : fsSize = 1000 := rfl
  have hmeta : nmeta = 59 := rfl
  have hlow := h.low
  have hw : (BitVec.ofNat 32 m.freeblock).toNat = m.freeblock := by
    rw [BitVec.toNat_ofNat]
    omega
  have hkeeps : ∀ x, nmeta ≤ x → ({m with freeblock := m.freeblock+1} : Image).sealed x = m.sealed x :=
    fun x hx => (sealed_of_ge hx).trans (sealed_of_ge (m := m) hx).symm
  have hfresh : ∀ p, Place.addr v m.sealed p ≠ some m.freeblock := fun p hp => (h.addr_lt hp).2.ne rfl
  have hunused : ¬ DataUsed super nmeta m.sealed m.freeblock := by
    rintro ⟨-,h2,h3⟩
    rw [marked_sealed h2 h.high] at h3
    exact absurd (of_decide_eq_true h3) (lt_irrefl _)
  refine ⟨⟨?_,Set.notMem_empty _,?_,?_,?_,fun x hx _ => hkeeps x hx,fun i hi => ?_⟩,hw⟩
  · intro hz
    rw [hz] at hw
    have hw' : 0 = m.freeblock := hw
    omega
  · rw [hw]
    exact hfresh
  · rw [hw]
    refine ⟨(h.blocks.owned.take hunused fun c => ?_).congr
      (addr_congr fun i a ha => hkeeps a (h.addr_lt ha).1) fun _ => Iff.rfl,fun b hb hs => ?_⟩
    · constructor
      · rintro ⟨h1,h2,h3⟩
        rw [marked_sealed h2 (Nat.succ_le_of_lt hf)] at h3
        rcases Nat.lt_succ_iff_lt_or_eq.mp (of_decide_eq_true h3) with hlt | heq
        · exact Or.inl ⟨h1,h2,(marked_sealed h2 h.high).trans (decide_eq_true hlt)⟩
        · exact Or.inr heq
      · rintro (⟨h1,h2,h3⟩ | rfl)
        · rw [marked_sealed h2 h.high] at h3
          refine ⟨h1,h2,(marked_sealed h2 (Nat.succ_le_of_lt hf)).trans (decide_eq_true ?_)⟩
          exact Nat.lt_succ_of_lt (of_decide_eq_true h3)
        · exact ⟨hlow,hf,(marked_sealed hf (Nat.succ_le_of_lt hf)).trans (decide_eq_true (Nat.lt_succ_self _))⟩
    · rw [marked_sealed hb (Nat.succ_le_of_lt hf)]
      exact decide_eq_true (by dsimp only; omega)
  · rw [hw,hkeeps _ hlow,sealed_of_ge hlow]
    exact h.zero _ (le_refl _)
  · exact (sealed_dinode hi).trans (sealed_dinode (m := m) hi).symm

structure Slotted (v : ℕ → Dinode) (m : Image) (i : ℕ) (k : Fin 13) (r : Dinode × Image) : Prop where
  building : Building (update v i r.1) r.2
  grows : Grows super v m.sealed (update v i r.1) r.2.sealed
  ne : r.1.addrs k ≠ 0
  free : r.2.freeblock = m.freeblock+(if (v i).addrs k = 0 then 1 else 0)
  freeinode : r.2.freeinode = m.freeinode
  same : (v i).addrs k ≠ 0 → r = (v i,m)
  other : ∀ q, q ≠ .ofAddr i k → Place.addr (update v i r.1) r.2.sealed q = Place.addr v m.sealed q

theorem slot_spec (h : Building v m) (i : ℕ) (k : Fin 13) (hf : (v i).addrs k = 0 → m.freeblock < fsSize) :
    Slotted v m i k (slot (v i) k m) := by
  rw [slot]
  split
  · next hk =>
    obtain ⟨ha,hw⟩ := h.take (hf hk)
    obtain ⟨hblocks,hgrows⟩ := assign_addr ha.blocks ha.notMem k ha.ne rfl hk ha.zero
    refine ⟨⟨hblocks,fun b hb => h.zero b (by dsimp only at hb; omega),Nat.le_succ_of_le h.low,Nat.succ_le_of_lt (hf hk)⟩,
      (ha.grows h.blocks).trans hgrows,?_,?_,rfl,fun hne => (hne hk).elim,fun q hq => ?_⟩
    · dsimp only
      rw [Dinode.setAddr_self]
      exact ha.ne
    · rw [if_pos hk]
    · refine (addr_setAddr k _ (fun he => ⟨he ▸ hk,ha.zero⟩) q hq).trans (ha.addr_eq h.blocks q)
  · next hk =>
    have hself : update v i (v i) = v := update_eq_self ..
    refine ⟨?_,?_,hk,?_,rfl,fun _ => rfl,?_⟩ <;> dsimp only
    · rw [hself]
      exact h
    · rw [hself]
      exact .refl
    · rw [if_neg hk,Nat.add_zero]
    · rw [hself]
      exact fun _ _ => rfl

def newBlocks (v : ℕ → Dinode) (d : Disk) (i fbn : ℕ) : ℕ :=
  (if blockOf v d i fbn = none then 1 else 0)+
    if 12 ≤ fbn ∧ Place.addr v d (.indirect i) = none then 1 else 0

structure Appended (v : ℕ → Dinode) (m : Image) (i fbn : ℕ) (r : Word × Dinode × Image) : Prop where
  mapped : Mapped super nmeta v m.sealed ∅ i fbn (r.1,r.2.1,r.2.2.sealed)
  building : Building (update v i r.2.1) r.2.2
  free : r.2.2.freeblock = m.freeblock+newBlocks v m.sealed i fbn
  freeinode : r.2.2.freeinode = m.freeinode
  other : ∀ q, placeOf i fbn ≠ some q → (12 ≤ fbn → q ≠ .indirect i) →
    Place.addr (update v i r.2.1) r.2.2.sealed q = Place.addr v m.sealed q
  indirect : 12 ≤ fbn → Place.addr (update v i r.2.1) r.2.2.sealed (.indirect i) ≠ none

theorem appendBlock_direct (h : Building v m) (i : ℕ) {fbn : ℕ} (hd : fbn < 12)
    (hf : m.freeblock+newBlocks v m.sealed i fbn ≤ fsSize) :
    Outcome (appendBlock (v i) fbn m) (Appended v m i fbn) fun _ => False := by
  have hk : (⟨fbn,hd⟩ : Fin 12).castSucc = Fin.ofNat 13 fbn := Fin.ext (by
    change fbn = fbn%13
    omega)
  have hplace : placeOf i fbn = some (.direct i ⟨fbn,hd⟩) := dif_pos hd
  have hof : Place.ofAddr i (Fin.ofNat 13 fbn) = .direct i ⟨fbn,hd⟩ := by
    rw [← hk,Place.ofAddr]
    exact dif_pos hd
  have hblock : ∀ (v : ℕ → Dinode) (d : Disk), blockOf v d i fbn = target ((v i).addrs (Fin.ofNat 13 fbn)) := by
    intro v d
    rw [blockOf,hplace,Option.bind_some,Place.addr,hk]
  have hnew : newBlocks v m.sealed i fbn = if (v i).addrs (Fin.ofNat 13 fbn) = 0 then 1 else 0 := by
    have hno : ¬ (12 ≤ fbn ∧ Place.addr v m.sealed (.indirect i) = none) := by omega
    rw [newBlocks,hblock,if_neg hno,Nat.add_zero]
    simp only [target_eq_none]
  rw [hnew] at hf
  have hs := slot_spec h i (Fin.ofNat 13 fbn) fun hz => by
    rw [if_pos hz] at hf
    omega
  rw [appendBlock,if_pos (show fbn < nDirect from hd)]
  refine Outcome.ok ⟨⟨hs.building.blocks,hs.grows,?_,fun hb => ?_⟩,hs.building,?_,hs.freeinode,fun q hq _ => ?_,
    fun hc => absurd hd (by omega)⟩
  · rw [hblock,update_self]
    exact target_of_ne hs.ne
  · have he := hs.same fun hz => hb (by rw [hblock,hz]; rfl)
    exact ⟨congrArg Prod.fst he,congrArg (fun r : Dinode × Image => r.2.sealed) he⟩
  · rw [hnew]
    exact hs.free
  · refine hs.other q fun he => hq ?_
    rw [hplace,he,hof]

theorem appendBlock_indirect (h : Building v m) (i : ℕ) {fbn : ℕ} (hd : ¬ fbn < 12) (hj : fbn-12 < 128)
    (hf : m.freeblock+newBlocks v m.sealed i fbn ≤ fsSize) :
    Outcome (appendBlock (v i) fbn m) (Appended v m i fbn) fun _ => False := by
  have hplace : placeOf i fbn = some (.entry i ⟨fbn-12,hj⟩) := (dif_neg hd).trans (dif_pos hj)
  have hblock : ∀ (v : ℕ → Dinode) (d : Disk), blockOf v d i fbn = Place.addr v d (.entry i ⟨fbn-12,hj⟩) := by
    intro v d
    rw [blockOf,hplace,Option.bind_some]
  have hind : Place.addr v m.sealed (.indirect i) = target ((v i).addrs 12) := rfl
  have hnew : newBlocks v m.sealed i fbn = (if blockOf v m.sealed i fbn = none then 1 else 0)+
      if (v i).addrs 12 = 0 then 1 else 0 := by
    rw [newBlocks,hind]
    simp only [target_eq_none,show 12 ≤ fbn by omega,true_and]
  have hs := slot_spec h i 12 fun hz => by
    rw [hnew,if_pos hz] at hf
    omega
  rw [appendBlock,if_neg (show ¬ fbn < nDirect from hd)]
  generalize slot (v i) 12 m = r at hs ⊢
  obtain ⟨din,m₁⟩ := r
  have hb₁ := hs.building
  have hne := hs.ne
  have hfree := hs.free
  dsimp only at hb₁ hne hfree ⊢
  have hind₁ : Place.addr (update v i din) m₁.sealed (.indirect i) = some (din.addrs 12).toNat := by
    rw [Place.addr,update_self,target_of_ne hne]
  obtain ⟨hlow,hlt⟩ := hb₁.addr_lt hind₁
  have hentry : ∀ d : Disk, Place.addr (update v i din) d (.entry i ⟨fbn-12,hj⟩) =
      target (wordAt (d (din.addrs 12).toNat) (fbn-12)) := by
    intro d
    rw [Place.addr,update_self,target_of_ne hne,Option.bind_some]
  have hother₁ : Place.addr (update v i din) m₁.sealed (.entry i ⟨fbn-12,hj⟩) =
      Place.addr v m.sealed (.entry i ⟨fbn-12,hj⟩) := hs.other _ (by rintro ⟨⟩)
  have hsector : m₁.disk (din.addrs 12).toNat = m₁.sealed (din.addrs 12).toNat := (sealed_of_ge hlow).symm
  have hread : rsect m₁ (din.addrs 12).toNat = .ok (m₁.sealed (din.addrs 12).toNat) := by
    rw [rsect,if_pos (hlt.trans_le hb₁.high),hsector]
  rw [hread]
  have hsame : blockOf v m.sealed i fbn ≠ none → din = v i ∧ m₁.sealed = m.sealed := by
    intro hb
    have he := hs.same fun hz => hb (by rw [hblock,Place.addr,hz]; rfl)
    cases he
    exact ⟨rfl,rfl⟩
  have hkind : Place.ofAddr i 12 = .indirect i := rfl
  change Outcome (if wordAt (m₁.sealed (din.addrs 12).toNat) (fbn-12) = 0 then _ else _) _ _
  split
  · next hz =>
    have hmissing : blockOf v m.sealed i fbn = none := by
      rw [hblock,← hother₁,hentry,hz]
      rfl
    rw [hnew,if_pos hmissing] at hf
    have hroom : m₁.freeblock < fsSize := by omega
    obtain ⟨ha,hw⟩ := hb₁.take hroom
    have hkeep : ({m₁ with freeblock := m₁.freeblock+1} : Image).sealed (din.addrs 12).toNat =
        m₁.sealed (din.addrs 12).toNat := ha.keeps _ hlow fun he => ha.fresh _ (he ▸ hind₁)
    obtain ⟨h1,h2,h3⟩ := assign_entry super_layout ha.blocks ha.notMem ((ha.addr_eq hb₁.blocks _).trans hind₁)
      (j := ⟨fbn-12,hj⟩) (by rw [hkeep]; exact hz) ha.ne rfl ha.zero
    have hothers := addr_setEntry ha.blocks ((ha.addr_eq hb₁.blocks _).trans hind₁) (j := ⟨fbn-12,hj⟩)
      (w := BitVec.ofNat 32 m₁.freeblock)
    rw [hkeep] at h1 h2 h3 hothers
    have hsealed := sealed_wsect (m := {m₁ with freeblock := m₁.freeblock+1}) hlow
      (setWord (m₁.sealed (din.addrs 12).toNat) (fbn-12) (BitVec.ofNat 32 m₁.freeblock))
    rw [← hsealed] at h1 h2 h3 hothers
    refine Outcome.ok ⟨⟨h1,hs.grows.trans ((ha.grows hb₁.blocks).trans h2),(hblock _ _).trans h3,
      fun hb => (hb hmissing).elim⟩,⟨h1,fun b hb => ?_,Nat.le_succ_of_le hb₁.low,Nat.succ_le_of_lt hroom⟩,?_,
      hs.freeinode,fun q hq hq' => ?_,fun _ => ?_⟩
    · change m₁.freeblock+1 ≤ b at hb
      exact (update_of_ne (by omega) _ _).trans (hb₁.zero b (by omega))
    · change m₁.freeblock+1 = _
      rw [hnew,if_pos hmissing,hfree]
      omega
    · have hq₁ : q ≠ .entry i ⟨fbn-12,hj⟩ := fun he => hq (by rw [hplace,he])
      exact (hothers q hq₁).trans ((ha.addr_eq hb₁.blocks q).trans (hs.other q (hkind ▸ hq' (by omega))))
    · have hlast := (hothers (.indirect i) (by rintro ⟨⟩)).trans ((ha.addr_eq hb₁.blocks _).trans hind₁)
      exact fun hc => Option.some_ne_none _ (hlast.symm.trans hc)
  · next hz =>
    have hexists : blockOf v m.sealed i fbn ≠ none := by
      rw [hblock,← hother₁,hentry,target_of_ne hz]
      exact Option.some_ne_none _
    refine Outcome.ok ⟨⟨hb₁.blocks,hs.grows,?_,hsame⟩,hb₁,?_,hs.freeinode,fun q _ hq => ?_,fun _ => ?_⟩
    · rw [hblock,hentry]
      exact target_of_ne hz
    · rw [hnew,if_neg hexists,Nat.zero_add]
      exact hfree
    · exact hs.other q (hkind ▸ hq (by omega))
    · dsimp only
      rw [hind₁]
      exact Option.some_ne_none _

theorem appendBlock_spec (h : Building v m) (i : ℕ) {fbn : ℕ} (hfbn : fbn < maxFile)
    (hf : m.freeblock+newBlocks v m.sealed i fbn ≤ fsSize) :
    Outcome (appendBlock (v i) fbn m) (Appended v m i fbn) fun _ => False := by
  have hmax : maxFile = 140 := rfl
  by_cases hd : fbn < 12
  · exact appendBlock_direct h i hd hf
  · exact appendBlock_indirect h i hd (by omega) hf

def blocksFor (n : ℕ) : ℕ := (n+bSize-1)/bSize+if 12*bSize < n then 1 else 0

theorem blocksFor_mono {a b : ℕ} (h : a ≤ b) : blocksFor a ≤ blocksFor b := by
  have hb : bSize = 512 := rfl
  simp only [blocksFor,hb]
  split <;> split <;> omega

theorem blocksFor_step {o k : ℕ} (hk : 0 < k) (hle : o%bSize+k ≤ bSize) :
    blocksFor (o+k) = blocksFor o+((if o/bSize*bSize < o then 0 else 1)+
      if 12 ≤ o/bSize ∧ ¬ 12*bSize < o then 1 else 0) := by
  have hb : bSize = 512 := rfl
  simp only [blocksFor,hb] at hle ⊢
  split <;> split <;> split <;> split <;> omega

/-- What holds in the loop of `writei`, and the inode has exactly the blocks of a file of `w.off` bytes. -/
structure AppendProgress (v : ℕ → Dinode) (m : Image) (i : ℕ) (p : ℕ → Byte) (off : ℕ) (w : AppendLoop) : Prop where
  write : WriteProgress super nmeta v m.sealed i p off ⟨w.off,w.tot,w.din,w.image.sealed⟩
  building : Building (update v i w.din) w.image
  free : w.image.freeblock+blocksFor off = m.freeblock+blocksFor w.off
  freeinode : w.image.freeinode = m.freeinode
  own : ∀ bn, blockOf (update v i w.din) w.image.sealed i bn ≠ none ↔ bn*bSize < w.off
  ownIndirect : Place.addr (update v i w.din) w.image.sealed (.indirect i) ≠ none ↔ 12*bSize < w.off
  other : ∀ q, q.inode ≠ i → Place.addr (update v i w.din) w.image.sealed q = Place.addr v m.sealed q

section Append
variable {p : ℕ → Byte} {off n : ℕ}

theorem AppendProgress.init (h : Building v m) (hown : ∀ bn, blockOf v m.sealed i bn ≠ none ↔ bn*bSize < off)
    (hind : Place.addr v m.sealed (.indirect i) ≠ none ↔ 12*bSize < off) :
    AppendProgress v m i p off ⟨off,0,v i,m⟩ := by
  have hself : update v i (v i) = v := update_eq_self ..
  refine ⟨.init h.blocks,?_,rfl,rfl,?_,?_,?_⟩ <;> dsimp only <;> rw [hself]
  · exact h
  · exact hown
  · exact hind
  · exact fun _ _ => rfl

theorem AppendProgress.newBlocks {w : AppendLoop} (h : AppendProgress v m i p off w) :
    newBlocks (update v i w.din) w.image.sealed i (w.off/bSize) =
      (if w.off/bSize*bSize < w.off then 0 else 1)+if 12 ≤ w.off/bSize ∧ ¬ 12*bSize < w.off then 1 else 0 := by
  have hown := not_congr (h.own (w.off/bSize))
  have hind := not_congr h.ownIndirect
  simp only [ne_eq,not_not] at hown hind
  rw [Mkfs.newBlocks]
  simp only [hown,hind,ite_not]

theorem appendStep_spec {w : AppendLoop} (h : AppendProgress v m i p off w) (hw : w.tot < n)
    (hn : off+n ≤ maxFile*bSize) (hroom : m.freeblock+blocksFor (off+n) ≤ fsSize+blocksFor off) :
    Outcome (appendStep p n w) (fun w' => AppendProgress v m i p off w' ∧ w.tot < w'.tot ∧ w'.tot ≤ n)
      fun _ => False := by
  have hoff : w.off = off+w.tot := h.write.off_eq
  have hb : bSize = 512 := rfl
  have hfbn : w.off/bSize < maxFile := by
    rw [Nat.div_lt_iff_lt_mul (by decide)]
    omega
  have hpiece : (w.off/bSize+1)*bSize-w.off = bSize-w.off%bSize := by
    rw [hb]
    omega
  have hstart : w.off-w.off/bSize*bSize = w.off%bSize := by
    rw [hb]
    omega
  rw [appendStep]
  dsimp only
  rw [if_pos hfbn,hpiece,hstart]
  generalize hp : min (n-w.tot) (bSize-w.off%bSize) = k
  have hlt : w.off%bSize < bSize := Nat.mod_lt _ (by decide)
  have hk : 0 < k ∧ k ≤ n-w.tot ∧ w.off%bSize+k ≤ bSize := by omega
  have hnew := blocksFor_step hk.1 hk.2.2
  rw [← h.newBlocks] at hnew
  have hfree := h.free
  have hmono := blocksFor_mono (show w.off+k ≤ off+n by omega)
  have happ := appendBlock_spec h.building i hfbn (by omega)
  rw [update_self] at happ
  refine happ.bind ?_
  rintro ⟨x,din,m₁⟩ ha
  have hmap := ha.mapped
  have hbuild := ha.building
  have hblock := ha.mapped.block
  dsimp only at hmap hbuild hblock ⊢
  rw [update_idem] at hbuild hblock
  obtain ⟨q,hq,hqx⟩ := Option.bind_eq_some_iff.mp hblock
  obtain ⟨hxlow,hxlt⟩ := hbuild.addr_lt hqx
  have hread : rsect m₁ x.toNat = .ok (m₁.sealed x.toNat) := by
    rw [rsect,if_pos (hxlt.trans_le hbuild.high),sealed_of_ge hxlow]
  rw [hread]
  have hsealed := sealed_wsect (m := m₁) hxlow (blit Fin.val (m₁.sealed x.toNat) (w.off%bSize) k fun j => p (w.tot+j))
  have hstep := h.write.step super_layout hmap hk.1 hk.2.2
  dsimp only at hstep
  rw [← hsealed] at hstep
  have hstore := addr_store hbuild.blocks hblock (blit Fin.val (m₁.sealed x.toNat) (w.off%bSize) k fun j => p (w.tot+j))
  rw [← hsealed] at hstore
  have hother := ha.other
  have hindirect := ha.indirect
  dsimp only at hother hindirect
  rw [update_idem] at hother hindirect
  refine Outcome.ok ⟨⟨hstep,⟨hstep.blocks,fun b hb => ?_,hbuild.low,hbuild.high⟩,?_,ha.freeinode.trans h.freeinode,
    fun bn => ?_,?_,fun q hq => ?_⟩,Nat.lt_add_of_pos_right hk.1,Nat.add_le_of_le_sub' hw.le hk.2.1⟩
  · have hne : b ≠ x.toNat := (hxlt.trans_le hb).ne'
    exact (update_of_ne hne _ _).trans (hbuild.zero b hb)
  · have hf := ha.free
    change m₁.freeblock+blocksFor off = m.freeblock+blocksFor (w.off+k)
    dsimp only at hf
    omega
  · dsimp only
    rw [blockOf_congr hstore]
    by_cases hbn : bn = w.off/bSize
    · rw [hbn,hblock,hb]
      simp only [ne_eq,reduceCtorEq,not_false_eq_true,true_iff]
      omega
    · have hsame : blockOf (update v i din) m₁.sealed i bn =
          blockOf (update v i w.din) w.image.sealed i bn := by
        rw [blockOf,blockOf]
        cases hpl : placeOf i bn with
        | none => rfl
        | some r =>
          refine hother r (fun hc => hbn (placeOf_inj hpl hc).2) fun _ hr => ?_
          have hdata := (placeOf_data hpl).1
          rw [hr] at hdata
          cases hdata
      rw [hsame,h.own]
      rw [hb] at hbn hk ⊢
      omega
  · dsimp only
    rw [hstore]
    by_cases h12 : 12 ≤ w.off/bSize
    · refine iff_of_true (hindirect h12) ?_
      rw [hb] at h12 ⊢
      omega
    · rw [hother _ (fun hc => ?_) fun hc => (h12 hc).elim,h.ownIndirect]
      · rw [hb] at h12 hk ⊢
        omega
      · have hdata := (placeOf_data hc).1
        cases hdata
  · dsimp only
    rw [hstore,hother q (fun hc => hq (placeOf_data hc).2) fun _ hr => hq (by rw [hr]; rfl)]
    exact h.other q hq

theorem appendLoop_spec (hn : off+n ≤ maxFile*bSize) (hroom : m.freeblock+blocksFor (off+n) ≤ fsSize+blocksFor off)
    (fuel : ℕ) {w : AppendLoop} (h : AppendProgress v m i p off w) (ht : w.tot ≤ n) (hf : n-w.tot ≤ fuel) :
    Outcome (appendLoop p n fuel w) (fun w' => AppendProgress v m i p off w' ∧ w'.tot = n) fun _ => False := by
  induction fuel generalizing w with
  | zero =>
    have hend : w.tot = n := by omega
    rw [appendLoop,if_neg (by omega)]
    exact Outcome.ok ⟨h,hend⟩
  | succ fuel ih =>
    rw [appendLoop]
    split
    · next hlt =>
      refine (appendStep_spec h hlt hn hroom).bind fun w' hw' => ?_
      exact ih hw'.1 hw'.2.2 (by omega)
    · exact Outcome.ok ⟨h,by omega⟩

end Append

theorem iblock_lt (hi : i < nInodes) : super.iblock i < fsSize := by
  have hi' : i < 200 := hi
  change i/8+32 < 1000
  omega

theorem rinode_eq (hi : i < nInodes) : rinode m i = .ok (super.dinode m.disk i) := by
  rw [rinode,rsect,if_pos (iblock_lt hi)]
  rfl

theorem winode_eq (hi : i < nInodes) (ip : Dinode) :
    winode m i ip = .ok {m with disk := super.setDinode m.disk i ip} := by
  rw [winode,rsect,if_pos (iblock_lt hi)]
  rfl

theorem sealed_setDinode (hi : i < nInodes) (ip : Dinode) :
    ({m with disk := super.setDinode m.disk i ip} : Image).sealed = iupdate super i ip m.sealed := by
  have hne : super.iblock i ≠ super.bmapstart := (super_layout.inodes i hi).ne
  have hsame : m.sealed (super.iblock i) = m.disk (super.iblock i) := update_of_ne hne _ _
  rw [iupdate,Superblock.setDinode,Superblock.setDinode,hsame]
  exact update_comm hne _ _ _

def Image.contents (m : Image) (i : ℕ) : Inode :=
  {size := (table super m.disk i).size.toNat, data := bytes (table super m.disk) m.sealed i}

/-- Between two calls of `iappend`: every inode has exactly the blocks of its size, and zeros behind its
bytes. -/
structure Good (m : Image) : Prop where
  building : Building (table super m.disk) m
  own : ∀ i bn, blockOf (table super m.disk) m.sealed i bn ≠ none ↔ bn*bSize < (m.contents i).size
  ownIndirect : ∀ i, Place.addr (table super m.disk) m.sealed (.indirect i) ≠ none ↔ 12*bSize < (m.contents i).size
  alive : ∀ i < nInodes, (super.dinode m.disk i).type ≠ 0 ↔ rootIno ≤ i ∧ i < m.freeinode

theorem Good.table_eq (h : Good m) (hi : rootIno ≤ i ∧ i < m.freeinode) (hlt : i < nInodes) :
    table super m.disk i = super.dinode m.disk i := table_of_live hlt ((h.alive i hlt).mpr hi)

theorem Good.rewrite (h : Good m) (inum : ℕ) (hi : i < nInodes) (ip : Dinode) (ht : ip.type ≠ 0)
    (haddrs : ip.addrs = (table super m.disk i).addrs) (hsize : ip.size = (table super m.disk i).size)
    (halive : ∀ k < nInodes, k = i ∨ (rootIno ≤ k ∧ k < m.freeinode) ↔ rootIno ≤ k ∧ k < inum) :
    Good ⟨super.setDinode m.disk i ip,inum,m.freeblock⟩ ∧
      Image.contents ⟨super.setDinode m.disk i ip,inum,m.freeblock⟩ = m.contents := by
  have hself : super.dinode (super.setDinode m.disk i ip) i = ip := Superblock.dinode_setDinode _
  have hdin : ∀ k < nInodes, k ≠ i → super.dinode (super.setDinode m.disk i ip) k = super.dinode m.disk k :=
    fun k _ hk => Superblock.dinode_setDinode_of_ne _ hk
  have htable : table super (super.setDinode m.disk i ip) = update (table super m.disk) i ip :=
    table_update hi hdin (hself.symm ▸ if_neg ht)
  have hsealed : Image.sealed ⟨super.setDinode m.disk i ip,inum,m.freeblock⟩ = iupdate super i ip m.sealed :=
    sealed_setDinode hi ip
  obtain ⟨hblocks,haddr,hbytes⟩ := h.building.blocks.rewrite super_layout hi ip haddrs
  have hcontents : Image.contents ⟨super.setDinode m.disk i ip,inum,m.freeblock⟩ = m.contents := by
    funext j
    have hdata' : bytes (update (table super m.disk) i ip) (iupdate super i ip m.sealed) j =
        bytes (table super m.disk) m.sealed j := funext (hbytes j)
    have hsize' : (update (table super m.disk) i ip j).size = (table super m.disk j).size := by
      by_cases hj : j = i
      · subst hj
        rw [update_self,hsize]
      · rw [update_of_ne hj]
    rw [Image.contents,htable,hsealed,hdata',hsize']
    rfl
  refine ⟨⟨⟨?_,fun b hb => ?_,h.building.low,h.building.high⟩,?_,?_,fun k hk => ?_⟩,hcontents⟩
  · rw [htable,hsealed]
    exact hblocks
  · have hlow := h.building.low
    have hlt : super.iblock i < nmeta := (super_layout.inodes i hi).trans (by decide)
    have hb' : m.freeblock ≤ b := hb
    exact (update_of_ne (by omega) _ _).trans (h.building.zero b hb')
  · intro j bn
    rw [hcontents,htable,hsealed,blockOf_congr haddr]
    exact h.own j bn
  · intro j
    rw [hcontents,htable,hsealed,haddr]
    exact h.ownIndirect j
  · dsimp only
    rw [← halive k hk]
    by_cases hki : k = i
    · subst hki
      rw [hself]
      exact iff_of_true ht (Or.inl rfl)
    · rw [hdin k hk hki,h.alive k hk]
      simp only [hki,false_or]

theorem ialloc_spec (h : Good m) (hlow : rootIno ≤ m.freeinode) (hi : m.freeinode < nInodes) (type : BitVec 16)
    (ht : type ≠ 0) :
    Outcome (ialloc m type) (fun r => r.1 = m.freeinode ∧ Good r.2 ∧ r.2.contents = m.contents ∧
      r.2.freeblock = m.freeblock ∧ r.2.freeinode = m.freeinode+1) fun _ => False := by
  have hfree : ¬ (super.dinode m.disk m.freeinode).type ≠ 0 := by
    rw [h.alive _ hi]
    omega
  have hzero : table super m.disk m.freeinode = Dinode.zero := if_neg fun hc => hfree hc.2
  obtain ⟨hgood,hcont⟩ := h.rewrite (m.freeinode+1) hi {Dinode.zero with type := type, nlink := 1} ht
    (by rw [hzero]) (by rw [hzero]) fun k _ => by omega
  rw [ialloc]
  dsimp only
  rw [winode_eq hi]
  exact Outcome.ok ⟨rfl,hgood,hcont,rfl,rfl⟩

theorem AppendProgress.finish (h : Good m) (hi : rootIno ≤ i ∧ i < m.freeinode) (hlt : i < nInodes) {p : ℕ → Byte}
    {w : AppendLoop} (hw : AppendProgress (table super m.disk) m i p (m.contents i).size w) (hn : 0 < w.tot)
    (hmax : (m.contents i).size+w.tot ≤ maxFile*bSize) :
    Good {w.image with disk := super.setDinode w.image.disk i {w.din with size := BitVec.ofNat 32 w.off}} ∧
      Image.contents {w.image with disk := super.setDinode w.image.disk i {w.din with size := BitVec.ofNat 32 w.off}} =
        update m.contents i ((m.contents i).written (m.contents i).size p w.tot) := by
  have htab := h.table_eq hi hlt
  have ht : (super.dinode m.disk i).type ≠ 0 := (h.alive i hlt).mpr hi
  have hoff : w.off = (m.contents i).size+w.tot := hw.write.off_eq
  have hfields : w.din = {table super m.disk i with addrs := w.din.addrs} := hw.write.fields
  have hsize : w.din.size = (table super m.disk i).size := by rw [hfields]
  have htype : w.din.type ≠ 0 := by
    rw [hfields,htab]
    exact ht
  have hlim : maxFile*bSize = 71680 := rfl
  have hnat : (BitVec.ofNat 32 w.off).toNat = w.off := by
    rw [BitVec.toNat_ofNat]
    omega
  have hcs : (m.contents i).size = (table super m.disk i).size.toNat := rfl
  have hwr := hw.write.grow super_layout hlt (le_refl _) (fun bn hbn => (h.own i bn).mpr hbn) (by
    dsimp only
    rw [hsize]
    omega)
  dsimp only at hwr
  generalize hip : ({w.din with size := BitVec.ofNat 32 w.off} : Dinode) = ip at hwr ⊢
  have hipsize : ip.size.toNat = w.off := by
    rw [← hip]
    exact hnat
  have hiptype : ip.type ≠ 0 := by
    rw [← hip]
    exact htype
  have hipaddrs : ip.addrs = w.din.addrs := by rw [← hip]
  have hself : super.dinode (super.setDinode w.image.disk i ip) i = ip := Superblock.dinode_setDinode _
  have hdin : ∀ k < nInodes, k ≠ i → super.dinode (super.setDinode w.image.disk i ip) k = super.dinode m.disk k := by
    intro k hk hne
    rw [Superblock.dinode_setDinode_of_ne _ hne,← sealed_dinode hk,← sealed_dinode (m := m) hk]
    exact hw.write.dinodes k hk
  have htable : table super (super.setDinode w.image.disk i ip) = update (table super m.disk) i ip :=
    table_update hlt hdin (hself.symm ▸ if_neg hiptype)
  have hsealed := sealed_setDinode (m := w.image) hlt ip
  obtain ⟨-,haddr,-⟩ := hw.building.blocks.rewrite super_layout hlt ip (x := ip) (by rw [update_self,hipaddrs])
  rw [update_idem] at haddr
  have hcontents : Image.contents {w.image with disk := super.setDinode w.image.disk i ip} =
      update m.contents i ((m.contents i).written (m.contents i).size p w.tot) := by
    funext j
    rw [Image.contents,htable,hsealed]
    by_cases hj : j = i
    · subst hj
      have hdata : bytes (update (table super m.disk) j ip) (iupdate super j ip w.image.sealed) j =
          blit id (m.contents j).data (m.contents j).size w.tot p := funext hwr.written
      rw [update_self,update_self,hdata,hipsize,hoff,Inode.written,
        max_eq_right (Nat.le_add_right _ _)]
    · have hdata : bytes (update (table super m.disk) i ip) (iupdate super i ip w.image.sealed) j =
          bytes (table super m.disk) m.sealed j := funext fun o => hwr.others j o hj
      rw [update_of_ne hj,update_of_ne hj,hdata]
      rfl
  refine ⟨⟨⟨?_,fun b hb => ?_,hw.building.low,hw.building.high⟩,fun j bn => ?_,fun j => ?_,fun k hk => ?_⟩,hcontents⟩
  · rw [htable,hsealed]
    exact hwr.blocks
  · have hlow := hw.building.low
    have hblt : super.iblock i < nmeta := (super_layout.inodes i hlt).trans (by decide)
    have hb' : w.image.freeblock ≤ b := hb
    exact (update_of_ne (by omega) _ _).trans (hw.building.zero b hb')
  · dsimp only
    rw [hcontents,htable,hsealed,blockOf_congr haddr]
    by_cases hj : j = i
    · subst hj
      rw [update_self,Inode.written,max_eq_right (Nat.le_add_right _ _),← hoff]
      exact hw.own bn
    · rw [update_of_ne hj,← h.own j bn,blockOf,blockOf]
      cases hp : placeOf j bn with
      | none => exact Iff.rfl
      | some q =>
        rw [Option.bind_some,Option.bind_some,hw.other q ((placeOf_data hp).2 ▸ hj)]
  · dsimp only
    rw [hcontents,htable,hsealed,haddr]
    by_cases hj : j = i
    · subst hj
      rw [update_self,Inode.written,max_eq_right (Nat.le_add_right _ _),← hoff]
      exact hw.ownIndirect
    · rw [update_of_ne hj,← h.ownIndirect j,hw.other (.indirect j) hj]
  · dsimp only
    rw [hw.freeinode]
    by_cases hki : k = i
    · subst hki
      rw [hself]
      exact iff_of_true hiptype hi
    · rw [hdin k hk hki]
      exact h.alive k hk

/-- `iappend` writes behind the end of one file, and takes exactly the blocks that it needs. -/
theorem iappend_spec (h : Good m) (hi : rootIno ≤ i ∧ i < m.freeinode) (hlt : i < nInodes) (p : ℕ → Byte) {n : ℕ}
    (hn : 0 < n) (hmax : (m.contents i).size+n ≤ maxFile*bSize)
    (hroom : m.freeblock+blocksFor ((m.contents i).size+n) ≤ fsSize+blocksFor (m.contents i).size) :
    Outcome (iappend m i p n) (fun m' => Good m' ∧
      m'.contents = update m.contents i ((m.contents i).written (m.contents i).size p n) ∧
      m'.freeblock+blocksFor (m.contents i).size = m.freeblock+blocksFor ((m.contents i).size+n) ∧
      m'.freeinode = m.freeinode) fun _ => False := by
  rw [iappend,rinode_eq hlt,← h.table_eq hi hlt]
  have hinit := AppendProgress.init (p := p) h.building (h.own i) (h.ownIndirect i)
  refine (appendLoop_spec hmax hroom n hinit (Nat.zero_le n) (Nat.sub_le n 0)).bind ?_
  rintro w ⟨hw,rfl⟩
  rw [winode_eq hlt]
  obtain ⟨hgood,hcont⟩ := hw.finish h hi hlt hn hmax
  have hfree := hw.free
  rw [show w.off = (m.contents i).size+w.tot from hw.write.off_eq] at hfree
  exact Outcome.ok ⟨hgood,hcont,hfree,hw.freeinode⟩

end Xv6Paging.Mkfs
