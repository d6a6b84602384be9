import Xv6Paging.FileSystem.Consistency
import Xv6Paging.FileSystem.Directory
import Xv6Paging.Library.SlotMap

/-! # The entries of a directory

A name is the C string of at most `DIRSIZ` bytes behind a pointer: `strncmp` compares these
strings and `strncpy` copies them. The bytes of a directory are an array of cells that
bind names to inode numbers. `dirlookup` finds the first cell with a name, and `writei`
at the offset of an entry rewrites one cell.
-/
namespace Xv6Paging.Fs
open WordPage Sector SlotMap Function

section Names
variable {p q s t : ℕ → Byte}

def cstr (p : ℕ → Byte) : ℕ → List Byte
  | 0 => []
  | n+1 => if p 0 = 0 then [] else p 0 :: cstr (rest p) n

def nameOf (p : ℕ → Byte) : List Byte := cstr p dirSiz

theorem cstr_congr {n : ℕ} (h : ∀ k < n, p k = q k) : cstr p n = cstr q n := by
  induction n generalizing p q with
  | zero => rfl
  | succ n ih =>
    have hrest : cstr (rest p) n = cstr (rest q) n := ih fun k hk => h (k+1) (Nat.succ_lt_succ hk)
    rw [cstr,cstr,h 0 (Nat.succ_pos n),hrest]

theorem cstr_push (b : Byte) (s : ℕ → Byte) (n : ℕ) : cstr (push b s) (n+1) = if b = 0 then [] else b :: cstr s n := rfl

/-- The strings compare equal exactly if their first `n` bytes are the same string. -/
theorem strncmp_eq_zero {n : ℕ} : strncmp p q n = 0 ↔ cstr p n = cstr q n := by
  induction n generalizing p q with
  | zero => simp [strncmp,cstr]
  | succ n ih =>
    rw [strncmp,cstr,cstr]
    by_cases hp : p 0 = 0
    · rw [if_neg fun h => h.1 hp,if_pos hp,hp]
      by_cases hq : q 0 = 0
      · simp [hq]
      · have hne : (q 0).toNat ≠ 0 := fun h => hq (BitVec.eq_of_toNat_eq h)
        have hsub : ((0#8 : Byte).toNat : ℤ)-(q 0).toNat ≠ 0 := by
          rw [BitVec.toNat_ofNat]
          omega
        rw [if_neg hq]
        exact iff_of_false hsub (List.cons_ne_nil _ _).symm
    · rw [if_neg hp]
      by_cases hpq : p 0 = q 0
      · rw [if_pos ⟨hp,hpq⟩,if_neg (hpq ▸ hp),ih,← hpq,List.cons_inj_right]
      · have hne : (p 0).toNat ≠ (q 0).toNat := fun h => hpq (BitVec.eq_of_toNat_eq h)
        rw [if_neg fun h => hpq h.2]
        constructor
        · intro h
          omega
        · split
          · rintro ⟨⟩
          · intro h
            exact absurd (List.cons.inj h).1 hpq

theorem namecmp_eq_zero : namecmp p q = 0 ↔ nameOf p = nameOf q := strncmp_eq_zero

theorem cstr_strncpy (n : ℕ) : cstr (strncpy s t n) n = cstr t n := by
  induction n generalizing s t with
  | zero => rfl
  | succ n ih =>
    rw [strncpy,cstr_push,cstr]
    by_cases ht : t 0 = 0
    · rw [if_pos ht,if_pos ht]
    · rw [if_neg ht,if_neg ht,if_pos ht,ih]

end Names

section Cells

def direntCell (de : Dirent) : Option (List Byte × ℕ) :=
  if Dirent.inum de = 0 then none else some (nameOf (Dirent.name de),Dirent.inum de)

theorem direntCell_congr {de de' : Dirent} (h : ∀ k < direntSize, de k = de' k) : direntCell de = direntCell de' := by
  have hname : nameOf (Dirent.name de) = nameOf (Dirent.name de') :=
    cstr_congr fun k hk => h (k+2) (Nat.add_lt_add_right hk 2)
  have hinum : Dirent.inum de = Dirent.inum de' := by
    rw [Dirent.inum,Dirent.inum,h 0 (by decide),h 1 (by decide)]
  rw [direntCell,direntCell,hname,hinum]

theorem direntCell_new (de : Dirent) (name : ℕ → Byte) {inum : ℕ} (hpos : 0 < inum) (hlt : inum < 65536) :
    direntCell ((Dirent.setName de (strncpy (Dirent.name de) name dirSiz)).setInum inum) = some (nameOf name,inum) := by
  have hinum : Dirent.inum ((Dirent.setName de (strncpy (Dirent.name de) name dirSiz)).setInum inum) = inum := by
    change (BitVec.ofNat 8 inum).toNat+256*(BitVec.ofNat 8 (inum/256)).toNat = inum
    rw [BitVec.toNat_ofNat,BitVec.toNat_ofNat]
    omega
  have hname : nameOf (Dirent.name ((Dirent.setName de (strncpy (Dirent.name de) name dirSiz)).setInum inum)) =
      nameOf name := cstr_strncpy dirSiz
  rw [direntCell,hinum,if_neg hpos.ne',hname]

end Cells

variable {sb : Superblock} {start : ℕ} {s s' : FsState} {dp : ℕ}

structure IsDir (sb : Superblock) (start : ℕ) (s : FsState) (dp : ℕ) : Prop where
  blocks : Blocks sb start (table sb s.disk) s.disk ∅
  inum : dp < sb.ninodes
  held : Held s dp
  copy : (s.icache dp).copy = sb.dinode s.disk dp
  type : (s.icache dp).copy.type = tDir
  full : ∀ bn, bn*bSize < (s.icache dp).copy.size.toNat → blockOf (table sb s.disk) s.disk dp bn ≠ none
  entries : (s.icache dp).copy.size.toNat%direntSize = 0
  small : (s.icache dp).copy.size.toNat ≤ maxFile*bSize

def dirBytes (sb : Superblock) (s : FsState) (dp o : ℕ) : Byte := bytes (table sb s.disk) s.disk dp o

def dirLength (s : FsState) (dp : ℕ) : ℕ := (s.icache dp).copy.size.toNat/direntSize

def direntAt (sb : Superblock) (s : FsState) (dp k : ℕ) : Dirent := fun j => dirBytes sb s dp (direntSize*k+j)

def dirCell (sb : Superblock) (s : FsState) (dp k : ℕ) : Option (List Byte × ℕ) := direntCell (direntAt sb s dp k)

def DirBinds (sb : Superblock) (s : FsState) (dp i : ℕ) (name : List Byte) (inum : ℕ) : Prop :=
  Binds (dirLength s dp) (dirCell sb s dp) i name inum

namespace IsDir

theorem table_eq (h : IsDir sb start s dp) : table sb s.disk dp = (s.icache dp).copy := by
  rw [table_of_live h.inum,h.copy]
  rw [← h.copy,h.type]
  decide

theorem size_eq (h : IsDir sb start s dp) : (s.icache dp).copy.size.toNat = direntSize*dirLength s dp := by
  have hmod := h.entries
  have hdiv := Nat.div_add_mod (s.icache dp).copy.size.toNat direntSize
  rw [hmod] at hdiv
  exact hdiv.symm

theorem entry_le (h : IsDir sb start s dp) {k : ℕ} (hk : k < dirLength s dp) :
    direntSize*k+direntSize ≤ (s.icache dp).copy.size.toNat := by
  rw [h.size_eq,← Nat.mul_succ]
  exact Nat.mul_le_mul_left _ hk

theorem read (h : IsDir sb start s dp) {k : ℕ} (hk : k < dirLength s dp) (de : Dirent) :
    readi sb (s.icache dp).copy de (direntSize*k) direntSize s.disk = .ok ((direntSize : ℤ),
      blit id de 0 direntSize (direntAt sb s dp k),(s.icache dp).copy,s.disk) := by
  have hsmall := h.small
  have hle := h.entry_le hk
  have hmax : maxFile*bSize = 71680 := rfl
  have hall : ∀ bn, bn*bSize < min (direntSize*k+direntSize) (table sb s.disk dp).size.toNat →
      blockOf (table sb s.disk) s.disk dp bn ≠ none := by
    intro bn hbn
    rw [h.table_eq] at hbn
    exact h.full bn (hbn.trans_le (min_le_right _ _))
  have hr : readi sb (table sb s.disk dp) de (direntSize*k) direntSize s.disk = _ :=
    readi_spec de hall (by omega) (by decide)
  rw [h.table_eq,if_neg (by omega),min_eq_left (by omega),Nat.add_sub_cancel_left] at hr
  exact hr

theorem cell_read (de : Dirent) (k : ℕ) :
    direntCell (blit id de 0 direntSize (direntAt sb s dp k)) = dirCell sb s dp k :=
  direntCell_congr fun j hj => by
    rw [blit,id,if_pos ⟨Nat.zero_le j,by omega⟩,Nat.sub_zero]

theorem read_none {de : Dirent} {k : ℕ} (h : dirCell sb s dp k = none) :
    Dirent.inum (blit id de 0 direntSize (direntAt sb s dp k)) = 0 := by
  rw [← cell_read de k,direntCell] at h
  by_contra hne
  rw [if_neg hne] at h
  cases h

theorem read_some (de : Dirent) {k v : ℕ} {name : List Byte} (h : dirCell sb s dp k = some (name,v)) :
    Dirent.inum (blit id de 0 direntSize (direntAt sb s dp k)) = v ∧ v ≠ 0 ∧
      nameOf (Dirent.name (blit id de 0 direntSize (direntAt sb s dp k))) = name := by
  rw [← cell_read de k,direntCell] at h
  split at h
  · cases h
  · next hne =>
    rw [Option.some.injEq,Prod.mk.injEq] at h
    exact ⟨h.2,h.2 ▸ hne,h.1⟩

section
variable (h : IsDir sb start s dp)
include h

theorem offset_succ {k : ℕ} (hk : k < dirLength s dp) : (direntSize*k+direntSize)%2^32 = direntSize*(k+1) := by
  have hsmall := h.small
  have hle := h.entry_le hk
  have hmax : maxFile*bSize = 71680 := rfl
  rw [Nat.mul_succ]
  exact Nat.mod_eq_of_lt (by omega)

theorem offset_lt_iff {k : ℕ} : direntSize*k < (s.icache dp).copy.size.toNat ↔ k < dirLength s dp := by
  rw [h.size_eq]
  exact Nat.mul_lt_mul_left (by decide)

/-- The loop of `dirlookup` from entry `k` on, where no earlier entry has the name. -/
theorem dirlookupLoop_spec (name : ℕ → Byte) (fuel k : ℕ) (de : Dirent)
    (hk : k ≤ dirLength s dp) (hfuel : dirLength s dp < fuel+k)
    (hbefore : ∀ j < k, ∀ v, ¬ DirBinds sb s dp j (nameOf name) v) :
    (dirlookupLoop sb dp name fuel s de (direntSize*k) = .ok (none,s) ∧
      ∀ j v, ¬ DirBinds sb s dp j (nameOf name) v) ∨
    ∃ i v, dirlookupLoop sb dp name fuel s de (direntSize*k) = .ok (some (v,direntSize*i),s.iget v) ∧
      DirBinds sb s dp i (nameOf name) v ∧ ∀ j < i, ∀ w, ¬ DirBinds sb s dp j (nameOf name) w := by
  induction fuel generalizing k de with
  | zero => omega
  | succ fuel ih =>
    rw [dirlookupLoop]
    by_cases hlt : k < dirLength s dp
    · have hnext : (∀ v, ¬ DirBinds sb s dp k (nameOf name) v) →
          ∀ j < k+1, ∀ v, ¬ DirBinds sb s dp j (nameOf name) v := by
        intro hhere j hj
        rcases Nat.lt_succ_iff_lt_or_eq.mp hj with hj | rfl
        · exact hbefore j hj
        · exact hhere
      rw [if_pos (h.offset_lt_iff.mpr hlt),h.read hlt de]
      dsimp only [bind,Except.bind]
      rw [if_neg (not_not.mpr rfl),store_self,h.offset_succ hlt]
      cases hc : dirCell sb s dp k with
      | none =>
        rw [if_pos (read_none hc)]
        refine ih (k+1) _ hlt (by omega) (hnext fun v hb => ?_)
        rw [hb.2] at hc
        cases hc
      | some x =>
        obtain ⟨nm,v⟩ := x
        obtain ⟨hinum,hv,hname⟩ := read_some de hc
        rw [hinum,if_neg hv]
        by_cases hcmp : nameOf name = nm
        · rw [if_pos (namecmp_eq_zero.mpr (hcmp.trans hname.symm))]
          exact Or.inr ⟨k,v,rfl,⟨hlt,hcmp.symm ▸ hc⟩,hbefore⟩
        · rw [if_neg fun hz => hcmp ((namecmp_eq_zero.mp hz).trans hname)]
          refine ih (k+1) _ hlt (by omega) (hnext fun w hb => hcmp ?_)
          have he := hb.2.symm.trans hc
          rw [Option.some.injEq,Prod.mk.injEq] at he
          exact he.1
    · rw [if_neg fun hc => hlt (h.offset_lt_iff.mp hc)]
      refine Or.inl ⟨rfl,fun j v hb => hbefore j ?_ v hb⟩
      exact hb.1.trans_le (not_lt.mp hlt)

/-- `dirlookup` finds the first entry with the name. -/
theorem dirlookup_spec (name : ℕ → Byte) (de : Dirent) :
    (dirlookup sb s dp name de = .ok (none,s) ∧ ∀ j v, ¬ DirBinds sb s dp j (nameOf name) v) ∨
    ∃ i v, dirlookup sb s dp name de = .ok (some (v,direntSize*i),s.iget v) ∧
      DirBinds sb s dp i (nameOf name) v ∧ ∀ j < i, ∀ w, ¬ DirBinds sb s dp j (nameOf name) w := by
  have hlen : dirLength s dp ≤ (s.icache dp).copy.size.toNat := Nat.div_le_self _ _
  have hloop := h.dirlookupLoop_spec name ((s.icache dp).copy.size.toNat+1) 0 de (Nat.zero_le _)
    (by omega) fun j hj => absurd hj (Nat.not_lt_zero j)
  rw [dirlookup,if_neg (not_not.mpr h.type)]
  exact hloop

theorem emptyDirent_spec (fuel k : ℕ) (de : Dirent) (hk : k ≤ dirLength s dp)
    (hfuel : dirLength s dp < fuel+k) (hbefore : ∀ j < k, dirCell sb s dp j ≠ none) :
    ∃ i de', emptyDirent sb dp fuel s de (direntSize*k) = .ok (direntSize*i,de',s) ∧ i ≤ dirLength s dp ∧
      (i < dirLength s dp → dirCell sb s dp i = none) ∧ ∀ j < i, dirCell sb s dp j ≠ none := by
  induction fuel generalizing k de with
  | zero => omega
  | succ fuel ih =>
    rw [emptyDirent]
    by_cases hlt : k < dirLength s dp
    · rw [if_pos (h.offset_lt_iff.mpr hlt),h.read hlt de]
      dsimp only [bind,Except.bind]
      rw [if_neg (not_not.mpr rfl),store_self,h.offset_succ hlt]
      cases hc : dirCell sb s dp k with
      | none =>
        rw [if_pos (read_none hc)]
        exact ⟨k,_,rfl,hk,fun _ => hc,hbefore⟩
      | some x =>
        obtain ⟨nm,v⟩ := x
        obtain ⟨hinum,hv,-⟩ := read_some de hc
        rw [hinum,if_neg hv]
        refine ih (k+1) _ hlt (by omega) fun j hj => ?_
        rcases Nat.lt_succ_iff_lt_or_eq.mp hj with hj | rfl
        · exact hbefore j hj
        · rw [hc]
          exact Option.some_ne_none _
    · rw [if_neg fun hc => hlt (h.offset_lt_iff.mp hc)]
      exact ⟨k,de,rfl,hk,fun hc => absurd hc hlt,hbefore⟩

end

end IsDir

structure Rewritten (sb : Superblock) (dp i : ℕ) (de : Dirent) (s s' : FsState) : Prop where
  length : dirLength s' dp = max (dirLength s dp) (i+1)
  bytes : ∀ o, dirBytes sb s' dp o = blit id (dirBytes sb s dp) (direntSize*i) direntSize de o
  others : ∀ j, j ≠ dp → s'.icache j = s.icache j

theorem Rewritten.cell {i : ℕ} {de : Dirent} (h : Rewritten sb dp i de s s') :
    dirCell sb s' dp = update (dirCell sb s dp) i (direntCell de) := by
  have hds : direntSize = 16 := rfl
  funext k
  by_cases hk : k = i
  · subst hk
    rw [update_self,dirCell]
    refine direntCell_congr fun j hj => ?_
    rw [direntAt,h.bytes,blit,id,if_pos ⟨Nat.le_add_right _ _,by omega⟩,Nat.add_sub_cancel_left]
  · rw [update_of_ne hk,dirCell]
    refine direntCell_congr fun j hj => ?_
    rw [direntAt,direntAt,h.bytes,blit,id,if_neg]
    rw [hds] at hj ⊢
    omega

namespace IsDir

theorem store (h : IsDir sb start s dp) {i : ℕ} {de : Dirent}
    (hroom : direntSize*i+direntSize ≤ maxFile*bSize) {r : ℤ × Dinode × Disk}
    (hr : Written sb start (table sb s.disk) s.disk dp de (direntSize*i) direntSize r) :
    r.1 = direntSize ∧ IsDir sb start (s.store dp r.2.1 r.2.2) dp ∧
      Rewritten sb dp i de s (s.store dp r.2.1 r.2.2) := by
  obtain ⟨n,ip,d⟩ := r
  have hcount := hr.count
  have hfields := hr.fields
  have hdin := hr.dinode
  dsimp only at hcount hfields hdin ⊢
  have hmax : maxFile*bSize = 71680 := rfl
  have hsmall := h.small
  rw [h.table_eq] at hfields
  have htype : ip.type = tDir := by
    rw [hfields]
    exact h.type
  have hsize : ip.size.toNat = direntSize*max (dirLength s dp) (i+1) := by
    rw [hfields,BitVec.toNat_ofNat,h.size_eq,← Nat.mul_succ,← Nat.mul_max_mul_left]
    refine Nat.mod_eq_of_lt (lt_of_le_of_lt (max_le ?_ ?_) (show 71680 < 2^32 by decide))
    · rw [← h.size_eq]
      exact hsmall
    · exact hroom
  have hbound : direntSize*max (dirLength s dp) (i+1) ≤ maxFile*bSize := by
    rw [← Nat.mul_max_mul_left,← h.size_eq]
    exact max_le hsmall hroom
  have hentry : (s.store dp ip d).icache dp = {s.icache dp with copy := ip} := update_self ..
  have htable : table sb d = update (table sb s.disk) dp ip := by
    refine table_update h.inum hr.dinodes ?_
    rw [hdin,htype]
    exact if_neg (by decide)
  refine ⟨hcount,⟨?_,h.inum,?_,?_,?_,?_,?_,?_⟩,?_,?_,fun j hj => update_of_ne hj _ _⟩
  · change Blocks sb start (table sb d) d ∅
    rw [htable]
    exact hr.blocks
  · rw [Held,hentry]
    exact h.held
  · rw [hentry]
    exact hdin.symm
  · rw [hentry]
    exact htype
  · rw [hentry]
    intro bn hbn
    change blockOf (table sb d) d dp bn ≠ none
    rw [htable]
    refine hr.full bn ?_
    rw [h.table_eq,h.size_eq,← Nat.mul_succ,Nat.mul_max_mul_left,← hsize]
    exact hbn
  · rw [hentry,hsize]
    exact Nat.mul_mod_right _ _
  · rw [hentry,hsize]
    exact hbound
  · rw [dirLength,hentry,hsize]
    exact Nat.mul_div_cancel_left _ (by decide)
  · intro o
    change bytes (table sb d) d dp o = _
    rw [htable]
    exact hr.written o

theorem write (hl : Layout sb start) (h : IsDir sb start s dp) {i : ℕ} (de : Dirent) (hi : i ≤ dirLength s dp)
    (hroom : direntSize*i+direntSize ≤ maxFile*bSize) :
    Outcome (writei sb dp (s.icache dp).copy de (direntSize*i) direntSize s.disk)
      (fun r => r.1 = direntSize ∧ IsDir sb start (s.store dp r.2.1 r.2.2) dp ∧
        Rewritten sb dp i de s (s.store dp r.2.1 r.2.2))
      fun e => OutOfBlocks e ∧ i = dirLength s dp := by
  have hoff : direntSize*i ≤ (table sb s.disk dp).size.toNat := by
    rw [h.table_eq,h.size_eq]
    exact Nat.mul_le_mul_left _ hi
  have hfull : ∀ bn, bn*bSize < (table sb s.disk dp).size.toNat → blockOf (table sb s.disk) s.disk dp bn ≠ none := by
    rw [h.table_eq]
    exact h.full
  have hw : Outcome (writei sb dp (table sb s.disk dp) de (direntSize*i) direntSize s.disk) _ OutOfBlocks :=
    writei_spec hl h.blocks h.inum (h.copy.symm.trans h.table_eq.symm) hfull hoff hroom
  rcases Nat.lt_or_eq_of_le hi with hlt | rfl
  · have hle : direntSize*i+direntSize ≤ (table sb s.disk dp).size.toNat := by
      rw [h.table_eq]
      exact h.entry_le hlt
    obtain ⟨r,hr⟩ := writei_inside hl h.blocks hfull hle hroom
    have hres := h.store hroom (hw.of_ok hr)
    rw [h.table_eq] at hr
    rw [hr]
    exact Outcome.ok hres
  · rw [h.table_eq] at hw
    exact hw.mono (fun r hr => h.store hroom hr) fun e he => ⟨he,rfl⟩

end IsDir

section References
variable (s) (i : ℕ)

theorem setEntry_self (e : CachedInode) : (s.setEntry i e).icache i = e := update_self ..

theorem setEntry_of_ne (e : CachedInode) {j : ℕ} (hj : j ≠ i) : (s.setEntry i e).icache j = s.icache j :=
  update_of_ne hj _ _

@[simp] theorem iget_disk : (s.iget i).disk = s.disk := by
  rw [FsState.iget]
  split <;> rfl

theorem iget_of_ne {j : ℕ} (hj : j ≠ i) : (s.iget i).icache j = s.icache j := by
  rw [FsState.iget]
  split <;> exact setEntry_of_ne s i _ hj

theorem iget_of_pos (hr : 0 < (s.icache i).ref) :
    (s.iget i).icache i = {s.icache i with ref := (s.icache i).ref+1} := by
  rw [FsState.iget,if_pos hr]
  exact setEntry_self s i _

theorem iget_of_zero (hr : (s.icache i).ref = 0) :
    (s.iget i).icache i = {s.icache i with ref := 1, valid := false} := by
  rw [FsState.iget,if_neg (by omega)]
  exact setEntry_self s i _

end References

structure Unchanged (s s' : FsState) : Prop where
  disk : s'.disk = s.disk
  refs : ∀ j, (s'.icache j).ref = (s.icache j).ref
  entries : ∀ j, 0 < (s.icache j).ref → s'.icache j = s.icache j

theorem iput_iget (sb : Superblock) (s : FsState) (i : ℕ) (holds : Option ℕ) (hi : holds ≠ some i) :
    ∃ s', (s.iget i).iput sb holds i = .ok s' ∧ Unchanged s s' := by
  have hkeep : ¬ ((((s.iget i).icache i).valid = true) ∧ ((s.iget i).icache i).copy.nlink = 0 ∧
      ((s.iget i).icache i).ref = 1) := by
    rintro ⟨hvalid,-,href⟩
    by_cases hr : 0 < (s.icache i).ref
    · rw [iget_of_pos s i hr] at href
      dsimp only at href
      omega
    · rw [iget_of_zero s i (by omega)] at hvalid
      cases hvalid
  rw [FsState.iput,if_neg hi,if_neg hkeep]
  refine ⟨_,rfl,iget_disk s i,fun j => ?_,fun j hj => ?_⟩
  · by_cases hji : j = i
    · subst hji
      rw [setEntry_self]
      by_cases hr : 0 < (s.icache j).ref
      · rw [iget_of_pos s j hr]
        rfl
      · have hzero : (s.icache j).ref = 0 := by omega
        rw [iget_of_zero s j hzero,hzero]
        rfl
    · rw [setEntry_of_ne _ _ _ hji,iget_of_ne s i hji]
  · by_cases hji : j = i
    · subst hji
      rw [setEntry_self,iget_of_pos s j hj]
      rfl
    · rw [setEntry_of_ne _ _ _ hji,iget_of_ne s i hji]

namespace IsDir

theorem congr (h : IsDir sb start s dp) (hdisk : s'.disk = s.disk) (hheld : Held s' dp)
    (hcopy : (s'.icache dp).copy = (s.icache dp).copy) : IsDir sb start s' dp := by
  refine ⟨?_,h.inum,hheld,?_,?_,?_,?_,?_⟩
  · rw [hdisk]
    exact h.blocks
  · rw [hcopy,hdisk]
    exact h.copy
  · rw [hcopy]
    exact h.type
  · rw [hcopy,hdisk]
    exact h.full
  · rw [hcopy]
    exact h.entries
  · rw [hcopy]
    exact h.small

theorem iget_entry (h : IsDir sb start s dp) (inum : ℕ) :
    Held (s.iget inum) dp ∧ ((s.iget inum).icache dp).copy = (s.icache dp).copy := by
  by_cases hd : dp = inum
  · subst hd
    rw [Held,iget_of_pos s dp h.held.1]
    exact ⟨⟨Nat.succ_pos _,h.held.2⟩,rfl⟩
  · rw [Held,iget_of_ne s inum hd]
    exact ⟨h.held,rfl⟩

theorem iget (h : IsDir sb start s dp) (inum : ℕ) : IsDir sb start (s.iget inum) dp :=
  h.congr (iget_disk s inum) (h.iget_entry inum).1 (h.iget_entry inum).2

end IsDir

end Xv6Paging.Fs
