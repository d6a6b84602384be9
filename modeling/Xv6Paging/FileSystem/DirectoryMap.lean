import Xv6Paging.FileSystem.DirectoryEntries

/-! # A directory is a finite map

`dirlink` and the clearing of an entry keep the names of a directory distinct. The
directory then denotes a map from names to inode numbers, which these calls change at
one name, and `dirlookup` reads it. A `dirlink` of a name that stands for the directory
itself, as `.` does, waits for a lock that its caller has.
-/
namespace Xv6Paging.Fs
open WordPage Sector SlotMap Function
variable {sb : Superblock} {start : ℕ} {s s' : FsState} {dp : ℕ}

abbrev NameMap := List Byte → Option ℕ

/-- The directory `dp` has distinct names and stores the map `m`. -/
structure Represents (sb : Superblock) (start : ℕ) (s : FsState) (dp : ℕ) (m : NameMap) : Prop where
  dir : IsDir sb start s dp
  distinct : Distinct (dirLength s dp) (dirCell sb s dp)
  denotes : Denotes (dirLength s dp) (dirCell sb s dp) m

variable {m m' : NameMap}

section
variable (h : Represents sb start s dp m)
include h

theorem Represents.congr (hdir : IsDir sb start s' dp)
    (hlen : dirLength s' dp = dirLength s dp) (hcell : dirCell sb s' dp = dirCell sb s dp) :
    Represents sb start s' dp m := by
  refine ⟨hdir,?_,?_⟩
  · rw [hlen,hcell]
    exact h.distinct
  · rw [hlen,hcell]
    exact h.denotes

theorem Represents.dirlookup (name : ℕ → Byte) (de : Dirent) :
    (Fs.dirlookup sb s dp name de = .ok (none,s) ∧ m (nameOf name) = none) ∨
    ∃ i v, Fs.dirlookup sb s dp name de = .ok (some (v,direntSize*i),s.iget v) ∧ m (nameOf name) = some v ∧
      DirBinds sb s dp i (nameOf name) v := by
  rcases h.dir.dirlookup_spec name de with ⟨hr,hnone⟩ | ⟨i,v,hr,hb,-⟩
  · exact Or.inl ⟨hr,h.denotes.eq_none_iff.mpr hnone⟩
  · exact Or.inr ⟨i,v,hr,(h.denotes _ v).mpr ⟨i,hb⟩,hb⟩

theorem Represents.dirlink_fails {name : ℕ → Byte} (hm : m (nameOf name) ≠ none)
    (hself : m (nameOf name) ≠ some dp) (inum : ℕ) (de : Dirent) :
    ∃ s', dirlink sb s dp name inum de = .ok (-1,s') ∧ Unchanged s s' := by
  rcases h.dirlookup name de with ⟨-,hnone⟩ | ⟨i,v,hr,hsome,-⟩
  · exact absurd hnone hm
  · obtain ⟨s',hput,hsame⟩ := iput_iget sb s v (some dp) (hsome ▸ hself.symm)
    refine ⟨s',?_,hsame⟩
    rw [dirlink,hr]
    dsimp only [bind,Except.bind]
    rw [hput]
    rfl

theorem Represents.dirlink_waits {name : ℕ → Byte} (hm : m (nameOf name) = some dp)
    (inum : ℕ) (de : Dirent) : dirlink sb s dp name inum de = .error .diverges := by
  rcases h.dirlookup name de with ⟨-,hnone⟩ | ⟨i,v,hr,hsome,-⟩
  · rw [hnone] at hm
    cases hm
  · obtain rfl : v = dp := Option.some.inj (hsome.symm.trans hm)
    rw [dirlink,hr]
    dsimp only [bind,Except.bind]
    rw [FsState.iput,if_pos rfl]

end

section
variable (hl : Layout sb start) (h : Represents sb start s dp m)
include hl h

/-- A new name goes into the first hole or behind the last entry. -/
theorem Represents.dirlink_spec {name : ℕ → Byte}
    (hm : m (nameOf name) = none) {inum : ℕ} (hpos : 0 < inum) (hlt : inum < 65536)
    (hroom : (s.icache dp).copy.size.toNat < maxFile*bSize) (de : Dirent) :
    Outcome (dirlink sb s dp name inum de)
      (fun r => r.1 = 0 ∧ Represents sb start r.2 dp (update m (nameOf name) (some inum)) ∧
        ∃ i de', direntCell de' = some (nameOf name,inum) ∧ i ≤ dirLength s dp ∧
          (i < dirLength s dp → dirCell sb s dp i = none) ∧ Rewritten sb dp i de' s r.2)
      fun e => OutOfBlocks e ∧ ∀ i < dirLength s dp, dirCell sb s dp i ≠ none := by
  have hds : direntSize = 16 := rfl
  have hmax : maxFile*bSize = 71680 := rfl
  have hnew : ∀ j w, ¬ DirBinds sb s dp j (nameOf name) w := h.denotes.eq_none_iff.mp hm
  have hlen : dirLength s dp ≤ (s.icache dp).copy.size.toNat := Nat.div_le_self _ _
  obtain ⟨hr,-⟩ | ⟨i,v,-,hsome,-⟩ := h.dirlookup name de
  · obtain ⟨i,de',he,hi,hhole,hbefore⟩ := h.dir.emptyDirent_spec ((s.icache dp).copy.size.toNat+1) 0 de
      (Nat.zero_le _) (by omega) fun j hj => absurd hj (Nat.not_lt_zero j)
    have hfit : direntSize*i+direntSize ≤ maxFile*bSize := by
      have hsize := h.dir.size_eq
      rw [hds] at hsize ⊢
      omega
    have hcell := direntCell_new de' name hpos hlt
    rw [Nat.mul_zero] at he
    rw [dirlink,hr]
    dsimp only [bind,Except.bind]
    rw [he]
    refine ((h.dir.write hl _ hi hfit).mono (fun _ hx => hx) ?_).bind ?_
    · rintro e ⟨hout,rfl⟩
      exact ⟨hout,hbefore⟩
    · rintro ⟨n,ip,d⟩ ⟨hn,hdir,hrw⟩
      dsimp only at hn hdir hrw ⊢
      rw [if_neg (not_not.mpr hn)]
      refine Outcome.ok ⟨rfl,⟨hdir,?_,?_⟩,i,_,hcell,hi,hhole,hrw⟩
      · rw [hrw.length,hrw.cell,hcell]
        exact h.distinct.put hi hhole hnew
      · rw [hrw.length,hrw.cell,hcell]
        exact h.denotes.put hi hhole hnew
  · rw [hm] at hsome
    cases hsome

theorem Represents.dirlink_neg {name : ℕ → Byte} {inum : ℕ}
    (hpos : 0 < inum) (hlt : inum < 65536) (hroom : (s.icache dp).copy.size.toNat < maxFile*bSize) {de : Dirent}
    (hr : dirlink sb s dp name inum de = .ok (-1,s')) : m (nameOf name) ≠ none ∧ m (nameOf name) ≠ some dp := by
  refine ⟨fun hm => ?_,fun hm => ?_⟩
  · obtain ⟨h0,-⟩ := (h.dirlink_spec hl hm hpos hlt hroom de).of_ok hr
    exact absurd h0 (show ¬ (-1 : ℤ) = 0 by decide)
  · rw [h.dirlink_waits hm] at hr
    cases hr

theorem Represents.clearDirent_spec (name : ℕ → Byte) (de : Dirent) :
    ∃ s', clearDirent sb s dp name de = .ok (m (nameOf name),s') ∧
      Represents sb start s' dp (update m (nameOf name) none) ∧
      (m (nameOf name) = none → s' = s) ∧ ∀ v, m (nameOf name) = some v →
        ∃ i, DirBinds sb s dp i (nameOf name) v ∧ Rewritten sb dp i (fun _ => 0) (s.iget v) s' := by
  rcases h.dirlookup name de with ⟨hr,hnone⟩ | ⟨i,v,hr,hsome,hb⟩
  · refine ⟨s,?_,?_,fun _ => rfl,fun v hv => ?_⟩
    · rw [clearDirent,hr,hnone]
      rfl
    · rw [← hnone,update_eq_self]
      exact h
    · rw [hnone] at hv
      cases hv
  · have hdir := h.dir.iget v
    have hlen : dirLength (s.iget v) dp = dirLength s dp := by
      rw [dirLength,dirLength,(h.dir.iget_entry v).2]
    have hcells : dirCell sb (s.iget v) dp = dirCell sb s dp := by
      funext k
      unfold dirCell direntAt dirBytes
      rw [iget_disk]
    have hfit : direntSize*i+direntSize ≤ maxFile*bSize := (h.dir.entry_le hb.1).trans h.dir.small
    have hlt : i < dirLength (s.iget v) dp := hlen ▸ hb.1
    -- the entry is inside the directory, so the write cannot fail
    have hw : Outcome _ _ fun _ => False :=
      (hdir.write hl (fun _ => 0) hlt.le hfit).mono (fun _ hx => hx) fun e he => hlt.ne he.2
    obtain ⟨⟨n,ip,d⟩,hwr,hn,hdir',hrw⟩ := Outcome.total_iff.mp hw
    refine ⟨_,?_,⟨hdir',?_,?_⟩,fun hnone => ?_,fun w hv => ?_⟩
    · rw [clearDirent,hr,hsome]
      dsimp only [bind,Except.bind]
      rw [hwr]
      dsimp only at hn ⊢
      rw [if_neg (not_not.mpr hn)]
      rfl
    · have hmaxlen : max (dirLength s dp) (i+1) = dirLength s dp := max_eq_left hb.1
      rw [hrw.length,hlen,hmaxlen,hrw.cell,hcells]
      exact h.distinct.clear
    · have hmaxlen : max (dirLength s dp) (i+1) = dirLength s dp := max_eq_left hb.1
      rw [hrw.length,hlen,hmaxlen,hrw.cell,hcells]
      exact h.denotes.clear h.distinct hb
    · rw [hnone] at hsome
      cases hsome
    · obtain rfl : v = w := Option.some.inj (hsome.symm.trans hv)
      exact ⟨i,hb,hrw⟩

end

/-- The calls on one directory, with the map that they are to produce. Whatever else happens leaves the
directory and its bytes alone. -/
inductive DirStep (sb : Superblock) (start dp : ℕ) : FsState × NameMap → FsState × NameMap → Prop
  | link {s s' : FsState} {m : NameMap} {name : ℕ → Byte} {inum : ℕ} {de : Dirent} {r : ℤ} :
      0 < inum → inum < 65536 → (s.icache dp).copy.size.toNat < maxFile*bSize →
      dirlink sb s dp name inum de = .ok (r,s') →
      DirStep sb start dp (s,m) (s',if r = 0 then update m (nameOf name) (some inum) else m)
  | clear {s s' : FsState} {m : NameMap} {name : ℕ → Byte} {de : Dirent} {r : Option ℕ} :
      clearDirent sb s dp name de = .ok (r,s') → DirStep sb start dp (s,m) (s',update m (nameOf name) none)
  | world {s s' : FsState} {m : NameMap} : IsDir sb start s' dp → dirLength s' dp = dirLength s dp →
      (∀ o, dirBytes sb s' dp o = dirBytes sb s dp o) → DirStep sb start dp (s,m) (s',m)

theorem dirCell_congr (h : ∀ o, dirBytes sb s' dp o = dirBytes sb s dp o) : dirCell sb s' dp = dirCell sb s dp := by
  funext k
  exact direntCell_congr fun j _ => h _

theorem DirStep.represents (hl : Layout sb start) (hstep : DirStep sb start dp (s,m) (s',m'))
    (h : Represents sb start s dp m) : Represents sb start s' dp m' := by
  cases hstep with
  | @link _ _ _ name inum de r hpos hlt hroom hr =>
    by_cases hm : m (nameOf name) = none
    · obtain ⟨h0,hrep,-⟩ := (h.dirlink_spec hl hm hpos hlt hroom de).of_ok hr
      rw [if_pos h0]
      exact hrep
    · have hself : m (nameOf name) ≠ some dp := fun hself => by
        rw [h.dirlink_waits hself] at hr
        cases hr
      obtain ⟨t,ht,hsame⟩ := h.dirlink_fails hm hself inum de
      rw [ht] at hr
      cases hr
      have hentry := hsame.entries dp h.dir.held.1
      have hbytes : ∀ o, dirBytes sb s' dp o = dirBytes sb s dp o := by
        intro o
        rw [dirBytes,dirBytes,hsame.disk]
      rw [if_neg (by decide)]
      refine h.congr (h.dir.congr hsame.disk ?_ ?_) ?_ (dirCell_congr hbytes)
      · rw [Held,hentry]
        exact h.dir.held
      · rw [hentry]
      · rw [dirLength,dirLength,hentry]
  | @clear _ _ _ name de r hr =>
    obtain ⟨t,ht,hrep,-⟩ := h.clearDirent_spec hl name de
    rw [ht] at hr
    cases hr
    exact hrep
  | world hdir hlen hbytes => exact h.congr hdir hlen (dirCell_congr hbytes)

theorem run_represents (hl : Layout sb start) {x y : FsState × NameMap}
    (hrun : Relation.ReflTransGen (DirStep sb start dp) x y) (h : Represents sb start x.1 dp x.2) :
    Represents sb start y.1 dp y.2 := by
  induction hrun with
  | refl => exact h
  | tail _ hstep ih => exact hstep.represents hl ih

structure LiveAt (sb : Superblock) (s : FsState) (dp i : ℕ) (name : ℕ → Byte) (v : ℕ) : Prop where
  lt : i < dirLength s dp
  inum : Dirent.inum (direntAt sb s dp i) = v
  used : v ≠ 0
  name : namecmp name (Dirent.name (direntAt sb s dp i)) = 0

theorem liveAt_iff {i v : ℕ} {name : ℕ → Byte} : LiveAt sb s dp i name v ↔ DirBinds sb s dp i (nameOf name) v := by
  rw [DirBinds,Binds,dirCell,direntCell]
  constructor
  · rintro ⟨hlt,rfl,hne,hname⟩
    rw [if_neg hne,namecmp_eq_zero.mp hname]
    exact ⟨hlt,rfl⟩
  · rintro ⟨hlt,hc⟩
    split at hc
    · cases hc
    · next hne =>
      rw [Option.some.injEq,Prod.mk.injEq] at hc
      exact ⟨hlt,hc.2,hc.2 ▸ hne,namecmp_eq_zero.mpr hc.1.symm⟩

theorem dirCell_eq_none {i : ℕ} : dirCell sb s dp i = none ↔ Dirent.inum (direntAt sb s dp i) = 0 := by
  rw [dirCell,direntCell]
  split <;> simp_all

theorem Represents.live_iff (h : Represents sb start s dp m) {name : ℕ → Byte} :
    (∃ i v, LiveAt sb s dp i name v) ↔ m (nameOf name) ≠ none := by
  rw [Ne,h.denotes.eq_none_iff]
  simp only [liveAt_iff,DirBinds]
  push Not
  rfl

theorem Represents.live_self (h : Represents sb start s dp m) {name : ℕ → Byte} :
    (∃ i, LiveAt sb s dp i name dp) ↔ m (nameOf name) = some dp := by
  simp only [liveAt_iff]
  exact (h.denotes (nameOf name) dp).symm

/-- After every sequence of `dirlink` calls and removals no two entries in use have the same name, and
`dirlookup` agrees with the map. `dirlink` fails exactly if an entry in use has the name, as long as that
entry is not one of the directory itself; for such an entry it waits for ever. -/
theorem directory_is_map (hl : Layout sb start) {s₀ : FsState} {m₀ : NameMap} (h₀ : IsDir sb start s₀ dp)
    (hdistinct : Distinct (dirLength s₀ dp) (dirCell sb s₀ dp))
    (hdenotes : Denotes (dirLength s₀ dp) (dirCell sb s₀ dp) m₀)
    (hrun : Relation.ReflTransGen (DirStep sb start dp) (s₀,m₀) (s,m)) :
    (∀ i j name v w, LiveAt sb s dp i name v → LiveAt sb s dp j name w → i = j) ∧
    (∀ name de, ∃ r s', dirlookup sb s dp name de = .ok (r,s') ∧ s'.disk = s.disk ∧
      r.map Prod.fst = m (nameOf name) ∧
      ∀ v off, r = some (v,off) → ∃ i, off = direntSize*i ∧ LiveAt sb s dp i name v) ∧
    (∀ name inum de, 0 < inum → inum < 65536 → (s.icache dp).copy.size.toNat < maxFile*bSize →
      (((∃ s', dirlink sb s dp name inum de = .ok (-1,s')) ↔ ∃ i v, LiveAt sb s dp i name v) ↔
        ∀ i, ¬ LiveAt sb s dp i name dp) ∧
      ((∃ i, LiveAt sb s dp i name dp) → dirlink sb s dp name inum de = .error .diverges) ∧
      (∀ s', dirlink sb s dp name inum de = .ok (-1,s') → Unchanged s s') ∧
      ((∀ i v, ¬ LiveAt sb s dp i name v) → Outcome (dirlink sb s dp name inum de)
        (fun r => r.1 = 0 ∧ ∃ i de', i ≤ dirLength s dp ∧
          (i < dirLength s dp → Dirent.inum (direntAt sb s dp i) = 0) ∧ Rewritten sb dp i de' s r.2 ∧
          LiveAt sb r.2 dp i name inum)
        fun e => OutOfBlocks e ∧ ∀ i < dirLength s dp, Dirent.inum (direntAt sb s dp i) ≠ 0)) ∧
    ∀ name de, ∃ s', clearDirent sb s dp name de = .ok (m (nameOf name),s') ∧
      (m (nameOf name) = none → s' = s) ∧ ∀ v, m (nameOf name) = some v →
        ∃ i, LiveAt sb s dp i name v ∧ Rewritten sb dp i (fun _ => 0) (s.iget v) s' := by
  have h := run_represents hl hrun ⟨h₀,hdistinct,hdenotes⟩
  dsimp only at h
  refine ⟨fun i j name v w hi hj => ?_,fun name de => ?_,fun name inum de hpos hlt hroom => ⟨⟨?_,?_⟩,?_,?_,?_⟩,
    fun name de => ?_⟩
  · exact h.distinct i j _ v w (liveAt_iff.mp hi) (liveAt_iff.mp hj)
  · rcases h.dirlookup name de with ⟨hr,hnone⟩ | ⟨i,v,hr,hsome,hb⟩
    · refine ⟨none,s,hr,rfl,hnone.symm,?_⟩
      rintro v off ⟨⟩
    · refine ⟨_,_,hr,iget_disk s v,hsome.symm,?_⟩
      rintro _ _ ⟨⟩
      exact ⟨i,rfl,liveAt_iff.mpr hb⟩
  · intro hiff i hi
    obtain ⟨s',hs'⟩ := hiff.mpr ⟨i,dp,hi⟩
    exact (h.dirlink_neg hl hpos hlt hroom hs').2 (h.live_self.mp ⟨i,hi⟩)
  · intro hself
    refine ⟨fun hfail => ?_,fun hlive => ?_⟩
    · obtain ⟨s',hs'⟩ := hfail
      exact h.live_iff.mpr (h.dirlink_neg hl hpos hlt hroom hs').1
    · obtain ⟨s',hs',-⟩ := h.dirlink_fails (h.live_iff.mp hlive) (fun hm => not_exists.mpr hself (h.live_self.mpr hm)) inum de
      exact ⟨s',hs'⟩
  · exact fun hself => h.dirlink_waits (h.live_self.mp hself) inum de
  · intro s' hs'
    obtain ⟨hlive,hself⟩ := h.dirlink_neg hl hpos hlt hroom hs'
    obtain ⟨t,ht,hsame⟩ := h.dirlink_fails hlive hself inum de
    rw [ht] at hs'
    cases hs'
    exact hsame
  · intro hnone
    have hm : m (nameOf name) = none := by
      by_contra hm
      obtain ⟨i,v,hlive⟩ := h.live_iff.mpr hm
      exact hnone i v hlive
    refine (h.dirlink_spec hl hm hpos hlt hroom de).mono ?_ fun e he => ⟨he.1,fun i hi h0 => ?_⟩
    · rintro ⟨r,t⟩ ⟨h0,-,i,de',hcell,hi,hhole,hrw⟩
      refine ⟨h0,i,de',hi,fun hlt => dirCell_eq_none.mp (hhole hlt),hrw,liveAt_iff.mpr ⟨?_,?_⟩⟩
      · rw [hrw.length]
        exact lt_max_of_lt_right (Nat.lt_succ_self i)
      · rw [hrw.cell,update_self,hcell]
    · exact he.2 i hi (dirCell_eq_none.mpr h0)
  · obtain ⟨s',hs',-,hsame,hrw⟩ := h.clearDirent_spec hl name de
    refine ⟨s',hs',hsame,fun v hv => ?_⟩
    obtain ⟨i,hb,hi⟩ := hrw v hv
    exact ⟨i,liveAt_iff.mpr hb,hi⟩

theorem Consistent.isDir (h : Consistent sb start s) (hheld : Held s dp) (htype : (s.icache dp).copy.type = tDir)
    (hentries : (s.icache dp).copy.size.toNat%direntSize = 0)
    (hsmall : (s.icache dp).copy.size.toNat ≤ maxFile*bSize) : IsDir sb start s dp := by
  obtain ⟨hi,hcopy,-,htab⟩ := h.held hheld
  refine ⟨h.blocks,hi,hheld,hcopy,htype,fun bn hbn => h.full dp bn ?_,hentries,hsmall⟩
  rw [htab]
  exact hbn

def nameA (k : ℕ) : Byte := if k = 0 then 97 else 0

def nameDot (k : ℕ) : Byte := if k = 0 then 46 else 0

def linksFirst (name : ℕ → Byte) (inum : ℕ) (t : FsState) : Bool :=
  decide ((0 < (t.icache 1).ref ∧ (t.icache 1).valid = true) ∧ (t.icache 1).copy.type = tDir ∧
    (t.icache 1).copy.size.toNat = 0 ∧ (dirlink sampleSuper t 1 name inum fun _ => 0).toOption.map Prod.fst = some 0)

theorem newDirectory_link (name : ℕ → Byte) (inum : ℕ) (hpos : 0 < inum) (hlt : inum < 65536)
    (hrun : (Runs.exec (step sampleSuper) (Allowed sampleSuper) [.ialloc tDir,.ilock 1] sampleState).map
      (linksFirst name inum) = some true) :
    ∃ s₀ s, Represents sampleSuper 4 s₀ 1 (fun _ => none) ∧ DirStep sampleSuper 4 1 (s₀,fun _ => none)
      (s,update (fun _ => none) (nameOf name) (some inum)) := by
  obtain ⟨s₀,hs₀,hf⟩ := Runs.exists_reaches hrun
  obtain ⟨hheld,htype,hsize,hlink⟩ := of_decide_eq_true hf
  have hdir := (sample_consistent.reaches sample_layout hs₀).isDir hheld htype (by rw [hsize]; rfl)
    (by rw [hsize]; exact Nat.zero_le _)
  have hlen : dirLength s₀ 1 = 0 := by rw [dirLength,hsize]; rfl
  obtain ⟨s,hs⟩ : ∃ s, dirlink sampleSuper s₀ 1 name inum (fun _ => 0) = .ok (0,s) := by
    cases hx : dirlink sampleSuper s₀ 1 name inum (fun _ => 0) with
    | error e =>
      rw [hx] at hlink
      cases hlink
    | ok x =>
      obtain ⟨r,s⟩ := x
      rw [hx] at hlink
      cases hlink
      exact ⟨s,rfl⟩
  have hroom : (s₀.icache 1).copy.size.toNat < maxFile*bSize := by rw [hsize]; decide
  have hempty : ∀ i k v, ¬ Binds (dirLength s₀ 1) (dirCell sampleSuper s₀ 1) i k v := by
    intro i k v hb
    rw [hlen] at hb
    exact Nat.not_lt_zero i hb.1
  have hdenotes : Denotes (dirLength s₀ 1) (dirCell sampleSuper s₀ 1) fun _ => none := by
    intro k v
    constructor
    · rintro ⟨⟩
    · rintro ⟨i,hb⟩
      exact absurd hb (hempty i k v)
  exact ⟨s₀,s,⟨hdir,fun i j k v w hb => absurd hb (hempty i k v),hdenotes⟩,.link hpos hlt hroom hs⟩

theorem directory_is_map_newDirectory : ∃ s₀ s m, IsDir sampleSuper 4 s₀ 1 ∧
    Relation.ReflTransGen (DirStep sampleSuper 4 1) (s₀,fun _ => none) (s,m) ∧
      ∃ off s', dirlookup sampleSuper s 1 nameA (fun _ => 0) = .ok (some (2,off),s') := by
  obtain ⟨s₀,s,hrep,hstep⟩ := newDirectory_link nameA 2 (by decide) (by decide) (by decide +kernel)
  have hmap := directory_is_map sample_layout hrep.dir hrep.distinct hrep.denotes (.single hstep)
  obtain ⟨r,s',hr,-,hval,-⟩ := hmap.2.1 nameA fun _ => 0
  rw [update_self] at hval
  obtain ⟨⟨v,off⟩,rfl,rfl⟩ := Option.map_eq_some_iff.mp hval
  exact ⟨s₀,s,_,hrep.dir,.single hstep,off,s',hr⟩

/-- A directory that has its entry `.`: linking another inode under that name does not return. -/
theorem dirlink_self_waits : ∃ s₀ s m i, IsDir sampleSuper 4 s₀ 1 ∧
    Relation.ReflTransGen (DirStep sampleSuper 4 1) (s₀,fun _ => none) (s,m) ∧ LiveAt sampleSuper s 1 i nameDot 1 ∧
      dirlink sampleSuper s 1 nameDot 2 (fun _ => 0) = .error .diverges := by
  obtain ⟨s₀,s,hrep,hstep⟩ := newDirectory_link nameDot 1 (by decide) (by decide) (by decide +kernel)
  have h := hstep.represents sample_layout hrep
  obtain ⟨i,hi⟩ := h.live_self.mpr (update_self ..)
  exact ⟨s₀,s,_,i,hrep.dir,.single hstep,hi,h.dirlink_waits (update_self ..) 2 _⟩

end Xv6Paging.Fs
