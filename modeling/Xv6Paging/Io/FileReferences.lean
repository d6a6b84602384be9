import Xv6Paging.Io.FileTable
import Xv6Paging.Library.Outcome

/-! # References to open files

The count of a file is the number of descriptors that point to it plus the references that
running kernel code holds. Every function of the file table moves references between these
places or creates and drops the ones it holds, so each has a specification in terms of the
second number. Between calls only the swap files are held that way.
-/
namespace Xv6Paging.Files
open Process Occurrences Function

def FileTable.isOpen (s : FileTable) (k : ℕ) (writable : Bool) : Bool :=
  if writable then s.writeopen k else s.readopen k

structure Counted (s : FileTable) (held : FileSlot → ℕ) : Prop where
  ref : ∀ f, (s.files f).ref = s.refs f+held f
  idle : ∀ f, (s.files f).ref = 0 → (s.files f).type = .none
  swap : ∀ f, s.swap f = true → (s.files f).type = .inode ∧ 0 < held f
  isOpen : ∀ k w, s.isOpen k w = true ↔ ∃ f, (s.files f).type = .pipe k w
  ends : ∀ f g k w, (s.files f).type = .pipe k w → (s.files g).type = .pipe k w → f = g
  fresh : ∀ k w, s.npipes ≤ k → s.isOpen k w = false
  freed : ∀ k, s.freed k = if k < s.npipes ∧ s.isOpen k false = false ∧ s.isOpen k true = false then 1 else 0
  dead : ∀ p fd, s.live p = false → s.ofile (p,fd) = none

structure SameHolders (s t : FileTable) : Prop where
  ofile : t.ofile = s.ofile
  live : t.live = s.live
  swap : t.swap = s.swap

def more (held : FileSlot → ℕ) (f g : FileSlot) : ℕ := held g+one f g

theorem more_self (held : FileSlot → ℕ) (f : FileSlot) : more held f f = held f+1 := by rw [more,one_self]

theorem more_of_ne {held : FileSlot → ℕ} {f g : FileSlot} (h : f ≠ g) : more held f g = held g := by
  rw [more,one_of_ne h,Nat.add_zero]

theorem more_comm (held : FileSlot → ℕ) (f g : FileSlot) : more (more held f) g = more (more held g) f := by
  funext x
  exact Nat.add_right_comm (held x) (one f x) (one g x)

theorem nodup_descriptors : descriptors.Nodup := (List.nodup_finRange 64).product (List.nodup_finRange 16)

theorem mem_descriptors (d : Descriptor) : d ∈ descriptors :=
  List.pair_mem_product.mpr ⟨List.mem_finRange d.1,List.mem_finRange d.2⟩

namespace FileTable
variable {s t : FileTable} {f g : FileSlot} {d : Descriptor}

theorem refs_setFd (o : Option FileSlot) : (s.setFd d o).refs f+one (s.ofile d) (some f) = s.refs f+one o (some f) :=
  occurrences_update nodup_descriptors (mem_descriptors d) o (some f)

theorem refs_pos (h : s.ofile d = some f) : 0 < s.refs f := occurrences_pos (mem_descriptors d) h

theorem refs_congr (h : t.ofile = s.ofile) : t.refs f = s.refs f := by rw [refs,refs,h]

theorem setFile_self (x : File) : (s.setFile f x).files f = x := by
  unfold setFile
  exact update_self f x s.files

theorem setFile_of_ne (x : File) (h : f ≠ g) : (s.setFile f x).files g = s.files g := by
  unfold setFile
  exact update_of_ne (Ne.symm h) x s.files

theorem filealloc_some (h : s.filealloc = some (f,t)) :
    (s.files f).ref = 0 ∧ t = s.setFile f ⟨1,(s.files f).type⟩ := by
  obtain ⟨i,hi,he⟩ := Option.map_eq_some_iff.mp h
  obtain ⟨rfl,rfl⟩ := Prod.mk.inj he
  have htest := List.find?_some hi
  exact ⟨of_decide_eq_true htest,rfl⟩

theorem fdalloc_some {p : ProcSlot} {fd : Fin 16} (h : s.fdalloc p f = some (fd,t)) :
    s.ofile (p,fd) = none ∧ t = s.setFd (p,fd) (some f) := by
  obtain ⟨i,hi,he⟩ := Option.map_eq_some_iff.mp h
  obtain ⟨rfl,rfl⟩ := Prod.mk.inj he
  have htest := List.find?_some hi
  exact ⟨of_decide_eq_true htest,rfl⟩

theorem argfd_some {p : ProcSlot} {n : ℤ} {fd : Fin 16} (h : s.argfd p n = some (fd,f)) :
    s.ofile (p,fd) = some f := by
  unfold argfd at h
  split at h
  · obtain ⟨g,hg,he⟩ := Option.map_eq_some_iff.mp h
    obtain ⟨rfl,rfl⟩ := Prod.mk.inj he
    exact hg
  · cases h

end FileTable

namespace Counted
variable {s t : FileTable} {held : FileSlot → ℕ} {f g : FileSlot} {p q : ProcSlot} {fd : Fin 16}

theorem ref_pos (h : Counted s held) (hf : s.ofile (p,fd) = some f) : 0 < (s.files f).ref := by
  have hpos := FileTable.refs_pos hf
  have href := h.ref f
  omega

theorem setRef (h : Counted s held) {n : ℕ} {held' : FileSlot → ℕ} (hn : n = s.refs f+held' f) (hpos : 0 < n)
    (hother : ∀ g, f ≠ g → held' g = held g) (hswap : s.swap f = true → 0 < held' f) :
    Counted (s.setFile f ⟨n,(s.files f).type⟩) held' := by
  have htype : ∀ g, ((s.setFile f ⟨n,(s.files f).type⟩).files g).type = (s.files g).type := by
    intro g
    by_cases hg : f = g
    · subst hg
      rw [FileTable.setFile_self]
    · rw [FileTable.setFile_of_ne _ hg]
  refine ⟨?_,?_,?_,?_,?_,h.fresh,h.freed,h.dead⟩
  · intro g
    by_cases hg : f = g
    · subst hg
      rw [FileTable.setFile_self]
      exact hn
    · rw [hother g hg,FileTable.setFile_of_ne _ hg]
      exact h.ref g
  · intro g hzero
    rw [htype]
    by_cases hg : f = g
    · subst hg
      rw [FileTable.setFile_self] at hzero
      exact absurd hzero (Nat.ne_of_gt hpos)
    · rw [FileTable.setFile_of_ne _ hg] at hzero
      exact h.idle g hzero
  · intro g hg
    rw [htype]
    refine ⟨(h.swap g hg).1,?_⟩
    by_cases he : f = g
    · subst he
      exact hswap hg
    · rw [hother g he]
      exact (h.swap g hg).2
  · intro k w
    rw [show (s.setFile f _).isOpen k w = s.isOpen k w from rfl,h.isOpen k w]
    exact exists_congr fun g => by rw [htype]
  · intro x y k w hx hy
    rw [htype] at hx hy
    exact h.ends x y k w hx hy

theorem filealloc (h : Counted s held) (ha : s.filealloc = some (f,t)) :
    Counted t (more held f) ∧ SameHolders s t ∧ (t.files f).type = .none ∧ held f = 0 ∧
      (∀ g, (s.files g).ref ≠ 0 → f ≠ g ∧ t.files g = s.files g) := by
  obtain ⟨hzero,rfl⟩ := FileTable.filealloc_some ha
  have href := h.ref f
  have hrefs : s.refs f = 0 := by omega
  have hheld : held f = 0 := by omega
  refine ⟨h.setRef ?_ Nat.one_pos (fun g hg => more_of_ne hg) ?_,⟨rfl,rfl,rfl⟩,?_,hheld,?_⟩
  · rw [hrefs,more_self,hheld]
  · intro hs
    have hheld := (h.swap f hs).2
    omega
  · rw [FileTable.setFile_self]
    exact h.idle f hzero
  · intro g hg
    have hne : f ≠ g := by
      rintro rfl
      exact hg hzero
    exact ⟨hne,FileTable.setFile_of_ne _ hne⟩

theorem filedup (h : Counted s held) (hf : 0 < (s.files f).ref) :
    Outcome (s.filedup f) (fun t => Counted t (more held f) ∧ SameHolders s t) (fun _ => False) := by
  rw [FileTable.filedup,if_neg (by omega)]
  have href := h.ref f
  refine Outcome.ok ⟨h.setRef ?_ (Nat.succ_pos _) (fun g hg => more_of_ne hg) ?_,rfl,rfl,rfl⟩
  · rw [more_self]
    omega
  · intro _
    rw [more_self]
    omega

theorem storeFd (h : Counted s (more held f)) (hnone : s.ofile (p,fd) = none) (hlive : s.live p = true)
    (hswap : s.swap f = true → 0 < held f) : Counted (s.setFd (p,fd) (some f)) held := by
  refine ⟨?_,h.idle,?_,h.isOpen,h.ends,h.fresh,h.freed,?_⟩
  · intro g
    have href := h.ref g
    have hmove := FileTable.refs_setFd (s := s) (d := (p,fd)) (f := g) (some f)
    rw [hnone,one_of_ne (by simp)] at hmove
    rw [more,show one f g = one (some f) (some g) by simp [one]] at href
    change (s.files g).ref = (s.setFd (p,fd) (some f)).refs g+held g
    omega
  · intro g hg
    obtain ⟨htype,hheld⟩ := h.swap g hg
    refine ⟨htype,?_⟩
    by_cases he : f = g
    · subst he
      exact hswap hg
    · rwa [more_of_ne he] at hheld
  · intro x i hx
    have hne : (x,i) ≠ (p,fd) := by
      intro he
      obtain ⟨rfl,rfl⟩ := Prod.mk.inj he
      rw [FileTable.setFd,hlive] at hx
      cases hx
    exact (update_of_ne hne _ s.ofile).trans (h.dead x i hx)

theorem clearFd (h : Counted s held) (hsome : s.ofile (p,fd) = some f) :
    Counted (s.setFd (p,fd) none) (more held f) := by
  refine ⟨?_,h.idle,?_,h.isOpen,h.ends,h.fresh,h.freed,?_⟩
  · intro g
    have href := h.ref g
    have hmove := FileTable.refs_setFd (s := s) (d := (p,fd)) (f := g) none
    rw [hsome,one_of_ne (x := none) (by simp)] at hmove
    rw [more,show one f g = one (some f) (some g) by simp [one]]
    change (s.files g).ref = (s.setFd (p,fd) none).refs g+(held g+one (some f) (some g))
    omega
  · intro g hg
    obtain ⟨htype,hheld⟩ := h.swap g hg
    exact ⟨htype,Nat.lt_of_lt_of_le hheld (Nat.le_add_right _ _)⟩
  · intro x i hx
    by_cases he : (x,i) = (p,fd)
    · rw [he]
      exact update_self (p,fd) none s.ofile
    · exact (update_of_ne he _ s.ofile).trans (h.dead x i hx)

theorem setType (h : Counted s held) {x : FileType} (hold : ∀ k w, (s.files f).type ≠ .pipe k w)
    (hnew : ∀ k w, x ≠ .pipe k w) (hidle : (s.files f).ref = 0 → x = .none) (hswap : s.swap f = true → x = .inode) :
    Counted (s.setFile f ⟨(s.files f).ref,x⟩) held := by
  have hpipe : ∀ g k w, ((s.setFile f ⟨(s.files f).ref,x⟩).files g).type = .pipe k w ↔
      (s.files g).type = .pipe k w := by
    intro g k w
    by_cases hg : f = g
    · subst hg
      rw [FileTable.setFile_self]
      exact iff_of_false (hnew k w) (hold k w)
    · rw [FileTable.setFile_of_ne _ hg]
  refine ⟨?_,?_,?_,?_,?_,h.fresh,h.freed,h.dead⟩
  · intro g
    have href := h.ref g
    change (update s.files f _ g).ref = s.refs g+held g
    grind [update_apply]
  · intro g
    have hold := h.idle g
    change (update s.files f _ g).ref = 0 → (update s.files f _ g).type = .none
    grind [update_apply]
  · intro g
    have hold := h.swap g
    change s.swap g = true → (update s.files f _ g).type = .inode ∧ 0 < held g
    grind [update_apply]
  · intro k w
    refine (h.isOpen k w).trans (exists_congr fun g => (hpipe g k w).symm)
  · intro a b k w ha hb
    exact h.ends a b k w ((hpipe a k w).mp ha) ((hpipe b k w).mp hb)

theorem drop (h : Counted s (more held f)) (hone : (s.files f).ref = 1)
    (hswap : s.swap f = true → 0 < held f) (hfiles : t.files = (s.setFile f ⟨0,.none⟩).files)
    (hsame : SameHolders s t) (hnum : t.npipes = s.npipes)
    (hopen : ∀ k w, t.isOpen k w = true ↔ s.isOpen k w = true ∧ (s.files f).type ≠ .pipe k w)
    (hfreed : ∀ k, t.freed k = if k < s.npipes ∧ t.isOpen k false = false ∧ t.isOpen k true = false then 1 else 0) :
    Counted t held := by
  have href := h.ref f
  rw [more_self] at href
  refine ⟨?_,?_,?_,?_,?_,?_,?_,?_⟩
  · intro g
    rw [hfiles,FileTable.refs_congr hsame.ofile]
    by_cases hg : f = g
    · subst hg
      rw [FileTable.setFile_self]
      change 0 = _
      omega
    · rw [FileTable.setFile_of_ne _ hg,h.ref g,more_of_ne hg]
  · intro g
    rw [hfiles]
    by_cases hg : f = g
    · subst hg
      rw [FileTable.setFile_self]
      exact fun _ => rfl
    · rw [FileTable.setFile_of_ne _ hg]
      exact h.idle g
  · intro g hg
    rw [hsame.swap] at hg
    obtain ⟨htype,hheld⟩ := h.swap g hg
    have hne : f ≠ g := by
      rintro rfl
      have hpos := hswap hg
      omega
    rw [hfiles,FileTable.setFile_of_ne _ hne]
    rw [more_of_ne hne] at hheld
    exact ⟨htype,hheld⟩
  · intro k w
    rw [hopen,h.isOpen,hfiles]
    constructor
    · rintro ⟨⟨g,hg⟩,hne⟩
      have hfg : f ≠ g := by
        rintro rfl
        exact hne hg
      exact ⟨g,by rw [FileTable.setFile_of_ne _ hfg,hg]⟩
    · rintro ⟨g,hg⟩
      by_cases hfg : f = g
      · subst hfg
        rw [FileTable.setFile_self] at hg
        cases hg
      · rw [FileTable.setFile_of_ne _ hfg] at hg
        exact ⟨⟨g,hg⟩,fun hf => hfg (h.ends f g k w hf hg)⟩
  · intro x y k w hx hy
    have hkeep : ∀ g, (t.files g).type = .pipe k w → (s.files g).type = .pipe k w := by
      intro g hg
      rw [hfiles] at hg
      by_cases hfg : f = g
      · subst hfg
        rw [FileTable.setFile_self] at hg
        cases hg
      · rwa [FileTable.setFile_of_ne _ hfg] at hg
    exact h.ends x y k w (hkeep x hx) (hkeep y hy)
  · intro k w hk
    rw [hnum] at hk
    refine Bool.eq_false_iff.mpr ?_
    intro hw
    have hold := ((hopen k w).mp hw).1
    rw [h.fresh k w hk] at hold
    cases hold
  · rw [hnum]
    exact hfreed
  · rw [hsame.ofile,hsame.live]
    exact h.dead

end Counted

namespace FileTable
variable {s : FileTable} {k : ℕ} {w : Bool}

theorem filedup_setFd (s : FileTable) (d : Descriptor) (o : Option FileSlot) (f : FileSlot) :
    (s.setFd d o).filedup f = (do let t ← s.filedup f; return t.setFd d o) := by
  unfold filedup
  rw [show (s.setFd d o).files = s.files from rfl]
  split_ifs <;> rfl

theorem pipeclose_setFd (s : FileTable) (d : Descriptor) (o : Option FileSlot) (k : ℕ) (w : Bool) :
    (s.setFd d o).pipeclose k w = (s.pipeclose k w).setFd d o := by
  unfold pipeclose setFd
  cases w <;> dsimp only <;> split_ifs <;> rfl

theorem fileclose_setFd (s : FileTable) (d : Descriptor) (o : Option FileSlot) (f : FileSlot) :
    (s.setFd d o).fileclose f = (do let t ← s.fileclose f; return t.setFd d o) := by
  unfold fileclose
  rw [show (s.setFd d o).files = s.files from rfl]
  split_ifs
  · rfl
  · rfl
  · cases (s.files f).type with
    | none => rfl
    | inode => rfl
    | pipe k w => exact congrArg Except.ok (pipeclose_setFd (s.setFile f ⟨0,.none⟩) d o k w)

theorem pipeclose_files : (s.pipeclose k w).files = s.files := by
  unfold pipeclose
  cases w <;> grind

theorem pipeclose_npipes : (s.pipeclose k w).npipes = s.npipes := by
  unfold pipeclose
  cases w <;> grind

theorem pipeclose_same : SameHolders s (s.pipeclose k w) := by
  unfold pipeclose
  cases w <;> constructor <;> grind

theorem pipeclose_isOpen (k' : ℕ) (w' : Bool) :
    (s.pipeclose k w).isOpen k' w' = if k' = k ∧ w' = w then false else s.isOpen k' w' := by
  unfold pipeclose isOpen
  cases w <;> cases w' <;> dsimp only <;> split_ifs <;> grind [update_apply]

theorem pipeclose_freed (k' : ℕ) :
    (s.pipeclose k w).freed k' = if k' = k ∧ s.isOpen k (!w) = false then s.freed k+1 else s.freed k' := by
  unfold pipeclose isOpen
  cases w <;> dsimp only <;> split_ifs <;> grind [update_apply]

end FileTable

namespace Counted
variable {s t : FileTable} {held : FileSlot → ℕ} {f g : FileSlot} {p q : ProcSlot} {fd : Fin 16}

theorem drop_pipe (h : Counted s (more held f)) (hone : (s.files f).ref = 1)
    (hswap : s.swap f = true → 0 < held f) {k : ℕ} {w : Bool} (htype : (s.files f).type = .pipe k w) :
    Counted ((s.setFile f ⟨0,.none⟩).pipeclose k w) held := by
  have hopen : s.isOpen k w = true := (h.isOpen k w).mpr ⟨f,htype⟩
  have hlt : k < s.npipes := by
    by_contra hk
    rw [h.fresh k w (not_lt.mp hk)] at hopen
    cases hopen
  have hisOpen : ∀ k' w', ((s.setFile f ⟨0,.none⟩).pipeclose k w).isOpen k' w' =
      if k' = k ∧ w' = w then false else s.isOpen k' w' := FileTable.pipeclose_isOpen
  have hfreed : ∀ k', ((s.setFile f ⟨0,.none⟩).pipeclose k w).freed k' =
      if k' = k ∧ s.isOpen k (!w) = false then s.freed k+1 else s.freed k' := FileTable.pipeclose_freed
  refine h.drop hone hswap FileTable.pipeclose_files ?_ FileTable.pipeclose_npipes ?_ ?_
  · exact ⟨FileTable.pipeclose_same.ofile,FileTable.pipeclose_same.live,FileTable.pipeclose_same.swap⟩
  · intro k' w'
    rw [hisOpen,htype]
    grind
  · intro k'
    have hold := h.freed k'
    rw [hfreed,hisOpen,hisOpen]
    cases w <;> grind

theorem fileclose (h : Counted s (more held f)) (hswap : s.swap f = true → 0 < held f) :
    Outcome (s.fileclose f)
      (fun t => Counted t held ∧ SameHolders s t ∧ ∀ g, f ≠ g → t.files g = s.files g) (fun _ => False) := by
  have href := h.ref f
  rw [more_self] at href
  rw [FileTable.fileclose,if_neg (by omega)]
  split_ifs with hmore
  · refine Outcome.ok ⟨h.setRef ?_ hmore (fun g hg => (more_of_ne hg).symm) hswap,⟨rfl,rfl,rfl⟩,?_⟩
    · omega
    · exact fun g hg => FileTable.setFile_of_ne _ hg
  · have hone : (s.files f).ref = 1 := by omega
    have hplain : (∀ k w, (s.files f).type ≠ .pipe k w) → Counted (s.setFile f ⟨0,.none⟩) held := by
      intro hno
      exact h.drop hone hswap rfl ⟨rfl,rfl,rfl⟩ rfl (fun k w => (and_iff_left (hno k w)).symm) h.freed
    have hframe : ∀ g, f ≠ g → (s.setFile f ⟨0,.none⟩).files g = s.files g := fun g hg =>
      FileTable.setFile_of_ne _ hg
    cases htype : (s.files f).type with
    | none => exact Outcome.ok ⟨hplain (by simp [htype]),⟨rfl,rfl,rfl⟩,hframe⟩
    | inode => exact Outcome.ok ⟨hplain (by simp [htype]),⟨rfl,rfl,rfl⟩,hframe⟩
    | pipe k w =>
      refine Outcome.ok ⟨h.drop_pipe hone hswap htype,?_,?_⟩
      · exact ⟨FileTable.pipeclose_same.ofile,FileTable.pipeclose_same.live,FileTable.pipeclose_same.swap⟩
      · intro g hg
        rw [FileTable.pipeclose_files]
        exact hframe g hg

theorem newPipe (h : Counted s held) (hne : f ≠ g) (hf : (s.files f).type = .none) (hg : (s.files g).type = .none)
    (hf0 : (s.files f).ref ≠ 0) (hg0 : (s.files g).ref ≠ 0) : Counted (s.newPipe f g) held := by
  have hfile : ∀ x, (s.newPipe f g).files x = if x = g then ⟨(s.files g).ref,.pipe s.npipes true⟩
      else if x = f then ⟨(s.files f).ref,.pipe s.npipes false⟩ else s.files x := by
    intro x
    simp only [FileTable.newPipe,FileTable.setFile,update_apply]
    grind
  have hopen : ∀ k w, (s.newPipe f g).isOpen k w = if k = s.npipes then true else s.isOpen k w := by
    intro k w
    simp only [FileTable.newPipe,FileTable.setFile,FileTable.isOpen,update_apply]
    grind
  have hnone : ∀ x k w, (s.files x).type = .pipe k w → k < s.npipes := by
    intro x k w hx
    have ho := (h.isOpen k w).mpr ⟨x,hx⟩
    have hfresh := h.fresh k w
    grind
  refine ⟨?_,?_,?_,?_,?_,?_,?_,h.dead⟩
  · intro x
    have hold := h.ref x
    rw [hfile]
    change _ = s.refs x+held x
    grind
  · intro x
    have hold := h.idle x
    rw [hfile]
    grind
  · intro x hx
    have hold := h.swap x hx
    rw [hfile]
    grind
  · intro k w
    have hold := h.isOpen k w
    rw [hopen]
    by_cases hk : k = s.npipes
    · subst hk
      rw [if_pos rfl]
      refine iff_of_true rfl ?_
      cases w
      · exact ⟨f,by grind⟩
      · exact ⟨g,by grind⟩
    · rw [if_neg hk,hold]
      exact exists_congr fun x => by grind
  · intro x y k w hx hy
    have hold := h.ends x y k w
    have hx0 := hnone x k w
    have hy0 := hnone y k w
    grind
  · intro k w hk
    have hk' : s.npipes+1 ≤ k := hk
    rw [hopen,if_neg (by omega)]
    exact h.fresh k w (by omega)
  · intro k
    have hold := h.freed k
    rw [hopen,hopen]
    change s.freed k = if k < s.npipes+1 ∧ _ then 1 else 0
    grind

end Counted

end Xv6Paging.Files
