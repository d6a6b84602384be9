import Mathlib.Data.List.Perm.Subperm
import Mathlib.Data.List.TakeWhile
import Xv6Paging.FileSystem.DirectoryMap

/-! # Path resolution

`skipelem` takes the maximal runs of non-slash bytes off a path, one at each call. `namex`
then goes from inode to inode by looking these names up, with one reference at a time:
the reference to the next inode is taken before the one to the current inode is released.
-/
namespace Xv6Paging.Fs
open WordPage Sector SlotMap

section Elements
variable {path elem : List Byte} {name : ℕ → Byte}

/-- The maximal non-empty runs of bytes other than the slash. -/
def pathRuns (path : List Byte) : List (List Byte) := (path.splitOnP (· = slash)).filter (· ≠ [])

def components (path : List Byte) : List (List Byte) := (pathRuns path).map (List.take dirSiz)

theorem pathRuns_nil : pathRuns [] = [] := rfl

theorem pathRuns_slash (path : List Byte) : pathRuns (slash :: path) = pathRuns path := by
  rw [pathRuns,List.splitOnP_cons_eq_if_modifyHead,if_pos (by simp)]
  rfl

theorem pathRuns_dropWhile (path : List Byte) : pathRuns (path.dropWhile (· = slash)) = pathRuns path := by
  induction path with
  | nil => rfl
  | cons b path ih =>
    by_cases hb : b = slash
    · subst hb
      rw [List.dropWhile_cons_of_pos (by simp),ih,pathRuns_slash]
    · rw [List.dropWhile_cons_of_neg (by simpa using hb)]

theorem pathRuns_append (hne : elem ≠ []) (helem : ∀ b ∈ elem, b ≠ slash)
    (hpath : path = [] ∨ path.head? = some slash) : pathRuns (elem ++ path) = elem :: pathRuns path := by
  have hfree : ∀ b ∈ elem, decide (b = slash) = false := fun b hb => decide_eq_false (helem b hb)
  cases path with
  | nil =>
    rw [List.append_nil,pathRuns,List.splitOnP_eq_singleton hfree,pathRuns_nil]
    exact List.filter_cons_of_pos (decide_eq_true hne)
  | cons b path =>
    obtain rfl : b = slash := by simpa using hpath
    rw [pathRuns_slash,pathRuns,List.splitOnP_append_cons_of_forall_mem hfree _ (by simp)]
    exact List.filter_cons_of_pos (decide_eq_true hne)

theorem cstr_eq_take {p : ℕ → Byte} {n : ℕ} (h0 : (0 : Byte) ∉ elem)
    (hp : ∀ k < n, k ≤ elem.length → p k = elem.getD k 0) : cstr p n = elem.take n := by
  induction n generalizing p elem with
  | zero => rfl
  | succ n ih =>
    have hhead := hp 0 (Nat.succ_pos n) (Nat.zero_le _)
    rw [cstr,hhead]
    cases elem with
    | nil => rfl
    | cons b elem =>
      have hb : b ≠ 0 := fun hb => h0 (hb ▸ List.mem_cons_self)
      have hrest : cstr (rest p) n = elem.take n := by
        refine ih (fun hm => h0 (List.mem_cons_of_mem b hm)) fun k hk hlen => ?_
        exact hp (k+1) (Nat.succ_lt_succ hk) (Nat.succ_le_succ hlen)
      rw [List.getD_cons_zero,if_neg hb,hrest,List.take_succ_cons]

theorem nameOf_copyElem (h0 : (0 : Byte) ∉ elem) : nameOf (copyElem name elem) = elem.take dirSiz := by
  refine cstr_eq_take h0 fun k hk hlen => ?_
  rw [copyElem]
  split
  · rw [blit,id,if_pos ⟨Nat.zero_le k,by omega⟩,Nat.sub_zero]
  · next hshort =>
    by_cases hend : k = elem.length
    · subst hend
      rw [Function.update_self,List.getD_eq_getElem?_getD,List.getElem?_eq_none le_rfl]
      rfl
    · rw [Function.update_of_ne hend,blit,id,if_pos ⟨Nat.zero_le k,by omega⟩,Nat.sub_zero]

theorem head?_dropWhile_slash (path : List Byte) {b : Byte} {l : List Byte}
    (h : path.dropWhile (· = slash) = b :: l) : b ≠ slash := by
  have hhead := List.head?_dropWhile_not (fun x => decide (x = slash)) path
  rw [h] at hhead
  simpa using hhead

theorem dropWhile_run (path : List Byte) :
    path.dropWhile (· ≠ slash) = [] ∨ (path.dropWhile (· ≠ slash)).head? = some slash := by
  cases h : path.dropWhile (· ≠ slash) with
  | nil => exact Or.inl rfl
  | cons b l =>
    have hhead := List.head?_dropWhile_not (fun x => decide (x ≠ slash)) path
    rw [h] at hhead
    right
    simpa using hhead

theorem pathRuns_cons {b : Byte} (hb : b ≠ slash) (path : List Byte) : pathRuns (b :: path) =
    (b :: path).takeWhile (· ≠ slash) :: pathRuns ((b :: path).dropWhile (· ≠ slash)) := by
  have hne : (b :: path).takeWhile (· ≠ slash) ≠ [] := by
    rw [List.takeWhile_cons_of_pos (by simpa using hb)]
    exact List.cons_ne_nil _ _
  have helem : ∀ x ∈ (b :: path).takeWhile (· ≠ slash), x ≠ slash := by
    intro x hx
    simpa using List.mem_takeWhile_imp hx
  have happ := pathRuns_append hne helem (dropWhile_run (b :: path))
  rw [List.takeWhile_append_dropWhile] at happ
  exact happ

theorem components_eq_nil_iff (path : List Byte) :
    components (path.dropWhile (· = slash)) = [] ↔ path.dropWhile (· = slash) = [] := by
  cases h : path.dropWhile (· = slash) with
  | nil => exact iff_of_true rfl rfl
  | cons b l =>
    rw [components,pathRuns_cons (head?_dropWhile_slash path h)]
    exact iff_of_false (List.cons_ne_nil _ _) (List.cons_ne_nil _ _)

theorem skipelem_spec (h0 : (0 : Byte) ∉ path) (name : ℕ → Byte) :
    (skipelem path name = none ∧ components path = []) ∨
    ∃ path' name', skipelem path name = some (path',name') ∧ components path = nameOf name' :: components path' ∧
      path'.length < path.length ∧ (0 : Byte) ∉ path' ∧ (path' = [] ↔ components path' = []) := by
  have hsub : path.dropWhile (· = slash) <:+ path := List.dropWhile_suffix _
  rw [skipelem,components,← pathRuns_dropWhile path]
  cases hp : path.dropWhile (· = slash) with
  | nil => exact Or.inl ⟨rfl,rfl⟩
  | cons b l =>
    rw [hp] at hsub
    have hb := head?_dropWhile_slash path hp
    have htail : (b :: l).dropWhile (· ≠ slash) <:+ l := by
      rw [List.dropWhile_cons_of_pos (by simpa using hb)]
      exact List.dropWhile_suffix _
    have hrest := (List.dropWhile_suffix (fun x => decide (x = slash))).trans htail
    have helem : (0 : Byte) ∉ (b :: l).takeWhile (· ≠ slash) := fun hm =>
      h0 (hsub.subset ((List.takeWhile_prefix _).subset hm))
    refine Or.inr ⟨_,_,if_neg (List.cons_ne_nil b l),?_,?_,fun hm => ?_,(components_eq_nil_iff _).symm⟩
    · rw [pathRuns_cons hb,List.map_cons,nameOf_copyElem helem,components,pathRuns_dropWhile]
    · have hlen := hrest.length_le
      have hlen' := hsub.length_le
      rw [List.length_cons] at hlen'
      omega
    · exact h0 (hsub.subset (List.mem_cons_of_mem b (hrest.subset hm)))

inductive Skips : List Byte → (ℕ → Byte) → List (List Byte) → Prop
  | stop {path : List Byte} {name : ℕ → Byte} : skipelem path name = none → Skips path name []
  | elem {path path' : List Byte} {name name' : ℕ → Byte} {l : List (List Byte)} :
      skipelem path name = some (path',name') → Skips path' name' l → Skips path name (nameOf name' :: l)

theorem skips_components (path : List Byte) (h0 : (0 : Byte) ∉ path) (name : ℕ → Byte) :
    Skips path name (components path) := by
  rcases skipelem_spec h0 name with ⟨hs,hc⟩ | ⟨path',name',hs,hc,hlen,h0',-⟩
  · rw [hc]
    exact .stop hs
  · rw [hc]
    exact .elem hs (skips_components path' h0' name')
termination_by path.length

end Elements

section Resolution
variable (sb : Superblock) (d : Disk)

def entryOf (dp : ℕ) (name : List Byte) : Option ℕ :=
  let cell := fun k => direntCell fun j => bytes (table sb d) d dp (direntSize*k+j)
  ((List.range ((table sb d dp).size.toNat/direntSize)).find? fun k => (cell k).map Prod.fst = some name).bind
    fun k => (cell k).map Prod.snd

def lookupName (ip : ℕ) (name : List Byte) : Option ℕ :=
  if (sb.dinode d ip).type = tDir then entryOf sb d ip name else none

def resolve (ip : ℕ) (names : List (List Byte)) : Option ℕ := names.foldlM (lookupName sb d) ip

def resolveParent (ip : ℕ) (names : List (List Byte)) : Option (ℕ × List Byte) :=
  names.getLast?.bind fun last => (resolve sb d ip names.dropLast).bind fun dp =>
    if (sb.dinode d dp).type = tDir then some (dp,last) else none

end Resolution

section Resolution
variable {sb : Superblock} {d : Disk} {ip : ℕ} {name : List Byte} {names : List (List Byte)}

theorem resolve_cons : resolve sb d ip (name :: names) = (lookupName sb d ip name).bind fun v => resolve sb d v names :=
  rfl

theorem resolveParent_single :
    resolveParent sb d ip [name] = if (sb.dinode d ip).type = tDir then some (ip,name) else none := rfl

theorem resolveParent_cons (hne : names ≠ []) :
    resolveParent sb d ip (name :: names) = (lookupName sb d ip name).bind fun v => resolveParent sb d v names := by
  unfold resolveParent
  rw [List.getLast?_cons_of_ne_nil hne,List.dropLast_cons_of_ne_nil hne,resolve_cons,
    List.getLast?_eq_some_getLast hne]
  simp only [Option.bind_some,Option.bind_assoc]

end Resolution

variable {sb : Superblock} {start : ℕ} {s s₀ s' : FsState} {dp ip : ℕ}

/-- The directories of a consistent file system have well-formed sizes, and their entries name allocated
inodes with links. -/
structure Tree (sb : Superblock) (start : ℕ) (s : FsState) : Prop where
  consistent : Consistent sb start s
  sizes : ∀ i < sb.ninodes, (sb.dinode s.disk i).type = tDir →
    (sb.dinode s.disk i).size.toNat%direntSize = 0 ∧ (sb.dinode s.disk i).size.toNat ≤ maxFile*bSize
  entries : ∀ i < sb.ninodes, (sb.dinode s.disk i).type = tDir → ∀ name v, entryOf sb s.disk i name = some v →
    v < sb.ninodes ∧ (sb.dinode s.disk v).type ≠ 0 ∧ (sb.dinode s.disk v).nlink ≠ 0
  root : rootIno < sb.ninodes ∧ (sb.dinode s.disk rootIno).type ≠ 0 ∧ (sb.dinode s.disk rootIno).nlink ≠ 0

theorem IsDir.dirlookup_eq (h : IsDir sb start s dp) (name : ℕ → Byte) (de : Dirent) :
    (dirlookup sb s dp name de = .ok (none,s) ∧ entryOf sb s.disk dp (nameOf name) = none) ∨
    ∃ v off, dirlookup sb s dp name de = .ok (some (v,off),s.iget v) ∧
      entryOf sb s.disk dp (nameOf name) = some v := by
  have hlen : (table sb s.disk dp).size.toNat/direntSize = dirLength s dp := by
    rw [h.table_eq]
    rfl
  unfold entryOf
  rw [hlen]
  rcases h.dirlookup_spec name de with ⟨hr,hnone⟩ | ⟨i,v,hr,hb,hfirst⟩
  · refine Or.inl ⟨hr,Option.bind_eq_none_iff.mpr fun k hk => ?_⟩
    obtain ⟨hkey,hmem,-⟩ := List.find?_range_eq_some.mp hk
    obtain ⟨⟨nm,v⟩,hc,rfl⟩ := Option.map_eq_some_iff.mp (of_decide_eq_true hkey)
    exact absurd ⟨List.mem_range.mp hmem,hc⟩ (hnone k v)
  · refine Or.inr ⟨v,_,hr,Option.bind_eq_some_iff.mpr ⟨i,List.find?_range_eq_some.mpr ⟨?_,?_,fun j hj => ?_⟩,?_⟩⟩
    · exact decide_eq_true (Option.map_eq_some_iff.mpr ⟨_,hb.2,rfl⟩)
    · exact List.mem_range.mpr hb.1
    · rw [Bool.not_eq_true']
      refine decide_eq_false fun hkey => ?_
      obtain ⟨⟨nm,w⟩,hc,rfl⟩ := Option.map_eq_some_iff.mp hkey
      exact hfirst j hj w ⟨hj.trans hb.1,hc⟩
    · exact Option.map_eq_some_iff.mpr ⟨_,hb.2,rfl⟩

/-- The state of a walk that began in `s₀` and holds references to the inodes of `l`. -/
structure Walking (sb : Superblock) (start : ℕ) (s₀ s : FsState) (l : List ℕ) : Prop where
  consistent : Consistent sb start s
  disk : s.disk = s₀.disk
  refs : ∀ j, (s.icache j).ref = (s₀.icache j).ref+l.count j

namespace Walking
variable {l l' : List ℕ} {v : ℕ}

section
variable (h : Walking sb start s₀ s l)
include h

theorem perm (hp : l.Perm l') : Walking sb start s₀ s l' :=
  ⟨h.consistent,h.disk,fun j => (h.refs j).trans (congrArg _ (hp.count_eq j))⟩

theorem iget (hv : v < sb.ninodes) (ht : (sb.dinode s₀.disk v).type ≠ 0) :
    Walking sb start s₀ (s.iget v) (v :: l) := by
  refine ⟨h.consistent.iget hv (h.disk ▸ ht),(iget_disk s v).trans h.disk,fun j => ?_⟩
  by_cases hj : j = v
  · subst hj
    have hone : ((s.iget j).icache j).ref = (s.icache j).ref+1 := by
      by_cases hr : 0 < (s.icache j).ref
      · rw [iget_of_pos s j hr]
      · have hzero : (s.icache j).ref = 0 := by omega
        rw [iget_of_zero s j hzero,hzero]
    rw [hone,h.refs,List.count_cons_self,Nat.add_assoc]
  · rw [iget_of_ne s v hj,h.refs,List.count_cons_of_ne (Ne.symm hj)]

theorem ref_pos (hv : v ∈ l) : 0 < (s.icache v).ref := by
  rw [h.refs]
  exact Nat.lt_add_left _ (List.count_pos_iff.mpr hv)

theorem ilock (hv : v ∈ l) : ∃ s', s.ilock sb v = .ok s' ∧ Walking sb start s₀ s' l ∧ Held s' v := by
  have hr := h.ref_pos hv
  obtain ⟨hlt,ht⟩ := h.consistent.live v hr
  rw [FsState.ilock,if_neg (by omega)]
  by_cases hvalid : (s.icache v).valid = true
  · exact ⟨s,if_pos hvalid,h,hr,hvalid⟩
  · refine ⟨_,by rw [if_neg hvalid,if_neg ht],⟨h.consistent.setEntry fun _ => ⟨⟨hlt,ht⟩,fun _ => rfl⟩,h.disk,fun j => ?_⟩,?_⟩
    · rw [← h.refs]
      by_cases hj : j = v
      · subst hj
        rw [setEntry_self]
      · rw [setEntry_of_ne _ _ _ hj]
    · rw [Held,setEntry_self]
      exact ⟨hr,rfl⟩

end

theorem iput (h : Walking sb start s₀ s (v :: l))
    (hsafe : (sb.dinode s₀.disk v).nlink ≠ 0 ∨ 0 < (s₀.icache v).ref) :
    ∃ s', s.iput sb none v = .ok s' ∧ Walking sb start s₀ s' l := by
  have hr := h.ref_pos List.mem_cons_self
  have hrefs := h.refs v
  rw [List.count_cons_self] at hrefs
  have hkeep : ¬ ((s.icache v).valid = true ∧ (s.icache v).copy.nlink = 0 ∧ (s.icache v).ref = 1) := by
    rintro ⟨hvalid,hlinks,hone⟩
    rw [h.consistent.agree v hr hvalid,h.disk] at hlinks
    rcases hsafe with hsafe | hsafe
    · exact hsafe hlinks
    · omega
  rw [FsState.iput,if_neg (Option.some_ne_none v).symm,if_neg hkeep]
  refine ⟨_,rfl,h.consistent.setEntry fun _ => ⟨h.consistent.live v hr,h.consistent.agree v hr⟩,h.disk,fun j => ?_⟩
  by_cases hj : j = v
  · subst hj
    rw [setEntry_self]
    dsimp only
    omega
  · rw [setEntry_of_ne _ _ _ hj,h.refs,List.count_cons_of_ne (Ne.symm hj)]

theorem inUse_le (h : Walking sb start s₀ s l) : inUse sb s ≤ inUse sb s₀+l.length := by
  have hsub : (List.range sb.ninodes).filter (fun i => decide (0 < (s.icache i).ref)) ⊆
      (List.range sb.ninodes).filter (fun i => decide (0 < (s₀.icache i).ref)) ++ l := by
    intro i hi
    obtain ⟨hmem,href⟩ := List.mem_filter.mp hi
    have hrefs := h.refs i
    have hpos : 0 < (s.icache i).ref := of_decide_eq_true href
    by_cases hl : i ∈ l
    · exact List.mem_append_right _ hl
    · rw [List.count_eq_zero_of_not_mem hl] at hrefs
      exact List.mem_append_left _ (List.mem_filter.mpr ⟨hmem,decide_eq_true (by omega)⟩)
  have hlen := (List.Nodup.subperm (List.nodup_range.filter _) hsub).length_le
  rwa [List.length_append,← List.countP_eq_length_filter,← List.countP_eq_length_filter] at hlen

end Walking

def Answers (sb : Superblock) (d : Disk) (parent : Bool) (ip : ℕ) (names : List (List Byte)) (r : Option ℕ)
    (buf : ℕ → Byte) : Prop :=
  if parent then r.map (fun dp => (dp,nameOf buf)) = resolveParent sb d ip names else r = resolve sb d ip names

section Answers
variable {d : Disk} {parent : Bool} {name : List Byte} {names : List (List Byte)} {r : Option ℕ} {buf : ℕ → Byte}

theorem answers_of_lookup_none (hnone : lookupName sb d ip name = none) (hne : parent = true → names ≠ []) :
    Answers sb d parent ip (name :: names) none buf := by
  cases parent with
  | false =>
    change none = _
    rw [resolve_cons,hnone]
    rfl
  | true =>
    change none = _
    rw [resolveParent_cons (hne rfl),hnone]
    rfl

theorem answers_of_not_dir (ht : (sb.dinode d ip).type ≠ tDir) :
    Answers sb d parent ip (name :: names) none buf := by
  have hnone : lookupName sb d ip name = none := if_neg ht
  by_cases hlast : parent = true ∧ names = []
  · obtain ⟨rfl,rfl⟩ := hlast
    change none = _
    rw [resolveParent_single,if_neg ht]
  · exact answers_of_lookup_none hnone fun hp hn => hlast ⟨hp,hn⟩

theorem Answers.cons {v : ℕ} (h : Answers sb d parent v names r buf) (hv : lookupName sb d ip name = some v)
    (hne : parent = true → names ≠ []) : Answers sb d parent ip (name :: names) r buf := by
  cases parent with
  | false =>
    change r = _
    rw [resolve_cons,hv]
    exact h
  | true =>
    change r.map _ = _
    rw [resolveParent_cons (hne rfl),hv]
    exact h

end Answers

/-- The loop of `namex` with a reference to `ip`: it ends with the reference to its result only. -/
theorem namexLoop_spec (ht : Tree sb start s₀) (parent : Bool) (de : Dirent) (fuel : ℕ) {path : List Byte}
    (name : ℕ → Byte) (hroom : inUse sb s₀+2 ≤ nInode) (h : Walking sb start s₀ s [ip])
    (hsafe : (sb.dinode s₀.disk ip).nlink ≠ 0 ∨ 0 < (s₀.icache ip).ref) (h0 : (0 : Byte) ∉ path)
    (hfuel : path.length < fuel) :
    ∃ r buf s', namexLoop sb parent de fuel s ip path name = .ok (r,buf,s') ∧ Walking sb start s₀ s' r.toList ∧
      Answers sb s₀.disk parent ip (components path) r buf := by
  induction fuel generalizing s ip path name with
  | zero => omega
  | succ fuel ih =>
    rw [namexLoop]
    rcases skipelem_spec h0 name with ⟨hskip,hnames⟩ | ⟨path',name',hskip,hnames,hlen,h0',hend⟩
    · rw [hskip,hnames]
      dsimp only [bind,Except.bind]
      cases parent with
      | false => exact ⟨some ip,name,s,rfl,h,rfl⟩
      | true =>
        obtain ⟨s',hput,hw⟩ := h.iput hsafe
        refine ⟨none,name,s',?_,hw,rfl⟩
        rw [if_pos rfl,hput]
        rfl
    · obtain ⟨s₁,hlock,hw₁,hheld⟩ := h.ilock List.mem_cons_self
      obtain ⟨hlt,hcopy,-,-⟩ := hw₁.consistent.held hheld
      rw [hw₁.disk] at hcopy
      obtain ⟨s₂,hput,hw₂⟩ := hw₁.iput hsafe
      rw [hskip,hnames]
      dsimp only [bind,Except.bind]
      rw [hlock]
      dsimp only
      rw [hcopy]
      by_cases htype : (sb.dinode s₀.disk ip).type = tDir
      · rw [if_neg (not_not.mpr htype)]
        by_cases hstop : parent = true ∧ path' = []
        · obtain ⟨rfl,rfl⟩ := hstop
          refine ⟨some ip,name',s₁,if_pos ⟨rfl,rfl⟩,hw₁,?_⟩
          change some (ip,nameOf name') = _
          rw [hend.mp rfl,resolveParent_single,if_pos htype]
        · rw [if_neg hstop]
          have hne : parent = true → components path' ≠ [] := fun hp hc => hstop ⟨hp,hend.mpr hc⟩
          have hsizes := ht.sizes ip hlt htype
          rw [← hcopy] at hsizes
          have hdir := hw₁.consistent.isDir hheld (hcopy ▸ htype) hsizes.1 hsizes.2
          have hlookup : ∀ nm, lookupName sb s₀.disk ip nm = entryOf sb s₀.disk ip nm := fun _ => if_pos htype
          rcases hdir.dirlookup_eq name' de with ⟨hr,hentry⟩ | ⟨v,off,hr,hentry⟩
          · rw [hw₁.disk,← hlookup] at hentry
            refine ⟨none,name',s₂,?_,hw₂,answers_of_lookup_none hentry hne⟩
            rw [hr]
            dsimp only
            rw [iunlockput,hput]
            rfl
          · rw [hw₁.disk] at hentry
            obtain ⟨hv,hvt,hvl⟩ := ht.entries ip hlt htype _ v hentry
            -- both references are held until the one to `ip` is released
            have hw := (hw₁.iget hv hvt).perm (.swap ip v [])
            obtain ⟨s₃,hput₃,hw₃⟩ := hw.iput hsafe
            obtain ⟨r,buf,s',hrun,hw',hans⟩ := ih _ hw₃ (Or.inl hvl) h0' (by omega)
            refine ⟨r,buf,s',?_,hw',hans.cons ((hlookup _).trans hentry) hne⟩
            rw [hr]
            dsimp only
            rw [if_pos (hw.inUse_le.trans hroom),iunlockput,hput₃]
            exact hrun
      · refine ⟨none,name',s₂,?_,hw₂,answers_of_not_dir htype⟩
        rw [if_pos htype,iunlockput,hput]
        rfl

def startInode (cwd : ℕ) (path : List Byte) : ℕ := if path.head? = some slash then rootIno else cwd

theorem namex_spec (ht : Tree sb start s) (hroom : inUse sb s+2 ≤ nInode) {cwd : ℕ} (hcwd : 0 < (s.icache cwd).ref)
    (parent : Bool) {path : List Byte}
    (h0 : (0 : Byte) ∉ path) (name : ℕ → Byte) (de : Dirent) :
    ∃ r buf s', namex sb parent s cwd path name de = .ok (r,buf,s') ∧ Walking sb start s s' r.toList ∧
      Answers sb s.disk parent (startInode cwd path) (components path) r buf := by
  have hw : Walking sb start s s [] := ⟨ht.consistent,rfl,fun _ => rfl⟩
  have hstart : startInode cwd path < sb.ninodes ∧ (sb.dinode s.disk (startInode cwd path)).type ≠ 0 ∧
      ((sb.dinode s.disk (startInode cwd path)).nlink ≠ 0 ∨ 0 < (s.icache (startInode cwd path)).ref) := by
    rw [startInode]
    split
    · exact ⟨ht.root.1,ht.root.2.1,Or.inl ht.root.2.2⟩
    · obtain ⟨hlt,htype⟩ := ht.consistent.live cwd hcwd
      exact ⟨hlt,htype,Or.inr hcwd⟩
  have hw₁ := hw.iget hstart.1 hstart.2.1
  have hfits : inUse sb (s.iget (startInode cwd path)) ≤ nInode := hw₁.inUse_le.trans (Nat.le_of_succ_le hroom)
  obtain ⟨r,buf,s',hrun,hres⟩ :=
    namexLoop_spec ht parent de _ name hroom hw₁ hstart.2.2 h0 (Nat.lt_succ_self _)
  refine ⟨r,buf,s',?_,hres⟩
  rw [namex]
  exact (if_pos hfits).trans hrun

def KeepsRefs (s s' : FsState) (r : Option ℕ) : Prop :=
  s'.disk = s.disk ∧ ∀ j, (s'.icache j).ref = (s.icache j).ref+if r = some j then 1 else 0

theorem Walking.keepsRefs {r : Option ℕ} (h : Walking sb start s s' r.toList) : KeepsRefs s s' r := by
  refine ⟨h.disk,fun j => (h.refs j).trans (congrArg _ ?_)⟩
  cases r with
  | none => rfl
  | some v =>
    by_cases hv : v = j
    · subst hv
      simp
    · simp [hv]

/-- `skipelem` yields the names in the path. `namei` returns the inode that looking them up reaches, and
`nameiparent` the directory for the last name; both return null where the lookups fail. The only reference
that remains is to the result. -/
theorem paths_resolved (ht : Tree sb start s) (hroom : inUse sb s+2 ≤ nInode) {cwd : ℕ} (hcwd : 0 < (s.icache cwd).ref) {path : List Byte}
    (h0 : (0 : Byte) ∉ path) (name : ℕ → Byte) (de : Dirent) :
    Skips path name (components path) ∧
    (∃ s', namei sb s cwd path name de = .ok (resolve sb s.disk (startInode cwd path) (components path),s') ∧
      KeepsRefs s s' (resolve sb s.disk (startInode cwd path) (components path))) ∧
    ∃ r buf s', nameiparent sb s cwd path name de = .ok (r,buf,s') ∧ KeepsRefs s s' r ∧
      r.map (fun dp => (dp,nameOf buf)) = resolveParent sb s.disk (startInode cwd path) (components path) := by
  refine ⟨skips_components path h0 name,?_,?_⟩
  · obtain ⟨r,buf,s',hrun,hw,hans⟩ := namex_spec ht hroom hcwd false h0 name de
    obtain rfl : r = resolve sb s.disk (startInode cwd path) (components path) := hans
    refine ⟨s',?_,hw.keepsRefs⟩
    rw [namei,hrun]
    rfl
  · obtain ⟨r,buf,s',hrun,hw,hans⟩ := namex_spec ht hroom hcwd true h0 name de
    exact ⟨r,buf,s',hrun,hw.keepsRefs,hans⟩

theorem entryOf_cell {d : Disk} {name : List Byte} {v : ℕ} (h : entryOf sb d dp name = some v) :
    ∃ k < (table sb d dp).size.toNat/direntSize,
      (direntCell fun j => bytes (table sb d) d dp (direntSize*k+j)).map Prod.snd = some v := by
  obtain ⟨k,hk,hv⟩ := Option.bind_eq_some_iff.mp h
  obtain ⟨-,hmem,-⟩ := List.find?_range_eq_some.mp hk
  exact ⟨k,List.mem_range.mp hmem,hv⟩

def rootWithFile : List Call :=
  [.ialloc tDir,.ilock 1,.setLinks 1 1,.ialloc 2,.ilock 2,.setLinks 2 1,
    .writei 1 (fun j => if j = 0 then 2 else if j = 2 then 97 else 0) 0 direntSize]

def hasFile (t : FsState) : Bool :=
  decide (inUse sampleSuper t+2 ≤ nInode ∧ 0 < (t.icache 1).ref ∧ resolve sampleSuper t.disk 1 [[97]] = some 2 ∧
    (table sampleSuper t.disk 1).size.toNat = direntSize ∧ (sampleSuper.dinode t.disk 1).size.toNat = direntSize ∧
    (direntCell fun j => bytes (table sampleSuper t.disk) t.disk 1 (direntSize*0+j)).map Prod.snd = some 2) &&
  (decide (∀ i : ℕ, i < 3 → i = 1 ∨ (sampleSuper.dinode t.disk i).type ≠ tDir) &&
    decide (∀ i : ℕ, i < 3 → i = 0 ∨ (sampleSuper.dinode t.disk i).type ≠ 0 ∧ (sampleSuper.dinode t.disk i).nlink ≠ 0))

theorem exists_rootWithFile : ∃ s, Tree sampleSuper 4 s ∧ inUse sampleSuper s+2 ≤ nInode ∧ 0 < (s.icache 1).ref ∧
    resolve sampleSuper s.disk 1 [[97]] = some 2 := by
  have hrun : (Runs.exec (step sampleSuper) (Allowed sampleSuper) rootWithFile sampleState).map
      hasFile = some true := by decide +kernel
  obtain ⟨s,hs,hf⟩ := Runs.exists_reaches hrun
  rw [hasFile,Bool.and_eq_true,Bool.and_eq_true,decide_eq_true_eq,decide_eq_true_eq,decide_eq_true_eq] at hf
  obtain ⟨⟨hroom,href,hres,htable,hsize,hcell⟩,honly,hlive⟩ := hf
  have hone : ∀ i < 3, (sampleSuper.dinode s.disk i).type = tDir → i = 1 := fun i hi ht =>
    (honly i hi).resolve_right (not_not.mpr ht)
  refine ⟨s,⟨sample_consistent.reaches sample_layout hs,fun i hi ht => ?_,fun i hi ht name v hv => ?_,
    by decide,(hlive 1 (by decide)).resolve_left (by decide)⟩,hroom,href,hres⟩
  · rw [hone i hi ht,hsize]
    decide
  · rw [hone i hi ht] at hv
    obtain ⟨k,hk,hkv⟩ := entryOf_cell hv
    rw [htable] at hk
    obtain rfl : k = 0 := Nat.lt_one_iff.mp hk
    obtain rfl : 2 = v := Option.some.inj (hcell.symm.trans hkv)
    exact ⟨by decide,(hlive 2 (by decide)).resolve_left (by decide)⟩

/-- The path `/a` in that file system. -/
theorem paths_resolved_rootWithFile : ∃ s, Tree sampleSuper 4 s ∧ inUse sampleSuper s+2 ≤ nInode ∧
    ∃ s', namei sampleSuper s 1 [slash,97] (fun _ => 0) (fun _ => 0) = .ok (some 2,s') ∧
      (s'.icache 2).ref = (s.icache 2).ref+1 := by
  obtain ⟨s,ht,hroom,href,hres⟩ := exists_rootWithFile
  obtain ⟨-,⟨s',hrun,hrefs⟩,-⟩ :=
    paths_resolved ht hroom href (show (0 : Byte) ∉ [slash,97] by decide) (fun _ => 0) fun _ => 0
  have hnames : components [slash,97] = [[97]] := by decide
  have hstart : startInode 1 [slash,97] = 1 := rfl
  rw [hnames,hstart,hres] at hrun hrefs
  refine ⟨s,ht,hroom,s',hrun,?_⟩
  rw [hrefs.2,if_pos rfl]

end Xv6Paging.Fs
