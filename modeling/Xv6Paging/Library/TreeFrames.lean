import Xv6Paging.Library.PageTree

/-! # The frames of page trees

The frames that a set of trees uses together with the free ones. Taking a frame from the free list and
putting it into a tree, or the other way round, leaves this set as it is; so a frame is lost exactly when
it drops out of the set.
-/
namespace Xv6Paging.PageTree
open WordPage

variable {F : Type} {fmt : Format F} {V S : Set F} {free : List F} {m m' : F → Page} {d t f : F}
  {i : Fin 1024} {k : Index} {w : Word}

def used (fmt : Format F) (S : Set F) (m : F → Page) : Set F := {f | ∃ u : Use F, u.root ∈ S ∧ u.frame fmt m = some f}

def accounted (fmt : Format F) (S : Set F) (free : List F) (m : F → Page) : Set F := {f | f ∈ free} ∪ used fmt S m

theorem accounted_take : accounted fmt S (f :: free) m = insert f (accounted fmt S free m) := by
  ext g
  simp only [accounted,Set.mem_union,Set.mem_ofPred_eq,List.mem_cons,Set.mem_insert_iff,or_assoc]

theorem used_congr (h : ∀ u : Use F, u.root ∈ S → u.frame fmt m' = u.frame fmt m) : used fmt S m' = used fmt S m := by
  ext g
  refine exists_congr fun u => and_congr_right fun hu => ?_
  rw [h u hu]

/-- Two memories in which the trees of `S` use the same frames but at one place. -/
theorem used_except (v : Use F) (hv : v.root ∈ S)
    (h : ∀ u : Use F, u.root ∈ S → u ≠ v → u.frame fmt m' = u.frame fmt m) :
    used fmt S m' ∪ {f | v.frame fmt m = some f} = used fmt S m ∪ {f | v.frame fmt m' = some f} := by
  have hone : ∀ {m m' : F → Page}, (∀ u : Use F, u.root ∈ S → u ≠ v → u.frame fmt m' = u.frame fmt m) →
      used fmt S m' ∪ {f | v.frame fmt m = some f} ⊆ used fmt S m ∪ {f | v.frame fmt m' = some f} := by
    rintro m m' hm f (⟨u,hu,hf⟩ | hf)
    · by_cases huv : u = v
      · subst huv
        exact Or.inr hf
      · rw [hm u hu huv] at hf
        exact Or.inl ⟨u,hu,hf⟩
    · exact Or.inl ⟨v,hv,hf⟩
  exact Set.Subset.antisymm (hone h) (hone fun u hu hne => (h u hu hne).symm)

theorem used_insertDir (hz : m d = fun _ => 0#8) : used fmt (insert d S) m = insert d (used fmt S m) := by
  have htab : ∀ i, fmt.table m d i = none := by
    intro i
    rw [Format.table,hz,readWord_zero,fmt.link_zero]
  ext f
  constructor
  · rintro ⟨u,hu | hu,hf⟩
    · left
      cases u with
      | dir d' =>
        cases hf
        exact hu
      | table d' i =>
        obtain rfl : d' = d := hu
        simp only [Use.frame,htab] at hf
        cases hf
      | leaf d' k =>
        obtain rfl : d' = d := hu
        simp only [Use.frame,entry_of_no_table (htab k.1),fmt.link_zero] at hf
        split at hf <;> cases hf
    · exact Or.inr ⟨u,hu,hf⟩
  · rintro (rfl | ⟨u,hu,hf⟩)
    · exact ⟨.dir f,Or.inl rfl,rfl⟩
    · exact ⟨u,Or.inr hu,hf⟩

variable [DecidableEq F]

theorem Owned.used_linkTable (h : Owned fmt V S free m) (ht : Fresh fmt V S free m t) (hd : d ∈ S)
    (hnone : fmt.table m d i = none) (hw : fmt.link w = some t) :
    used fmt S (linkTable m d i t w) = insert t (used fmt S m) := by
  have hother : ∀ u : Use F, u.root ∈ S → u ≠ .table d i → u.frame fmt (linkTable m d i t w) = u.frame fmt m := by
    intro u hu hne
    cases u with
    | dir d' => rfl
    | table d' i' => exact table_linkTable_of_ne ht hd hu fun he => hne (by cases he; rfl)
    | leaf d' k => simp only [Use.frame,h.entry_linkTable ht hd (show d' ∈ S from hu) hnone hw]
  have hold : (Use.table d i).frame fmt m = none := hnone
  have hnew : (Use.table d i).frame fmt (linkTable m d i t w) = some t := table_linkTable_same ht hd hw
  have heq := used_except (.table d i) hd hother
  rw [hold,hnew] at heq
  simp only [Option.some.injEq,reduceCtorEq,Set.ofPred_false,Set.union_empty] at heq
  rw [heq,Set.insert_eq,Set.union_comm]
  congr 1
  ext g
  exact eq_comm

theorem Owned.used_setEntry (h : Owned fmt V S free m) (hd : d ∈ S) (ht : fmt.table m d k.1 = some t)
    (ho : fmt.own k = true) :
    used fmt S (fmt.setEntry m d k w) ∪ {f | fmt.link (fmt.entry m d k) = some f} =
      used fmt S m ∪ {f | fmt.link w = some f} := by
  have hother : ∀ u : Use F, u.root ∈ S → u ≠ .leaf d k → u.frame fmt (fmt.setEntry m d k w) = u.frame fmt m :=
    fun u hu hne => h.frame_setEntry_of_ne hd hu hne
  have heq := used_except (.leaf d k) hd hother
  simpa only [Use.frame,ho,if_true,h.entry_setEntry_same hd ht] using heq

theorem Owned.used_setEntry_foreign (h : Owned fmt V S free m) (hd : d ∈ S) (ho : fmt.own k = false) :
    used fmt S (fmt.setEntry m d k w) = used fmt S m := by
  refine used_congr fun u hu => ?_
  by_cases hne : u = .leaf d k
  · subst hne
    simp only [Use.frame,ho,Bool.false_eq_true,if_false]
  · exact h.frame_setEntry_of_ne hd hu hne

end Xv6Paging.PageTree
