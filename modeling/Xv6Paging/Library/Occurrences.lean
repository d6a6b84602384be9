import Mathlib.Algebra.Order.Ring.Nat
import Mathlib.Data.List.Nodup

/-! # Occurrences of a value

How often a function takes a value on a list of arguments without repetitions, and how that number
follows a change at one argument.
-/
namespace Xv6Paging.Occurrences
open Function
variable {ι β : Type*} [DecidableEq ι] [DecidableEq β] {l : List ι} {g : ι → β}

def occurrences (l : List ι) (g : ι → β) (y : β) : ℕ := l.countP fun x => decide (g x = y)

def one (x y : β) : ℕ := if x = y then 1 else 0

@[simp] theorem one_self (x : β) : one x x = 1 := if_pos rfl

theorem one_of_ne {x y : β} (h : x ≠ y) : one x y = 0 := if_neg h

omit [DecidableEq ι] in
theorem occurrences_cons (i : ι) (l : List ι) (g : ι → β) (y : β) :
    occurrences (i :: l) g y = occurrences l g y+one (g i) y := by
  rw [occurrences,List.countP_cons,one]
  by_cases h : g i = y
  · rw [if_pos (decide_eq_true h),if_pos h]
    rfl
  · rw [if_neg (by simpa using h),if_neg h]
    rfl

theorem occurrences_update_of_notMem {i : ι} (hi : i ∉ l) (v y : β) :
    occurrences l (update g i v) y = occurrences l g y := by
  refine List.countP_congr ?_
  intro x hx
  have hne : x ≠ i := by
    rintro rfl
    exact hi hx
  rw [update_of_ne hne]

/-- A change at one argument takes one occurrence from the old value and gives it to the new one. -/
theorem occurrences_update (hl : l.Nodup) {i : ι} (hi : i ∈ l) (v y : β) :
    occurrences l (update g i v) y+one (g i) y = occurrences l g y+one v y := by
  induction l with
  | nil => cases hi
  | cons j l ih =>
    obtain ⟨hj,hnd⟩ := List.nodup_cons.mp hl
    rw [occurrences_cons,occurrences_cons]
    by_cases he : i = j
    · subst he
      rw [occurrences_update_of_notMem hj,update_self]
      omega
    · have hmem : i ∈ l := (List.mem_cons.mp hi).resolve_left he
      have hrest := ih hnd hmem
      rw [update_of_ne (Ne.symm he)]
      omega

omit [DecidableEq ι] in
theorem occurrences_pos {i : ι} (hi : i ∈ l) {y : β} (h : g i = y) : 0 < occurrences l g y :=
  List.countP_pos_iff.mpr ⟨i,hi,decide_eq_true h⟩

omit [DecidableEq ι] in
theorem exists_of_occurrences_ne_zero {y : β} (h : occurrences l g y ≠ 0) : ∃ i ∈ l, g i = y := by
  obtain ⟨i,hi,hy⟩ := List.countP_pos_iff.mp (Nat.pos_of_ne_zero h)
  exact ⟨i,hi,of_decide_eq_true hy⟩

end Xv6Paging.Occurrences
