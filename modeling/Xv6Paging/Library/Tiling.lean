import Mathlib.Data.List.Chain
import Mathlib.Algebra.Order.Ring.Nat
import Mathlib.Algebra.BigOperators.Group.List.Basic

/-! # Tilings of an interval

Blocks that lie one behind the other, from one address to another, without a gap. A block starts at `lo` and
ends before `hi`.
-/
namespace Xv6Paging.Tiling
variable {τ : Type*} {lo hi : τ → ℕ} {a e : ℕ} {l : List τ}

/-- The blocks of the list fill the interval from `a` to `e` in this order. -/
def Tiles (lo hi : τ → ℕ) : ℕ → List τ → ℕ → Prop
  | a, [], e => a = e
  | a, t :: l, e => lo t = a ∧ lo t < hi t ∧ Tiles lo hi (hi t) l e

theorem tiles_append {l₁ l₂ : List τ} :
    Tiles lo hi a (l₁ ++ l₂) e ↔ ∃ m, Tiles lo hi a l₁ m ∧ Tiles lo hi m l₂ e := by
  induction l₁ generalizing a with
  | nil => simp [Tiles]
  | cons t l ih =>
    simp only [List.cons_append,Tiles,ih]
    constructor
    · rintro ⟨h1,h2,m,h3,h4⟩
      exact ⟨m,⟨h1,h2,h3⟩,h4⟩
    · rintro ⟨m,⟨h1,h2,h3⟩,h4⟩
      exact ⟨h1,h2,m,h3,h4⟩

section
variable (h : Tiles lo hi a l e)
include h

theorem Tiles.le : a ≤ e := by
  induction l generalizing a with
  | nil => exact Nat.le_of_eq h
  | cons t l ih =>
    obtain ⟨h1,h2,h3⟩ := h
    have hle := ih h3
    omega

theorem Tiles.mem {t : τ} (ht : t ∈ l) : a ≤ lo t ∧ lo t < hi t ∧ hi t ≤ e := by
  induction l generalizing a with
  | nil => cases ht
  | cons u l ih =>
    obtain ⟨h1,h2,h3⟩ := h
    obtain rfl | ht := List.mem_cons.mp ht
    · exact ⟨Nat.le_of_eq h1.symm,h2,h3.le⟩
    · obtain ⟨hlo,hrest⟩ := ih h3 ht
      exact ⟨by omega,hrest⟩

theorem Tiles.pairwise : l.Pairwise fun s t => hi s ≤ lo t := by
  induction l generalizing a with
  | nil => exact .nil
  | cons t l ih =>
    obtain ⟨-,-,h3⟩ := h
    exact .cons (fun u hu => (h3.mem hu).1) (ih h3)

theorem Tiles.disjoint {s t : τ} (hs : s ∈ l) (ht : t ∈ l) (hne : s ≠ t) : hi s ≤ lo t ∨ hi t ≤ lo s := by
  induction l generalizing a with
  | nil => cases hs
  | cons u l ih =>
    obtain ⟨-,-,h3⟩ := h
    obtain rfl | hs' := List.mem_cons.mp hs
    · obtain rfl | ht' := List.mem_cons.mp ht
      · exact (hne rfl).elim
      · exact Or.inl (h3.mem ht').1
    · obtain rfl | ht' := List.mem_cons.mp ht
      · exact Or.inr (h3.mem hs').1
      · exact ih h3 hs' ht'

theorem Tiles.inj {s t : τ} (hs : s ∈ l) (ht : t ∈ l) (heq : lo s = lo t) : s = t := by
  by_contra hne
  have hs' := h.mem hs
  have ht' := h.mem ht
  have hdis := h.disjoint hs ht hne
  omega

theorem Tiles.sum : a+(l.map fun t => hi t-lo t).sum = e := by
  induction l generalizing a with
  | nil => exact h
  | cons t l ih =>
    obtain ⟨h1,h2,h3⟩ := h
    have hrest := ih h3
    rw [List.map_cons,List.sum_cons]
    omega

theorem Tiles.length_le : a+l.length ≤ e := by
  induction l generalizing a with
  | nil => exact Nat.le_of_eq h
  | cons t l ih =>
    obtain ⟨h1,h2,h3⟩ := h
    have hrest := ih h3
    rw [List.length_cons]
    omega

theorem Tiles.apart {p : τ → Bool}
    (hsep : l.IsChain fun s t => ¬ (p s = true ∧ p t = true)) : (l.filter p).Pairwise fun s t => hi s < lo t := by
  induction l generalizing a with
  | nil => exact .nil
  | cons t l ih =>
    obtain ⟨-,-,h3⟩ := h
    obtain ⟨hhead,hrest⟩ := List.isChain_cons.mp hsep
    cases hp : p t with
    | false =>
      rw [List.filter_cons_of_neg (by simp [hp])]
      exact ih h3 hrest
    | true =>
      rw [List.filter_cons_of_pos hp]
      refine .cons ?_ (ih h3 hrest)
      intro u hu
      obtain ⟨hu,hpu⟩ := List.mem_filter.mp hu
      -- The block behind `t` is of the other kind, so `u` comes after it.
      cases l with
      | nil => cases hu
      | cons v l =>
        obtain ⟨h4,h5,h6⟩ := h3
        obtain rfl | hu := List.mem_cons.mp hu
        · exact (hhead _ rfl ⟨hp,hpu⟩).elim
        · have hle := (h6.mem hu).1
          omega

end

end Xv6Paging.Tiling
