import Mathlib.Algebra.Order.Ring.Nat

/-! # Finite maps in arrays with holes

An array of `n` cells stores one binding in a cell or nothing. While no key stands in two
cells the array denotes a finite map, writing a binding for a new key into a hole or
behind the last cell extends this map, and emptying a cell erases its key.
-/
namespace Xv6Paging.SlotMap
open Function
variable {κ ν : Type*}

def Binds (n : ℕ) (cell : ℕ → Option (κ × ν)) (i : ℕ) (k : κ) (v : ν) : Prop := i < n ∧ cell i = some (k,v)

def Distinct (n : ℕ) (cell : ℕ → Option (κ × ν)) : Prop :=
  ∀ i j k v w, Binds n cell i k v → Binds n cell j k w → i = j

def Denotes (n : ℕ) (cell : ℕ → Option (κ × ν)) (m : κ → Option ν) : Prop :=
  ∀ k v, m k = some v ↔ ∃ i, Binds n cell i k v

variable {n : ℕ} {cell : ℕ → Option (κ × ν)} {m : κ → Option ν} {i : ℕ} {k : κ} {v : ν}

theorem Denotes.eq_none_iff (h : Denotes n cell m) : m k = none ↔ ∀ i v, ¬ Binds n cell i k v := by
  rw [Option.eq_none_iff_forall_ne_some]
  constructor
  · intro hk i v hb
    exact hk v ((h k v).mpr ⟨i,hb⟩)
  · intro hk v hv
    obtain ⟨i,hb⟩ := (h k v).mp hv
    exact hk i v hb

section Put
variable (hi : i ≤ n) (hhole : i < n → cell i = none)
include hi hhole

/-- The bindings after one has been written into cell `i`, a hole or the first cell behind the array. -/
theorem binds_put {j : ℕ} {k' : κ} {v' : ν} :
    Binds (max n (i+1)) (update cell i (some (k,v))) j k' v' ↔
      (j = i ∧ k' = k ∧ v' = v) ∨ Binds n cell j k' v' := by
  by_cases hj : j = i
  · subst hj
    have hnot : ¬ Binds n cell j k' v' := by
      rintro ⟨hlt,hc⟩
      rw [hhole hlt] at hc
      cases hc
    have hlt : j < max n (j+1) := lt_max_of_lt_right (Nat.lt_succ_self j)
    rw [Binds,update_self,Option.some.injEq,Prod.mk.injEq]
    constructor
    · rintro ⟨-,rfl,rfl⟩
      exact Or.inl ⟨rfl,rfl,rfl⟩
    · rintro (⟨-,rfl,rfl⟩ | hb)
      · exact ⟨hlt,rfl,rfl⟩
      · exact absurd hb hnot
  · have hlt : j < max n (i+1) ↔ j < n := by omega
    rw [Binds,Binds,update_of_ne hj,hlt]
    constructor
    · exact Or.inr
    · rintro (⟨he,-⟩ | hb)
      · exact absurd he hj
      · exact hb

theorem Distinct.put (h : Distinct n cell) (hnew : ∀ j w, ¬ Binds n cell j k w) :
    Distinct (max n (i+1)) (update cell i (some (k,v))) := by
  intro a b k' x y ha hb
  rw [binds_put hi hhole] at ha hb
  rcases ha with ⟨rfl,rfl,-⟩ | ha
  · rcases hb with ⟨rfl,-⟩ | hb
    · rfl
    · exact absurd hb (hnew b y)
  · rcases hb with ⟨rfl,rfl,-⟩ | hb
    · exact absurd ha (hnew a x)
    · exact h a b k' x y ha hb

theorem Denotes.put [DecidableEq κ] (h : Denotes n cell m) (hnew : ∀ j w, ¬ Binds n cell j k w) :
    Denotes (max n (i+1)) (update cell i (some (k,v))) (update m k (some v)) := by
  intro k' v'
  simp only [binds_put hi hhole]
  by_cases hk : k' = k
  · subst hk
    rw [update_self,Option.some.injEq]
    constructor
    · rintro rfl
      exact ⟨i,Or.inl ⟨rfl,rfl,rfl⟩⟩
    · rintro ⟨j,⟨-,-,rfl⟩ | hb⟩
      · rfl
      · exact absurd hb (hnew j v')
  · rw [update_of_ne hk,h k' v']
    constructor
    · rintro ⟨j,hb⟩
      exact ⟨j,Or.inr hb⟩
    · rintro ⟨j,⟨-,he,-⟩ | hb⟩
      · exact absurd he hk
      · exact ⟨j,hb⟩

end Put

section Clear

theorem binds_clear {j : ℕ} {k' : κ} {v' : ν} :
    Binds n (update cell i none) j k' v' ↔ j ≠ i ∧ Binds n cell j k' v' := by
  by_cases hj : j = i
  · subst hj
    rw [Binds,update_self]
    constructor
    · rintro ⟨-,⟨⟩⟩
    · rintro ⟨hne,-⟩
      exact absurd rfl hne
  · rw [Binds,Binds,update_of_ne hj]
    exact (and_iff_right hj).symm

theorem Distinct.clear (h : Distinct n cell) : Distinct n (update cell i none) := by
  intro a b k x y ha hb
  rw [binds_clear] at ha hb
  exact h a b k x y ha.2 hb.2

theorem Denotes.clear [DecidableEq κ] (h : Denotes n cell m) (hd : Distinct n cell) (hb : Binds n cell i k v) :
    Denotes n (update cell i none) (update m k none) := by
  intro k' v'
  simp only [binds_clear]
  by_cases hk : k' = k
  · subst hk
    rw [update_self]
    constructor
    · rintro ⟨⟩
    · rintro ⟨j,hj,hb'⟩
      exact absurd (hd j i k' v' v hb' hb) hj
  · rw [update_of_ne hk,h k' v']
    constructor
    · rintro ⟨j,hb'⟩
      refine ⟨j,?_,hb'⟩
      rintro rfl
      have he := hb.2.symm.trans hb'.2
      rw [Option.some.injEq,Prod.mk.injEq] at he
      exact hk he.1.symm
    · rintro ⟨j,-,hb'⟩
      exact ⟨j,hb'⟩

end Clear

end Xv6Paging.SlotMap
