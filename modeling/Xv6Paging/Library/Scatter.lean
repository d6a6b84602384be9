import Mathlib.Algebra.Order.Ring.Nat

/-! # Copies to scattered places

A sequence is copied to places that a partial function gives for its positions. Two copies one after the other are
one copy of the longer sequence if the second one does not go to the places of the first.
-/
namespace Xv6Paging.Scatter

variable {ι β : Type*}

structure Scattered (c : ℕ → Option ι) (src : ℕ → β) (n : ℕ) (m m' : ι → β) : Prop where
  copied : ∀ k < n, ∀ i, c k = some i → m' i = src k
  other : ∀ i, (∀ k < n, c k ≠ some i) → m' i = m i

def InjOn (c : ℕ → Option ι) (n : ℕ) : Prop := ∀ k < n, ∀ k' < n, ∀ i, c k = some i → c k' = some i → k = k'

section
variable {c : ℕ → Option ι} {src : ℕ → β} {m m₁ m₂ : ι → β} {a n : ℕ}

theorem Scattered.zero : Scattered c src 0 m m :=
  ⟨fun k hk => (Nat.not_lt_zero k hk).elim,fun _ _ => rfl⟩

theorem InjOn.mono (h : InjOn c n) {k : ℕ} (hk : k ≤ n) : InjOn c k := fun x hx y hy =>
  h x (hx.trans_le hk) y (hy.trans_le hk)

theorem InjOn.drop (h : InjOn c (a+n)) : InjOn (fun k => c (a+k)) n := by
  intro x hx y hy i hxi hyi
  exact Nat.add_left_cancel (h (a+x) (Nat.add_lt_add_left hx a) (a+y) (Nat.add_lt_add_left hy a) i hxi hyi)

theorem Scattered.append (hinj : InjOn c (a+n)) (h₁ : Scattered c src a m m₁)
    (h₂ : Scattered (fun k => c (a+k)) (fun k => src (a+k)) n m₁ m₂) : Scattered c src (a+n) m m₂ := by
  refine ⟨fun k hk i hi => ?_,fun i hi => ?_⟩
  · rcases Nat.lt_or_ge k a with hlt | hge
    · -- An element of the first copy stays.
      rw [h₂.other i fun k' hk' hk'i => ?_,h₁.copied k hlt i hi]
      have heq := hinj k hk (a+k') (Nat.add_lt_add_left hk' a) i hi hk'i
      omega
    · obtain ⟨k',rfl⟩ := Nat.exists_eq_add_of_le hge
      exact h₂.copied k' (by omega) i hi
  · rw [h₂.other i fun k' hk' => hi (a+k') (Nat.add_lt_add_left hk' a),h₁.other i fun k' hk' => hi k' (by omega)]

theorem Scattered.congr {c' : ℕ → Option ι} (h : Scattered c src n m m₁) (hc : ∀ k < n, c' k = c k) :
    Scattered c' src n m m₁ := by
  refine ⟨fun k hk i hi => h.copied k hk i (hc k hk ▸ hi),fun i hi => h.other i fun k hk => ?_⟩
  rw [← hc k hk]
  exact hi k hk

end

end Xv6Paging.Scatter
