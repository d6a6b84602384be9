import Mathlib.Data.Nat.Notation

/-! # Outcomes of computations that may fail

A computation in `Except` either returns a value or fails. `Outcome x Q E` bounds both
sides at once: with `E` false it is total correctness, with `E` true partial correctness,
and in between it names the failures that remain possible. The rules follow the ways
computations are composed.
-/
namespace Xv6Paging

/-- The computation returns a value that satisfies `Q` or fails with an error that satisfies `E`.
It is irreducible so that proofs about a computation never run it. -/
@[irreducible] def Outcome {ε α : Type*} (x : Except ε α) (Q : α → Prop) (E : ε → Prop) : Prop :=
  match x with
  | .ok a => Q a
  | .error e => E e

namespace Outcome
variable {ε : Type*} {α β σ ι : Type} {x : Except ε α} {Q Q' : α → Prop} {E E' : ε → Prop}

@[simp] theorem ok_iff {a : α} : Outcome (.ok a) Q E ↔ Q a := by
  unfold Outcome
  exact Iff.rfl
@[simp] theorem error_iff {e : ε} : Outcome (.error e) Q E ↔ E e := by
  unfold Outcome
  exact Iff.rfl
theorem ok {a : α} (h : Q a) : Outcome (.ok a) Q E := ok_iff.mpr h
theorem error {e : ε} (h : E e) : Outcome (.error e) Q E := error_iff.mpr h

theorem total_iff : Outcome x Q (fun _ => False) ↔ ∃ a, x = .ok a ∧ Q a := by
  cases x <;> simp

theorem of_ok (h : Outcome x Q E) {a : α} (hx : x = .ok a) : Q a := by
  subst hx
  exact ok_iff.mp h

theorem of_error (h : Outcome x Q E) {e : ε} (hx : x = .error e) : E e := by
  subst hx
  exact error_iff.mp h

theorem mono (h : Outcome x Q E) (hQ : ∀ a, Q a → Q' a) (hE : ∀ e, E e → E' e) :
    Outcome x Q' E' := by
  cases x with
  | ok a => exact ok (hQ a (h.of_ok rfl))
  | error e => exact error (hE e (h.of_error rfl))

theorem post (h : Outcome x Q E) (hQ : ∀ a, Q a → Q' a) : Outcome x Q' E := h.mono hQ fun _ => id

theorem bind {f : α → Except ε β} {R : β → Prop} (h : Outcome x Q E)
    (hf : ∀ a, Q a → Outcome (f a) R E) : Outcome (x >>= f) R E := by
  cases x with
  | ok a => exact hf a (h.of_ok rfl)
  | error e => exact error (h.of_error rfl)

/-- What every step of a loop over a list keeps, the loop keeps. -/
theorem foldlM {f : σ → ι → Except ε σ} {I : σ → Prop} {l : List ι}
    (hf : ∀ i ∈ l, ∀ s, I s → Outcome (f s i) I E) {s : σ} (hs : I s) :
    Outcome (l.foldlM f s) I E := by
  induction l generalizing s with
  | nil => exact ok hs
  | cons i l ih =>
    rw [List.foldlM_cons]
    exact (hf i List.mem_cons_self s hs).bind fun t ht =>
      ih (fun j hj => hf j (List.mem_cons_of_mem _ hj)) ht

end Outcome

/-- A loop over a list whose state after every part of the list is known. -/
theorem foldlM_eq_ok {ε ι σ : Type} {f : σ → ι → Except ε σ} {l : List ι} (S : List ι → σ)
    (h : ∀ done i todo, l = done ++ i :: todo → f (S done) i = .ok (S (done ++ [i]))) :
    l.foldlM f (S []) = .ok (S l) := by
  have hgen (todo done : List ι) (hall : l = done ++ todo) : todo.foldlM f (S done) = .ok (S l) := by
    induction todo generalizing done with
    | nil =>
      rw [hall,List.append_nil]
      rfl
    | cons i todo ih =>
      rw [List.foldlM_cons,h done i todo hall]
      exact ih (done ++ [i]) (by rw [hall]; simp)
  exact hgen l [] rfl

theorem foldlM_ok_mem {ε ι σ : Type} {f : σ → ι → Except ε σ} {l : List ι} {s t : σ} (h : l.foldlM f s = .ok t)
    {i : ι} (hi : i ∈ l) : ∃ a b, f a i = .ok b := by
  induction l generalizing s with
  | nil => exact absurd hi List.not_mem_nil
  | cons j l ih =>
    rw [List.foldlM_cons] at h
    cases hj : f s j with
    | error e =>
      rw [hj] at h
      cases h
    | ok s' =>
      rw [hj] at h
      rcases List.mem_cons.mp hi with rfl | hi
      · exact ⟨s,s',hj⟩
      · exact ih h hi

/-- The two parts of a computation that returned. -/
theorem bind_eq_ok {ε : Type*} {α β : Type} {x : Except ε α} {f : α → Except ε β} {b : β}
    (h : x >>= f = .ok b) : ∃ a, x = .ok a ∧ f a = .ok b := by
  cases x with
  | error e => cases h
  | ok a => exact ⟨a,rfl,h⟩

theorem exists_eq_ok {ε : Type*} {α : Type} {x : Except ε α} {p : α → Bool} (h : x.toOption.map p = some true) :
    ∃ a, x = .ok a ∧ p a = true := by
  cases x with
  | error e => cases h
  | ok a => exact ⟨a,rfl,Option.some.inj h⟩

end Xv6Paging
