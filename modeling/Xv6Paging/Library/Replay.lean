import Mathlib.Data.Nat.Notation
import Mathlib.Logic.Function.Basic

/-! # Replaying updates

A store is a function from places to contents, and an update overwrites one place.
Replaying a list of updates leaves at each place the last content written to it.
-/
namespace Xv6Paging.Replay
open Function
variable {ι α : Type*} [DecidableEq ι]

def replay (d : ι → α) (us : List (ι × α)) : ι → α :=
  us.foldl (fun d u => update d u.1 u.2) d

@[simp] theorem replay_nil (d : ι → α) : replay d [] = d := rfl

theorem replay_append (d : ι → α) (us vs : List (ι × α)) :
    replay d (us ++ vs) = replay (replay d us) vs := List.foldl_append

@[simp] theorem replay_concat (d : ι → α) (us : List (ι × α)) (i : ι) (v : α) :
    replay d (us ++ [(i,v)]) = update (replay d us) i v := replay_append d us [(i,v)]

theorem replay_of_notMem (d : ι → α) {us : List (ι × α)} {i : ι} (h : ∀ u ∈ us, u.1 ≠ i) :
    replay d us i = d i := by
  induction us generalizing d with
  | nil => rfl
  | cons u us ih =>
    have hu := h u List.mem_cons_self
    have hr := ih (update d u.1 u.2) fun v hv => h v (List.mem_cons_of_mem _ hv)
    rw [update_of_ne hu.symm] at hr
    exact hr

end Xv6Paging.Replay
