import Mathlib.Data.List.Nodup

/-! # Copying cells one after the other

A loop that copies the cells `src k` to the cells `dst k` in some order of the indices. A cell that has been written may
be the source of a later step, so the order decides what arrives.
-/
namespace Xv6Paging.CopyOrder
variable {A β : Type*} [DecidableEq A] (dst src : ℕ → A)

def copyCell (m : A → β) (k : ℕ) : A → β := Function.update m (dst k) (m (src k))

def copyAll (m : A → β) (ks : List ℕ) : A → β := ks.foldl (copyCell dst src) m

variable {dst src} {m : A → β} {pre post ks : List ℕ} {j k : ℕ} {a : A}

theorem copyAll_cons : copyAll dst src m (k :: ks) = copyAll dst src (copyCell dst src m k) ks := rfl

theorem copyAll_map (f : ℕ → ℕ) :
    copyAll dst src m (ks.map f) = copyAll (fun k => dst (f k)) (fun k => src (f k)) m ks := List.foldl_map

theorem copyAll_of_forall_ne (h : ∀ k ∈ ks, dst k ≠ a) : copyAll dst src m ks a = m a := by
  induction ks generalizing m with
  | nil => rfl
  | cons k ks ih =>
    rw [copyAll_cons,ih fun j hj => h j (List.mem_cons_of_mem k hj)]
    exact Function.update_of_ne (h k List.mem_cons_self).symm _ _

theorem copyAll_at (h : ∀ k ∈ post, dst k ≠ dst j) :
    copyAll dst src m (pre ++ j :: post) (dst j) = copyAll dst src m pre (src j) := by
  rw [copyAll,List.foldl_append]
  exact (copyAll_of_forall_ne h).trans (Function.update_self _ _ _)

theorem copyAll_range_at {n : ℕ} (hj : j < n) (h : ∀ k, j < k → k < n → dst k ≠ dst j) :
    copyAll dst src m (List.range n) (dst j) = copyAll dst src m (List.range j) (src j) := by
  obtain ⟨e,rfl⟩ : ∃ e, n = j+(e+1) := ⟨n-j-1,by omega⟩
  rw [List.range_add,List.range_succ_eq_map,List.map_cons]
  refine copyAll_at fun k hk => ?_
  obtain ⟨i,hi,rfl⟩ := List.mem_map.mp hk
  obtain ⟨i,hi',rfl⟩ := List.mem_map.mp hi
  rw [List.mem_range] at hi'
  exact h _ (by omega) (by omega)

/-- If no cell is written before it is read, every cell arrives. -/
theorem copyAll_of_pairwise (hdst : ks.Pairwise fun k j => dst k ≠ dst j) (hsrc : ks.Pairwise fun k j => dst k ≠ src j)
    (hk : k ∈ ks) : copyAll dst src m ks (dst k) = m (src k) := by
  obtain ⟨pre,post,rfl⟩ := List.append_of_mem hk
  have hpost : ∀ i ∈ post, dst i ≠ dst k := by
    intro i hi
    exact ((List.pairwise_cons.mp (List.pairwise_append.mp hdst).2.1).1 i hi).symm
  rw [copyAll_at hpost]
  exact copyAll_of_forall_ne fun i hi => (List.pairwise_append.mp hsrc).2.2 i hi k List.mem_cons_self

end Xv6Paging.CopyOrder
