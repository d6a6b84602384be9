import Mathlib.Data.List.Nodup
import Mathlib.Data.List.Perm.Subperm

/-! # Scanning an array for a key

A loop visits the cells of an array in order, acts on every cell that holds a key and
counts the cells it found. Acting on a cell may change the state in any way as long as
the other cells keep their keys. The loop then finds each matching cell exactly once.
-/
namespace Xv6Paging.ArrayScan
variable {P ι κ : Type*} [DecidableEq κ]

/-- Acts on every cell of the list whose content is `k`, in order. -/
def scan (content : P → ι → κ) (act : P → ι → P) (k : κ) (l : List ι) (start : P × ℕ) : P × ℕ :=
  l.foldl (fun s i => if content s.1 i = k then (act s.1 i,s.2+1) else s) start

variable {content : P → ι → κ} {act : P → ι → P} {k : κ}

@[simp] theorem scan_nil (s : P × ℕ) : scan content act k [] s = s := rfl
theorem scan_cons (i : ι) (l : List ι) (s : P × ℕ) : scan content act k (i :: l) s =
    scan content act k l (if content s.1 i = k then (act s.1 i,s.2+1) else s) := rfl

theorem scan_of_forall_ne {l : List ι} {s : P × ℕ} (h : ∀ i ∈ l, content s.1 i ≠ k) :
    scan content act k l s = s := by
  induction l with
  | nil => rfl
  | cons i l ih =>
    rw [scan_cons,if_neg (h i List.mem_cons_self)]
    exact ih fun j hj => h j (List.mem_cons_of_mem _ hj)

/-- A single matching cell is acted on once. -/
theorem scan_of_unique (hact : ∀ p i j, j ≠ i → content (act p i) j = content p j)
    {l : List ι} (hnd : l.Nodup) {s : P × ℕ} {i : ι} (hi : i ∈ l) (hk : content s.1 i = k)
    (hu : ∀ j ∈ l, content s.1 j = k → j = i) :
    scan content act k l s = (act s.1 i,s.2+1) := by
  induction l with
  | nil => cases hi
  | cons j l ih =>
    rw [List.nodup_cons] at hnd
    rw [scan_cons]
    by_cases hj : content s.1 j = k
    · obtain rfl := hu j List.mem_cons_self hj
      rw [if_pos hj]
      refine scan_of_forall_ne fun m hm hmk => ?_
      have hne : m ≠ j := by
        rintro rfl
        exact hnd.1 hm
      rw [hact _ _ _ hne] at hmk
      exact hne (hu m (List.mem_cons_of_mem _ hm) hmk)
    · rw [if_neg hj]
      have hi' : i ∈ l := by
        rcases List.mem_cons.mp hi with rfl | hi
        · exact (hj hk).elim
        · exact hi
      exact ih hnd.2 hi' fun m hm => hu m (List.mem_cons_of_mem _ hm)

theorem scan_unchanged {γ : Type*} {g : P → γ} (hg : ∀ p i, g (act p i) = g p) (l : List ι)
    (s : P × ℕ) : g (scan content act k l s).1 = g s.1 := by
  induction l generalizing s with
  | nil => rfl
  | cons i l ih =>
    rw [scan_cons,ih]
    split
    · exact hg _ _
    · rfl

section
variable (hact : ∀ p i j, j ≠ i → content (act p i) j = content p j)
include hact

/-- When acting on a cell replaces its key by `z`, the scan replaces every match by `z`. -/
theorem scan_content {z : κ}
    (hz : ∀ p i, content (act p i) i = z) (hzk : z ≠ k) (l : List ι) (s : P × ℕ) (j : ι) :
    content (scan content act k l s).1 j = content s.1 j ∨
      content s.1 j = k ∧ content (scan content act k l s).1 j = z := by
  induction l generalizing s with
  | nil => exact Or.inl rfl
  | cons i l ih =>
    rw [scan_cons]
    by_cases hi : content s.1 i = k
    · rw [if_pos hi]
      by_cases hji : j = i
      · subst hji
        refine Or.inr ⟨hi,?_⟩
        rcases ih (act s.1 j,s.2+1) with h | h
        · rw [h]
          exact hz _ _
        · exact (hzk ((hz _ _).symm.trans h.1)).elim
      · have h := ih (act s.1 i,s.2+1)
        rwa [hact _ _ _ hji] at h
    · rw [if_neg hi]
      exact ih s

theorem scan_content_ne {z : κ}
    (hz : ∀ p i, content (act p i) i = z) (hzk : z ≠ k) {l : List ι} (s : P × ℕ) {j : ι}
    (hj : j ∈ l) : content (scan content act k l s).1 j ≠ k := by
  induction l generalizing s with
  | nil => cases hj
  | cons i l ih =>
    rw [scan_cons]
    rcases List.mem_cons.mp hj with rfl | hj
    · intro h
      by_cases hi : content s.1 j = k
      · rw [if_pos hi] at h
        rcases scan_content hact hz hzk l (act s.1 j,s.2+1) j with h' | h'
        · exact hzk ((hz _ _).symm.trans (h'.symm.trans h))
        · exact hzk (h'.2.symm.trans h)
      · rw [if_neg hi] at h
        rcases scan_content hact hz hzk l s j with h' | h'
        · exact hi (h'.symm.trans h)
        · exact hi h'.1
    · exact ih _ hj

theorem scan_count {l : List ι} (hnd : l.Nodup) (s : P × ℕ) :
    (scan content act k l s).2 = s.2+l.countP fun i => content s.1 i = k := by
  induction l generalizing s with
  | nil => rfl
  | cons i l ih =>
    rw [List.nodup_cons] at hnd
    rw [scan_cons,ih hnd.2,List.countP_cons]
    by_cases hi : content s.1 i = k
    · have hc : l.countP (fun j => decide (content (act s.1 i) j = k)) =
          l.countP (fun j => decide (content s.1 j = k)) := by
        refine List.countP_congr fun j hj => ?_
        rw [hact _ _ _ (by rintro rfl; exact hnd.1 hj)]
      simp only [hi,if_true,decide_true,hc]
      omega
    · simp [hi]

/-- A scan that found at most one cell either changed nothing or acted on the one match. -/
theorem scan_cases {l : List ι} (hnd : l.Nodup) {s : P × ℕ} (hf : (scan content act k l s).2 ≤ s.2+1) :
    (scan content act k l s = s ∧ ∀ i ∈ l, content s.1 i ≠ k) ∨
    ∃ i ∈ l, content s.1 i = k ∧ (∀ j ∈ l, content s.1 j = k → j = i) ∧
      scan content act k l s = (act s.1 i,s.2+1) := by
  by_cases h : ∃ i ∈ l, content s.1 i = k
  · obtain ⟨i,hi,hk⟩ := h
    have hu : ∀ j ∈ l, content s.1 j = k → j = i := by
      intro j hj hjk
      by_contra hne
      have hsub : [i,j].Subperm l := by
        refine List.subperm_of_subset (by simp [Ne.symm hne]) ?_
        intro m hm
        rcases List.mem_pair.mp hm with rfl | rfl
        · exact hi
        · exact hj
      have h2 := hsub.countP_le fun i => decide (content s.1 i = k)
      rw [scan_count hact hnd] at hf
      simp [hk,hjk] at h2
      omega
    exact Or.inr ⟨i,hi,hk,hu,scan_of_unique hact hnd hi hk hu⟩
  · push Not at h
    exact Or.inl ⟨scan_of_forall_ne h,h⟩

end

end Xv6Paging.ArrayScan
