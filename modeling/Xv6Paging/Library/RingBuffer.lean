import Mathlib.Algebra.Order.Ring.Nat
import Mathlib.Data.List.Basic

/-! # Ring buffers with free-running counters

The cells of a ring are numbered by 32-bit counters that are never reduced: the cell of a
counter is its remainder. The segment of length `n` from counter `r` is what a reader
takes from there. The ring's size divides the number of counter values, so that a segment
may run across the point where the counters wrap.
-/
namespace Xv6Paging.RingBuffer
variable {α : Type*} {N : ℕ}

abbrev Counter := BitVec 32

def cell (hN : 0 < N) (c : Counter) : Fin N := ⟨c.toNat%N,Nat.mod_lt _ hN⟩

def segment (hN : 0 < N) (data : Fin N → α) : Counter → ℕ → List α
  | _, 0 => []
  | r, n+1 => data (cell hN r) :: segment hN data (r+1) n

def put (hN : 0 < N) (data : Fin N → α) (c : Counter) (x : α) : Fin N → α := Function.update data (cell hN c) x

variable {hN : 0 < N} (data : Fin N → α) (r : Counter)

theorem segment_succ (n : ℕ) : segment hN data r (n+1) = data (cell hN r) :: segment hN data (r+1) n := rfl

theorem add_one_add (n : ℕ) : r+1+BitVec.ofNat 32 n = r+BitVec.ofNat 32 (n+1) := by
  apply BitVec.eq_of_toNat_eq
  simp only [BitVec.toNat_add,BitVec.toNat_ofNat,BitVec.ofNat_eq_ofNat]
  omega

theorem segment_append (n k : ℕ) :
    segment hN data r (n+k) = segment hN data r n ++ segment hN data (r+BitVec.ofNat 32 n) k := by
  induction n generalizing r with
  | zero =>
    have h : r+BitVec.ofNat 32 0 = r := by simp
    rw [h,Nat.zero_add]
    rfl
  | succ n ih =>
    have hn : n+1+k = n+k+1 := by omega
    rw [hn,segment_succ,ih (r+1),add_one_add]
    rfl

theorem segment_concat (n : ℕ) :
    segment hN data r (n+1) = segment hN data r n ++ [data (cell hN (r+BitVec.ofNat 32 n))] :=
  segment_append data r n 1

/-- Counters less than a ring apart have different cells. -/
theorem cell_ne (hd : N ∣ 2^32) {i j : ℕ} (hij : i < j) (hj : j < i+N) :
    cell hN (r+BitVec.ofNat 32 i) ≠ cell hN (r+BitVec.ofNat 32 j) := by
  intro he
  have hv : (r.toNat+i)%N = (r.toNat+j)%N := by
    have hval := congrArg Fin.val he
    simp only [cell,BitVec.toNat_add,BitVec.toNat_ofNat,Nat.add_mod_mod] at hval
    rwa [Nat.mod_mod_of_dvd _ hd,Nat.mod_mod_of_dvd _ hd] at hval
  have hdvd : N ∣ (r.toNat+j)-(r.toNat+i) := Nat.dvd_of_mod_eq_zero (Nat.sub_mod_eq_zero_of_mod_eq hv.symm)
  have hle := Nat.le_of_dvd (by omega) hdvd
  omega

theorem segment_put (hd : N ∣ 2^32) {n : ℕ} (hn : n < N) (x : α) {k : ℕ} (hk : k ≤ n) :
    segment hN (put hN data (r+BitVec.ofNat 32 n) x) r k = segment hN data r k := by
  induction k with
  | zero => rfl
  | succ k ih =>
    have hne : cell hN (r+BitVec.ofNat 32 k) ≠ cell hN (r+BitVec.ofNat 32 n) :=
      cell_ne r hd (by omega) (by omega)
    rw [segment_concat,segment_concat,ih (by omega),put,Function.update_of_ne hne]

theorem segment_push (hd : N ∣ 2^32) {n : ℕ} (hn : n < N) (x : α) :
    segment hN (put hN data (r+BitVec.ofNat 32 n) x) r (n+1) = segment hN data r n ++ [x] := by
  rw [segment_concat,segment_put data r hd hn x (le_refl n),put,Function.update_self]

def span (r w : Counter) : ℕ := (w-r).toNat

def contents (hN : 0 < N) (data : Fin N → α) (r w : Counter) : List α := segment hN data r (span r w)

variable {data r} {w : Counter}

theorem add_span : r+BitVec.ofNat 32 (span r w) = w := by
  apply BitVec.eq_of_toNat_eq
  simp only [span,BitVec.toNat_add,BitVec.toNat_sub,BitVec.toNat_ofNat]
  omega

@[simp] theorem span_self : span r r = 0 := by simp [span]

theorem span_add {n : ℕ} (hn : n < 2^32) : span r (r+BitVec.ofNat 32 n) = n := by
  simp only [span,BitVec.toNat_sub,BitVec.toNat_add,BitVec.toNat_ofNat]
  omega

theorem span_eq_iff {n : ℕ} (hn : n < 2^32) : span r w = n ↔ w = r+BitVec.ofNat 32 n := by
  constructor
  · rintro rfl
    exact add_span.symm
  · rintro rfl
    exact span_add hn

theorem span_push (h : span r w+1 < 2^32) : span r (w+1) = span r w+1 := by
  simp only [span,BitVec.toNat_sub,BitVec.toNat_add,BitVec.ofNat_eq_ofNat,BitVec.toNat_ofNat] at h ⊢
  omega

theorem span_pop (h : r ≠ w) : span (r+1) w+1 = span r w := by
  have hr : r.toNat ≠ w.toNat := by
    intro he
    exact h (BitVec.eq_of_toNat_eq he)
  simp only [span,BitVec.toNat_sub,BitVec.toNat_add,BitVec.ofNat_eq_ofNat,BitVec.toNat_ofNat]
  omega

@[simp] theorem contents_self : contents hN data r r = [] := by
  rw [contents,span_self]
  rfl

/-- Storing into a ring with room appends. -/
theorem contents_push (hd : N ∣ 2^32) (hlt : N < 2^32) (h : span r w < N) (x : α) :
    contents hN (put hN data w x) r (w+1) = contents hN data r w ++ [x] := by
  have hpush : segment hN (put hN data (r+BitVec.ofNat 32 (span r w)) x) r (span r w+1) =
      segment hN data r (span r w) ++ [x] := segment_push data r hd h x
  rw [add_span] at hpush
  rw [contents,contents,span_push (by omega),hpush]

/-- Taking from a ring that is not empty removes the first byte. -/
theorem contents_pop (h : r ≠ w) :
    contents hN data r w = data (cell hN r) :: contents hN data (r+1) w := by
  rw [contents,contents,← span_pop h,segment_succ]

theorem add_one_sub_one : r+1-1 = r := BitVec.add_sub_cancel r 1

theorem span_trans {e : Counter} (h : span r w ≤ span r e) : span r e = span r w+span w e := by
  simp only [span,BitVec.toNat_sub] at h ⊢
  omega

theorem contents_split {e : Counter} (h : span r w ≤ span r e) :
    contents hN data r e = contents hN data r w ++ contents hN data w e := by
  rw [contents,span_trans h,segment_append,add_span]
  rfl

theorem contents_put {e : Counter} (hd : N ∣ 2^32) (h : span r w ≤ span r e) (he : span r e < N) (x : α) :
    contents hN (put hN data e x) r w = contents hN data r w := by
  have hput : segment hN (put hN data (r+BitVec.ofNat 32 (span r e)) x) r (span r w) =
      segment hN data r (span r w) := segment_put data r hd he x h
  rw [add_span] at hput
  exact hput

theorem span_unpush (h : r ≠ w) : span r (w-1)+1 = span r w := by
  have hr : r.toNat ≠ w.toNat := by
    intro he
    exact h (BitVec.eq_of_toNat_eq he)
  simp only [span,BitVec.toNat_sub,BitVec.ofNat_eq_ofNat,BitVec.toNat_ofNat]
  omega

theorem contents_unpush (h : r ≠ w) :
    contents hN data r w = contents hN data r (w-1) ++ [data (cell hN (w-1))] := by
  have hcat : segment hN data r (span r (w-1)+1) = segment hN data r (span r (w-1)) ++ _ :=
    segment_concat data r (span r (w-1))
  rw [add_span,span_unpush h] at hcat
  exact hcat

end Xv6Paging.RingBuffer
