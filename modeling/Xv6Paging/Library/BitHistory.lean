import Mathlib.Algebra.Order.Ring.Nat
import Mathlib.Data.List.Lex

/-! # Words as histories

A shift register that takes every new bit at its top holds the latest bits, the most recent one first. Words of the
same width compare as such lists of bits do, lexicographically, and the number of set bits is that of the list.
-/
namespace Xv6Paging.BitHistory

def value : List Bool → ℕ
  | [] => 0
  | b :: l => b.toNat*2^l.length+value l

theorem value_lt (l : List Bool) : value l < 2^l.length := by
  induction l with
  | nil => exact Nat.one_pos
  | cons b l ih =>
    rw [value,List.length_cons,Nat.pow_succ]
    cases b with
    | false =>
      rw [Bool.toNat_false,Nat.zero_mul]
      omega
    | true =>
      rw [Bool.toNat_true,Nat.one_mul]
      omega

/-- Lists of the same length compare lexicographically as their values do. -/
theorem value_lt_value {l l' : List Bool} (hlen : l.length = l'.length) : value l < value l' ↔ l < l' := by
  induction l generalizing l' with
  | nil =>
    obtain rfl := List.eq_nil_of_length_eq_zero hlen.symm
    simp [value]
  | cons b l ih =>
    cases l' with
    | nil => cases hlen
    | cons b' l' =>
      have hlen' : l.length = l'.length := Nat.succ.inj hlen
      have h1 := value_lt l
      have h2 := value_lt l'
      rw [List.cons_lt_cons_iff,← ih hlen',value,value,hlen']
      rw [hlen'] at h1
      cases b with
      | false =>
        cases b' with
        | false => simp
        | true =>
          rw [Bool.toNat_false,Bool.toNat_true,Nat.zero_mul,Nat.one_mul]
          exact iff_of_true (by omega) (Or.inl (by decide))
      | true =>
        cases b' with
        | false =>
          rw [Bool.toNat_false,Bool.toNat_true,Nat.zero_mul,Nat.one_mul]
          exact iff_of_false (by omega) (by simp)
        | true => simp

/-- The latest `n` bits of a history, with `d` for what lies before its start. -/
def recent (d : Bool) (n : ℕ) (h : List Bool) : List Bool := (List.range n).map (h.getD · d)

theorem recent_length (d : Bool) (n : ℕ) (h : List Bool) : (recent d n h).length = n := by
  rw [recent,List.length_map,List.length_range]

section Register
variable {w : ℕ} {x : BitVec w} {d : Bool} {h : List Bool}

/-- The word holds the latest bits of the history, the most recent one at the top. -/
def Holds (x : BitVec w) (d : Bool) (h : List Bool) : Prop := ∀ j < w, x.getLsbD (w-1-j) = h.getD j d

theorem Holds.shift (hx : Holds x d h) (b : Bool) :
    Holds ((x >>> 1) ||| (if b then 1#w <<< (w-1) else 0#w)) d (b :: h) := by
  intro j hj
  have htop : (if b then 1#w <<< (w-1) else 0#w).getLsbD (w-1-j) = (b && decide (j = 0)) := by
    cases b with
    | false => simp
    | true =>
      rw [if_pos rfl,BitVec.getLsbD_shiftLeft,BitVec.getLsbD_one]
      cases j with
      | zero =>
        have hlt : w-1 < w := by omega
        simp [hj,hlt]
      | succ j =>
        have hlt : w-1-(j+1) < w-1 := by omega
        simp [hlt]
  rw [BitVec.getLsbD_or,BitVec.getLsbD_ushiftRight,htop]
  cases j with
  | zero =>
    rw [BitVec.getLsbD_of_ge _ _ (by omega)]
    simp
  | succ j =>
    rw [show 1+(w-1-(j+1)) = w-1-j by omega,hx j (by omega)]
    simp

theorem map_bits_eq_recent (hx : Holds x d h) : (List.range w).map (fun j => x.getLsbD (w-1-j)) = recent d w h :=
  List.map_congr_left fun j hj => hx j (List.mem_range.mp hj)

theorem toNat_eq_value (x : BitVec w) : x.toNat = value ((List.range w).map fun j => x.getLsbD (w-1-j)) := by
  induction w with
  | zero => exact congrArg BitVec.toNat (BitVec.of_length_zero (x := x))
  | succ w ih =>
    have hrec := ih (x.setWidth w)
    have hbits : (List.range w).map ((fun j => x.getLsbD (w+1-1-j)) ∘ Nat.succ) =
        (List.range w).map fun j => (x.setWidth w).getLsbD (w-1-j) := by
      refine List.map_congr_left fun j hj => ?_
      have hj' := List.mem_range.mp hj
      rw [BitVec.getLsbD_setWidth,decide_eq_true (by omega : w-1-j < w),Bool.true_and,Function.comp_apply]
      congr 1
      omega
    rw [List.range_succ_eq_map,List.map_cons,List.map_map,hbits,value,← hrec,List.length_map,List.length_range]
    have hcons := congrArg BitVec.toNat (BitVec.cons_msb_setWidth x)
    rw [BitVec.toNat_cons',Nat.shiftLeft_eq] at hcons
    rw [← hcons,BitVec.msb_eq_getLsbD_last]
    rfl

theorem Holds.toNat_eq (hx : Holds x d h) : x.toNat = value (recent d w h) := by
  rw [toNat_eq_value,map_bits_eq_recent hx]

theorem Holds.lt_iff {y : BitVec w} {h' : List Bool} (hx : Holds x d h) (hy : Holds y d h') :
    x < y ↔ recent d w h < recent d w h' := by
  rw [BitVec.lt_def,hx.toNat_eq,hy.toNat_eq,value_lt_value (by rw [recent_length,recent_length])]

theorem Holds.le_iff {y : BitVec w} {h' : List Bool} (hx : Holds x d h) (hy : Holds y d h') :
    x ≤ y ↔ recent d w h ≤ recent d w h' := by
  rw [← BitVec.not_lt,hy.lt_iff hx,not_lt]

theorem Holds.count_eq (hx : Holds x d h) : ((List.range w).filter x.getLsbD).length = (recent d w h).count true := by
  have hrev : (List.range w).map x.getLsbD = ((List.range w).map fun j => x.getLsbD (w-1-j)).reverse := by
    refine List.ext_getElem (by simp) fun i h1 h2 => ?_
    simp only [List.length_map,List.length_range] at h1
    simp only [List.getElem_map,List.getElem_range,List.getElem_reverse,List.length_map,List.length_range]
    congr 1
    omega
  rw [← map_bits_eq_recent hx,← List.count_reverse,← hrev,List.count_eq_countP,List.countP_map,List.countP_eq_length_filter]
  refine congrArg List.length (List.filter_congr fun i _ => ?_)
  simp

end Register

end Xv6Paging.BitHistory
