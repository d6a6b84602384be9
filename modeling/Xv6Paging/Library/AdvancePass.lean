import Mathlib.Algebra.Order.Ring.Nat
import Mathlib.Data.List.Perm.Basic
import Xv6Paging.Library.LinkedCells

/-! # One pass that advances the marked elements of a list

The pass goes from the front to the back with an element in hand. It compares that
element with the next one, and lets a marked element overtake an unmarked one in hand.
A marked element behind an unmarked one overtakes exactly one element: the one in hand
when it is met. The same pass over a doubly linked list exchanges the contents of
neighbouring cells and leaves the links alone.
-/
namespace Xv6Paging.AdvancePass
open LinkedCells Function

section Lists
variable {α : Type*} (marked : α → Bool)

def carry : α → List α → List α
  | x, [] => [x]
  | x, y :: l => if !marked x && marked y then y :: carry x l else x :: carry y l

def pass : List α → List α
  | [] => []
  | x :: l => carry marked x l

/-- Every marked element with an unmarked one before it has moved one place to the front; the others keep
their order. -/
structure Advanced (l l' : List α) : Prop where
  moves : ∀ {i : ℕ} {x y : α} {j : ℕ}, l[i]? = some x → marked x = true → j < i → l[j]? = some y →
    marked y = false → l'[i-1]? = some x
  stays : ∀ {i : ℕ} {x : α}, l[i]? = some x → marked x = true →
    (∀ (j : ℕ) (y : α), j < i → l[j]? = some y → marked y = true) → l'[i]? = some x
  order : l'.filter (fun x => !marked x) = l.filter fun x => !marked x
  perm : l'.Perm l

variable {marked} {x z : α} {l : List α}

theorem carry_cons_of_marked (hx : marked x = true) : carry marked x l = x :: pass marked l := by
  cases l with
  | nil => rfl
  | cons y l =>
    rw [carry,hx]
    rfl

theorem carry_perm : (carry marked x l).Perm (x :: l) := by
  induction l generalizing x with
  | nil => exact .refl _
  | cons y l ih =>
    rw [carry]
    split
    · exact (ih.cons y).trans (.swap x y l)
    · exact ih.cons x

theorem carry_filter :
    (carry marked x l).filter (fun x => !marked x) = (x :: l).filter fun x => !marked x := by
  induction l generalizing x with
  | nil => rfl
  | cons y l ih =>
    rw [carry]
    split
    · rename_i h
      obtain ⟨hx,hy⟩ := Bool.and_eq_true_iff.mp h
      simp only [List.filter_cons,ih,hx,hy,Bool.not_true,if_true,Bool.false_eq_true,if_false]
    · rw [List.filter_cons,ih,List.filter_cons (x := x)]

/-- With an unmarked element in hand, every marked element is written one place ahead of
where it is read. -/
theorem carry_getElem? (hx : marked x = false) (hz : marked z = true) {i : ℕ} (hi : l[i]? = some z) :
    (carry marked x l)[i]? = some z := by
  induction l generalizing x i with
  | nil => simp at hi
  | cons y l ih =>
    rw [carry,hx]
    cases hy : marked y with
    | true =>
      cases i with
      | zero => exact hi
      | succ i => exact ih hx hi
    | false =>
      cases i with
      | zero =>
        rw [List.getElem?_cons_zero,Option.some.injEq] at hi
        rw [hi,hz] at hy
        exact Bool.noConfusion hy
      | succ i => exact ih hy hi

theorem pass_moves {i j : ℕ} {y : α} (hi : l[i]? = some x) (hx : marked x = true) (hji : j < i)
    (hj : l[j]? = some y) (hy : marked y = false) : (pass marked l)[i-1]? = some x := by
  induction l generalizing i j with
  | nil => simp at hi
  | cons w l ih =>
    obtain ⟨i,rfl⟩ : ∃ k, i = k+1 := ⟨i-1,by omega⟩
    cases hw : marked w with
    | false => exact carry_getElem? hw hx hi
    | true =>
      rw [pass,carry_cons_of_marked hw]
      obtain ⟨j,rfl⟩ : ∃ k, j = k+1 := by
        cases j with
        | zero =>
          rw [List.getElem?_cons_zero,Option.some.injEq] at hj
          rw [hj,hy] at hw
          exact Bool.noConfusion hw
        | succ j => exact ⟨j,rfl⟩
      have hrest := ih (i := i) hi (Nat.lt_of_succ_lt_succ hji) hj
      obtain ⟨i,rfl⟩ : ∃ k, i = k+1 := ⟨i-1,by omega⟩
      exact hrest

theorem pass_stays {i : ℕ} (hi : l[i]? = some x) (hx : marked x = true)
    (hbefore : ∀ (j : ℕ) (y : α), j < i → l[j]? = some y → marked y = true) :
    (pass marked l)[i]? = some x := by
  induction l generalizing i with
  | nil => simp at hi
  | cons w l ih =>
    have hw : marked w = true := by
      cases i with
      | zero =>
        rw [List.getElem?_cons_zero,Option.some.injEq] at hi
        rw [hi]
        exact hx
      | succ i => exact hbefore 0 w (Nat.succ_pos i) rfl
    rw [pass,carry_cons_of_marked hw]
    cases i with
    | zero => exact hi
    | succ i => exact ih hi fun j y hj hy => hbefore (j+1) y (Nat.succ_lt_succ hj) hy

theorem pass_advanced (l : List α) : Advanced marked l (pass marked l) := by
  refine ⟨pass_moves,pass_stays,?_,?_⟩
  · cases l with
    | nil => rfl
    | cons x l => exact carry_filter
  · cases l with
    | nil => exact .refl _
    | cons x l => exact carry_perm

end Lists

section Cells
variable {ι α : Type*}

/-- The loop over the cells. `due` compares the contents of a cell's `prev` with its own;
the fuel bounds the number of cells visited. -/
def walk [DecidableEq ι] (due : α → α → Bool) (next prev : ι → Option ι) : ℕ → (ι → α) → Option ι → Option (ι → α)
  | _, f, none => some f
  | 0, _, some _ => none
  | fuel+1, f, some cur =>
    match prev cur with
    | none => walk due next prev fuel f (next cur)
    | some q =>
      if due (f q) (f cur) then
        walk due next prev fuel (update (update f q (f cur)) cur (f q)) (next cur)
      else walk due next prev fuel f (next cur)

/-- The cells of `l`, doubly linked in this order. -/
structure Linked (next prev : ι → Option ι) (l : List ι) : Prop where
  nodup : l.Nodup
  next : Seg next none l
  prev : Seg prev none l.reverse

variable {next prev : ι → Option ι} {l pre suf : List ι} {i q : ι}

theorem Linked.next_at (h : Linked next prev (pre ++ i :: suf)) : next i = suf.head? := by
  obtain ⟨-,hi,-⟩ := seg_append.mp h.next
  simpa using hi

theorem Linked.prev_at (h : Linked next prev (pre ++ i :: suf)) : prev i = pre.getLast? := by
  have hr := h.prev
  rw [List.reverse_append,List.reverse_cons,List.append_assoc] at hr
  obtain ⟨-,hi,-⟩ := seg_append.mp hr
  simpa using hi

variable [DecidableEq ι] {due : α → α → Bool} {marked : α → Bool} {f : ι → α}

theorem walk_carry {fuel : ℕ} (h : Linked next prev (pre ++ q :: suf))
    (hdue : ∀ i ∈ q :: suf, ∀ j ∈ q :: suf, due (f i) (f j) = (!marked (f i) && marked (f j)))
    (hfuel : suf.length ≤ fuel) : ∃ g, walk due next prev fuel f suf.head? = some g ∧
      (q :: suf).map g = carry marked (f q) (suf.map f) ∧ ∀ i, i ∉ q :: suf → g i = f i := by
  induction suf generalizing pre q f fuel with
  | nil => exact ⟨f,by simp [walk],rfl,fun _ _ => rfl⟩
  | cons cur suf ih =>
    obtain ⟨fuel,rfl⟩ : ∃ k, fuel = k+1 := ⟨fuel-1,by simp at hfuel; omega⟩
    have hfuel' : suf.length ≤ fuel := by simpa using hfuel
    have hsplit : pre ++ q :: cur :: suf = (pre ++ [q]) ++ cur :: suf := by simp
    rw [hsplit] at h
    have hq : prev cur = some q := by rw [h.prev_at]; simp
    have hnd : q ∉ cur :: suf ∧ cur ∉ suf := by
      have := h.nodup
      rw [← hsplit] at this
      have hqs := (List.nodup_append.mp this).2.1
      exact ⟨(List.nodup_cons.mp hqs).1,(List.nodup_cons.mp (List.nodup_cons.mp hqs).2).1⟩
    have hne : q ≠ cur := fun he => hnd.1 (he ▸ List.mem_cons_self)
    have hd := hdue q List.mem_cons_self cur (List.mem_cons_of_mem _ List.mem_cons_self)
    rw [List.head?_cons,walk,hq,h.next_at]
    dsimp only
    -- the exchange writes the contents in hand into `cur`, where the walk goes on
    by_cases hx : due (f q) (f cur) = true
    · let f' := update (update f q (f cur)) cur (f q)
      have hcur : f' cur = f q := update_self ..
      have hfq : f' q = f cur := by
        rw [show f' q = update f q (f cur) q from update_of_ne hne _ _,update_self]
      have hsame : ∀ i, i ≠ q → i ≠ cur → f' i = f i := fun i hi hi' => by
        rw [show f' i = update f q (f cur) i from update_of_ne hi' _ _,
          update_of_ne hi]
      have hsuf : ∀ i ∈ suf, f' i = f i := fun i hi => hsame i
        (fun he => hnd.1 (he ▸ List.mem_cons_of_mem _ hi)) fun he => hnd.2 (he ▸ hi)
      have hval : ∀ i ∈ cur :: suf, ∃ k ∈ q :: cur :: suf, f' i = f k := by
        intro i hi
        rcases List.mem_cons.mp hi with rfl | hi
        · exact ⟨q,List.mem_cons_self,hcur⟩
        · exact ⟨i,by simp [hi],hsuf i hi⟩
      have hdue' : ∀ i ∈ cur :: suf, ∀ j ∈ cur :: suf, due (f' i) (f' j) = (!marked (f' i) && marked (f' j)) := by
        intro i hi j hj
        obtain ⟨k,hk,hik⟩ := hval i hi
        obtain ⟨m,hm,hjm⟩ := hval j hj
        rw [hik,hjm]
        exact hdue k hk m hm
      obtain ⟨g,hg,hmap,hrest⟩ := ih h hdue' hfuel'
      refine ⟨g,by rw [if_pos hx]; exact hg,?_,fun i hi => ?_⟩
      · rw [List.map_cons,hmap,hrest q hnd.1,hfq,hcur,List.map_congr_left hsuf,List.map_cons,carry,
          ← hd,if_pos hx]
      · rw [hrest i fun hm => hi (List.mem_cons_of_mem _ hm)]
        exact hsame i (fun he => hi (he ▸ List.mem_cons_self))
          fun he => hi (he ▸ List.mem_cons_of_mem _ List.mem_cons_self)
    · obtain ⟨g,hg,hmap,hrest⟩ := ih h
        (fun i hi j hj => hdue i (List.mem_cons_of_mem _ hi) j (List.mem_cons_of_mem _ hj)) hfuel'
      refine ⟨g,by rw [if_neg hx]; exact hg,?_,fun i hi => hrest i fun hm => hi (List.mem_cons_of_mem _ hm)⟩
      rw [List.map_cons,hmap,hrest q hnd.1,List.map_cons,carry,← hd,if_neg hx]

/-- The walk from the first cell does one pass over the contents. -/
theorem walk_pass {fuel : ℕ} (h : Linked next prev l)
    (hdue : ∀ i ∈ l, ∀ j ∈ l, due (f i) (f j) = (!marked (f i) && marked (f j)))
    (hfuel : l.length ≤ fuel) : ∃ g, walk due next prev fuel f l.head? = some g ∧
      l.map g = pass marked (l.map f) ∧ ∀ i, i ∉ l → g i = f i := by
  cases l with
  | nil => exact ⟨f,by simp [walk],rfl,fun _ _ => rfl⟩
  | cons x l =>
    obtain ⟨fuel,rfl⟩ : ∃ k, fuel = k+1 := ⟨fuel-1,by simp at hfuel; omega⟩
    have hx : Linked next prev ([] ++ x :: l) := h
    obtain ⟨g,hg,hmap,hrest⟩ := walk_carry hx hdue (Nat.le_of_succ_le_succ hfuel)
    refine ⟨g,?_,hmap,hrest⟩
    rw [List.head?_cons,walk,hx.prev_at,hx.next_at]
    exact hg

end Cells

end Xv6Paging.AdvancePass
