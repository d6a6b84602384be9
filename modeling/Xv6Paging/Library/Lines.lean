import Mathlib.Algebra.Order.Ring.Nat

/-! # Lines of a text

A separator ends a line. `lines` are the lines of a text that are ended, and `rest` is the
text behind the last separator. A program that takes in a text piece by piece can hand
over the lines of each piece if it keeps the rest for the next.
-/
namespace Xv6Paging.Lines
variable {α : Type*} [DecidableEq α] {sep : α} {line s t : List α}

def lines (sep : α) (s : List α) : List (List α) := (s.splitOn sep).dropLast

def rest (sep : α) (s : List α) : List α := (s.splitOn sep).getLast (List.splitOn_ne_nil sep s)

theorem lines_of_notMem (h : sep ∉ s) : lines sep s = [] := by
  rw [lines,List.splitOn_eq_singleton h]
  rfl

theorem rest_of_notMem (h : sep ∉ s) : rest sep s = s := by
  simp only [rest,List.splitOn_eq_singleton h,List.getLast_singleton]

theorem splitOn_line (h : sep ∉ line) (s : List α) :
    (line ++ sep :: s).splitOn sep = line :: s.splitOn sep := by
  have hfree : ∀ x ∈ line, (fun x => x == sep) x = false := by
    intro x hx
    rw [beq_eq_false_iff_ne]
    rintro rfl
    exact h hx
  exact List.splitOnP_append_cons_of_forall_mem hfree sep (beq_self_eq_true sep) s

theorem lines_line (h : sep ∉ line) (s : List α) : lines sep (line ++ sep :: s) = line :: lines sep s := by
  rw [lines,splitOn_line h,List.dropLast_cons_of_ne_nil (List.splitOn_ne_nil _ _)]
  rfl

theorem rest_line (h : sep ∉ line) (s : List α) : rest sep (line ++ sep :: s) = rest sep s := by
  simp only [rest,splitOn_line h,List.getLast_cons (List.splitOn_ne_nil sep s)]

/-- A statement about all texts: those without a separator, and those that begin with a line. -/
theorem induction_on (sep : α) {motive : List α → Prop} (s : List α) (free : ∀ s, sep ∉ s → motive s)
    (cons : ∀ line s, sep ∉ line → motive s → motive (line ++ sep :: s)) : motive s := by
  have hgen (line : List α) (hline : sep ∉ line) : motive (line ++ s) := by
    induction s generalizing line with
    | nil =>
      rw [List.append_nil]
      exact free line hline
    | cons x s ih =>
      by_cases hx : x = sep
      · subst hx
        exact cons line s hline (ih [] List.not_mem_nil)
      · rw [List.append_cons]
        refine ih (line ++ [x]) ?_
        rw [List.mem_append,List.mem_singleton]
        rintro (hm | rfl)
        · exact hline hm
        · exact hx rfl
  exact hgen [] List.not_mem_nil

theorem lines_append (sep : α) (s t : List α) : lines sep (s ++ t) = lines sep s ++ lines sep (rest sep s ++ t) := by
  induction s using induction_on sep with
  | free s hs => rw [lines_of_notMem hs,rest_of_notMem hs,List.nil_append]
  | cons line s hline ih => rw [List.append_assoc,List.cons_append,lines_line hline,lines_line hline,rest_line hline,ih,
      List.cons_append]

end Xv6Paging.Lines
