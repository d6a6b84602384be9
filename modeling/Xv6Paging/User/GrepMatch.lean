import Xv6Paging.Library.ItemLanguage
import Xv6Paging.User.Grep

/-! # What grep's matcher decides

A pattern is read as a sequence of items. `match` is true of a text exactly if a part of
the text is in the language of the items, at the start of the text after `^` and at its
end before a final `$`.
-/
namespace Xv6Paging.Grep
open ItemLanguage Computability

structure Pattern where
  atStart : Bool
  items : List (Item Char)
  atEnd : Bool

def stands (c x : Char) : Bool := c = '.' ∨ c = x

/-- The items of a pattern after a leading `^`, and whether a final `$` follows them. -/
def parseItems : List Char → List (Item Char) × Bool
  | [] => ([],false)
  | [c] => if c = '$' then ([],true) else ([.one (stands c)],false)
  | c :: d :: re =>
    if d = '*' then (.many (stands c) :: (parseItems re).1,(parseItems re).2)
    else (.one (stands c) :: (parseItems (d :: re)).1,(parseItems (d :: re)).2)

def Pattern.parse (re : List Char) : Pattern :=
  if re.head? = some '^' then ⟨true,(parseItems re.tail).1,(parseItems re.tail).2⟩
  else ⟨false,(parseItems re).1,(parseItems re).2⟩

/-- The text has a part in the language of the items, where the anchors want it. -/
def Pattern.Occurs (P : Pattern) (text : List Char) : Prop :=
  ∃ u w r, text = u ++ (w ++ r) ∧ w ∈ lang P.items ∧ (P.atStart = true → u = []) ∧ (P.atEnd = true → r = [])

def ends (atEnd : Bool) (r : List Char) : Prop := atEnd = true → r = []

section
variable {c : Char} {re text : List Char} {L : Language Char} {fin : List Char → Prop}

/-- `matchstar` tries the rest of the pattern after every number of characters. -/
theorem matchstar_iff (hre : ∀ text, matchhere re text = true ↔ Begins L fin text) :
    matchstar c re text = true ↔ Begins ((letters (stands c))∗*L) fin text := by
  induction text with
  | nil =>
    rw [matchstar,begins_many,← hre]
    simp [begins_letters_nil]
  | cons x text ih =>
    rw [matchstar,begins_many,begins_letters_cons,← hre,← ih]
    by_cases hx : x = c ∨ c = '.'
    · have hs : stands c x = true := decide_eq_true (hx.symm.imp_right Eq.symm)
      simp [hx,hs]
    · have hs : stands c x = false := decide_eq_false fun h => hx (h.symm.imp_left Eq.symm)
      simp [hx,hs]

theorem matchhere_single (hstar : re.head? ≠ some '*') (hend : ¬ (c = '$' ∧ re = []))
    (hre : ∀ text, matchhere re text = true ↔ Begins L fin text) :
    matchhere (c :: re) text = true ↔ Begins (letters (stands c)*L) fin text := by
  rw [matchhere.eq_def]
  dsimp only
  rw [if_neg hstar,if_neg hend]
  cases text with
  | nil => simp [begins_letters_nil]
  | cons x text =>
    rw [begins_letters_cons,← hre]
    by_cases hx : c = '.' ∨ c = x
    · have hs : stands c x = true := decide_eq_true hx
      simp [hx,hs]
    · have hs : stands c x = false := decide_eq_false hx
      simp [hx,hs]

theorem matchhere_nil (text : List Char) : matchhere [] text = true := by rw [matchhere]

theorem matchhere_iff (re text : List Char) : matchhere re text = true ↔
    Begins (lang (parseItems re).1) (ends (parseItems re).2) text := by
  induction re using parseItems.induct generalizing text with
  | case1 =>
    rw [parseItems,lang,begins_one,matchhere_nil]
    simp [ends]
  | case2 =>
    -- a final `$`
    rw [parseItems,if_pos rfl,lang,begins_one,matchhere.eq_def]
    simp [ends]
  | case3 c hc =>
    have hempty : ∀ text, matchhere [] text = true ↔ Begins 1 (ends false) text := by
      intro text
      rw [begins_one,matchhere_nil]
      simp [ends]
    rw [parseItems,if_neg hc]
    exact matchhere_single (by simp) (by simp [hc]) hempty
  | case4 c re ih =>
    rw [parseItems,if_pos rfl,matchhere.eq_def]
    exact matchstar_iff ih
  | case5 c d re hd ih =>
    rw [parseItems,if_neg hd]
    exact matchhere_single (by simpa using hd) (by simp) ih

/-- The loop of `match` tries every position of the text. -/
theorem matchLoop_iff (re text : List Char) :
    matchLoop re text = true ↔ ∃ u v, text = u ++ v ∧ matchhere re v = true := by
  induction text with
  | nil => simp [matchLoop]
  | cons x text ih =>
    rw [matchLoop]
    constructor
    · intro h
      by_cases hx : matchhere re (x :: text) = true
      · exact ⟨[],x :: text,rfl,hx⟩
      · rw [if_neg hx,ih] at h
        obtain ⟨u,v,rfl,hv⟩ := h
        exact ⟨x :: u,v,rfl,hv⟩
    · rintro ⟨u,v,huv,hv⟩
      cases u with
      | nil =>
        rw [List.nil_append] at huv
        rw [huv,if_pos hv]
      | cons y u =>
        rw [List.cons_append,List.cons.injEq] at huv
        have hlater : matchLoop re text = true := ih.mpr ⟨u,v,huv.2,hv⟩
        rw [hlater]
        simp

end

/-- `match` is total, and true exactly if the pattern occurs in the text. -/
theorem matchText_iff_occurs (re text : List Char) :
    matchText re text = true ↔ (Pattern.parse re).Occurs text := by
  unfold matchText Pattern.parse
  by_cases hstart : re.head? = some '^'
  · rw [if_pos hstart,if_pos hstart,matchhere_iff]
    constructor
    · rintro ⟨w,r,rfl,hw,hr⟩
      exact ⟨[],w,r,rfl,hw,fun _ => rfl,hr⟩
    · rintro ⟨u,w,r,rfl,hw,hu,hr⟩
      rw [hu rfl,List.nil_append]
      exact ⟨w,r,rfl,hw,hr⟩
  · rw [if_neg hstart,if_neg hstart,matchLoop_iff]
    constructor
    · rintro ⟨u,v,rfl,hv⟩
      obtain ⟨w,r,rfl,hw,hr⟩ := (matchhere_iff re v).mp hv
      exact ⟨u,w,r,rfl,hw,fun h => absurd h Bool.false_ne_true,hr⟩
    · rintro ⟨u,w,r,rfl,hw,-,hr⟩
      exact ⟨u,w ++ r,rfl,(matchhere_iff re (w ++ r)).mpr ⟨w,r,rfl,hw,hr⟩⟩

end Xv6Paging.Grep
