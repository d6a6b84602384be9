import Mathlib.Data.List.Nodup

/-! # Lists threaded through link cells

A cell array stores one link per cell, and null is `none`. `Follows link h l` says
that chasing `link` from the pointer `h` visits the cells of `l` in order and then
meets null. The edits of a linked list are local in the view `Seg link e l`, where
`e` is the link stored in the last cell: it splits over concatenation, and it only
reads the links of its own cells.
-/
namespace Xv6Paging.LinkedCells
open Function
variable {ι : Type*} {link link' : ι → Option ι}

/-- Chasing links from a pointer visits exactly this list and then meets null. -/
inductive Follows (link : ι → Option ι) : Option ι → List ι → Prop
  | null : Follows link none []
  | cell {i : ι} {l : List ι} : Follows link (link i) l → Follows link (some i) (i :: l)

/-- Every cell links to the next one of the list, and the last one to `e`. -/
def Seg (link : ι → Option ι) (e : Option ι) : List ι → Prop
  | [] => True
  | i :: l => link i = l.head?.or e ∧ Seg link e l

@[simp] theorem seg_nil (e : Option ι) : Seg link e [] := trivial
@[simp] theorem seg_singleton {e : Option ι} {i : ι} : Seg link e [i] ↔ link i = e := by simp [Seg]
theorem seg_cons {e : Option ι} {i : ι} {l : List ι} :
    Seg link e (i :: l) ↔ link i = l.head?.or e ∧ Seg link e l := Iff.rfl

theorem follows_iff {h : Option ι} {l : List ι} :
    Follows link h l ↔ h = l.head? ∧ Seg link none l := by
  constructor
  · intro hf
    induction hf with
    | null => exact ⟨rfl,trivial⟩
    | cell _ ih => exact ⟨rfl,by simpa using ih.1,ih.2⟩
  · induction l generalizing h with
    | nil =>
      rintro ⟨rfl,-⟩
      exact .null
    | cons i l ih =>
      rintro ⟨rfl,hi,hl⟩
      exact .cell (ih ⟨by simpa using hi,hl⟩)

/-- A segment splits at any point; the first half ends in a link to the second. -/
theorem seg_append {e : Option ι} {l₁ l₂ : List ι} :
    Seg link e (l₁ ++ l₂) ↔ Seg link (l₂.head?.or e) l₁ ∧ Seg link e l₂ := by
  induction l₁ with
  | nil => simp
  | cons i l ih =>
    cases l with
    | nil => simp [seg_cons]
    | cons j l =>
      simp only [List.cons_append,seg_cons,List.head?_cons,Option.some_or] at ih ⊢
      rw [ih]
      constructor
      · rintro ⟨h1,⟨h2,h3⟩,h4⟩
        exact ⟨⟨h1,h2,h3⟩,h4⟩
      · rintro ⟨⟨h1,h2,h3⟩,h4⟩
        exact ⟨h1,⟨h2,h3⟩,h4⟩

/-- A segment reads only the links of its own cells. -/
theorem Seg.congr {e : Option ι} {l : List ι} (h : Seg link e l)
    (hl : ∀ i ∈ l, link' i = link i) : Seg link' e l := by
  induction l with
  | nil => trivial
  | cons i l ih =>
    refine ⟨?_,ih h.2 fun j hj => hl j (List.mem_cons_of_mem _ hj)⟩
    rw [hl i List.mem_cons_self]
    exact h.1

theorem Seg.link_last {e : Option ι} {l : List ι} {t : ι} (h : Seg link e (l ++ [t])) : link t = e :=
  seg_singleton.mp (seg_append.mp h).2

theorem Seg.mem_of_link {l : List ι} {x y : ι} (h : Seg link none l) (hx : x ∈ l)
    (hl : link x = some y) : y ∈ l := by
  obtain ⟨pre,post,rfl⟩ := List.append_of_mem hx
  obtain ⟨-,hlink,-⟩ := seg_append.mp h
  rw [hl,Option.or_none] at hlink
  have hy := List.mem_of_mem_head? (Option.mem_def.mpr hlink.symm)
  exact List.mem_append_right _ (List.mem_cons_of_mem _ hy)

theorem Follows.congr {h : Option ι} {l : List ι} (hf : Follows link h l)
    (hl : ∀ i ∈ l, link' i = link i) : Follows link' h l := by
  obtain ⟨hhead,hseg⟩ := follows_iff.mp hf
  exact follows_iff.mpr ⟨hhead,hseg.congr hl⟩

section Edits
variable [DecidableEq ι]

theorem Follows.push {h : Option ι} {l : List ι} (hf : Follows link h l) {i : ι} (hi : i ∉ l) :
    Follows (update link i h) (some i) (i :: l) := by
  refine .cell ?_
  rw [update_self]
  refine hf.congr fun j hj => update_of_ne ?_ _ _
  rintro rfl
  exact hi hj

/-- The C statement `if (q != 0) q->link = e`. -/
def storeAt (link : ι → Option ι) (q e : Option ι) : ι → Option ι :=
  match q with
  | some q => update link q e
  | none => link

@[simp] theorem storeAt_some (q : ι) (e : Option ι) :
    storeAt link (some q) e = update link q e := rfl
@[simp] theorem storeAt_none (e : Option ι) : storeAt link none e = link := rfl

theorem storeAt_self (q : Option ι) (i : ι) : storeAt link q (link i) i = link i := by
  cases q with
  | none => rfl
  | some q =>
    by_cases h : i = q
    · simp [h]
    · simp [h]

theorem storeAt_of_ne {q : Option ι} (e : Option ι) {i : ι} (h : q ≠ some i) :
    storeAt link q e i = link i := by
  cases q with
  | none => rfl
  | some q =>
    refine update_of_ne ?_ _ _
    rintro rfl
    exact h rfl

theorem head?_remove {pre post : List ι} {i : ι} (hnd : (pre ++ i :: post).Nodup) :
    (if (pre ++ i :: post).head? = some i then post.head? else (pre ++ i :: post).head?) =
      (pre ++ post).head? := by
  cases pre with
  | nil => simp
  | cons y pre =>
    have hy : y ≠ i := by rintro rfl; simp at hnd
    simp [hy]

theorem getLast?_remove {pre post : List ι} {i : ι} (hnd : (pre ++ i :: post).Nodup) :
    (if (pre ++ i :: post).getLast? = some i then pre.getLast? else (pre ++ i :: post).getLast?) =
      (pre ++ post).getLast? := by
  rcases List.eq_nil_or_concat post with rfl | ⟨r,q,rfl⟩
  · simp
  · rw [List.concat_eq_append] at hnd ⊢
    have hq : q ≠ i := by rintro rfl; simp [List.nodup_append] at hnd
    rw [← List.cons_append,← List.append_assoc,← List.append_assoc,List.getLast?_concat,
      List.getLast?_concat,if_neg (by simpa using hq)]

omit [DecidableEq ι] in
theorem not_mem_remove {pre post : List ι} {i : ι} (hnd : (pre ++ i :: post).Nodup) :
    i ∉ pre ++ post := by
  rw [List.nodup_append,List.nodup_cons] at hnd
  intro hm
  rcases List.mem_append.mp hm with hm | hm
  · exact hnd.2.2 i hm i List.mem_cons_self rfl
  · exact hnd.2.1.1 hm

theorem Seg.relink_last {e : Option ι} {l : List ι} {t : ι} (h : Seg link e (l ++ [t]))
    (ht : t ∉ l) (e' : Option ι) : Seg (update link t e') e' (l ++ [t]) := by
  obtain ⟨hl,-⟩ := seg_append.mp h
  refine seg_append.mpr ⟨?_,by simp⟩
  exact Seg.congr hl fun i hi => update_of_ne (by rintro rfl; exact ht hi) _ _

/-- Linking the last cell to a new one appends the new cell. -/
theorem Seg.snoc {e : Option ι} {l : List ι} {t i : ι} (h : Seg link e (l ++ [t]))
    (hnd : (l ++ [t]).Nodup) (hi : i ∉ l ++ [t]) (e' : Option ι) :
    Seg (update (update link t (some i)) i e') e' (l ++ [t] ++ [i]) := by
  have ht : t ∉ l := by
    rw [List.nodup_append] at hnd
    intro h'
    exact hnd.2.2 t h' t List.mem_cons_self rfl
  refine seg_append.mpr ⟨?_,by simp⟩
  refine Seg.congr (h.relink_last ht (some i)) fun j hj => ?_
  exact update_of_ne (by rintro rfl; exact hi hj) _ _

/-- Copying a cell's link into its predecessor, if it has one, takes the cell out. -/
theorem Seg.remove {e : Option ι} {pre post : List ι} {i : ι} (h : Seg link e (pre ++ i :: post))
    (hnd : (pre ++ i :: post).Nodup) :
    Seg (storeAt link pre.getLast? (link i)) e (pre ++ post) := by
  obtain ⟨hpre,hi,hpost⟩ := seg_append.mp h
  rcases List.eq_nil_or_concat pre with rfl | ⟨r,q,rfl⟩
  · exact hpost
  · rw [List.concat_eq_append] at hpre hnd ⊢
    rw [List.getLast?_concat,storeAt_some]
    rw [List.nodup_append,List.nodup_append] at hnd
    obtain ⟨⟨-,-,hrq⟩,-,hdis⟩ := hnd
    refine seg_append.mpr ⟨?_,?_⟩
    · rw [hi]
      exact hpre.relink_last (fun hq => hrq q hq q (List.mem_singleton_self q) rfl) _
    · refine Seg.congr hpost fun j hj => update_of_ne ?_ _ _
      exact (hdis q (by simp) j (List.mem_cons_of_mem _ hj)).symm

end Edits

/-- Every cell's back link is null or the cell before it, and `b` stands before the first. -/
def BackOrNull (link : ι → Option ι) : Option ι → List ι → Prop
  | _, [] => True
  | b, i :: l => (link i = none ∨ link i = b) ∧ BackOrNull link (some i) l

@[simp] theorem backOrNull_nil (b : Option ι) : BackOrNull link b [] := trivial
theorem backOrNull_cons {b : Option ι} {i : ι} {l : List ι} :
    BackOrNull link b (i :: l) ↔ (link i = none ∨ link i = b) ∧ BackOrNull link (some i) l := Iff.rfl

theorem backOrNull_append {b : Option ι} {l₁ l₂ : List ι} :
    BackOrNull link b (l₁ ++ l₂) ↔ BackOrNull link b l₁ ∧ BackOrNull link (l₁.getLast?.or b) l₂ := by
  induction l₁ generalizing b with
  | nil => simp
  | cons i l ih =>
    have hlast : (i :: l).getLast?.or b = l.getLast?.or (some i) := by
      cases l with
      | nil => simp
      | cons j l => simp [List.getLast?_cons]
    rw [List.cons_append,backOrNull_cons,backOrNull_cons,ih,hlast,and_assoc]

theorem BackOrNull.congr {b : Option ι} {l : List ι} (h : BackOrNull link b l)
    (hl : ∀ i ∈ l, link' i = link i) : BackOrNull link' b l := by
  induction l generalizing b with
  | nil => trivial
  | cons i l ih =>
    refine ⟨?_,ih h.2 fun j hj => hl j (List.mem_cons_of_mem _ hj)⟩
    rw [hl i List.mem_cons_self]
    exact h.1

theorem BackOrNull.remove [DecidableEq ι] {pre post : List ι} {i : ι}
    (h : BackOrNull link none (pre ++ i :: post)) (hi : link i = pre.getLast?)
    (hnd : (pre ++ i :: post).Nodup) :
    BackOrNull (storeAt link post.head? (link i)) none (pre ++ post) := by
  obtain ⟨hpre,-,hpost⟩ := backOrNull_append.mp h
  cases post with
  | nil => simpa using hpre
  | cons n post =>
    rw [List.nodup_append,List.nodup_cons,List.nodup_cons] at hnd
    obtain ⟨-,⟨-,hn,-⟩,hdis⟩ := hnd
    rw [List.head?_cons,storeAt_some]
    refine backOrNull_append.mpr ⟨?_,?_,?_⟩
    · refine hpre.congr fun j hj => update_of_ne ?_ _ _
      exact hdis j hj n (by simp)
    · right
      simp [hi]
    · refine hpost.2.congr fun j hj => update_of_ne ?_ _ _
      rintro rfl
      exact hn hj

end Xv6Paging.LinkedCells
