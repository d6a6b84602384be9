import Xv6Paging.Library.LinkedCells

/-! # Circles of cells

A list without null: every cell links to the next one of the list, and the last one to the first. A search
may start at any cell; it passes over the cells that do not stop it.
-/
namespace Xv6Paging.LinkedCells
variable {ι : Type*} {link : ι → ι}

def total (link : ι → ι) (i : ι) : Option ι := some (link i)

def Circle (link : ι → ι) (l : List ι) : Prop := Seg (total link) l.head? l

/-- A circle may be read from any cell on. -/
theorem Circle.rotate {l₁ l₂ : List ι} (h : Circle link (l₁ ++ l₂)) : Circle link (l₂ ++ l₁) := by
  cases l₁ with
  | nil => rwa [List.append_nil]
  | cons i l₁ =>
    cases l₂ with
    | nil => rwa [List.append_nil] at h
    | cons j l₂ =>
      obtain ⟨h₁,h₂⟩ := seg_append.mp h
      exact seg_append.mpr ⟨h₂,h₁⟩

theorem Circle.link_eq {pre post : List ι} {x : ι} (h : Circle link (pre ++ x :: post)) :
    some (link x) = post.head?.or (pre ++ x :: post).head? := by
  obtain ⟨-,hx,-⟩ := seg_append.mp h
  exact hx

theorem Seg.skip {α : Type*} {F : ℕ → ι → α} {e : Option ι} {l r : List ι} {x z : ι}
    (h : Seg (total link) e (l ++ x :: r)) (hz : (l ++ [x]).head? = some z)
    (hF : ∀ n, ∀ y ∈ l, F (n+1) y = F n (link y)) (n : ℕ) : F (n+l.length) z = F n x := by
  induction l generalizing z with
  | nil =>
    cases hz
    rfl
  | cons y l ih =>
    obtain ⟨hy,hl⟩ := seg_cons.mp h
    cases hz
    have hnext : (l ++ [x]).head? = some (link y) := by
      refine Eq.trans ?_ hy.symm
      cases l <;> rfl
    rw [List.length_cons,← Nat.add_assoc,hF _ y List.mem_cons_self]
    exact ih hl hnext fun n i hi => hF n i (List.mem_cons_of_mem y hi)

theorem Seg.link_mem_tail {e : Option ι} {l r : List ι} {x y : ι} (h : Seg (total link) e (l ++ x :: r)) (hy : y ∈ l) :
    link y ∈ (l ++ x :: r).tail := by
  obtain ⟨l₁,l₂,rfl⟩ := List.append_of_mem hy
  rw [List.append_assoc,List.cons_append] at h ⊢
  obtain ⟨-,hlink,-⟩ := seg_append.mp h
  have hmem : link y ∈ l₂ ++ x :: r := by
    cases l₂ with
    | nil =>
      rw [Option.some.inj hlink]
      exact List.mem_cons_self
    | cons z l₂ =>
      rw [Option.some.inj hlink]
      exact List.mem_cons_self
  cases l₁ with
  | nil => exact hmem
  | cons z l₁ => exact List.mem_append_right l₁ (List.mem_cons_of_mem y hmem)

theorem Circle.exists_link {l : List ι} {x : ι} (h : Circle link l) (hx : x ∈ l) : ∃ y ∈ l, link y = x := by
  obtain ⟨l₁,l₂,rfl⟩ := List.append_of_mem hx
  -- Read from `x` on, the cell before `x` is the last one.
  have hrot := h.rotate
  obtain ⟨y,r,hr⟩ : ∃ y r, x :: l₂ ++ l₁ = r ++ [y] := by
    obtain hnil | ⟨r,y,hr⟩ := List.eq_nil_or_concat (x :: l₂ ++ l₁)
    · cases hnil
    · exact ⟨y,r,hr.trans List.concat_eq_append⟩
  have hlast : total link y = some x := (hr ▸ hrot : Seg (total link) (some x) (r ++ [y])).link_last
  refine ⟨y,?_,Option.some.inj hlast⟩
  have hy : y ∈ x :: l₂ ++ l₁ := hr ▸ List.mem_append_right r List.mem_cons_self
  rw [List.mem_append] at hy ⊢
  exact hy.symm

end Xv6Paging.LinkedCells
