import Mathlib.Data.Set.Insert

/-! # Taking cells from a pool

Free cells are kept in a list, and a computation takes cells from its front, writes to cells it holds, and gives
cells back to the front. Whatever it does in between, the cells behind the last one it took are as before.
-/
namespace Xv6Paging.Pool

variable {F P : Type*}

/-- A computation that held `X` has taken the rest of `X'` and has only written to, and given back, cells of
`X'`. -/
structure Draws (X X' : Set F) (l l' : List F) (m m' : F → P) : Prop where
  free : ∃ taken rest given, l = taken ++ rest ∧ l' = given ++ rest ∧ (∀ f, f ∈ X' ↔ f ∈ X ∨ f ∈ taken) ∧
    ∀ f ∈ given, f ∈ X'
  other : ∀ f, f ∉ X' → m' f = m f

section
variable {X X' X'' : Set F} {l l' l'' : List F} {m m' m'' : F → P} {f : F}

theorem Draws.subset (h : Draws X X' l l' m m') : X ⊆ X' := by
  obtain ⟨taken,rest,given,-,-,hX,-⟩ := h.free
  intro f hf
  exact (hX f).mpr (Or.inl hf)

theorem Draws.refl (X : Set F) (l : List F) (m : F → P) : Draws X X l l m m :=
  ⟨⟨[],l,[],rfl,rfl,by simp,by simp⟩,fun _ _ => rfl⟩

theorem Draws.trans (h : Draws X X' l l' m m') (h' : Draws X' X'' l' l'' m' m'') : Draws X X'' l l'' m m'' := by
  refine ⟨?_,fun f hf => (h'.other f hf).trans (h.other f fun hX => hf (h'.subset hX))⟩
  obtain ⟨t,r,g,rfl,hl',hX',hg⟩ := h.free
  obtain ⟨t',r',g',hl'',rfl,hX'',hg'⟩ := h'.free
  obtain ⟨e,rfl,rfl⟩ | ⟨e,rfl,rfl⟩ := List.append_eq_append_iff.mp (hl'.symm.trans hl'')
  · -- The second part has taken what the first gave back, and more.
    refine ⟨t ++ e,r',g',(List.append_assoc t e r').symm,rfl,fun f => ?_,hg'⟩
    rw [hX'',List.mem_append,List.mem_append]
    constructor
    · rintro (hf | hf | hf)
      · exact ((hX' f).mp hf).imp id Or.inl
      · exact ((hX' f).mp (hg f hf)).imp id Or.inl
      · exact Or.inr (Or.inr hf)
    · rintro (hf | hf | hf)
      · exact Or.inl (h.subset hf)
      · exact Or.inl ((hX' f).mpr (Or.inr hf))
      · exact Or.inr (Or.inr hf)
  · refine ⟨t,r,g' ++ e,rfl,(List.append_assoc g' e r).symm,fun f => ?_,fun f hf => ?_⟩
    · rw [hX'',← hX']
      refine ⟨fun hf => hf.elim id fun ht => ?_,Or.inl⟩
      exact hg f (List.mem_append.mpr (Or.inl ht))
    · rcases List.mem_append.mp hf with hf | hf
      · exact hg' f hf
      · exact h'.subset (hg f (List.mem_append.mpr (Or.inr hf)))

theorem Draws.take (X : Set F) (f : F) (l : List F) (m : F → P) : Draws X (insert f X) (f :: l) l m m := by
  refine ⟨⟨[f],l,[],rfl,rfl,fun g => ?_,by simp⟩,fun _ _ => rfl⟩
  rw [Set.mem_insert_iff,List.mem_singleton,or_comm]

theorem Draws.give (hf : f ∈ X) (l : List F) (m : F → P) : Draws X X l (f :: l) m m := by
  refine ⟨⟨[],l,[f],rfl,rfl,by simp,fun g hg => ?_⟩,fun _ _ => rfl⟩
  rw [List.mem_singleton.mp hg]
  exact hf

theorem Draws.write [DecidableEq F] (hf : f ∈ X) (l : List F) (m : F → P) (p : P) :
    Draws X X l l m (Function.update m f p) := by
  refine ⟨(Draws.refl X l m).free,fun g hg => Function.update_of_ne ?_ _ _⟩
  rintro rfl
  exact hg hf

end

end Xv6Paging.Pool
