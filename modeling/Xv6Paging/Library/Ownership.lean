import Mathlib.Data.Set.Insert

/-! # Exclusive ownership of cells

Places hold references to cells, and a cell is marked used or free. `Owned` says that no
cell has two places, and that the used cells are those with a place and the loose ones,
which have just been taken or are about to be given back. An allocator marks a free cell
and makes it loose, storing a loose cell in an empty place ties it down, and the two
steps back undo this.
-/
namespace Xv6Paging.Ownership
variable {P C : Type*}

structure Owned (addr : P → Option C) (used : C → Prop) (loose : Set C) : Prop where
  inj : ∀ p q c, addr p = some c → addr q = some c → p = q
  used_iff : ∀ c, used c ↔ (∃ p, addr p = some c) ∨ c ∈ loose
  apart : ∀ c ∈ loose, ∀ p, addr p ≠ some c

variable {addr addr' : P → Option C} {used used' : C → Prop} {loose : Set C} {p : P} {c : C}

section
variable (h : Owned addr used loose)
include h

theorem Owned.congr (ha : ∀ p, addr' p = addr p) (hu : ∀ c, used' c ↔ used c) : Owned addr' used' loose := by
  obtain rfl : addr' = addr := funext ha
  refine ⟨h.inj,fun c => ?_,h.apart⟩
  rw [hu c]
  exact h.used_iff c

/-- Marking a free cell makes it loose. -/
theorem Owned.take (hc : ¬ used c) (hu : ∀ x, used' x ↔ used x ∨ x = c) :
    Owned addr used' (insert c loose) := by
  refine ⟨h.inj,fun x => ?_,?_⟩
  · rw [hu x,h.used_iff x,Set.mem_insert_iff,or_assoc,or_comm (a := x ∈ loose)]
  · rintro x (rfl | hx) q hq
    · exact hc ((h.used_iff x).mpr (Or.inl ⟨q,hq⟩))
    · exact h.apart x hx q hq

/-- Storing a loose cell in an empty place ties it down. -/
theorem Owned.assign (hp : addr p = none) (hc : c ∈ loose)
    (hself : addr' p = some c) (hother : ∀ q, q ≠ p → addr' q = addr q) :
    Owned addr' used (loose \ {c}) := by
  have hcases : ∀ q x, addr' q = some x → q = p ∧ x = c ∨ q ≠ p ∧ addr q = some x := by
    intro q x hq
    by_cases hqp : q = p
    · rw [hqp,hself] at hq
      exact Or.inl ⟨hqp,(Option.some.inj hq).symm⟩
    · exact Or.inr ⟨hqp,hother q hqp ▸ hq⟩
  have hold : ∀ q x, addr q = some x → q ≠ p := by
    rintro q x hq rfl
    rw [hp] at hq
    cases hq
  refine ⟨fun q r x hq hr => ?_,fun x => ?_,?_⟩
  · rcases hcases q x hq with ⟨rfl,rfl⟩ | ⟨-,hq⟩ <;> rcases hcases r x hr with ⟨rfl,hx⟩ | ⟨-,hr⟩
    · rfl
    · exact absurd hr (h.apart x hc r)
    · exact absurd hq (h.apart x (hx ▸ hc) q)
    · exact h.inj q r x hq hr
  · rw [h.used_iff x]
    constructor
    · rintro (⟨q,hq⟩ | hx)
      · exact Or.inl ⟨q,(hother q (hold q x hq)).trans hq⟩
      · by_cases hxc : x = c
        · exact Or.inl ⟨p,hxc ▸ hself⟩
        · exact Or.inr ⟨hx,hxc⟩
    · rintro (⟨q,hq⟩ | ⟨hx,-⟩)
      · rcases hcases q x hq with ⟨rfl,rfl⟩ | ⟨-,hq⟩
        · exact Or.inr hc
        · exact Or.inl ⟨q,hq⟩
      · exact Or.inr hx
  · rintro x ⟨hx,hxc⟩ q hq
    rcases hcases q x hq with ⟨-,hxc'⟩ | ⟨-,hq⟩
    · exact hxc hxc'
    · exact h.apart x hx q hq

/-- Emptying places makes their cells loose. -/
theorem Owned.release (S : Set P) (hself : ∀ q ∈ S, addr' q = none) (hother : ∀ q ∉ S, addr' q = addr q) :
    Owned addr' used (loose ∪ {c | ∃ q ∈ S, addr q = some c}) := by
  have hkept : ∀ q x, addr' q = some x → q ∉ S ∧ addr q = some x := by
    intro q x hq
    have hqS : q ∉ S := by
      intro hqS
      rw [hself q hqS] at hq
      cases hq
    exact ⟨hqS,hother q hqS ▸ hq⟩
  refine ⟨fun q r x hq hr => h.inj q r x (hkept q x hq).2 (hkept r x hr).2,fun x => ?_,?_⟩
  · rw [h.used_iff x]
    constructor
    · rintro (⟨q,hq⟩ | hx)
      · by_cases hqS : q ∈ S
        · exact Or.inr (Or.inr ⟨q,hqS,hq⟩)
        · exact Or.inl ⟨q,(hother q hqS).trans hq⟩
      · exact Or.inr (Or.inl hx)
    · rintro (⟨q,hq⟩ | hx | ⟨q,-,hq⟩)
      · exact Or.inl ⟨q,(hkept q x hq).2⟩
      · exact Or.inr hx
      · exact Or.inl ⟨q,hq⟩
  · rintro x (hx | ⟨r,hr,hrx⟩) q hq
    · exact h.apart x hx q (hkept q x hq).2
    · obtain ⟨hqS,hq⟩ := hkept q x hq
      exact hqS (h.inj r q x hrx hq ▸ hr)

/-- Unmarking a loose cell frees it. -/
theorem Owned.give (hc : c ∈ loose) (hu : ∀ x, used' x ↔ used x ∧ x ≠ c) : Owned addr used' (loose \ {c}) := by
  refine ⟨h.inj,fun x => ?_,fun x hx => h.apart x hx.1⟩
  rw [hu x,h.used_iff x]
  constructor
  · rintro ⟨hq | hx,hne⟩
    · exact Or.inl hq
    · exact Or.inr ⟨hx,hne⟩
  · rintro (⟨q,hq⟩ | ⟨hx,hne⟩)
    · refine ⟨Or.inl ⟨q,hq⟩,?_⟩
      rintro rfl
      exact h.apart x hc q hq
    · exact ⟨Or.inr hx,hne⟩

theorem Owned.used_of_addr (hp : addr p = some c) : used c :=
  (h.used_iff c).mpr (Or.inl ⟨p,hp⟩)

end

end Xv6Paging.Ownership
