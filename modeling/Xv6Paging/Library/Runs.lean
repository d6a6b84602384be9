import Mathlib.Logic.Relation

/-! # Runs of a transition system

A system takes actions; an action that is not possible has no result. A run is a sequence
of actions that all meet a condition on the action and on the state before it.
-/
namespace Xv6Paging.Runs
variable {σ α : Type*} {step : σ → α → Option σ} {P : σ → α → Prop} {s t : σ}

def Next (step : σ → α → Option σ) (P : σ → α → Prop) (s t : σ) : Prop := ∃ a, P s a ∧ step s a = some t

/-- The states that runs from `s` reach whose actions all meet `P`. -/
def Reaches (step : σ → α → Option σ) (P : σ → α → Prop) : σ → σ → Prop := Relation.ReflTransGen (Next step P)

/-- What every action that meets `P` keeps, every run keeps. -/
theorem Reaches.invariant {I : σ → Prop} (h : Reaches step P s t) (hs : I s)
    (hstep : ∀ s a t, I s → P s a → step s a = some t → I t) : I t := by
  induction h with
  | refl => exact hs
  | tail _ hnext ih =>
    obtain ⟨a,hP,ha⟩ := hnext
    exact hstep _ a _ ih hP ha

def exec (step : σ → α → Option σ) (P : σ → α → Prop) [∀ s a, Decidable (P s a)] : List α → σ → Option σ
  | [], s => some s
  | a :: as, s => if P s a then (step s a).bind (exec step P as) else none

theorem reaches_of_exec [∀ s a, Decidable (P s a)] {as : List α} (h : exec step P as s = some t) :
    Reaches step P s t := by
  induction as generalizing s with
  | nil =>
    cases h
    exact .refl
  | cons a as ih =>
    rw [exec] at h
    split at h
    · next hP =>
      obtain ⟨u,hu,hrest⟩ := Option.bind_eq_some_iff.mp h
      exact .head ⟨a,hP,hu⟩ (ih hrest)
    · cases h

theorem exists_reaches [∀ s a, Decidable (P s a)] {as : List α} {f : σ → Bool}
    (h : (exec step P as s).map f = some true) : ∃ t, Reaches step P s t ∧ f t = true := by
  obtain ⟨t,ht,hf⟩ := Option.map_eq_some_iff.mp h
  exact ⟨t,reaches_of_exec ht,hf⟩

end Xv6Paging.Runs
