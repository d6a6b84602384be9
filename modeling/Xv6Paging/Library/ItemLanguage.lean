import Mathlib.Computability.Language

/-! # Languages of item sequences

An item stands for one letter of a class or for any number of them, and a sequence of
items for the concatenations. `Begins L fin text` says that some word of `L` begins the
text with a rest that `fin` allows. A program that walks along the text and the items
decides it by the rules below, one for each item.
-/
namespace Xv6Paging.ItemLanguage
open Computability
variable {α : Type*}

inductive Item (α : Type*)
  | one (p : α → Bool)
  | many (p : α → Bool)

def letters (p : α → Bool) : Language α := {w | ∃ x, p x = true ∧ w = [x]}

def Item.lang : Item α → Language α
  | .one p => letters p
  | .many p => (letters p)∗

def lang : List (Item α) → Language α
  | [] => 1
  | item :: items => item.lang * lang items

def Begins (L : Language α) (fin : List α → Prop) (text : List α) : Prop :=
  ∃ w r, w ++ r = text ∧ w ∈ L ∧ fin r

variable {L M : Language α} {fin : List α → Prop} {text : List α} {p : α → Bool}

theorem begins_one : Begins 1 fin text ↔ fin text := by
  constructor
  · rintro ⟨w,r,rfl,hw,hr⟩
    rw [Language.mem_one] at hw
    subst hw
    exact hr
  · intro h
    exact ⟨[],text,rfl,Language.nil_mem_one,h⟩

theorem begins_add : Begins (L+M) fin text ↔ Begins L fin text ∨ Begins M fin text := by
  constructor
  · rintro ⟨w,r,hwr,hw,hr⟩
    rcases (Language.mem_add _ _ _).mp hw with hw | hw
    · exact Or.inl ⟨w,r,hwr,hw,hr⟩
    · exact Or.inr ⟨w,r,hwr,hw,hr⟩
  · rintro (⟨w,r,hwr,hw,hr⟩ | ⟨w,r,hwr,hw,hr⟩)
    · exact ⟨w,r,hwr,(Language.mem_add _ _ _).mpr (Or.inl hw),hr⟩
    · exact ⟨w,r,hwr,(Language.mem_add _ _ _).mpr (Or.inr hw),hr⟩

theorem begins_letters_nil : ¬ Begins (letters p*L) fin [] := by
  rintro ⟨w,r,hwr,hw,-⟩
  obtain ⟨u,⟨x,-,rfl⟩,v,-,rfl⟩ := Language.mem_mul.mp hw
  simp at hwr

theorem begins_letters_cons {x : α} :
    Begins (letters p*L) fin (x :: text) ↔ p x = true ∧ Begins L fin text := by
  constructor
  · rintro ⟨w,r,hwr,hw,hr⟩
    obtain ⟨u,⟨y,hy,rfl⟩,v,hv,rfl⟩ := Language.mem_mul.mp hw
    rw [List.singleton_append,List.cons_append,List.cons.injEq] at hwr
    obtain ⟨rfl,rfl⟩ := hwr
    exact ⟨hy,v,r,rfl,hv,hr⟩
  · rintro ⟨hx,v,r,rfl,hv,hr⟩
    exact ⟨x :: v,r,rfl,Language.mem_mul.mpr ⟨[x],⟨x,hx,rfl⟩,v,hv,rfl⟩,hr⟩

theorem begins_many : Begins ((letters p)∗*L) fin text ↔
    Begins L fin text ∨ Begins (letters p*((letters p)∗*L)) fin text := by
  have hunroll : (letters p)∗*L = L+letters p*((letters p)∗*L) := by
    calc (letters p)∗*L = (1+letters p*(letters p)∗)*L := by rw [Language.one_add_self_mul_kstar_eq_kstar]
      _ = L+letters p*((letters p)∗*L) := by rw [add_mul,one_mul,mul_assoc]
  rw [← begins_add,← hunroll]

end Xv6Paging.ItemLanguage
