import Xv6Paging.Library.LinkedCells

/-! # Rings with a head cell

A ring is a doubly linked circular list through a distinguished head cell. A link is
`none` where it points at the head and `some i` where it points at the cell `i`, and the
links of the head are stored at `none`. Seen from the head, both directions are then
null-terminated lists of link cells, the second one in reverse order.
-/
namespace Xv6Paging.LinkRing
open LinkedCells Function
variable {ι : Type*}

structure Links (ι : Type*) where
  next : Option ι → Option ι
  prev : Option ι → Option ι

/-- The circle leads from the head through the cells of `l` and back to the head. -/
structure IsRing (k : Links ι) (l : List ι) : Prop where
  nodup : l.Nodup
  forward : Follows (fun i => k.next (some i)) (k.next none) l
  backward : Follows (fun i => k.prev (some i)) (k.prev none) l.reverse

/-- The first cell that meets `p`, chasing links from a pointer until they lead back to the head. -/
def chase (link : ι → Option ι) (p : ι → Bool) : ℕ → Option ι → Option ι
  | 0, _ => none
  | _+1, none => none
  | n+1, some i => if p i then some i else chase link p n (link i)

/-- Enough fuel finds what a search of the list finds. -/
theorem chase_eq {link : ι → Option ι} {h : Option ι} {l : List ι} (hf : Follows link h l)
    (p : ι → Bool) {n : ℕ} (hn : l.length < n) : chase link p n h = l.find? p := by
  induction hf generalizing n with
  | null =>
    cases n with
    | zero => rfl
    | succ n => rfl
  | @cell i l _ ih =>
    cases n with
    | zero => cases hn
    | succ n =>
      rw [List.length_cons] at hn
      rw [chase,List.find?_cons,ih (Nat.lt_of_succ_lt_succ hn)]
      cases p i <;> rfl

theorem IsRing.next_some {k : Links ι} {pre post : List ι} {b : ι} (h : IsRing k (pre ++ b :: post)) :
    k.next (some b) = post.head? := by
  obtain ⟨-,hseg⟩ := follows_iff.mp h.forward
  obtain ⟨-,hb,-⟩ := seg_append.mp hseg
  rwa [Option.or_none] at hb

theorem IsRing.prev_some {k : Links ι} {pre post : List ι} {b : ι} (h : IsRing k (pre ++ b :: post)) :
    k.prev (some b) = pre.getLast? := by
  obtain ⟨-,hseg⟩ := follows_iff.mp h.backward
  rw [List.reverse_append,List.reverse_cons,List.append_assoc] at hseg
  obtain ⟨-,hb,-⟩ := seg_append.mp hseg
  rw [Option.or_none] at hb
  exact hb.trans List.head?_reverse

section Edits
variable [DecidableEq ι]

def Links.unlink (k : Links ι) (b : ι) : Links ι :=
  let prev := update k.prev (k.next (some b)) (k.prev (some b))
  ⟨update k.next (prev (some b)) (k.next (some b)),prev⟩

def Links.pushFront (k : Links ι) (b : ι) : Links ι :=
  let next := update k.next (some b) (k.next none)
  let prev := update k.prev (some b) none
  ⟨update next none (some b),update prev (next none) (some b)⟩

/-- Storing a link, seen as an edit of the cells other than the head. -/
theorem update_some (link : Option ι → Option ι) (q e : Option ι) :
    (fun i => update link q e (some i)) = storeAt (fun i => link (some i)) q e := by
  funext i
  cases q with
  | none => exact update_of_ne (Option.some_ne_none i) _ _
  | some q =>
    by_cases hi : i = q
    · subst hi
      rw [storeAt_some,update_self,update_self]
    · rw [storeAt_some,update_of_ne hi,update_of_ne (by simpa using hi)]

theorem update_head (link : Option ι → Option ι) (q e : Option ι) :
    update link q e none = if q = none then e else link none := by
  rw [update_apply]
  exact if_congr eq_comm rfl rfl

theorem follows_unlink {link : Option ι → Option ι} {pre post : List ι} {b : ι}
    (h : Follows (fun i => link (some i)) (link none) (pre ++ b :: post)) (hnd : (pre ++ b :: post).Nodup) :
    Follows (fun i => update link pre.getLast? (link (some b)) (some i))
      (update link pre.getLast? (link (some b)) none) (pre ++ post) := by
  obtain ⟨hhead,hseg⟩ := follows_iff.mp h
  have hb : link (some b) = post.head? := by
    obtain ⟨-,hb,-⟩ := seg_append.mp hseg
    rwa [Option.or_none] at hb
  rw [update_some,update_head]
  refine follows_iff.mpr ⟨?_,hseg.remove hnd⟩
  rcases List.eq_nil_or_concat pre with rfl | ⟨r,q,rfl⟩
  · exact hb
  · rw [List.concat_eq_append,List.getLast?_concat,if_neg (Option.some_ne_none q),hhead,List.concat_eq_append]
    cases r <;> rfl

theorem IsRing.unlink {k : Links ι} {pre post : List ι} {b : ι} (h : IsRing k (pre ++ b :: post)) :
    IsRing (k.unlink b) (pre ++ post) := by
  have hne : some b ≠ post.head? := by
    intro he
    have hmem := List.mem_of_mem_head? (Option.mem_def.mpr he.symm)
    exact not_mem_remove h.nodup (List.mem_append_right _ hmem)
  have hprev : (k.unlink b).prev (some b) = pre.getLast? := by
    simp only [Links.unlink]
    rw [h.next_some,update_of_ne hne,h.prev_some]
  have hback := h.backward
  rw [List.reverse_append,List.reverse_cons,List.append_assoc,List.singleton_append] at hback
  have hnd := List.nodup_reverse.mpr h.nodup
  rw [List.reverse_append,List.reverse_cons,List.append_assoc,List.singleton_append] at hnd
  refine ⟨?_,?_,?_⟩
  · exact h.nodup.sublist ((List.sublist_cons_self b post).append_left pre)
  · have hf := follows_unlink h.forward h.nodup
    rw [← hprev] at hf
    exact hf
  · have hf := follows_unlink hback hnd
    rw [List.getLast?_reverse,← h.next_some,← List.reverse_append] at hf
    exact hf

theorem IsRing.pushFront {k : Links ι} {l : List ι} {b : ι} (h : IsRing k l) (hb : b ∉ l) :
    IsRing (k.pushFront b) (b :: l) := by
  obtain ⟨hhead,hseg⟩ := follows_iff.mp h.forward
  obtain ⟨hlast,hback⟩ := follows_iff.mp h.backward
  refine ⟨List.nodup_cons.mpr ⟨hb,h.nodup⟩,follows_iff.mpr ⟨?_,?_,?_⟩,?_⟩
  · rfl
  · simp only [Links.pushFront]
    rw [update_of_ne (Option.some_ne_none b),update_self,hhead,Option.or_none]
  · refine hseg.congr fun i hi => ?_
    have hib : i ≠ b := fun he => hb (he ▸ hi)
    simp only [Links.pushFront]
    rw [update_of_ne (Option.some_ne_none i),update_of_ne (by simpa using hib)]
  · have hfront : update k.next (some b) (k.next none) none = l.head? := by
      rw [update_of_ne (Option.some_ne_none b).symm,hhead]
    simp only [Links.pushFront,hfront]
    cases l with
    | nil =>
      refine .cell ?_
      rw [List.head?_nil,update_of_ne (Option.some_ne_none b),update_self]
      exact .null
    | cons i l =>
      have hib : i ≠ b := fun he => hb (he ▸ List.mem_cons_self)
      have hnd := List.nodup_reverse.mpr h.nodup
      have hb' : b ∉ (i :: l).reverse := fun hm => hb (List.mem_reverse.mp hm)
      rw [List.reverse_cons] at hback hnd hb' hlast
      have hsnoc := hback.snoc hnd hb' none
      rw [List.head?_cons,List.reverse_cons,List.reverse_cons]
      refine follows_iff.mpr ⟨?_,hsnoc.congr fun j _ => ?_⟩
      · rw [update_of_ne (Option.some_ne_none i).symm,update_of_ne (Option.some_ne_none b).symm,
          hlast]
        exact (List.head?_append_of_ne_nil _ (by simp)).symm
      · by_cases hji : j = i
        · subst hji
          rw [update_self,update_of_ne hib,update_self]
        · rw [update_of_ne (by simpa using hji)]
          by_cases hjb : j = b
          · subst hjb
            rw [update_self,update_self]
          · rw [update_of_ne hjb,update_of_ne hji,update_of_ne (by simpa using hjb)]

omit [DecidableEq ι] in
theorem isRing_empty : IsRing (⟨fun _ => none,fun _ => none⟩ : Links ι) [] := ⟨List.nodup_nil,.null,.null⟩

theorem IsRing.foldl_pushFront {k : Links ι} {l l' : List ι} (h : IsRing k l) (hnd : (l' ++ l).Nodup) :
    IsRing (l'.foldl Links.pushFront k) (l'.reverse ++ l) := by
  induction l' generalizing k l with
  | nil => exact h
  | cons b l' ih =>
    rw [List.cons_append,List.nodup_cons,List.mem_append,not_or] at hnd
    obtain ⟨⟨hb',hb⟩,hnd⟩ := hnd
    rw [List.foldl_cons,List.reverse_cons,List.append_assoc]
    refine ih (h.pushFront hb) ?_
    rw [List.nodup_append] at hnd ⊢
    refine ⟨hnd.1,List.nodup_cons.mpr ⟨hb,hnd.2.1⟩,fun a ha c hc => ?_⟩
    rcases List.mem_cons.mp hc with rfl | hc
    · rintro rfl
      exact hb' ha
    · exact hnd.2.2 a ha c hc

end Edits

end Xv6Paging.LinkRing
