import Xv6Paging.Library.Outcome
import Xv6Paging.Paging.Slots

/-! # The AQ queue

Eviction, deallocation and the scheduler's pass keep a doubly linked queue of any length
doubly linked. Insertion does not: it makes the new slot the head and sets the old
head's `prev`, but leaves the new head's `next` null. A queue that was not empty is then
cut off behind its new head.
-/
namespace Xv6Paging.AqQueue
open WordPage LinkedCells Function

/-- `next` from the head visits every occupied slot once, and `prev` from the tail the same slots in reverse. -/
def WellFormed (p : ProcPages) : Prop :=
  ∃ l : List Slot, Follows p.next p.head l ∧ Follows p.prev p.tail l.reverse ∧ l.Nodup ∧
    (∀ i, i ∈ l ↔ p.va i ≠ none) ∧ (p.head = none ↔ p.tail = none)

inductive Op (σ : Type)
  | insert (va : ℕ)
  | evict
  | dealloc (a : ℕ)
  | schedule
  | world (t : σ)

section Steps
variable {σ : Type} (accessBit : ℕ → σ → Except Fault (Bool × σ)) (userBit : ℕ → σ → Except Fault Bool)

/-- The callers select a page to remove only when the array is full, and then mark its
slot as unused. -/
def step (op : Op σ) (s : ProcPages × σ) : Except Fault (ProcPages × σ) :=
  match op with
  | .insert va =>
    match updateMemory .aq s.1 va with
    | .error e => .error e
    | .ok (_,p) => .ok (p,s.2)
  | .evict =>
    if (maxPsycPages : ℤ) ≤ s.1.pagesInMemoryCounter then
      match aqAlg (fun va => userBit va s.2) s.1 with
      | .error e => .error e
      | .ok (tmp,p) =>
        .ok ({p with
          va := update p.va tmp none
          pagesInMemoryCounter := p.pagesInMemoryCounter-1},s.2)
    else .ok s
  | .dealloc a =>
    if 1 < (forgetResident (defaultAge .aq) true a s.1).2 then
      .error (.panic "found same virtual address more then once in the data strucure\n")
    else .ok ((forgetResident (defaultAge .aq) true a s.1).1,s.2)
  | .schedule => aqPass accessBit s.1 s.2
  | .world t => .ok (s.1,t)

def IntoEmpty (op : Op σ) (s : ProcPages × σ) : Prop :=
  match op with
  | .insert _ => s.1.head = none
  | _ => True

def GuardedStep (s s' : ProcPages × σ) : Prop :=
  ∃ op, IntoEmpty op s ∧ step accessBit userBit op s = .ok s'

end Steps

structure Queue (p : ProcPages) (l : List Slot) : Prop where
  nodup : l.Nodup
  mem : ∀ i, i ∈ l ↔ p.va i ≠ none
  head : p.head = l.head?
  tail : p.tail = l.getLast?
  next : Seg p.next none l
  prev : Seg p.prev none l.reverse

theorem wellFormed_iff {p : ProcPages} : WellFormed p ↔ ∃ l, Queue p l := by
  constructor
  · rintro ⟨l,hn,hp,hnd,hmem,-⟩
    rw [follows_iff] at hn hp
    exact ⟨l,hnd,hmem,hn.1,by rw [hp.1]; simp,hn.2,hp.2⟩
  · rintro ⟨l,h⟩
    refine ⟨l,follows_iff.mpr ⟨h.head,h.next⟩,follows_iff.mpr ⟨by rw [h.tail]; simp,h.prev⟩,
      h.nodup,h.mem,?_⟩
    rw [h.head,h.tail]
    simp

theorem wellFormed_init : WellFormed (ProcPages.init .aq) :=
  wellFormed_iff.mpr ⟨[],List.nodup_nil,by simp [ProcPages.init],rfl,rfl,trivial,trivial⟩

namespace Queue
variable {p : ProcPages} {l pre post r : List Slot} {i t tmp : Slot}

theorem next_at (h : Queue p (pre ++ i :: post)) : p.next i = post.head? := by
  obtain ⟨-,hi,-⟩ := seg_append.mp h.next
  simpa using hi

theorem prev_at (h : Queue p (pre ++ i :: post)) : p.prev i = pre.getLast? := by
  have hr := h.prev
  rw [List.reverse_append,List.reverse_cons,List.append_assoc] at hr
  obtain ⟨-,hi,-⟩ := seg_append.mp hr
  simpa using hi

theorem remove {p' : ProcPages} (h : Queue p (pre ++ i :: post)) (hr : Removed p i p') :
    Queue p' (pre ++ post) := by
  have hnd := h.nodup
  have hi := not_mem_remove hnd
  have hne : ∀ j ∈ pre ++ post, j ≠ i := fun j hj hji => hi (hji ▸ hj)
  have hn := h.next_at
  have hp := h.prev_at
  refine ⟨hnd.sublist (by simp),?_,?_,?_,?_,?_⟩
  · intro j
    rw [hr.va]
    by_cases hj : j = i
    · simpa [hj] using hi
    · have hm := h.mem j
      simp [hj] at hm ⊢
      exact hm
  · rw [hr.head,h.head,hn]
    exact head?_remove hnd
  · rw [hr.tail,h.tail,hp]
    exact getLast?_remove hnd
  · exact (h.next.remove hnd).congr fun j hj => hp ▸ hr.next j (hne j hj)
  · have hrev : (pre ++ i :: post).reverse = post.reverse ++ i :: pre.reverse := by simp
    have hseg := h.prev
    rw [hrev] at hseg
    have hrem := hseg.remove (hrev ▸ List.nodup_reverse.mpr hnd)
    rw [List.getLast?_reverse] at hrem
    rw [List.reverse_append]
    refine hrem.congr fun j hj => hn ▸ hr.prev j (hne j ?_)
    rw [← List.reverse_append] at hj
    exact List.mem_reverse.mp hj

theorem rotate (h : Queue p (r ++ [t] ++ [tmp])) {a : Slot} (ha : p.head = some a) :
    Queue {p with
      tail := some t
      next := update (update p.next t none) tmp (some a)
      prev := update (update p.prev tmp none) a (some tmp)
      head := some tmp} (tmp :: (r ++ [t])) := by
  have hnd := h.nodup
  rw [List.nodup_append] at hnd
  obtain ⟨hnd1,-,hdis⟩ := hnd
  have htmp : tmp ∉ r ++ [t] := fun hm => hdis tmp hm tmp (List.mem_singleton_self _) rfl
  have hhead : (r ++ [t]).head? = some a := by
    rw [← ha,h.head]
    cases r <;> rfl
  obtain ⟨r',hr'⟩ : ∃ r', r ++ [t] = a :: r' := List.head?_eq_some_iff.mp hhead
  have hatmp : a ≠ tmp := by
    rintro rfl
    exact htmp (hr' ▸ List.mem_cons_self)
  refine ⟨List.nodup_cons.mpr ⟨htmp,hnd1⟩,?_,rfl,?_,⟨?_,?_⟩,?_⟩
  · intro j
    rw [← h.mem]
    simp
    tauto
  · simp [List.getLast?_cons]
  · simp [hhead]
  · have hs : Seg p.next (some tmp) (r ++ [t]) := (seg_append.mp h.next).1
    have ht : t ∉ r := by
      rw [List.nodup_append] at hnd1
      exact fun hm => hnd1.2.2 t hm t (List.mem_singleton_self _) rfl
    refine (hs.relink_last ht none).congr fun j hj => update_of_ne ?_ _ _
    rintro rfl
    exact htmp hj
  · have hs : Seg p.prev none (r ++ [t]).reverse := by
      have hp := h.prev
      rw [List.reverse_append] at hp
      exact hp.2
    rw [List.reverse_cons]
    refine seg_append.mpr ⟨?_,?_⟩
    · rw [hr',List.reverse_cons] at hs ⊢
      have ha' : a ∉ r'.reverse := by
        rw [hr',List.nodup_cons] at hnd1
        simpa using hnd1.1
      refine (hs.relink_last ha' (some tmp)).congr fun j hj => ?_
      have hj' : j ≠ tmp := by
        rintro rfl
        rw [hr'] at htmp
        simp at hj
        exact htmp (List.mem_cons.mpr hj.symm)
      by_cases hja : j = a
      · simp [hja]
      · simp [hja,hj']
    · simp [hatmp.symm]

theorem loop (userBit : ℕ → Except Fault Bool) {todo done : List Slot} {oldtail : Slot}
    (h : Queue p (done ++ (todo ++ [tmp]))) (hold : (todo ++ [tmp] ++ done).getLast? = some oldtail)
    {fuel : ℕ} (hfuel : todo.length < fuel) :
    (∃ e, aqLoop userBit oldtail fuel p tmp = .error e ∧ ((∃ va, userBit va = .error e) ∨
      e = .nullDeref ∨ e = .panic "all pages in memory are with user bit off\n")) ∨
    ∃ sel p' rest, aqLoop userBit oldtail fuel p tmp = .ok (sel,p') ∧ Queue p' (rest ++ [sel]) := by
  induction fuel generalizing p todo done tmp with
  | zero => omega
  | succ fuel ih =>
    cases hu : userBit (vaAddr (p.va tmp)) with
    | error e => exact Or.inl ⟨e,by simp [aqLoop,hu],Or.inl ⟨_,hu⟩⟩
    | ok b =>
      cases b with
      | true =>
        refine Or.inr ⟨tmp,p,done ++ todo,by simp [aqLoop,hu],?_⟩
        rw [List.append_assoc]
        exact h
      | false =>
        rw [← List.append_assoc] at h
        have hp := h.prev_at
        obtain ⟨a,ha⟩ : ∃ a, p.head = some a := by
          rw [h.head]
          cases done ++ todo with
          | nil => exact ⟨tmp,rfl⟩
          | cons y l => exact ⟨y,rfl⟩
        rcases List.eq_nil_or_concat todo with rfl | ⟨r,t,rfl⟩
        · left
          rw [List.append_nil] at hp
          rcases List.eq_nil_or_concat done with rfl | ⟨d,o,rfl⟩
          · exact ⟨_,by simp [aqLoop,hu,hp],Or.inr (Or.inl rfl)⟩
          · rw [List.concat_eq_append] at hold hp
            have ho : o = oldtail := by
              rw [← List.append_assoc,List.getLast?_concat] at hold
              simpa using hold
            rw [List.getLast?_concat] at hp
            exact ⟨_,by simp [aqLoop,hu,hp,ha,ho],Or.inr (Or.inr rfl)⟩
        · rw [List.concat_eq_append] at *
          rw [← List.append_assoc,List.getLast?_concat] at hp
          have hne : t ≠ oldtail := by
            rintro rfl
            have hnd := h.nodup
            rcases List.eq_nil_or_concat done with rfl | ⟨d,o,rfl⟩
            · simp only [List.append_nil,List.getLast?_concat,Option.some.injEq] at hold
              subst hold
              simp [List.nodup_append] at hnd
            · rw [List.concat_eq_append,← List.append_assoc,List.getLast?_concat] at hold
              obtain rfl : o = t := by simpa using hold
              simp [List.nodup_append] at hnd
          have hrot := Queue.rotate (r := done ++ r) (by simpa using h) ha
          have hq := @ih _ t r (tmp :: done) (by simpa using hrot) ?_ ?_
          · have hstep : aqLoop userBit oldtail (fuel+1) p tmp = aqLoop userBit oldtail fuel {p with
                tail := some t
                next := update (update p.next t none) tmp (some a)
                prev := update (update p.prev tmp none) a (some tmp)
                head := some tmp} t := by
              rw [aqLoop]
              simp only [hu,hp,ha]
              rw [if_neg hne]
            rw [hstep]
            exact hq
          · rw [← hold]
            simp
          · simp at hfuel
            omega

theorem select (userBit : ℕ → Except Fault Bool) (h : Queue p l) {sel : Slot} {p' : ProcPages}
    (hs : aqAlg userBit p = .ok (sel,p')) (n : ℤ) :
    ∃ l', Queue {p' with va := update p'.va sel none, pagesInMemoryCounter := n} l' := by
  rcases List.eq_nil_or_concat l with rfl | ⟨r,tmp,rfl⟩
  · have ht : p.tail = none := h.tail
    simp [aqAlg,ht] at hs
  · rw [List.concat_eq_append] at h
    have ht : p.tail = some tmp := by rw [h.tail,List.getLast?_concat]
    have hlen : r.length < 64 := by
      have hle := slots_length_le h.nodup
      rw [List.length_append,maxPsycPages] at hle
      omega
    have hold : (r ++ [tmp] ++ []).getLast? = some tmp := by simp
    have h' : Queue p ([] ++ (r ++ [tmp])) := h
    rcases h'.loop userBit hold hlen with ⟨e,he,-⟩ | ⟨sel',q,rest,he,hq⟩
    · simp [aqAlg,ht,he] at hs
    · simp only [aqAlg,ht,he,Except.ok.injEq,Prod.mk.injEq] at hs
      obtain ⟨rfl,rfl⟩ := hs
      exact ⟨_,hq.remove (unlinkTmp_removed q sel' n)⟩

theorem exchange (h : Queue p l) {j : Slot} (hi : i ∈ l) (hj : j ∈ l) : Queue (p.exchange i j) l := by
  refine ⟨h.nodup,?_,h.head,h.tail,h.next,h.prev⟩
  intro m
  rw [h.mem]
  rw [h.mem] at hi hj
  by_cases hmi : m = i
  · simp [ProcPages.exchange,hmi,hi,hj]
  · by_cases hmj : m = j
    · subst hmj
      simp [ProcPages.exchange,hmi,hi,hj]
    · simp [ProcPages.exchange,hmi,hmj]

theorem advance {suf : List Slot} (h : Queue p (pre ++ suf)) {fuel : ℕ} (hf : suf.length ≤ fuel) :
    ∃ p', aqAdvance fuel p suf.head? = .ok p' ∧ Queue p' (pre ++ suf) := by
  induction suf generalizing p pre fuel with
  | nil => exact ⟨p,by simp [aqAdvance],h⟩
  | cons cur suf ih =>
    obtain ⟨fuel,rfl⟩ : ∃ f, fuel = f+1 := ⟨fuel-1,by simp at hf; omega⟩
    have hn := h.next_at
    have hp := h.prev_at
    have hsplit : pre ++ cur :: suf = (pre ++ [cur]) ++ suf := by simp
    have hf' : suf.length ≤ fuel := by simpa using hf
    rw [List.head?_cons,aqAdvance]
    rw [hn]
    cases hq : p.prev cur with
    | none =>
      rw [hsplit] at h ⊢
      exact ih h hf'
    | some q =>
      have hqm : q ∈ pre ++ cur :: suf := by
        rw [hp] at hq
        exact List.mem_append_left _ (List.mem_of_getLast? hq)
      dsimp only
      split
      · have he := h.exchange (i := cur) (j := q) (by simp) hqm
        rw [hsplit] at he ⊢
        exact ih he hf'
      · rw [hsplit] at h ⊢
        exact ih h hf'

end Queue

section Runs
variable {σ : Type} {accessBit : ℕ → σ → Except Fault (Bool × σ)} {userBit : ℕ → σ → Except Fault Bool}

theorem aqSample_queue {p p' : ProcPages} {t t' : σ} {l : List Slot} (h : Queue p l)
    (hs : aqSample accessBit p t = .ok (p',t')) : Queue p' l := by
  have hout : Outcome (aqSample accessBit p t) (fun s => Queue s.1 l) fun _ => True := by
    refine Outcome.foldlM (I := fun s : ProcPages × σ => Queue s.1 l) ?_ h
    rintro i - ⟨p,t⟩ hq
    dsimp only
    cases hv : p.va i with
    | none => exact .ok hq
    | some va =>
      dsimp only
      cases hb : accessBit va t with
      | error e => exact .error trivial
      | ok r => exact .ok ⟨hq.nodup,hq.mem,hq.head,hq.tail,hq.next,hq.prev⟩
  exact hout.of_ok hs

theorem step_queue {op : Op σ} {s s' : ProcPages × σ} {l : List Slot} (h : Queue s.1 l)
    (hg : IntoEmpty op s) (hs : step accessBit userBit op s = .ok s') : ∃ l', Queue s'.1 l' := by
  cases op with
  | insert va =>
    have hl : l = [] := by
      have hh := h.head
      rw [show s.1.head = none from hg] at hh
      exact List.head?_eq_none_iff.mp hh.symm
    subst hl
    cases hf : firstFree s.1.va with
    | none => simp [step,updateMemory,updateMemoryAq,h.head,h.tail,hf] at hs
    | some i =>
      simp only [step,updateMemory,updateMemoryAq,h.head,h.tail,hf,List.head?_nil,List.getLast?_nil,
        Except.ok.injEq] at hs
      subst hs
      refine ⟨[i],by simp,?_,rfl,rfl,by simp,by simp⟩
      intro j
      have hm := h.mem j
      by_cases hj : j = i
      · simp [ProcPages.occupy,hj]
      · simpa [ProcPages.occupy,hj] using hm
  | evict =>
    by_cases hc : (maxPsycPages : ℤ) ≤ s.1.pagesInMemoryCounter
    · simp only [step,if_pos hc] at hs
      cases ha : aqAlg (fun va => userBit va s.2) s.1 with
      | error e => simp [ha] at hs
      | ok r =>
        simp only [ha,Except.ok.injEq] at hs
        subst hs
        exact h.select _ ha _
    · simp only [step,if_neg hc,Except.ok.injEq] at hs
      subst hs
      exact ⟨l,h⟩
  | dealloc a =>
    by_cases hf : 1 < (forgetResident (defaultAge .aq) true a s.1).2
    · simp [step,hf] at hs
    · simp only [step,if_neg hf,Except.ok.injEq] at hs
      subst hs
      rcases forgetResident_cases (not_lt.mp hf) with ⟨he,-⟩ | ⟨i,hi,-,he⟩
      · exact ⟨l,by rw [he]; exact h⟩
      · rw [he]
        obtain ⟨pre,post,rfl⟩ := List.append_of_mem ((h.mem i).mpr (by simp [hi]))
        exact ⟨_,h.remove (freeSlot_removed _ _ _ _)⟩
  | schedule =>
    simp only [step,aqPass] at hs
    cases hsm : aqSample accessBit s.1 s.2 with
    | error e => simp [hsm] at hs
    | ok r =>
      have hq := aqSample_queue h hsm
      obtain ⟨p',ha,hq'⟩ := @Queue.advance _ [] _ hq _ (slots_length_le hq.nodup)
      rw [← hq.head] at ha
      simp only [hsm,ha,Except.ok.injEq] at hs
      subst hs
      exact ⟨_,hq'⟩
  | world t =>
    simp only [step,Except.ok.injEq] at hs
    subst hs
    exact ⟨l,h⟩

/-- An insertion keeps a well-formed queue well formed exactly when the queue is empty. -/
theorem insert_wellFormed_iff {s s' : ProcPages × σ} (h : WellFormed s.1) {va : ℕ}
    (hs : step accessBit userBit (.insert va) s = .ok s') :
    WellFormed s'.1 ↔ IntoEmpty (.insert va : Op σ) s := by
  obtain ⟨l,hl⟩ := wellFormed_iff.mp h
  constructor
  · intro hw
    by_contra hne
    obtain ⟨a,ha⟩ : ∃ a, s.1.head = some a := Option.ne_none_iff_exists'.mp hne
    obtain ⟨t,ht⟩ : ∃ t, s.1.tail = some t := by
      obtain ⟨-,-,-,-,-,hnull⟩ := h
      exact Option.ne_none_iff_exists'.mp fun he => hne (hnull.mpr he)
    have hal : a ∈ l := List.mem_of_mem_head? (Option.mem_def.mpr (hl.head ▸ ha))
    cases hf : firstFree s.1.va with
    | none =>
      by_cases hp : (s.1.prev a).isSome <;>
        simp [step,updateMemory,updateMemoryAq,ha,ht,hf,hp] at hs
    | some i =>
      have hi := firstFree_some hf
      have hai : a ≠ i := by
        rintro rfl
        exact (hl.mem a).mp hal hi
      by_cases hp : (s.1.prev a).isSome
      · simp [step,updateMemory,updateMemoryAq,ha,ht,hp] at hs
      · simp only [step,updateMemory,updateMemoryAq,ha,ht,hf,hp,Bool.false_eq_true,if_false,
          Except.ok.injEq] at hs
        subst hs
        obtain ⟨l',hl'⟩ := wellFormed_iff.mp hw
        obtain ⟨r,rfl⟩ := List.head?_eq_some_iff.mp hl'.head.symm
        have hr : r = [] := by
          have hn := @Queue.next_at _ [] _ _ hl'
          simp only [update_self] at hn
          exact List.head?_eq_none_iff.mp hn.symm
        subst hr
        have hm : a ∈ [i] := by
          rw [hl'.mem]
          simpa [ProcPages.occupy,hai] using (hl.mem a).mp hal
        exact hai (List.mem_singleton.mp hm)
  · intro hg
    exact wellFormed_iff.mpr (step_queue hl hg hs)

/-- If each insertion meets an empty queue, the queue stays well formed. An insertion into a queue that is
not empty breaks it. -/
theorem aq_queue_wellFormed (accessBit : ℕ → σ → Except Fault (Bool × σ))
    (userBit : ℕ → σ → Except Fault Bool) :
    WellFormed (ProcPages.init .aq) ∧
    ∀ s₀ s : ProcPages × σ, WellFormed s₀.1 →
      Relation.ReflTransGen (GuardedStep accessBit userBit) s₀ s →
      WellFormed s.1 ∧ ∀ va s', step accessBit userBit (.insert va) s = .ok s' →
        (WellFormed s'.1 ↔ IntoEmpty (.insert va : Op σ) s) := by
  refine ⟨wellFormed_init,fun s₀ s h₀ hr => ?_⟩
  have hw : WellFormed s.1 := by
    induction hr with
    | refl => exact h₀
    | tail _ hst ih =>
      obtain ⟨l,hl⟩ := wellFormed_iff.mp ih
      obtain ⟨op,hg,hs⟩ := hst
      exact wellFormed_iff.mpr (step_queue hl hg hs)
  exact ⟨hw,fun va s' hs => insert_wellFormed_iff hw hs⟩

def userPage (_ : ℕ) (_ : ℕ → Bool) : Except Fault Bool := .ok true

/-- A page is inserted, aged by the scheduler, deallocated and replaced by another. -/
theorem aq_queue_wellFormed_reinsert :
    ∃ s, [Op.insert 0,.schedule,.dealloc 0,.insert 4096].foldlM
        (fun s op => step tableBit userPage op s) (ProcPages.init .aq,fun _ => true) = .ok s ∧
      WellFormed s.1 := by
  have h := aq_queue_wellFormed tableBit userPage
  refine ⟨_,rfl,(h.2 (ProcPages.init .aq,fun _ => true) _ h.1 ?_).1⟩
  exact .tail (.tail (.tail (.tail .refl ⟨.insert 0,rfl,rfl⟩) ⟨.schedule,trivial,rfl⟩)
    ⟨.dealloc 0,trivial,rfl⟩) ⟨.insert 4096,rfl,rfl⟩

/-- After two insertions `next` leads nowhere from the head although two slots are occupied. -/
theorem aq_second_insert_breaks_queue :
    ∃ s, [Op.insert 0,.insert 4096].foldlM (fun s op => step tableBit userPage op s)
        (ProcPages.init .aq,fun _ => true) = .ok s ∧ s.1.head = some 1 ∧ s.1.next 1 = none ∧
      s.1.tail = some 0 ∧ s.1.va 0 ≠ none ∧ ¬ WellFormed s.1 := by
  refine ⟨_,rfl,by decide,by decide,by decide,by decide,fun hw => ?_⟩
  obtain ⟨l,hl⟩ := wellFormed_iff.mp hw
  obtain ⟨r,rfl⟩ := List.head?_eq_some_iff.mp hl.head.symm
  have hn := @Queue.next_at _ [] _ _ hl
  have hr : r = [] := List.head?_eq_none_iff.mp (hn.symm.trans (by decide))
  subst hr
  exact absurd ((hl.mem 0).mpr (by decide)) (by decide)

end Runs

end Xv6Paging.AqQueue
