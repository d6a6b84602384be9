import Xv6Paging.Paging.Slots

/-! # The SCFIFO queue

Insertion links a new page behind the tail but leaves its `prev` null, and only a second
chance sets it. The queue invariant therefore says that every `prev` is null or right,
and that the `prev` of the head and of every free slot is null. Deallocation trusts
`prev`: it keeps the queue exactly when the page is the head or its `prev` is set.
-/
namespace Xv6Paging.ScfifoQueue
open WordPage LinkedCells Function

def IsStructurePanic (e : Fault) : Prop :=
  e = .panic "structure is wrong tail is  " ∨ e = .panic "queue head got prev pointer\n" ∨
    e = .panic "queue tail got next pointer\n"

/-- `next` from the head visits every occupied slot once and ends at the tail, whose `next` is null. -/
def WellFormed (p : ProcPages) : Prop :=
  ∃ l : List Slot, Follows p.next p.head l ∧ l.Nodup ∧ (∀ i, i ∈ l ↔ p.va i ≠ none) ∧
    p.tail = l.getLast? ∧ (∀ t, p.tail = some t → p.next t = none) ∧
    (p.head = none ↔ p.tail = none)

/-- What the paging code does to the queue. Between two such calls the page table may
change in any way. -/
inductive Op (σ : Type)
  | insert (va : ℕ)
  | evict
  | dealloc (a : ℕ)
  | world (t : σ)

/-- The callers select a page to remove only when the array is full, and then mark its
slot as unused. -/
def step {σ : Type} (accessBit : ℕ → σ → Except Fault (Bool × σ)) (op : Op σ)
    (s : ProcPages × σ) : Except Fault (ProcPages × σ) :=
  match op with
  | .insert va =>
    match updateMemory .scfifo s.1 va with
    | .error e => .error e
    | .ok (_,p) => .ok (p,s.2)
  | .evict =>
    if (maxPsycPages : ℤ) ≤ s.1.pagesInMemoryCounter then
      match scfifoAlg accessBit s.1 s.2 with
      | .error e => .error e
      | .ok (tmp,p,t) =>
        .ok ({p with
          va := update p.va tmp none
          pagesInMemoryCounter := p.pagesInMemoryCounter-1},t)
    else .ok s
  | .dealloc a =>
    if 1 < (forgetResident (defaultAge .scfifo) true a s.1).2 then
      .error (.panic "found same virtual address more then once in the data strucure\n")
    else .ok ((forgetResident (defaultAge .scfifo) true a s.1).1,s.2)
  | .world t => .ok (s.1,t)

/-- A deallocated page is the head of the queue or knows its predecessor. -/
def BackLinked {σ : Type} (op : Op σ) (s : ProcPages × σ) : Prop :=
  match op with
  | .dealloc a => ∀ i, s.1.va i = some a → s.1.head = some i ∨ s.1.prev i ≠ none
  | _ => True

structure Queue (p : ProcPages) (l : List Slot) : Prop where
  nodup : l.Nodup
  mem : ∀ i, i ∈ l ↔ p.va i ≠ none
  head : p.head = l.head?
  tail : p.tail = l.getLast?
  next : Seg p.next none l
  prev : BackOrNull p.prev none l
  free : ∀ i, p.va i = none → p.prev i = none
  count : p.pagesInMemoryCounter = l.length

theorem queue_init : Queue (ProcPages.init .scfifo) [] where
  nodup := List.nodup_nil
  mem := by simp [ProcPages.init]
  head := rfl
  tail := rfl
  next := trivial
  prev := trivial
  free _ _ := rfl
  count := rfl

namespace Queue
variable {p : ProcPages} {l rest : List Slot} {i tmp : Slot}

theorem wellFormed (h : Queue p l) : WellFormed p := by
  refine ⟨l,follows_iff.mpr ⟨h.head,h.next⟩,h.nodup,h.mem,h.tail,?_,?_⟩
  · intro t ht
    rw [h.tail] at ht
    obtain ⟨r,rfl⟩ := List.getLast?_eq_some_iff.mp ht
    exact h.next.link_last
  · rw [h.head,h.tail]
    simp

theorem prev_head (h : Queue p (tmp :: rest)) : p.prev tmp = none := by
  obtain ⟨h1,-⟩ := h.prev
  simpa using h1

theorem next_head (h : Queue p (tmp :: rest)) : p.next tmp = rest.head? := by
  obtain ⟨h1,-⟩ := h.next
  simpa using h1

theorem two_le (h : Queue p l) (hc : (maxPsycPages : ℤ) ≤ p.pagesInMemoryCounter) :
    2 ≤ l.length := by
  rw [h.count] at hc
  have hl : maxPsycPages ≤ l.length := by exact_mod_cast hc
  exact le_trans (by decide) hl

theorem insert (h : Queue p l) (va : ℕ) :
    updateMemory .scfifo p va = .error (.panic "no empty place in memory scfifo\n") ∨
    ∃ i p', updateMemory .scfifo p va = .ok (i,p') ∧ Queue p' (l ++ [i]) := by
  cases hf : firstFree p.va with
  | none =>
    left
    cases hl : l with
    | nil => simp [updateMemory,updateMemoryScfifo,h.head,h.tail,hl,hf]
    | cons a r =>
      subst hl
      have ht := h.tail
      rw [List.getLast?_cons] at ht
      simp [updateMemory,updateMemoryScfifo,h.head,ht,hf,h.prev_head]
  | some i =>
    right
    have hi := firstFree_some hf
    have hil : i ∉ l := fun hm => (h.mem i).mp hm hi
    have hmem : ∀ j, j ∈ l ++ [i] ↔ update p.va i (some va) j ≠ none := by
      intro j
      by_cases hj : j = i
      · simp [hj]
      · simp [hj,h.mem]
    have hnd : (l ++ [i]).Nodup := by
      simpa [List.nodup_append,h.nodup] using fun a ha => ne_of_mem_of_not_mem ha hil
    cases hl : l with
    | nil =>
      subst hl
      refine ⟨i,_,by simp only [updateMemory,updateMemoryScfifo,h.head,h.tail,hf]; rfl,?_⟩
      refine ⟨hnd,hmem,rfl,rfl,by simp,by simp [backOrNull_cons],?_,?_⟩
      · intro j hj
        by_cases hji : j = i
        · simp [hji]
        · simp only [ProcPages.occupy,update_of_ne hji] at hj ⊢
          exact h.free j hj
      · simp [ProcPages.occupy,h.count]
    | cons a r =>
      obtain ⟨r',t,hr⟩ : ∃ r' t, l = r' ++ [t] := by
        rw [hl]
        exact ⟨_,_,(List.dropLast_concat_getLast (List.cons_ne_nil a r)).symm⟩
      have htail : p.tail = some t := by rw [h.tail,hr]; simp
      have hhead : p.head = some a := by rw [h.head,hl]; rfl
      have hpa : p.prev a = none := (hl ▸ h).prev_head
      have hnt : p.next t = none := (hr ▸ h).next.link_last
      refine ⟨i,_,by
        simp only [updateMemory,updateMemoryScfifo,hhead,htail,hf,hpa,hnt,Option.isSome_none,
          Bool.false_eq_true,if_false]; rfl,?_⟩
      rw [← hl]
      refine ⟨hnd,hmem,?_,by simp,?_,?_,?_,?_⟩
      · rw [hl]
        exact hhead
      · subst hr
        exact Seg.snoc h.next h.nodup hil none
      · refine backOrNull_append.mpr ⟨h.prev,Or.inl (h.free i hi),trivial⟩
      · intro j hj
        by_cases hji : j = i
        · subst hji
          exact h.free j hi
        · simp only [ProcPages.occupy,update_of_ne hji] at hj
          exact h.free j hj
      · simp [ProcPages.occupy,h.count]

theorem rotate {n : Slot} (h : Queue p (tmp :: n :: rest)) :
    ∃ p', scfifoRotate p tmp = .ok p' ∧ Queue p' (n :: rest ++ [tmp]) ∧ p'.va = p.va := by
  have hn : p.next tmp = some n := h.next_head
  have hnd := h.nodup
  rw [List.nodup_cons] at hnd
  obtain ⟨r,t,hr⟩ : ∃ r t, n :: rest = r ++ [t] :=
    ⟨_,_,(List.dropLast_concat_getLast (List.cons_ne_nil n rest)).symm⟩
  have htl : p.tail = some t := by
    rw [h.tail,hr,← List.cons_append,List.getLast?_append]
    rfl
  have htmp : t ≠ tmp := by
    rintro rfl
    exact hnd.1 (hr ▸ by simp)
  refine ⟨_,by simp only [scfifoRotate,hn,htl]; rfl,⟨?_,?_,rfl,?_,?_,?_,?_,?_⟩,?_⟩
  · rw [List.nodup_append]
    refine ⟨hnd.2,by simp,?_⟩
    intro a ha b hb he
    obtain rfl := List.mem_singleton.mp hb
    exact hnd.1 (he ▸ ha)
  · intro i
    simp only [← h.mem,List.mem_append,List.mem_cons,List.mem_nil_iff,or_false]
    tauto
  · rw [List.getLast?_append]
    rfl
  · have hs : Seg p.next none (r ++ [t]) := hr ▸ h.next.2
    have := hs.snoc (hr ▸ hnd.2) (hr ▸ hnd.1) none
    rw [update_comm htmp.symm,hr]
    exact this
  · obtain ⟨-,-,hb⟩ := h.prev
    refine backOrNull_append.mpr ⟨⟨?_,?_⟩,?_,trivial⟩
    · left
      have h1 : n ≠ tmp := by rintro rfl; simp at hnd
      simp only [update_of_ne h1,update_self]
    · refine BackOrNull.congr hb fun j hj => ?_
      have h1 : j ≠ tmp := by rintro rfl; exact hnd.1 (List.mem_cons_of_mem _ hj)
      have h2 : j ≠ n := by
        rintro rfl
        exact (List.nodup_cons.mp hnd.2).1 hj
      simp only [update_of_ne h1,update_of_ne h2]
    · right
      rw [hr]
      simp
  · intro j hj
    have hm : j ∉ tmp :: n :: rest := fun hm => (h.mem j).mp hm hj
    simp only [List.mem_cons,not_or] at hm
    simp only [update_of_ne hm.1,update_of_ne hm.2.1]
    exact h.free j hj
  · simpa using h.count
  · rfl

theorem loop {σ : Type} (accessBit : ℕ → σ → Except Fault (Bool × σ)) {todo done : List Slot}
    (h : Queue p (todo ++ done)) (ht : todo ≠ []) (hlen : 2 ≤ (todo ++ done).length) (t : σ)
    {fuel : ℕ} (hfuel : todo.length ≤ fuel) :
    (∃ va t' e, accessBit va t' = .error e ∧
      scfifoLoop accessBit (done ++ todo).head? fuel p t = .error e) ∨
    ∃ tmp rest p' t', scfifoLoop accessBit (done ++ todo).head? fuel p t = .ok (tmp,p',t') ∧
      Queue p' (tmp :: rest) ∧ p'.va = p.va := by
  induction todo generalizing p done t fuel with
  | nil => exact (ht rfl).elim
  | cons a todo ih =>
    obtain ⟨fuel,rfl⟩ : ∃ f, fuel = f+1 := ⟨fuel-1,by simp at hfuel; omega⟩
    have hhead : p.head = some a := h.head
    obtain ⟨n,rest,hn⟩ : ∃ n rest, todo ++ done = n :: rest := by
      cases hd : todo ++ done with
      | nil => simp [hd] at hlen
      | cons n rest => exact ⟨n,rest,rfl⟩
    rw [List.cons_append,hn] at h
    have hnd := h.nodup
    cases hb : accessBit (vaAddr (p.va a)) t with
    | error e => exact Or.inl ⟨_,_,e,hb,by simp [scfifoLoop,hhead,hb]⟩
    | ok r =>
      obtain ⟨b,t'⟩ := r
      cases b with
      | false =>
        have hne : p.head ≠ p.tail := by
          rw [hhead,h.tail,List.getLast?_cons_cons]
          intro he
          exact (List.nodup_cons.mp hnd).1 (List.mem_of_getLast? he.symm)
        refine Or.inr ⟨a,n :: rest,p,t',?_,h,rfl⟩
        simp [scfifoLoop,hhead,hb]
        exact fun he => (hne (hhead.trans he)).elim
      | true =>
        obtain ⟨p1,hrot,hq,hva⟩ := h.rotate
        have hhead1 : p1.head = some n := hq.head
        cases todo with
        | nil =>
          refine Or.inr ⟨n,rest ++ [a],p1,t',?_,hq,hva⟩
          simp only [List.nil_append] at hn
          simp [scfifoLoop,hhead,hb,hrot,hhead1,hn]
        | cons m todo =>
          obtain ⟨rfl,hr⟩ : m = n ∧ todo ++ done = rest := by simpa using hn
          have hold : (done ++ a :: m :: todo).head? = (done ++ [a] ++ m :: todo).head? := by simp
          have hne : some m ≠ (done ++ a :: m :: todo).head? := by
            subst hr
            cases done with
            | nil =>
              simp only [List.nil_append,List.head?_cons,ne_eq,Option.some.injEq]
              rintro rfl
              simp at hnd
            | cons d done =>
              simp only [List.cons_append,List.head?_cons,ne_eq,Option.some.injEq]
              rintro rfl
              simp [List.nodup_append] at hnd
          have hq' : Queue p1 (m :: todo ++ (done ++ [a])) := by
            subst hr
            simpa using hq
          have hlen' : 2 ≤ (m :: todo ++ (done ++ [a])).length := by simp; omega
          have hfuel' : (m :: todo).length ≤ fuel := by simpa using hfuel
          have hrec := ih hq' (by simp) hlen' t' hfuel'
          have hstep : scfifoLoop accessBit (done ++ a :: m :: todo).head? (fuel+1) p t =
              scfifoLoop accessBit (done ++ [a] ++ m :: todo).head? fuel p1 t' := by
            rw [← hold,scfifoLoop]
            simp only [hhead,hb,hrot,hhead1]
            rw [if_pos hne]
          rw [hstep]
          rcases hrec with hrec | ⟨tmp,rest',p',t'',he,hq'',hva'⟩
          · exact Or.inl hrec
          · exact Or.inr ⟨tmp,rest',p',t'',he,hq'',hva'.trans hva⟩

theorem remove {p' : ProcPages} {pre post : List Slot} (h : Queue p (pre ++ i :: post))
    (hp : p.prev i = pre.getLast?) (hr : Removed p i p') (hpi : p'.prev i = none)
    (hc : p'.pagesInMemoryCounter = p.pagesInMemoryCounter-1) : Queue p' (pre ++ post) := by
  have hnd := h.nodup
  have hi := not_mem_remove hnd
  have hne : ∀ j ∈ pre ++ post, j ≠ i := fun j hj hji => hi (hji ▸ hj)
  have hn : p.next i = post.head? := by
    obtain ⟨-,h1,-⟩ := seg_append.mp h.next
    simpa using h1
  have hmem : ∀ j, j ∈ pre ++ post ↔ p'.va j ≠ none := by
    intro j
    rw [hr.va]
    by_cases hj : j = i
    · simpa [hj] using hi
    · have h1 := h.mem j
      simp [hj] at h1 ⊢
      exact h1
  refine ⟨hnd.sublist (by simp),hmem,?_,?_,?_,?_,?_,?_⟩
  · rw [hr.head,h.head,hn]
    exact head?_remove hnd
  · rw [hr.tail,h.tail,hp]
    exact getLast?_remove hnd
  · exact (h.next.remove hnd).congr fun j hj => hp ▸ hr.next j (hne j hj)
  · exact (h.prev.remove hp hnd).congr fun j hj => hn ▸ hr.prev j (hne j hj)
  · intro j hj
    by_cases hji : j = i
    · exact hji ▸ hpi
    · have hjn : p.next i ≠ some j := by
        rw [hn]
        intro he
        have hm := List.mem_of_mem_head? (Option.mem_def.mpr he)
        exact (hmem j).mp (List.mem_append_right _ hm) hj
      rw [hr.prev j hji,storeAt_of_ne _ hjn]
      rw [hr.va,update_of_ne hji] at hj
      exact h.free j hj
  · rw [hc,h.count]
    simp
    omega

theorem select {σ : Type} (accessBit : ℕ → σ → Except Fault (Bool × σ)) (h : Queue p l)
    (hlen : 2 ≤ l.length) (t : σ) :
    (∃ va t' e, accessBit va t' = .error e ∧ scfifoAlg accessBit p t = .error e) ∨
    ∃ tmp p' t' rest, scfifoAlg accessBit p t = .ok (tmp,p',t') ∧
      Queue {p' with
        va := update p'.va tmp none
        pagesInMemoryCounter := p'.pagesInMemoryCounter-1} rest := by
  have hl : l ≠ [] := by rintro rfl; simp at hlen
  have h' : Queue p (l ++ []) := by simpa using h
  have hfuel : l.length ≤ maxPsycPages+1 := (slots_length_le h.nodup).trans (by decide)
  have hloop := h'.loop accessBit hl (by simpa using hlen) t hfuel
  rw [List.nil_append,← h.head] at hloop
  rcases hloop with ⟨va,t',e,hb,he⟩ | ⟨tmp,rest,p',t',he,hq,-⟩
  · exact Or.inl ⟨va,t',e,hb,by simp [scfifoAlg,he]⟩
  · refine Or.inr ⟨tmp,unlinkTmp p' tmp,t',rest,by simp [scfifoAlg,he],?_⟩
    have hp := hq.prev_head
    refine @Queue.remove _ _ _ [] rest hq hp (unlinkTmp_removed p' tmp _) ?_ ?_
    · rw [unlinkTmp_eq]
      exact (storeAt_self _ _).trans hp
    · rw [unlinkTmp_eq]

theorem not_wellFormed_free (h : Queue p l) (hi : i ∈ l) (hh : p.head ≠ some i)
    (hp : p.prev i = none) (age : Word) : ¬ WellFormed (freeSlot age true p i) := by
  obtain ⟨pre,post,rfl⟩ := List.append_of_mem hi
  have hnd := h.nodup
  obtain ⟨pre,x,rfl⟩ : ∃ r x, pre = r ++ [x] := by
    cases pre with
    | nil => exact (hh h.head).elim
    | cons y pre => exact ⟨_,_,(List.dropLast_concat_getLast (List.cons_ne_nil y pre)).symm⟩
  have hxi : x ≠ i := by rintro rfl; simp [List.nodup_append] at hnd
  have hx : p.next x = some i := by
    obtain ⟨h1,-⟩ := seg_append.mp h.next
    simpa using h1.link_last
  have hlink : (freeSlot age true p i).next x = some i := by
    rw [(freeSlot_removed age true p i).next x hxi,hp]
    exact hx
  rintro ⟨l',hf,-,hmem,-⟩
  have hx' : x ∈ l' := by
    rw [hmem,freeSlot_va,update_of_ne hxi]
    exact (h.mem x).mp (by simp)
  have hi' := Seg.mem_of_link (follows_iff.mp hf).2 hx' hlink
  rw [hmem,freeSlot_va,update_self] at hi'
  exact hi' rfl

theorem free_listed (h : Queue p l) (hi : i ∈ l) (hb : p.head = some i ∨ p.prev i ≠ none) (age : Word) :
    ∃ l', Queue (freeSlot age true p i) l' := by
  obtain ⟨pre,post,rfl⟩ := List.append_of_mem hi
  obtain ⟨-,hbi,-⟩ := backOrNull_append.mp h.prev
  have hp : p.prev i = pre.getLast? := by
    rcases hb with hb | hb
    · rw [h.head] at hb
      cases pre with
      | nil => simpa using hbi
      | cons y pre =>
        obtain rfl : y = i := by simpa using hb
        have hnd := h.nodup
        simp at hnd
    · simpa [hb] using hbi
  exact ⟨_,h.remove hp (freeSlot_removed age true p i) (by simp [freeSlot]) (by simp)⟩

end Queue

section Runs
variable {σ : Type} {accessBit : ℕ → σ → Except Fault (Bool × σ)}

theorem step_queue {op : Op σ} {s s' : ProcPages × σ} {l : List Slot} (h : Queue s.1 l)
    (hb : BackLinked op s) (hs : step accessBit op s = .ok s') : ∃ l', Queue s'.1 l' := by
  cases op with
  | insert va =>
    rcases h.insert va with he | ⟨i,p',he,hq⟩
    · simp [step,he] at hs
    · simp only [step,he,Except.ok.injEq] at hs
      subst hs
      exact ⟨_,hq⟩
  | evict =>
    by_cases hc : (maxPsycPages : ℤ) ≤ s.1.pagesInMemoryCounter
    · simp only [step,if_pos hc] at hs
      rcases h.select accessBit (h.two_le hc) s.2 with ⟨va,t',e,-,he⟩ | ⟨tmp,p',t',rest,he,hq⟩
      · simp [he] at hs
      · simp only [he,Except.ok.injEq] at hs
        subst hs
        exact ⟨rest,hq⟩
    · simp only [step,if_neg hc,Except.ok.injEq] at hs
      subst hs
      exact ⟨l,h⟩
  | dealloc a =>
    by_cases hf : 1 < (forgetResident (defaultAge .scfifo) true a s.1).2
    · simp [step,hf] at hs
    · simp only [step,if_neg hf,Except.ok.injEq] at hs
      subst hs
      rcases forgetResident_cases (not_lt.mp hf) with ⟨he,-⟩ | ⟨i,hi,-,he⟩
      · exact ⟨l,by rw [he]; exact h⟩
      · rw [he]
        exact h.free_listed ((h.mem i).mpr (by simp [hi])) (hb i hi) _
  | world t =>
    simp only [step,Except.ok.injEq] at hs
    subst hs
    exact ⟨l,h⟩

theorem step_not_structurePanic
    (hbit : ∀ va t e, accessBit va t = .error e → ¬ IsStructurePanic e)
    {op : Op σ} {s : ProcPages × σ} {l : List Slot} (h : Queue s.1 l) {e : Fault}
    (hs : step accessBit op s = .error e) : ¬ IsStructurePanic e := by
  cases op with
  | insert va =>
    rcases h.insert va with he | ⟨i,p',he,-⟩
    · simp only [step,he,Except.error.injEq] at hs
      subst hs
      simp [IsStructurePanic]
    · simp [step,he] at hs
  | evict =>
    by_cases hc : (maxPsycPages : ℤ) ≤ s.1.pagesInMemoryCounter
    · simp only [step,if_pos hc] at hs
      rcases h.select accessBit (h.two_le hc) s.2 with ⟨va,t',e',hb,he⟩ | ⟨tmp,p',t',rest,he,-⟩
      · simp only [he,Except.error.injEq] at hs
        subst hs
        exact hbit va t' _ hb
      · simp [he] at hs
    · simp [step,if_neg hc] at hs
  | dealloc a =>
    by_cases hf : 1 < (forgetResident (defaultAge .scfifo) true a s.1).2
    · simp only [step,if_pos hf,Except.error.injEq] at hs
      subst hs
      simp [IsStructurePanic]
    · simp [step,if_neg hf] at hs
  | world t => simp [step] at hs

/-- A deallocation keeps the queue well formed exactly when it meets the condition. -/
theorem dealloc_wellFormed_iff {s s' : ProcPages × σ} {l : List Slot} (h : Queue s.1 l) {a : ℕ}
    (hs : step accessBit (.dealloc a) s = .ok s') :
    WellFormed s'.1 ↔ BackLinked (.dealloc a : Op σ) s := by
  constructor
  · intro hw i hi
    by_contra hn
    rw [not_or,not_not] at hn
    by_cases hf : 1 < (forgetResident (defaultAge .scfifo) true a s.1).2
    · simp [step,hf] at hs
    · simp only [step,if_neg hf,Except.ok.injEq] at hs
      subst hs
      rcases forgetResident_cases (not_lt.mp hf) with ⟨-,hne⟩ | ⟨j,hj,hu,he⟩
      · exact hne i hi
      · obtain rfl := hu i hi
        rw [he] at hw
        exact h.not_wellFormed_free ((h.mem i).mpr (by simp [hi])) hn.1 hn.2 _ hw
  · intro hb
    obtain ⟨l',hq⟩ := step_queue h hb hs
    exact hq.wellFormed

def GuardedStep (accessBit : ℕ → σ → Except Fault (Bool × σ)) (s s' : ProcPages × σ) : Prop :=
  ∃ op, BackLinked op s ∧ step accessBit op s = .ok s'

theorem run_queue {t₀ : σ} {s : ProcPages × σ}
    (hr : Relation.ReflTransGen (GuardedStep accessBit) (ProcPages.init .scfifo,t₀) s) :
    ∃ l, Queue s.1 l := by
  induction hr with
  | refl => exact ⟨[],queue_init⟩
  | tail _ hst ih =>
    obtain ⟨l,hl⟩ := ih
    obtain ⟨op,hb,hs⟩ := hst
    exact step_queue hl hb hs

/-- If each deallocated page is the head or has its `prev` set, the queue stays well formed and its
structure checks never fire. Any other deallocation breaks the queue. -/
theorem scfifo_queue_wellFormed (accessBit : ℕ → σ → Except Fault (Bool × σ))
    (hbit : ∀ va t e, accessBit va t = .error e → ¬ IsStructurePanic e) (t₀ : σ)
    (s : ProcPages × σ)
    (hr : Relation.ReflTransGen (GuardedStep accessBit) (ProcPages.init .scfifo,t₀) s) :
    WellFormed s.1 ∧
    (∀ op e, step accessBit op s = .error e → ¬ IsStructurePanic e) ∧
    ∀ a s', step accessBit (.dealloc a) s = .ok s' →
      (WellFormed s'.1 ↔ BackLinked (.dealloc a : Op σ) s) := by
  obtain ⟨l,hl⟩ := run_queue hr
  exact ⟨hl.wellFormed,fun op e he => step_not_structurePanic hbit hl he,
    fun a s' hs => dealloc_wellFormed_iff hl hs⟩

/-- Two insertions and the deallocation of the first page, the head. -/
theorem scfifo_queue_wellFormed_dealloc_head :
    ∃ s, [Op.insert 0,.insert 4096,.dealloc 0].foldlM (fun s op => step tableBit op s)
        (ProcPages.init .scfifo,fun _ => true) = .ok s ∧ WellFormed s.1 := by
  refine ⟨_,rfl,(scfifo_queue_wellFormed tableBit ?_ (fun _ => true) _ ?_).1⟩
  · intro va t e he
    cases he
  · refine .tail (.tail (.tail .refl ⟨.insert 0,trivial,rfl⟩) ⟨.insert 4096,trivial,rfl⟩)
      ⟨.dealloc 0,?_,rfl⟩
    intro i hi
    left
    revert hi
    revert i
    decide

/-- Growing by two pages and giving back the second leaves a queue with a head and no tail, and
the next insertion panics. -/
theorem scfifo_dealloc_tail_breaks_queue :
    ∃ s, [Op.insert 0,.insert 4096,.dealloc 4096].foldlM (fun s op => step tableBit op s)
        (ProcPages.init .scfifo,fun _ => true) = .ok s ∧ ¬ WellFormed s.1 ∧
      step tableBit (.insert 4096) s = .error (.panic "structure is wrong tail is  ") := by
  refine ⟨_,rfl,?_,rfl⟩
  rintro ⟨l,-,-,-,-,-,hnull⟩
  exact absurd (hnull.mpr rfl) (by decide)

end Runs

end Xv6Paging.ScfifoQueue
