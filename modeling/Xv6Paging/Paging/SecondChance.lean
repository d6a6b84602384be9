import Xv6Paging.Paging.AccessBits
import Xv6Paging.Paging.UserMemory

/-! # Second chance

`scfifo_alg` takes the pages of the queue in order: a page that has been accessed loses its access bit and moves
behind the tail, and the first page that has not been accessed leaves the queue. If all pages have been accessed, the
first one leaves. The proof follows the rotation: `todo` is the part of the queue that has not been examined yet.
-/
namespace Xv6Paging.SecondChance
open WordPage PageTree LinkedCells Function

/-- Following `next` from the head passes the slots of `l` and ends at the tail, whose own `next` is `e`; the head
has no predecessor. -/
structure Chain (p : ProcPages) (e : Option Slot) (l : List Slot) : Prop where
  nodup : l.Nodup
  head : p.head = l.head?
  tail : p.tail = l.getLast?
  next : Seg p.next e l
  prev : ∀ i, p.head = some i → p.prev i = none

section Queue
variable {p : ProcPages} {e : Option Slot} {l rest : List Slot} {tmp n : Slot}

theorem Chain.rotate (h : Chain p e (tmp :: n :: rest)) :
    ∃ p', scfifoRotate p tmp = .ok p' ∧ Chain p' none (n :: rest ++ [tmp]) ∧ p'.va = p.va := by
  have hn : p.next tmp = some n := h.next.1
  have hnd := List.nodup_cons.mp h.nodup
  obtain ⟨r,t,hr⟩ : ∃ r t, n :: rest = r ++ [t] :=
    ⟨_,_,(List.dropLast_concat_getLast (List.cons_ne_nil n rest)).symm⟩
  have htail : p.tail = some t := by
    rw [h.tail,hr,← List.cons_append,List.getLast?_append]
    rfl
  have htmp : t ≠ tmp := by
    rintro rfl
    exact hnd.1 (hr ▸ by simp)
  refine ⟨_,by simp only [scfifoRotate,hn,htail]; rfl,⟨?_,rfl,?_,?_,?_⟩,?_⟩
  · refine List.nodup_append.mpr ⟨hnd.2,by simp,?_⟩
    intro a ha b hb he
    obtain rfl := List.mem_singleton.mp hb
    exact hnd.1 (he ▸ ha)
  · rw [List.getLast?_append]
    rfl
  · have hs : Seg p.next e (r ++ [t]) := hr ▸ h.next.2
    have hsnoc := hs.snoc (hr ▸ hnd.2) (hr ▸ hnd.1) none
    rw [update_comm htmp.symm,hr]
    exact hsnoc
  · intro i hi
    obtain rfl : n = i := Option.some.inj hi
    have hne : n ≠ tmp := fun heq => hnd.1 (heq ▸ List.mem_cons_self)
    simp only [update_of_ne hne,update_self]
  · rfl

theorem Chain.unlink (h : Chain p e (tmp :: n :: rest)) : Chain (unlinkTmp p tmp) e (n :: rest) := by
  have hhead : p.head = some tmp := h.head
  have hprev : p.prev tmp = none := h.prev tmp hhead
  have hnext : p.next tmp = some n := h.next.1
  have hnd := List.nodup_cons.mp h.nodup
  have hlast : p.tail ≠ some tmp := by
    rw [h.tail,List.getLast?_cons_cons]
    exact fun hm => hnd.1 (List.mem_of_getLast? hm)
  rw [unlinkTmp_eq,hprev,hnext]
  refine ⟨hnd.2,?_,?_,h.next.2,?_⟩
  · exact if_pos hhead
  · exact (if_neg hlast).trans (h.tail.trans List.getLast?_cons_cons)
  · intro i hi
    have hi' : (if p.head = some tmp then some n else p.head) = some i := hi
    rw [if_pos hhead] at hi'
    obtain rfl := Option.some.inj hi'
    exact update_self _ _ _

end Queue

section Loop
variable {σ : Type} {accessBit : ℕ → σ → Except Fault (Bool × σ)} {va : Slot → Option ℕ} {acc : Slot → Bool}
  {world : List Slot → σ} {l : List Slot}

/-- Sampling the slots of `l` in turn finds the bits `acc`; `world done` is the state after those of `done`. -/
def Samples (accessBit : ℕ → σ → Except Fault (Bool × σ)) (va : Slot → Option ℕ) (acc : Slot → Bool)
    (world : List Slot → σ) (l : List Slot) : Prop :=
  ∀ done i post, l = done ++ i :: post →
    accessBit (vaAddr (va i)) (world done) = .ok (acc i,world (done ++ [i]))

/-- The loop has found the slot `v`, at the head of the queue, after it sampled `examined`. -/
def Finds (accessBit : ℕ → σ → Except Fault (Bool × σ)) (oldhead : Option Slot) (fuel : ℕ) (p : ProcPages)
    (t : σ) (e : Option Slot) (v : Slot) (queue : List Slot) (t' : σ) : Prop :=
  ∃ p' e', scfifoLoop accessBit oldhead fuel p t = .ok (v,p',t') ∧ Chain p' e' (v :: queue) ∧ (e = none → e' = none)

variable {p : ProcPages} {e : Option Slot}

theorem loop_step {a m : Slot} {done todo : List Slot} {fuel : ℕ} {v : Slot} {queue : List Slot} {t : σ}
    (hs : Samples accessBit va acc world (done ++ a :: m :: todo)) (hva : p.va = va)
    (h : Chain p e (a :: m :: todo ++ done)) (hacc : acc a = true)
    (hrec : ∀ {p'}, p'.va = va → Chain p' none (m :: todo ++ (done ++ [a])) →
      Finds accessBit (done ++ [a] ++ m :: todo).head? fuel p' (world (done ++ [a])) none v queue t) :
    Finds accessBit (done ++ a :: m :: todo).head? (fuel+1) p (world done) e v queue t := by
  obtain ⟨p₁,hrot,hchain,hva₁⟩ := h.rotate
  have hbit := hs done a (m :: todo) rfl
  have hchain' : Chain p₁ none (m :: todo ++ (done ++ [a])) := by simpa using hchain
  have hnd : (a :: m :: todo ++ done).Nodup := h.nodup
  have hne : some m ≠ (done ++ a :: m :: todo).head? := by
    cases done with
    | nil =>
      intro heq
      obtain rfl := Option.some.inj heq
      simp at hnd
    | cons d done =>
      intro heq
      obtain rfl := Option.some.inj heq
      simp [List.nodup_append] at hnd
  obtain ⟨p',e',hloop,hfound,he⟩ := hrec (hva₁.trans hva) hchain'
  refine ⟨p',e',?_,hfound,fun _ => he rfl⟩
  have hhead₁ : p₁.head = some m := hchain.head
  rw [List.append_assoc,List.singleton_append] at hloop
  rw [scfifoLoop,h.head]
  simp only [List.cons_append,List.head?_cons,hva,hbit,hacc,hrot,hhead₁]
  rw [if_pos hne]
  exact hloop

theorem loop_finds (done : List Slot) {pre post : List Slot} {v : Slot} (fuel : ℕ)
    (hs : Samples accessBit va acc world (done ++ (pre ++ v :: post))) (hva : p.va = va)
    (h : Chain p e (pre ++ v :: post ++ done)) (hlen : 2 ≤ (pre ++ v :: post ++ done).length)
    (hpre : ∀ i ∈ pre, acc i = true) (hv : acc v = false) (hfuel : pre.length < fuel) :
    Finds accessBit (done ++ (pre ++ v :: post)).head? fuel p (world done) e v (post ++ (done ++ pre))
      (world (done ++ pre ++ [v])) := by
  induction pre generalizing p e done fuel with
  | nil =>
    obtain ⟨fuel,rfl⟩ : ∃ f, fuel = f+1 := ⟨fuel-1,by omega⟩
    have hbit := hs done v post rfl
    rw [List.nil_append] at h
    have hne : p.head ≠ p.tail := by
      rw [h.head,h.tail]
      obtain ⟨n,rest,hn⟩ : ∃ n rest, post ++ done = n :: rest := List.exists_cons_of_length_pos (by
        simp only [List.nil_append,List.cons_append,List.length_cons] at hlen
        omega)
      rw [List.cons_append,hn,List.getLast?_cons_cons]
      intro heq
      have hnd := h.nodup
      rw [List.cons_append,hn] at hnd
      exact (List.nodup_cons.mp hnd).1 (List.mem_of_getLast? heq.symm)
    refine ⟨p,e,?_,?_,id⟩
    · rw [scfifoLoop,h.head]
      simp only [List.cons_append,List.head?_cons,hva,hbit,hv]
      rw [← List.head?_cons (l := post ++ done),← List.cons_append,← h.head,if_neg hne,List.append_nil]
    · rwa [List.append_nil,← List.cons_append]
  | cons a pre ih =>
    obtain ⟨fuel,rfl⟩ : ∃ f, fuel = f+1 := ⟨fuel-1,by omega⟩
    obtain ⟨m,todo,hm⟩ : ∃ m todo, pre ++ v :: post = m :: todo := List.exists_cons_of_length_pos (by simp)
    have hs' : Samples accessBit va acc world (done ++ [a] ++ (pre ++ v :: post)) := by simpa using hs
    have hqueue : post ++ (done ++ [a] ++ pre) = post ++ (done ++ a :: pre) := by simp
    have hworld : done ++ [a] ++ pre ++ [v] = done ++ a :: pre ++ [v] := by simp
    rw [List.cons_append,hm] at hs h ⊢
    rw [← hqueue,← hworld]
    refine loop_step hs hva h (hpre a List.mem_cons_self) fun hva' h' => ?_
    rw [← hm] at h' ⊢
    exact ih (done ++ [a]) fuel hs' hva' h' (by simp only [List.length_append,List.length_cons] at hlen ⊢; omega)
      (fun i hi => hpre i (List.mem_cons_of_mem _ hi)) (by simpa using hfuel)

theorem loop_wraps (done : List Slot) {todo queue : List Slot} {v : Slot} (fuel : ℕ)
    (hs : Samples accessBit va acc world (done ++ todo)) (hva : p.va = va) (h : Chain p e (todo ++ done))
    (hne : todo ≠ []) (hlist : done ++ todo = v :: queue) (hlen : queue ≠ []) (hacc : ∀ i ∈ todo, acc i = true)
    (hfuel : todo.length ≤ fuel) :
    Finds accessBit (done ++ todo).head? fuel p (world done) e v queue (world (done ++ todo)) := by
  induction todo generalizing p e done fuel with
  | nil => exact (hne rfl).elim
  | cons a todo ih =>
    obtain ⟨fuel,rfl⟩ : ∃ f, fuel = f+1 := ⟨fuel-1,by simp only [List.length_cons] at hfuel; omega⟩
    cases todo with
    | cons m todo =>
      have hworld : done ++ [a] ++ m :: todo = done ++ a :: m :: todo := by simp
      rw [← hworld] at hlist ⊢
      rw [hworld]
      refine loop_step hs hva h (hacc a List.mem_cons_self) fun hva' h' => ?_
      rw [← hworld] at hs ⊢
      exact ih (done ++ [a]) fuel hs hva' h' (by simp) hlist (fun i hi => hacc i (List.mem_cons_of_mem _ hi)) (by simpa using hfuel)
    | nil =>
      -- the last slot has been examined, and the rotated queue starts with the old head again
      obtain ⟨d,ds,rfl⟩ : ∃ d ds, done = d :: ds := by
        cases done with
        | nil =>
          cases hlist
          exact (hlen rfl).elim
        | cons d ds => exact ⟨d,ds,rfl⟩
      obtain ⟨p₁,hrot,hchain,-⟩ := h.rotate
      have hbit := hs (d :: ds) a [] rfl
      have hhead₁ : p₁.head = some d := hchain.head
      rw [List.cons_append] at hlist
      cases hlist
      refine ⟨p₁,none,?_,hchain,fun _ => rfl⟩
      rw [scfifoLoop,h.head]
      simp only [List.cons_append,List.nil_append,List.head?_cons,hva,hbit,hacc a List.mem_cons_self,hrot,hhead₁]
      exact if_neg fun hn => hn rfl

theorem Finds.scfifoAlg {v n : Slot} {queue : List Slot} {t t' : σ}
    (h : Finds accessBit p.head (maxPsycPages+1) p t e v (n :: queue) t') :
    ∃ p' e', scfifoAlg accessBit p t = .ok (v,p',t') ∧ Chain p' e' (n :: queue) ∧ (e = none → e' = none) := by
  obtain ⟨p₁,e₁,hloop,hchain,he⟩ := h
  exact ⟨_,e₁,by simp only [Xv6Paging.scfifoAlg,hloop],hchain.unlink,he⟩

end Loop

/-! ## The page table -/

section Sampling
variable {c : Config} {s : Kernel} {l : List Slot}

theorem samples (hw : Wf c {s.proc.pgdir} s) (hl : ListsPages s l) (hnd : l.Nodup) :
    Samples updateAccessBit s.proc.pages.va s.accessed (fun done => s.clearBits (done.map s.slotKey)) l :=
  fun _ _ _ heq => hl.sample updateAccessBit_eq hw hnd heq

/-- `scfifo_alg` removes the slot `v`, leaves `queue` from head to tail and clears the access bits of `examined`. -/
def Removes (s : Kernel) (e : Option Slot) (v : Slot) (queue examined : List Slot) : Prop :=
  ∃ p' e' s', scfifoAlg updateAccessBit s.proc.pages s = .ok (v,p',s') ∧ Chain p' e' queue ∧ (e = none → e' = none) ∧
    ∀ k, s'.pte s.proc.pgdir k =
      if k ∈ examined.map s.slotKey then s.pte s.proc.pgdir k &&& ~~~pteA else s.pte s.proc.pgdir k

/-- `scfifo_alg` takes out the first page that has not been accessed, with the pages before it moved behind
the tail, or the first page of all if every page has been accessed. -/
theorem scfifoAlg_secondChance {e : Option Slot} (hw : Wf c {s.proc.pgdir} s) (h : Chain s.proc.pages e l)
    (hlen : 2 ≤ l.length) (hl : ListsPages s l) :
    (∀ pre v post, l = pre ++ v :: post → (∀ i ∈ pre, s.accessed i = true) → s.accessed v = false →
      Removes s e v (post ++ pre) (pre ++ [v])) ∧
    ((∀ i ∈ l, s.accessed i = true) → ∀ v post, l = v :: post → Removes s e v post l) := by
  have hs := samples hw hl h.nodup
  have hfuel : l.length ≤ maxPsycPages := slots_length_le h.nodup
  have hbits {done : List Slot} (hsub : ∀ i ∈ done, i ∈ l) (hnd : done.Nodup) := by
    refine (clearBits_spec hw (?_ : ∀ k ∈ done.map s.slotKey, s.pte s.proc.pgdir k ≠ 0) ?_).2.2
    · intro k hk
      obtain ⟨j,hj,rfl⟩ := List.mem_map.mp hk
      exact hl.entry j (hsub j hj)
    · exact List.Nodup.map_on (fun j hj k hk => hl.inj j (hsub j hj) k (hsub k hk)) hnd
  constructor
  · rintro pre v post rfl hpre hv
    have hchain : Chain s.proc.pages e (pre ++ v :: post ++ []) := by rwa [List.append_nil]
    have hfound := loop_finds [] (maxPsycPages+1) hs rfl hchain (by rwa [List.append_nil]) hpre hv
      (by simp only [List.length_append,List.length_cons] at hfuel; omega)
    rw [List.nil_append,List.nil_append,← h.head] at hfound
    obtain ⟨n,queue,hq⟩ : ∃ n queue, post ++ pre = n :: queue := List.exists_cons_of_length_pos (by
      simp only [List.length_append,List.length_cons] at hlen ⊢
      omega)
    rw [hq] at hfound ⊢
    obtain ⟨p',e',halg,hqueue,he⟩ := hfound.scfifoAlg
    refine ⟨p',e',_,halg,hqueue,he,hbits ?_ ?_⟩
    · intro i hi
      simp only [List.mem_append,List.mem_cons] at hi ⊢
      tauto
    · refine h.nodup.sublist (List.Sublist.append_left ?_ _)
      simp
  · rintro hall v post rfl
    have hchain : Chain s.proc.pages e (v :: post ++ []) := by rwa [List.append_nil]
    obtain ⟨n,queue,rfl⟩ : ∃ n queue, post = n :: queue := List.exists_cons_of_length_pos (by
      simp only [List.length_cons] at hlen
      omega)
    have hfound := loop_wraps [] (maxPsycPages+1) hs rfl hchain (by simp) rfl (by simp) hall (by omega)
    rw [List.nil_append,← h.head] at hfound
    obtain ⟨p',e',halg,hqueue,he⟩ := hfound.scfifoAlg
    exact ⟨p',e',_,halg,hqueue,he,hbits (fun i hi => hi) h.nodup⟩

end Sampling

def queuedPages : ProcPages :=
  {fullPages .scfifo with
    next := update (fun _ => none) 0 (some 1)
    head := some 0
    tail := some 1}

def queuedProcess : Kernel := (fullProcess .scfifo fun _ => userPerm).setPages queuedPages

theorem scfifoAlg_secondChance_queuedProcess :
    ∃ v queue examined, Removes queuedProcess none v queue examined := by
  have hfull := full_paged .scfifo fun _ => (by decide : pteAddr userPerm = 0)
  obtain ⟨hc,-⟩ := hfull.consistent.repaged (p := queuedPages) rfl rfl rfl rfl
  rw [← queuedProcess] at hc
  have hl : ListsPages queuedProcess [0,1] := hc.listsPages fun i _ => Option.some_ne_none _
  have hchain : Chain queuedProcess.proc.pages none [0,1] := ⟨by decide,rfl,rfl,⟨rfl,rfl,trivial⟩,fun i _ => rfl⟩
  obtain ⟨hfirst,hall⟩ := scfifoAlg_secondChance hc.space.wf hchain (by decide) hl
  cases h0 : queuedProcess.accessed 0 with
  | false => exact ⟨0,_,_,hfirst [] 0 [1] rfl (by simp) h0⟩
  | true =>
    cases h1 : queuedProcess.accessed 1 with
    | false => exact ⟨1,_,_,hfirst [0] 1 [] rfl (by simpa using h0) h1⟩
    | true => exact ⟨0,_,_,hall (by simp [h0,h1]) 0 [1] rfl⟩

end Xv6Paging.SecondChance
