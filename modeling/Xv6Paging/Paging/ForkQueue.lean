import Xv6Paging.Kernel.Fork
import Xv6Paging.Paging.AqQueue
import Xv6Paging.Paging.ScfifoQueue

/-! # The queue of a forked process

The loops of `fork` read through every link of the parent's slots, and set a link of the
child to the slot that it belongs to. They give the child the parent's queue only
if every slot of the parent is linked to itself, which no queue is.
-/
namespace Xv6Paging.ForkQueue
open WordPage LinkedCells Function

def lastWith (va : Slot → Option ℕ) (a : Option ℕ) (l : List Slot) : Option Slot :=
  l.reverse.find? fun i => a = va i

theorem lastWith_concat (va : Slot → Option ℕ) (a : Option ℕ) (l : List Slot) (i : Slot) :
    lastWith va a (l ++ [i]) = if a = va i then some i else lastWith va a l := by
  unfold lastWith
  rw [List.reverse_append,List.reverse_singleton,List.singleton_append,List.find?_cons]
  by_cases h : a = va i <;> simp [h]

theorem lastWith_isSome {va : Slot → Option ℕ} {l : List Slot} {h : Slot} (hl : h ∈ l) :
    (lastWith va (va h) l).isSome := by
  unfold lastWith
  rw [List.find?_isSome]
  exact ⟨h,List.mem_reverse.mpr hl,decide_eq_true rfl⟩

structure Isomorphic (curproc np : ProcPages) : Prop where
  next : ∀ i, np.next i = curproc.next i
  prev : ∀ i, np.prev i = curproc.prev i
  head : np.head = curproc.head
  tail : np.tail = curproc.tail

/-- Every slot is linked to itself, and head and tail are the last slots with their addresses. -/
structure SelfLinked (curproc : ProcPages) : Prop where
  next : ∀ i, curproc.next i = some i
  prev : ∀ i, curproc.prev i = some i
  head : ∃ h, curproc.head = some h ∧ lastWith curproc.va (curproc.va h) (List.finRange 16) = some h
  tail : ∃ t, curproc.tail = some t ∧ lastWith curproc.va (curproc.va t) (List.finRange 16) = some t

section
variable {curproc np : ProcPages} {i : Slot}

theorem forkLink_eq {n q : Slot} (hnext : curproc.next i = some n) (hprev : curproc.prev i = some q) (j : Slot) :
    forkLink curproc i np j = .ok {np with
      next := if np.va j = curproc.va n then update np.next i (some i) else np.next
      prev := if np.va j = curproc.va q then update np.prev i (some i) else np.prev} := by
  unfold forkLink
  rw [hnext,hprev]
  dsimp only [derefVa,bind,Except.bind]
  split_ifs <;> rfl

theorem forkLink_row {n q : Slot} (hva : np.va = curproc.va) (hnext : curproc.next i = some n)
    (hprev : curproc.prev i = some q) :
    (List.finRange 16).foldlM (forkLink curproc i) np = .ok {np with
      next := update np.next i (some i)
      prev := update np.prev i (some i)} := by
  -- after the slots `done` a link is set if one of them has the address behind it
  have hrow := foldlM_eq_ok (f := forkLink curproc i) (l := List.finRange 16)
    (fun done => {np with
      next := if done.any (fun j => curproc.va j = curproc.va n)
        then update np.next i (some i) else np.next
      prev := if done.any (fun j => curproc.va j = curproc.va q)
        then update np.prev i (some i) else np.prev}) ?_
  · have hany (m : Slot) : (List.finRange 16).any (fun j => curproc.va j = curproc.va m) = true :=
      List.any_eq_true.mpr ⟨m,List.mem_finRange m,decide_eq_true rfl⟩
    simpa only [List.any_nil,Bool.false_eq_true,if_false,hany,if_true] using hrow
  · intro done j todo _
    have hset (m : Slot) (link : Slot → Option Slot) :
        (if curproc.va j = curproc.va m then update
            (if done.any (fun j => curproc.va j = curproc.va m) then update link i (some i) else link) i (some i)
          else if done.any (fun j => curproc.va j = curproc.va m) then update link i (some i) else link) =
        if (done ++ [j]).any (fun j => curproc.va j = curproc.va m) then update link i (some i) else link := by
      rw [List.any_append]
      by_cases hj : curproc.va j = curproc.va m <;>
        cases done.any (fun j => curproc.va j = curproc.va m) <;> simp [hj]
    rw [forkLink_eq hnext hprev]
    dsimp only
    rw [hva,hset,hset]

theorem forkLinks_eq (hva : np.va = curproc.va) (hnext : ∀ i, (curproc.next i).isSome)
    (hprev : ∀ i, (curproc.prev i).isSome) :
    forkLinks curproc np = .ok {np with next := some, prev := some} := by
  have hrows := foldlM_eq_ok (l := List.finRange 16)
    (f := fun np i => (List.finRange 16).foldlM (forkLink curproc i) np)
    (fun done => {np with
      next := fun i => if i ∈ done then some i else np.next i
      prev := fun i => if i ∈ done then some i else np.prev i}) ?_
  · simp only [List.not_mem_nil,if_false,List.mem_finRange,if_true] at hrows
    exact hrows
  · intro done i todo _
    obtain ⟨n,hn⟩ := Option.isSome_iff_exists.mp (hnext i)
    obtain ⟨q,hq⟩ := Option.isSome_iff_exists.mp (hprev i)
    have hset (link : Slot → Option Slot) :
        update (fun j => if j ∈ done then some j else link j) i (some i) =
          fun j => if j ∈ done ++ [i] then some j else link j := by
      funext j
      by_cases hj : j = i
      · subst hj
        simp
      · simp [hj]
    rw [forkLink_row (by exact hva) hn hq]
    dsimp only
    rw [hset,hset]

theorem links_of_forkLinks {child : ProcPages} (h : forkLinks curproc np = .ok child) (i : Slot) :
    (curproc.next i).isSome ∧ (curproc.prev i).isSome := by
  obtain ⟨a,b,hrow⟩ := foldlM_ok_mem h (List.mem_finRange i)
  obtain ⟨c,d,hlink⟩ := foldlM_ok_mem hrow (List.mem_finRange i)
  obtain ⟨next,hnext,hlink⟩ := bind_eq_ok hlink
  obtain ⟨prev,hprev,-⟩ := bind_eq_ok hlink
  constructor
  · cases hn : curproc.next i with
    | none =>
      rw [hn] at hnext
      cases hnext
    | some n => rfl
  · cases hp : curproc.prev i with
    | none =>
      rw [hp] at hprev
      cases hprev
    | some q => rfl

theorem forkEnd_eq {h t : Slot} (hhead : curproc.head = some h) (htail : curproc.tail = some t) (i : Slot) :
    forkEnd curproc np i = .ok {np with
      head := if curproc.va h = np.va i then some i else np.head
      tail := if curproc.va t = np.va i then some i else np.tail} := by
  unfold forkEnd
  rw [hhead,htail]
  dsimp only [derefVa,bind,Except.bind]
  split_ifs <;> rfl

theorem forkEnds_eq {h t : Slot} (hva : np.va = curproc.va) (hhead : curproc.head = some h)
    (htail : curproc.tail = some t) :
    (List.finRange 16).foldlM (forkEnd curproc) np = .ok {np with
      head := lastWith curproc.va (curproc.va h) (List.finRange 16)
      tail := lastWith curproc.va (curproc.va t) (List.finRange 16)} := by
  have hends := foldlM_eq_ok (f := forkEnd curproc) (l := List.finRange 16)
    (fun done => {np with
      head := (lastWith curproc.va (curproc.va h) done).or np.head
      tail := (lastWith curproc.va (curproc.va t) done).or np.tail}) ?_
  · have hor (m : Slot) (x : Option Slot) : (lastWith curproc.va (curproc.va m) (List.finRange 16)).or x =
        lastWith curproc.va (curproc.va m) (List.finRange 16) :=
      Option.or_of_isSome (lastWith_isSome (List.mem_finRange m))
    rw [hor,hor] at hends
    exact hends
  · intro done i todo _
    have hlast (m : Slot) (x : Option Slot) :
        (if curproc.va m = curproc.va i then some i else (lastWith curproc.va (curproc.va m) done).or x) =
          (lastWith curproc.va (curproc.va m) (done ++ [i])).or x := by
      rw [lastWith_concat]
      split_ifs <;> rfl
    rw [forkEnd_eq hhead htail]
    dsimp only
    rw [hva,hlast,hlast]

theorem ends_of_forkEnds {child : ProcPages} (h : (List.finRange 16).foldlM (forkEnd curproc) np = .ok child) :
    (∃ h, curproc.head = some h) ∧ ∃ t, curproc.tail = some t := by
  obtain ⟨a,b,hend⟩ := foldlM_ok_mem h (List.mem_finRange (0 : Slot))
  obtain ⟨head,hhead,hend⟩ := bind_eq_ok hend
  obtain ⟨tail,htail,-⟩ := bind_eq_ok hend
  constructor
  · cases hh : curproc.head with
    | none =>
      rw [hh] at hhead
      cases hhead
    | some h => exact ⟨h,rfl⟩
  · cases ht : curproc.tail with
    | none =>
      rw [ht] at htail
      cases htail
    | some t => exact ⟨t,rfl⟩

theorem forkPages_eq {h t : Slot} (hnext : ∀ i, (curproc.next i).isSome) (hprev : ∀ i, (curproc.prev i).isSome)
    (hhead : curproc.head = some h) (htail : curproc.tail = some t) :
    forkPages curproc np = .ok {forkCopy curproc np with
      next := some
      prev := some
      head := lastWith curproc.va (curproc.va h) (List.finRange 16)
      tail := lastWith curproc.va (curproc.va t) (List.finRange 16)} := by
  have hlinks : forkLinks curproc (forkCopy curproc np) = .ok {forkCopy curproc np with next := some, prev := some} :=
    forkLinks_eq rfl hnext hprev
  unfold forkPages
  rw [hlinks]
  exact forkEnds_eq rfl hhead htail

theorem not_selfLinked {l : List Slot} (h : Follows curproc.next curproc.head l) : ¬ SelfLinked curproc := by
  intro hself
  obtain ⟨hhead,hseg⟩ := follows_iff.mp h
  obtain ⟨first,hfirst,-⟩ := hself.head
  rw [hhead] at hfirst
  obtain ⟨rest,rfl⟩ := List.head?_eq_some_iff.mp hfirst
  obtain ⟨front,last,hl⟩ : ∃ r x, first :: rest = r ++ [x] :=
    ⟨_,_,(List.dropLast_concat_getLast (List.cons_ne_nil first rest)).symm⟩
  rw [hl] at hseg
  have hnull := hseg.link_last
  rw [hself.next last] at hnull
  cases hnull

end

/-- The queue is copied without a fault exactly if every slot is linked to itself; the last page of a queue
has a null link, so no well-formed queue is. -/
theorem forkPages_isomorphic_iff (curproc np : ProcPages) :
    ((∃ child, forkPages curproc np = .ok child ∧ Isomorphic curproc child) ↔ SelfLinked curproc) ∧
    (ScfifoQueue.WellFormed curproc ∨ AqQueue.WellFormed curproc → ¬ SelfLinked curproc) := by
  refine ⟨⟨?_,?_⟩,?_⟩
  · rintro ⟨child,hchild,hiso⟩
    obtain ⟨np',hlinks,hends⟩ := bind_eq_ok hchild
    have hsome := links_of_forkLinks hlinks
    obtain ⟨⟨h,hhead⟩,t,htail⟩ := ends_of_forkEnds hends
    rw [forkPages_eq (fun i => (hsome i).1) (fun i => (hsome i).2) hhead htail] at hchild
    cases hchild
    exact {
      next := fun i => (hiso.next i).symm
      prev := fun i => (hiso.prev i).symm
      head := ⟨h,hhead,hiso.head.trans hhead⟩
      tail := ⟨t,htail,hiso.tail.trans htail⟩}
  · intro hself
    obtain ⟨h,hhead,hlasth⟩ := hself.head
    obtain ⟨t,htail,hlastt⟩ := hself.tail
    have hnext (i : Slot) : (curproc.next i).isSome := by rw [hself.next i]; rfl
    have hprev (i : Slot) : (curproc.prev i).isSome := by rw [hself.prev i]; rfl
    exact ⟨_,forkPages_eq hnext hprev hhead htail,{
      next := fun i => (hself.next i).symm
      prev := fun i => (hself.prev i).symm
      head := hlasth.trans hhead.symm
      tail := hlastt.trans htail.symm}⟩
  · rintro (⟨l,hl,-⟩ | ⟨l,hl,-⟩)
    · exact not_selfLinked hl
    · exact not_selfLinked hl

def selfLinkedPages : ProcPages :=
  {ProcPages.init .scfifo with
    va := update (fun _ => none) 0 (some 0)
    next := some
    prev := some
    head := some 0
    tail := some 0}

theorem forkPages_isomorphic_selfLinked : SelfLinked selfLinkedPages ∧
    ∃ child, forkPages selfLinkedPages (ProcPages.init .scfifo) = .ok child ∧ Isomorphic selfLinkedPages child := by
  have hself : SelfLinked selfLinkedPages := {
    next := fun _ => rfl
    prev := fun _ => rfl
    head := ⟨0,rfl,by decide⟩
    tail := ⟨0,rfl,by decide⟩}
  exact ⟨hself,(forkPages_isomorphic_iff _ _).1.mpr hself⟩

def twoQueued : ProcPages :=
  {ProcPages.init .scfifo with
    pagesInMemoryCounter := 2
    va := update (update (fun _ => none) 0 (some 0)) 1 (some pgSize)
    next := update (fun _ => none) 0 (some 1)
    prev := update (fun _ => none) 1 (some 0)
    head := some 0
    tail := some 1}

/-- The two-page queue is well formed, and `fork` dereferences the null link of its first page. -/
theorem forkPages_twoQueued_faults : ScfifoQueue.WellFormed twoQueued ∧ AqQueue.WellFormed twoQueued ∧
    forkPages twoQueued (ProcPages.init .scfifo) = .error .nullDeref := by
  have hnext : Follows twoQueued.next twoQueued.head [0,1] := .cell (.cell .null)
  have hprev : Follows twoQueued.prev twoQueued.tail [1,0] := .cell (.cell .null)
  have hnodup : ([0,1] : List Slot).Nodup := by decide
  have hmem : ∀ i, i ∈ ([0,1] : List Slot) ↔ twoQueued.va i ≠ none := by decide
  refine ⟨⟨[0,1],hnext,hnodup,hmem,rfl,?_,?_⟩,⟨[0,1],hnext,hprev,hnodup,hmem,?_⟩,rfl⟩
  · rintro t ht
    cases ht
    rfl
  · decide
  · decide

end Xv6Paging.ForkQueue
