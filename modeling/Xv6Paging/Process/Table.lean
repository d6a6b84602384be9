import Mathlib.Algebra.Order.Ring.Nat
import Mathlib.Data.List.FinRange
import Xv6Paging.Library.Runs

/-! # The process table

`allocproc`, `fork`, `exit`, `wait` and `kill` of `proc.c` on the fields of `struct proc` that they share:
each field is an array over the slots of `ptable`. A step is a critical section of
`ptable.lock` or what a process does between two of them; `fork` is cut after `allocproc`,
after the copy and before the child may run, `exit` before it takes the lock, and `wait`
at its sleep. Between its steps a process may be descheduled, or sleep somewhere else and
be woken. The process numbers do not wrap. The history of the table is, for each process,
the process that forked it and whether it has been killed by its number or has faulted,
and the numbers of the processes that have exited and of those that have been reaped.
-/
namespace Xv6Paging.Process
open Function

abbrev ProcSlot := Fin 64

inductive ProcState
  | unused
  | embryo
  | sleeping
  | runnable
  | running
  | zombie
  deriving DecidableEq

/-- Neither unused, being made, nor a zombie. -/
def ProcState.active : ProcState → Bool
  | .sleeping | .runnable | .running => true
  | .unused | .embryo | .zombie => false

/-- Where a process is: outside of these functions, in `fork` with the slot of the child before and
after the copy, in `exit`, in `wait`. -/
inductive Position
  | user
  | forking (q : ProcSlot)
  | forked (q : ProcSlot)
  | exiting
  | waiting
  deriving DecidableEq

structure Table where
  state : ProcSlot → ProcState
  pid : ProcSlot → ℕ
  parent : ProcSlot → Option ProcSlot
  killed : ProcSlot → Bool
  chan : ProcSlot → Option ProcSlot
  pos : ProcSlot → Position
  nextpid : ℕ
  creator : ProcSlot → ℕ
  hit : ProcSlot → Bool
  exits : List ℕ
  reaps : List ℕ

inductive Action
  | allocproc (p : ProcSlot)
  | forkFail (p : ProcSlot)
  | forkCopy (p : ProcSlot)
  | forkDone (p : ProcSlot)
  | exit (p : ProcSlot)
  | exitDone (p : ProcSlot)
  | wait (p : ProcSlot)
  | kill (p : ProcSlot) (n : ℤ)
  | fault (p : ProcSlot)
  | schedule (p : ProcSlot)
  | yield (p : ProcSlot)
  | block (p : ProcSlot)
  | unblock (p : ProcSlot)
  deriving DecidableEq

def initproc : ProcSlot := ⟨0,by decide⟩

def slot1 : ProcSlot := ⟨1,by decide⟩
def slot2 : ProcSlot := ⟨2,by decide⟩

def userinit : Table where
  state p := if p = initproc then .runnable else .unused
  pid p := if p = initproc then 1 else 0
  parent _ := none
  killed _ := false
  chan _ := none
  pos _ := .user
  nextpid := 2
  creator _ := 0
  hit _ := false
  exits := []
  reaps := []

namespace Table
variable (s : Table)

def first (f : ProcSlot → Bool) : Option ProcSlot := (List.finRange 64).find? f

/-- The critical section of `allocproc` in a call of `fork`. -/
def allocproc (p : ProcSlot) : Table :=
  match first fun q => decide (s.state q = .unused) with
  | none => s
  | some q => {s with
      state := update s.state q .embryo
      pid := update s.pid q s.nextpid
      nextpid := s.nextpid+1
      pos := update (update s.pos q .user) p (.forking q)
      creator := update s.creator q (s.pid p)
      hit := update s.hit q false}

def wakeup1 (c : Option ProcSlot) : Table :=
  {s with state := fun q => if s.state q = .sleeping ∧ s.chan q = c then .runnable else s.state q}

/-- One turn of the loop of `exit` that passes abandoned children to init. -/
def adopt (p q : ProcSlot) : Table :=
  if s.parent q = some p then
    let s := {s with parent := update s.parent q (some initproc)}
    if s.state q = .zombie then s.wakeup1 (some initproc) else s
  else s

/-- The critical section of `exit`. -/
def exitDone (p : ProcSlot) : Table :=
  let s := s.wakeup1 (s.parent p)
  let s := (List.finRange 64).foldl (fun s q => s.adopt p q) s
  {s with state := update s.state p .zombie, exits := s.pid p :: s.exits}

/-- One round of the loop of `wait`, from the scan to the return or to the sleep. -/
def wait (p : ProcSlot) : Table :=
  let s := {s with chan := update s.chan p none}
  match first fun q => decide (s.parent q = some p ∧ s.state q = .zombie) with
  | some q => {s with
      pid := update s.pid q 0
      parent := update s.parent q none
      killed := update s.killed q false
      state := update s.state q .unused
      pos := update s.pos p .user
      reaps := s.pid q :: s.reaps}
  | none =>
    if first (fun q => decide (s.parent q = some p)) = none ∨ s.killed p = true then
      {s with pos := update s.pos p .user}
    else {s with
      state := update s.state p .sleeping
      chan := update s.chan p (some p)
      pos := update s.pos p .waiting}

/-- The slot that `kill` finds; `kill` returns 0 if there is one and -1 otherwise. -/
def target (n : ℤ) : Option ProcSlot := first fun q => decide ((s.pid q : ℤ) = n)

def kill (n : ℤ) : Table :=
  match s.target n with
  | none => s
  | some q => {s with
      killed := update s.killed q true
      state := update s.state q (if s.state q = .sleeping then .runnable else s.state q)
      hit := update s.hit q (s.hit q || decide (s.state q ≠ .unused))}

/-- The result `none` says that the process is not in the place for the step. -/
def step : Action → Option Table
  | .allocproc p => if s.state p = .running ∧ s.pos p = .user then some (s.allocproc p) else none
  | .forkFail p =>
    match s.pos p with
    | .forking q =>
      if s.state p = .running then
        some {s with state := update s.state q .unused, pos := update s.pos p .user}
      else none
    | _ => none
  | .forkCopy p =>
    match s.pos p with
    | .forking q =>
      if s.state p = .running then
        some {s with parent := update s.parent q (some p), pos := update s.pos p (.forked q)}
      else none
    | _ => none
  | .forkDone p =>
    match s.pos p with
    | .forked q =>
      if s.state p = .running then
        some {s with state := update s.state q .runnable, pos := update s.pos p .user}
      else none
    | _ => none
  | .exit p =>
    if s.state p = .running ∧ s.pos p = .user ∧ p ≠ initproc then
      some {s with pos := update s.pos p .exiting}
    else none
  | .exitDone p => if s.state p = .running ∧ s.pos p = .exiting then some (s.exitDone p) else none
  | .wait p => if s.state p = .running ∧ (s.pos p = .user ∨ s.pos p = .waiting) then some (s.wait p) else none
  | .kill p n => if s.state p = .running ∧ s.pos p = .user then some (s.kill n) else none
  | .fault p =>
    if s.state p = .running ∧ s.pos p = .user then
      some {s with killed := update s.killed p true, hit := update s.hit p true}
    else none
  | .schedule p =>
    if s.state p = .runnable then some {s with state := update s.state p .running} else none
  | .yield p =>
    if s.state p = .running then some {s with state := update s.state p .runnable} else none
  | .block p =>
    if s.state p = .running ∧ s.pos p ≠ .waiting then
      some {s with state := update s.state p .sleeping, chan := update s.chan p none}
    else none
  | .unblock p =>
    if s.state p = .sleeping ∧ s.pos p ≠ .waiting then
      some {s with state := update s.state p .runnable}
    else none

end Table

theorem first_some {f : ProcSlot → Bool} {q : ProcSlot} (h : Table.first f = some q) : f q = true :=
  List.find?_some h

theorem first_none {f : ProcSlot → Bool} (h : Table.first f = none) (q : ProcSlot) : f q = false := by
  have hq := List.find?_eq_none.mp h q (List.mem_finRange q)
  exact Bool.eq_false_iff.mpr hq

/-- `switch`: the scheduler and the sleeps outside of `wait` change a process between the states of an
active one. -/
inductive Taken (s : Table) : Action → Table → Prop
  | full (p : ProcSlot) : Taken s (.allocproc p) s
  | made {p q : ProcSlot} (hrun : s.state p = .running) (hpos : s.pos p = .user) (hq : s.state q = .unused) :
    Taken s (.allocproc p) {s with
      state := update s.state q .embryo
      pid := update s.pid q s.nextpid
      nextpid := s.nextpid+1
      pos := update (update s.pos q .user) p (.forking q)
      creator := update s.creator q (s.pid p)
      hit := update s.hit q false}
  | failed {p q : ProcSlot} (hrun : s.state p = .running) (hpos : s.pos p = .forking q) :
    Taken s (.forkFail p) {s with state := update s.state q .unused, pos := update s.pos p .user}
  | copied {p q : ProcSlot} (hrun : s.state p = .running) (hpos : s.pos p = .forking q) :
    Taken s (.forkCopy p)
      {s with parent := update s.parent q (some p), pos := update s.pos p (.forked q)}
  | forked {p q : ProcSlot} (hrun : s.state p = .running) (hpos : s.pos p = .forked q) :
    Taken s (.forkDone p) {s with state := update s.state q .runnable, pos := update s.pos p .user}
  | leaving {p : ProcSlot} (hrun : s.state p = .running) (hpos : s.pos p = .user) (hp : p ≠ initproc) :
    Taken s (.exit p) {s with pos := update s.pos p .exiting}
  | exited {p : ProcSlot} (hrun : s.state p = .running) (hpos : s.pos p = .exiting) : Taken s (.exitDone p) (s.exitDone p)
  | reaped {p q : ProcSlot} (hpos : s.pos p = .user ∨ s.pos p = .waiting) (hrun : s.state p = .running)
      (hpar : s.parent q = some p) (hz : s.state q = .zombie) :
    Taken s (.wait p) {s with
      chan := update s.chan p none
      pid := update s.pid q 0
      parent := update s.parent q none
      killed := update s.killed q false
      state := update s.state q .unused
      pos := update s.pos p .user
      reaps := s.pid q :: s.reaps}
  | childless {p : ProcSlot} (hpos : s.pos p = .user ∨ s.pos p = .waiting) (hrun : s.state p = .running) :
    Taken s (.wait p) {s with chan := update s.chan p none, pos := update s.pos p .user}
  | asleep {p : ProcSlot} (hpos : s.pos p = .user ∨ s.pos p = .waiting) (hrun : s.state p = .running)
      (hz : ∀ q, s.parent q = some p → s.state q ≠ .zombie) :
    Taken s (.wait p) {s with
      state := update s.state p .sleeping
      chan := update (update s.chan p none) p (some p)
      pos := update s.pos p .waiting}
  | missed (p : ProcSlot) (n : ℤ) : Taken s (.kill p n) s
  | killed {p q : ProcSlot} {n : ℤ} (hq : s.target n = some q) :
    Taken s (.kill p n) {s with
      killed := update s.killed q true
      state := update s.state q (if s.state q = .sleeping then .runnable else s.state q)
      hit := update s.hit q (s.hit q || decide (s.state q ≠ .unused))}
  | faulted {p : ProcSlot} (hrun : s.state p = .running) :
    Taken s (.fault p) {s with killed := update s.killed p true, hit := update s.hit p true}
  | switch {a : Action} {p : ProcSlot} {r : ProcState} {chan : ProcSlot → Option ProcSlot}
      (ha : a ∈ [.schedule p,.yield p,.block p,.unblock p]) (hold : (s.state p).active = true)
      (hnew : r.active = true) (hsleep : r = .sleeping → s.pos p ≠ .waiting)
      (hchan : ∀ x, s.pos x = .waiting → chan x = s.chan x) :
    Taken s a {s with state := update s.state p r, chan := chan}

theorem active_of_running {s : Table} {p : ProcSlot} (h : s.state p = .running) : (s.state p).active = true := by
  rw [h]
  rfl

theorem wait_taken {s : Table} {p : ProcSlot} (hrun : s.state p = .running)
    (hpos : s.pos p = .user ∨ s.pos p = .waiting) : Taken s (.wait p) (s.wait p) := by
  rw [Table.wait]
  dsimp only
  split
  · next q hq =>
    obtain ⟨hpar,hz⟩ := of_decide_eq_true (first_some hq)
    exact .reaped hpos hrun hpar hz
  · next hnone =>
    split
    · exact .childless hpos hrun
    · refine .asleep hpos hrun ?_
      intro q hpar hz
      exact of_decide_eq_false (first_none hnone q) ⟨hpar,hz⟩

theorem step_taken {s t : Table} {a : Action} (hstep : s.step a = some t) : Taken s a t := by
  cases a with
  | forkFail p | forkCopy p | forkDone p =>
    rw [Table.step] at hstep
    split at hstep
    · next q hpos =>
      obtain ⟨hrun,hstep⟩ := Option.ite_none_right_eq_some.mp hstep
      cases hstep
      constructor
      · exact hrun
      · exact hpos
    · cases hstep
  | allocproc p =>
    obtain ⟨⟨hrun,hpos⟩,hstep⟩ := Option.ite_none_right_eq_some.mp hstep
    cases hstep
    rw [Table.allocproc]
    split
    · exact .full p
    · next q hq => exact .made hrun hpos (of_decide_eq_true (first_some hq))
  | exit p =>
    obtain ⟨⟨hrun,hpos,hp⟩,hstep⟩ := Option.ite_none_right_eq_some.mp hstep
    cases hstep
    exact .leaving hrun hpos hp
  | exitDone p =>
    obtain ⟨⟨hrun,hpos⟩,hstep⟩ := Option.ite_none_right_eq_some.mp hstep
    cases hstep
    exact .exited hrun hpos
  | wait p =>
    obtain ⟨⟨hrun,hpos⟩,hstep⟩ := Option.ite_none_right_eq_some.mp hstep
    cases hstep
    exact wait_taken hrun hpos
  | kill p n =>
    obtain ⟨-,hstep⟩ := Option.ite_none_right_eq_some.mp hstep
    cases hstep
    rw [Table.kill]
    split
    · exact .missed p n
    · next q hq => exact .killed hq
  | fault p =>
    obtain ⟨⟨hrun,-⟩,hstep⟩ := Option.ite_none_right_eq_some.mp hstep
    cases hstep
    exact .faulted hrun
  | schedule p =>
    obtain ⟨hp,hstep⟩ := Option.ite_none_right_eq_some.mp hstep
    cases hstep
    exact .switch (by simp) (by rw [hp]; rfl) rfl (by rintro ⟨⟩) (fun _ _ => rfl)
  | yield p =>
    obtain ⟨hp,hstep⟩ := Option.ite_none_right_eq_some.mp hstep
    cases hstep
    exact .switch (by simp) (active_of_running hp) rfl (by rintro ⟨⟩) (fun _ _ => rfl)
  | block p =>
    obtain ⟨⟨hrun,hpos⟩,hstep⟩ := Option.ite_none_right_eq_some.mp hstep
    cases hstep
    refine .switch (by simp) (active_of_running hrun) rfl (fun _ => hpos) ?_
    intro x hx
    refine update_of_ne ?_ _ _
    rintro rfl
    exact hpos hx
  | unblock p =>
    obtain ⟨⟨hp,-⟩,hstep⟩ := Option.ite_none_right_eq_some.mp hstep
    cases hstep
    exact .switch (by simp) (by rw [hp]; rfl) rfl (by rintro ⟨⟩) (fun _ _ => rfl)

end Xv6Paging.Process
