import Xv6Paging.Library.RingBuffer
import Xv6Paging.Library.Runs
import Xv6Paging.Library.WordPage

/-! # Pipes

`pipewrite` and `piperead` of `pipe.c` hold the pipe's lock except while they sleep. A step
of the system is what one process does from a call or from the end of a sleep up to the
return or to the next sleep; a sleeping process may be woken at any time, and what it
reads in `killed` is given with the step. The history of the pipe is the bytes stored into
the ring and the bytes taken from it.
-/
namespace Xv6Paging
open WordPage RingBuffer Function

structure Pipe where
  data : Fin 512 → Byte
  nread : Counter
  nwrite : Counter
  readopen : Bool
  writeopen : Bool

/-- Where a process leaves `pipewrite`: at the return of `n`, at the return of `-1`, or at a sleep with
the bytes still to store. -/
inductive WriteExit
  | returned
  | failed
  | asleep (rest : List Byte)
  deriving DecidableEq

/-- Where a process leaves `piperead`: at a return or at a sleep. -/
inductive ReadExit
  | returned (bytes : List Byte)
  | failed
  | asleep
  deriving DecidableEq

namespace Pipe

theorem size_pos : 0 < 512 := by decide

def pipealloc (page : Fin 512 → Byte) : Pipe := ⟨page,0,0,true,true⟩

def pipeclose (p : Pipe) (writable : Bool) : Pipe :=
  if writable then {p with writeopen := false} else {p with readopen := false}

def store (p : Pipe) (b : Byte) : Pipe := {p with data := put size_pos p.data p.nwrite b, nwrite := p.nwrite+1}

/-- The loop of `pipewrite` over the bytes left to write, with the bytes it has stored. -/
def pipewrite (killed : Bool) : Pipe → List Byte → Pipe × List Byte × WriteExit
  | p, [] => (p,[],.returned)
  | p, b :: rest =>
    if p.nwrite = p.nread+512 then
      (p,[],if p.readopen = false ∨ killed = true then .failed else .asleep (b :: rest))
    else
      let r := pipewrite killed (p.store b) rest
      (r.1,b :: r.2.1,r.2.2)

def copyOut : Pipe → ℕ → Pipe × List Byte
  | p, 0 => (p,[])
  | p, n+1 =>
    if p.nread = p.nwrite then (p,[])
    else
      let r := copyOut {p with nread := p.nread+1} n
      (r.1,p.data (cell size_pos p.nread) :: r.2)

def piperead (killed : Bool) (p : Pipe) (n : ℤ) : Pipe × ReadExit :=
  if p.nread = p.nwrite ∧ p.writeopen = true then (p,if killed then .failed else .asleep)
  else ((p.copyOut n.toNat).1,.returned (p.copyOut n.toNat).2)

def buffered (p : Pipe) : List Byte := contents size_pos p.data p.nread p.nwrite

/-- The number of bytes in the ring, `nwrite - nread` as a `uint`. -/
def held (p : Pipe) : ℕ := span p.nread p.nwrite

variable {p : Pipe}

theorem full_iff : p.nwrite = p.nread+512 ↔ p.held = 512 := by
  have hiff : span p.nread p.nwrite = 512 ↔ p.nwrite = p.nread+BitVec.ofNat 32 512 := span_eq_iff (by decide)
  exact hiff.symm

theorem held_store (hheld : p.held < 512) (b : Byte) : (p.store b).held = p.held+1 := by
  apply span_push
  change p.held+1 < 2^32
  omega

theorem buffered_store (hheld : p.held < 512) (b : Byte) : (p.store b).buffered = p.buffered ++ [b] :=
  contents_push (by decide) (by decide) hheld b

/-- What a stretch of `pipewrite` stores joins the end of the ring, in order. -/
theorem pipewrite_spec (killed : Bool) (bytes : List Byte) (hheld : p.held ≤ 512) :
    let r := pipewrite killed p bytes
    r.1.held ≤ 512 ∧ r.1.buffered = p.buffered ++ r.2.1 ∧
      (match r.2.2 with
        | .returned => r.2.1 = bytes
        | .failed => r.2.1 <+: bytes ∧ r.1.held = 512
        | .asleep rest => r.2.1 ++ rest = bytes ∧ r.1.held = 512) := by
  induction bytes generalizing p with
  | nil => exact ⟨hheld,(List.append_nil _).symm,rfl⟩
  | cons b rest ih =>
    rw [pipewrite]
    by_cases hfull : p.nwrite = p.nread+512
    · rw [if_pos hfull]
      refine ⟨hheld,(List.append_nil _).symm,?_⟩
      by_cases hstop : p.readopen = false ∨ killed = true
      · simp only [if_pos hstop]
        exact ⟨⟨b :: rest,rfl⟩,full_iff.mp hfull⟩
      · simp only [if_neg hstop]
        exact ⟨rfl,full_iff.mp hfull⟩
    · rw [if_neg hfull]
      have hroom : p.held < 512 := by
        have hne := mt full_iff.mpr hfull
        omega
      obtain ⟨hle,hbuf,hexit⟩ := ih (p := p.store b) (by rw [held_store hroom]; omega)
      refine ⟨hle,?_,?_⟩
      · dsimp only
        rw [hbuf,buffered_store hroom,List.append_assoc]
        rfl
      · dsimp only
        generalize (pipewrite killed (p.store b) rest).2.2 = e at hexit ⊢
        cases e with
        | returned => exact congrArg (b :: ·) hexit
        | failed =>
          obtain ⟨⟨left,hleft⟩,hheld⟩ := hexit
          exact ⟨⟨left,congrArg (b :: ·) hleft⟩,hheld⟩
        | asleep left => exact ⟨congrArg (b :: ·) hexit.1,hexit.2⟩

theorem pipewrite_rest (killed : Bool) (bytes : List Byte) (hheld : p.held ≤ 512) :
    ∃ rest, (pipewrite killed p bytes).2.1 ++ rest = bytes ∧
      (rest ≠ [] → (pipewrite killed p bytes).1.held = 512) ∧
      ∀ left, (pipewrite killed p bytes).2.2 = .asleep left → left = rest := by
  obtain ⟨-,-,hexit⟩ := pipewrite_spec killed bytes hheld
  cases he : (pipewrite killed p bytes).2.2 with
  | returned =>
    rw [he] at hexit
    exact ⟨[],(List.append_nil _).trans hexit,fun hne => absurd rfl hne,fun left hl => by cases hl⟩
  | failed =>
    rw [he] at hexit
    obtain ⟨⟨rest,hrest⟩,hfull⟩ := hexit
    exact ⟨rest,hrest,fun _ => hfull,fun left hl => by cases hl⟩
  | asleep rest =>
    rw [he] at hexit
    exact ⟨rest,hexit.1,fun _ => hexit.2,fun left hl => by cases hl; rfl⟩

/-- What `piperead` copies leaves the front of the ring, in order. -/
theorem copyOut_spec (n : ℕ) :
    (p.copyOut n).2 ++ (p.copyOut n).1.buffered = p.buffered ∧ (p.copyOut n).1.held ≤ p.held := by
  induction n generalizing p with
  | zero => exact ⟨rfl,le_refl _⟩
  | succ n ih =>
    rw [copyOut]
    by_cases hempty : p.nread = p.nwrite
    · rw [if_pos hempty]
      exact ⟨rfl,le_refl _⟩
    · rw [if_neg hempty]
      obtain ⟨hbuf,hle⟩ := ih (p := {p with nread := p.nread+1})
      have hpop : span (p.nread+1) p.nwrite+1 = p.held := span_pop hempty
      dsimp only [held] at hle hpop ⊢
      refine ⟨?_,by omega⟩
      rw [List.cons_append,hbuf]
      exact (contents_pop hempty).symm

end Pipe

inductive PipeCall
  | none
  | writing (rest : List Byte)
  | reading (n : ℤ)

/-- A pipe, the calls that sleep, and the bytes stored and returned so far. -/
structure PipeSystem where
  pipe : Pipe
  calls : ℕ → PipeCall
  accepted : List Byte
  delivered : List Byte

inductive PipeAction
  | write (k : ℕ) (bytes : List Byte) (killed : Bool)
  | read (k : ℕ) (n : ℤ) (killed : Bool)
  | wake (k : ℕ) (killed : Bool)
  | close (writable : Bool)

def PipeAction.caller : PipeAction → Option ℕ
  | .write k _ _ | .read k _ _ | .wake k _ => some k
  | .close _ => none

namespace PipeSystem
open Pipe

def create (page : Fin 512 → Byte) : PipeSystem := ⟨pipealloc page,fun _ => .none,[],[]⟩

def write (s : PipeSystem) (k : ℕ) (bytes : List Byte) (killed : Bool) : PipeSystem :=
  let r := pipewrite killed s.pipe bytes
  {s with
    pipe := r.1
    accepted := s.accepted ++ r.2.1
    calls := update s.calls k (match r.2.2 with | .asleep rest => .writing rest | _ => .none)}

def read (s : PipeSystem) (k : ℕ) (n : ℤ) (killed : Bool) : PipeSystem :=
  let r := piperead killed s.pipe n
  {s with
    pipe := r.1
    delivered := s.delivered ++ (match r.2 with | .returned bytes => bytes | _ => [])
    calls := update s.calls k (match r.2 with | .asleep => .reading n | _ => .none)}

def step (s : PipeSystem) : PipeAction → Option PipeSystem
  | .write k bytes killed =>
    match s.calls k with
    | .none => some (s.write k bytes killed)
    | _ => none
  | .read k n killed =>
    match s.calls k with
    | .none => some (s.read k n killed)
    | _ => none
  | .wake k killed =>
    match s.calls k with
    | .none => none
    | .writing rest => some (s.write k rest killed)
    | .reading n => some (s.read k n killed)
  | .close writable => some {s with pipe := s.pipe.pipeclose writable}

def pending (s : PipeSystem) (k : ℕ) : List Byte :=
  match s.calls k with
  | .writing rest => rest
  | _ => []

def given (s : PipeSystem) : PipeAction → List Byte
  | .write _ bytes _ => bytes
  | .wake k _ => s.pending k
  | _ => []

def Reaches (s t : PipeSystem) : Prop := Runs.Reaches step (fun _ _ => True) s t

/-- The bytes returned, followed by the bytes in the ring, are the bytes stored. -/
structure Fifo (s : PipeSystem) : Prop where
  held : s.pipe.held ≤ 512
  order : s.delivered ++ s.pipe.buffered = s.accepted

variable {s t : PipeSystem}

theorem Fifo.write (h : s.Fifo) (k : ℕ) (bytes : List Byte) (killed : Bool) :
    (s.write k bytes killed).Fifo := by
  obtain ⟨hheld,hbuf,_⟩ := pipewrite_spec killed bytes h.held
  refine ⟨hheld,?_⟩
  change s.delivered ++ (pipewrite killed s.pipe bytes).1.buffered =
    s.accepted ++ (pipewrite killed s.pipe bytes).2.1
  rw [hbuf,← h.order,List.append_assoc]

theorem Fifo.read (h : s.Fifo) (k : ℕ) (n : ℤ) (killed : Bool) : (s.read k n killed).Fifo := by
  by_cases hwait : s.pipe.nread = s.pipe.nwrite ∧ s.pipe.writeopen = true
  · have hread : piperead killed s.pipe n = (s.pipe,if killed then .failed else .asleep) := if_pos hwait
    refine ⟨?_,?_⟩
    · rw [PipeSystem.read,hread]
      exact h.held
    · rw [PipeSystem.read,hread]
      cases killed with
      | false => exact (congrArg (· ++ _) (List.append_nil _)).trans h.order
      | true => exact (congrArg (· ++ _) (List.append_nil _)).trans h.order
  · have hread : piperead killed s.pipe n =
        ((s.pipe.copyOut n.toNat).1,.returned (s.pipe.copyOut n.toNat).2) := if_neg hwait
    have hcopy : (s.pipe.copyOut n.toNat).2 ++ (s.pipe.copyOut n.toNat).1.buffered = s.pipe.buffered ∧
        (s.pipe.copyOut n.toNat).1.held ≤ s.pipe.held := copyOut_spec n.toNat
    obtain ⟨hbuf,hle⟩ := hcopy
    refine ⟨?_,?_⟩
    · rw [PipeSystem.read,hread]
      exact hle.trans h.held
    · rw [PipeSystem.read,hread]
      dsimp only
      rw [List.append_assoc,hbuf]
      exact h.order

theorem Fifo.close (h : s.Fifo) (writable : Bool) : Fifo {s with pipe := s.pipe.pipeclose writable} := by
  cases writable with
  | false => exact ⟨h.held,h.order⟩
  | true => exact ⟨h.held,h.order⟩

theorem step_cases {a : PipeAction} (hstep : s.step a = some t) :
    (∃ k killed, a.caller = some k ∧ t = s.write k (s.given a) killed) ∨ s.given a = [] ∧
      ((∃ k n killed, a.caller = some k ∧ t = s.read k n killed) ∨
        ∃ w, a.caller = none ∧ t = {s with pipe := s.pipe.pipeclose w}) := by
  cases a with
  | write k bytes killed =>
    rw [PipeSystem.step] at hstep
    split at hstep
    · cases hstep
      exact Or.inl ⟨k,killed,rfl,rfl⟩
    · cases hstep
  | read k n killed =>
    rw [PipeSystem.step] at hstep
    split at hstep
    · cases hstep
      exact Or.inr ⟨rfl,Or.inl ⟨k,n,killed,rfl,rfl⟩⟩
    · cases hstep
  | wake k killed =>
    rw [PipeSystem.step] at hstep
    rw [given,pending]
    split at hstep
    · cases hstep
    · next rest hk =>
      cases hstep
      rw [hk]
      exact Or.inl ⟨k,killed,rfl,rfl⟩
    · next n hk =>
      cases hstep
      rw [hk]
      exact Or.inr ⟨rfl,Or.inl ⟨k,n,killed,rfl,rfl⟩⟩
  | close writable =>
    cases hstep
    exact Or.inr ⟨rfl,Or.inr ⟨writable,rfl,rfl⟩⟩

theorem Fifo.step (h : s.Fifo) {a : PipeAction} (hstep : s.step a = some t) : t.Fifo := by
  obtain ⟨k,killed,-,rfl⟩ | ⟨-,⟨k,n,killed,-,rfl⟩ | ⟨w,-,rfl⟩⟩ := step_cases hstep
  · exact h.write k _ killed
  · exact h.read k n killed
  · exact h.close w

/-- The beginning of the bytes is accepted. If bytes are left, the ring is full, and the caller sleeps with
them or gives up. -/
def Accepts (s t : PipeSystem) (caller : Option ℕ) (bytes : List Byte) : Prop :=
  ∃ stored rest, stored ++ rest = bytes ∧ t.accepted = s.accepted ++ stored ∧ (rest ≠ [] → t.pipe.held = 512) ∧
    ∀ k, if caller = some k then t.pending k = rest ∨ t.pending k = [] else t.pending k = s.pending k

theorem pending_of_ne {k j : ℕ} {c : PipeCall} (hc : t.calls = update s.calls k c) (hj : some k ≠ some j) :
    t.pending j = s.pending j := by
  have hne : j ≠ k := fun he => hj (he ▸ rfl)
  rw [pending,pending,hc,update_of_ne hne]

theorem Accepts.write (h : s.pipe.held ≤ 512) (k : ℕ) (bytes : List Byte) (killed : Bool) :
    Accepts s (s.write k bytes killed) (some k) bytes := by
  obtain ⟨rest,hbytes,hfull,hleft⟩ := pipewrite_rest killed bytes h
  refine ⟨_,rest,hbytes,rfl,hfull,fun j => ?_⟩
  split
  · next hj =>
    cases hj
    rw [pending,PipeSystem.write]
    dsimp only
    rw [update_self]
    cases he : (pipewrite killed s.pipe bytes).2.2 with
    | returned => exact Or.inr rfl
    | failed => exact Or.inr rfl
    | asleep left => exact Or.inl (hleft left he)
  · next hj => exact pending_of_ne rfl hj

theorem Accepts.read (k : ℕ) (n : ℤ) (killed : Bool) : Accepts s (s.read k n killed) (some k) [] := by
  refine ⟨[],[],rfl,(List.append_nil _).symm,fun hne => absurd rfl hne,fun j => ?_⟩
  split
  · next hj =>
    cases hj
    refine Or.inr ?_
    rw [pending,PipeSystem.read]
    dsimp only
    rw [update_self]
    cases (piperead killed s.pipe n).2 <;> rfl
  · next hj => exact pending_of_ne rfl hj

theorem Accepts.step (h : s.pipe.held ≤ 512) {a : PipeAction} (hstep : s.step a = some t) :
    Accepts s t a.caller (s.given a) := by
  obtain ⟨k,killed,hk,rfl⟩ | ⟨hnil,⟨k,n,killed,hk,rfl⟩ | ⟨w,hw,rfl⟩⟩ := step_cases hstep
  · rw [hk]
    exact .write h k _ killed
  · rw [hk,hnil]
    exact .read k n killed
  · rw [hw,hnil]
    exact ⟨[],[],rfl,(List.append_nil _).symm,fun hne => absurd rfl hne,fun k => rfl⟩

theorem fifo_create (page : Fin 512 → Byte) : (create page).Fifo := by
  refine ⟨?_,?_⟩
  · change span 0 0 ≤ 512
    rw [span_self]
    decide
  · change [] ++ contents size_pos page 0 0 = []
    rw [contents_self,List.append_nil]

end PipeSystem

/-- The bytes returned, followed by the `nwrite - nread` bytes in the ring, are the bytes accepted, in the
order in which they were stored. A step accepts bytes until the ring is full. -/
theorem pipe_fifo {page : Fin 512 → Byte} {s : PipeSystem} (h : (PipeSystem.create page).Reaches s) :
    (s.pipe.nwrite-s.pipe.nread).toNat ≤ 512 ∧
    s.delivered ++ segment Pipe.size_pos s.pipe.data s.pipe.nread (s.pipe.nwrite-s.pipe.nread).toNat =
      s.accepted ∧
    ∀ a t, s.step a = some t → s.Accepts t a.caller (s.given a) := by
  have hfifo : s.Fifo := Runs.Reaches.invariant h (PipeSystem.fifo_create page) (by
    intro s a t hs _ hstep
    exact hs.step hstep)
  exact ⟨hfifo.held,hfifo.order,fun a t hstep => .step hfifo.held hstep⟩

def sleepingReader : List PipeAction := [.read 0 2 false,.write 1 [7,8,9] false,.wake 0 false]

theorem pipe_fifo_sleeping : ∃ s, (PipeSystem.create fun _ => 0).Reaches s ∧ s.delivered = [7,8] ∧
    s.delivered ++ segment Pipe.size_pos s.pipe.data s.pipe.nread (s.pipe.nwrite-s.pipe.nread).toNat =
      [7,8,9] := by
  have hrun : (Runs.exec PipeSystem.step (fun _ _ => True) sleepingReader (PipeSystem.create fun _ => 0)).map
      (fun s => decide (s.delivered = [7,8] ∧ s.accepted = [7,8,9])) = some true := by decide +kernel
  obtain ⟨s,hs,hf⟩ := Runs.exists_reaches hrun
  obtain ⟨hdelivered,haccepted⟩ := of_decide_eq_true hf
  exact ⟨s,hs,hdelivered,haccepted ▸ (pipe_fifo hs).2.1⟩

end Xv6Paging
