import Xv6Paging.Kernel.File
import Xv6Paging.Library.Sector

/-! # The log

`log.c`: the admission test of `begin_op`, `log_write`, `end_op`, the writes of `commit`
and `recover_from_log`. A transaction's block numbers are the list `lh`, and the header
block holds their number in its first word and the numbers behind it.

`LogSystem` is the log together with the disk, the block contents that `bread` returns
and the position of every operation. An operation is one pass from a `begin_op` to its
`end_op` and the commit behind it. A process that calls `begin_op` again before its
`end_op`, as `exec` does when it evicts a page, is inside two of them. Each step is what
one operation does inside one critical section, or one block write of a commit or of
recovery; `log_write` makes its two checks before it takes the lock, so they are a step
of their own. An operation holds the lock of the buffer it passes to `log_write`. A crash
may come between any two steps.

A logged block stays in the buffer cache, marked `B_DIRTY`, until it is installed, and
`bget` panics when all `NBUF` buffers are taken. Of the buffers that are taken only the
marked ones are counted here; one more that a process holds at the moment can only make
`bget` panic sooner.
-/
namespace Xv6Paging
open WordPage Sector Function

def logSize : ℕ := maxOpBlocks*3

def nbuf : ℕ := maxOpBlocks*3

structure Log where
  start : ℕ
  size : ℕ
  outstanding : ℤ
  committing : Bool
  lh : List Word
  deriving DecidableEq

/-- The result `none` says that the caller sleeps. -/
def beginOp (l : Log) : Option Log :=
  if l.committing then none
  else if (logSize : ℤ) < l.lh.length+(l.outstanding+1)*maxOpBlocks then none
  else some {l with outstanding := l.outstanding+1}

/-- The first critical section of `end_op`; the result says whether the caller commits. -/
def endOp (l : Log) : Except Fault (Bool × Log) :=
  let l := {l with outstanding := l.outstanding-1}
  if l.committing then .error (.panic "log.committing")
  else if l.outstanding = 0 then .ok (true,{l with committing := true})
  else .ok (false,l)

/-- What `log_write` tests before it takes the lock. -/
def logWriteCheck (l : Log) : Except Fault Unit :=
  if logSize ≤ l.lh.length ∨ (l.size : ℤ)-1 ≤ l.lh.length then
    .error (.panic "too big a transaction")
  else if l.outstanding < 1 then .error (.panic "log_write outside of trans")
  else .ok ()

/-- The critical section of `log_write`; `lh.block` has `LOGSIZE` entries. -/
def logWriteLocked (blockno : Word) (l : Log) : Except Fault Log :=
  if blockno ∈ l.lh then .ok l
  else if logSize ≤ l.lh.length then .error .outOfBounds
  else .ok {l with lh := l.lh ++ [blockno]}

def headWord (lh : List Word) : ℕ → Option Word
  | 0 => some (BitVec.ofNat 32 lh.length)
  | i+1 => lh[i]?

def writeHead (lh : List Word) (b : Block) : Block := putWords (headWord lh) b

def readHead (b : Block) : List Word :=
  (List.range (wordAt b 0).toInt.toNat).map fun i => wordAt b (i+1)

/-- The next block of `write_log`, `write_head`, the next block of `install_trans`, the `write_head` that
clears the log, the end of `end_op`. -/
inductive CommitPc
  | writeLog (tail : ℕ)
  | writeHead
  | install (tail : ℕ)
  | erase
  | release
  deriving DecidableEq

inductive RecoverPc
  | readHead
  | install (tail : ℕ)
  | erase
  deriving DecidableEq

/-- Not begun, under way as number `op` with the blocks logged so far, in `log_write` with new data, or in
`commit`. -/
inductive OpState
  | idle
  | active (op : ℕ) (logged : List Word)
  | writing (op : ℕ) (logged : List Word) (block : Word) (data : Block)
  | commit (pc : CommitPc)

structure Update where
  op : ℕ
  block : Word
  data : Block

/-- `cache` is what `bread` returns, and `locked` the buffers that an operation holds. No step reads the
last four fields: the next operation's number, all updates, those of the open transaction, and the committed
transactions. -/
structure LogSystem where
  disk : ℕ → Block
  cache : ℕ → Block
  locked : Word → Bool
  log : Log
  ops : ℕ → OpState
  recovering : Option RecoverPc
  nextOp : ℕ
  issued : List Update
  pending : List Update
  committed : List (List Update)

inductive LogAction
  | begin (p : ℕ)
  | write (p : ℕ) (block : Word) (data : Block)
  | append (p : ℕ)
  | finish (p : ℕ)
  | commit (p : ℕ)
  | crash
  | recover

def Log.area (l : Log) (b : ℕ) : Prop := l.start ≤ b ∧ b < l.start+l.size

instance (l : Log) (b : ℕ) : Decidable (l.area b) := inferInstanceAs (Decidable (_ ∧ _))

def OpState.inOp : OpState → Bool
  | .active _ _ => true
  | .writing _ _ _ _ => true
  | _ => false

namespace LogSystem

def setOp (s : LogSystem) (p : ℕ) (q : OpState) : LogSystem :=
  {s with ops := update s.ops p q}

/-- One iteration of `write_log`. -/
def writeLogBlock (s : LogSystem) (tail : ℕ) (b : Word) : LogSystem :=
  {s with disk := update s.disk (s.log.start+tail+1) (s.cache b.toNat)}

/-- One iteration of `install_trans`. -/
def installBlock (s : LogSystem) (tail : ℕ) (b : Word) : LogSystem :=
  {s with
    disk := update s.disk b.toNat (s.disk (s.log.start+tail+1))
    cache := update s.cache b.toNat (s.disk (s.log.start+tail+1))}

def putHead (s : LogSystem) : LogSystem :=
  {s with disk := update s.disk s.log.start (writeHead s.log.lh (s.disk s.log.start))}

def clearHead (s : LogSystem) : LogSystem := {s with log := {s.log with lh := []}}

/-- `bget` has a buffer for a block: the block is one of the marked ones, which are cached, or not
all buffers are marked. -/
def bgetReturns (marked : List Word) (b : ℕ) : Bool :=
  marked.any (fun w => decide (w.toNat = b)) || decide (marked.length < nbuf)

/-- The `bread` with which the next step of `commit` starts returns. -/
def commitReads (s : LogSystem) : CommitPc → Bool
  | .writeLog tail => decide (s.log.lh.length ≤ tail) || bgetReturns s.log.lh (s.log.start+tail+1)
  | .install tail => decide (s.log.lh.length ≤ tail) ||
      bgetReturns (s.log.lh.drop tail) (s.log.start+tail+1)
  | .writeHead => bgetReturns s.log.lh s.log.start
  | .erase => bgetReturns [] s.log.start
  | .release => true

def commitStep (s : LogSystem) (p : ℕ) : CommitPc → LogSystem
  | .writeLog tail =>
    match s.log.lh[tail]? with
    | some b => (s.writeLogBlock tail b).setOp p (.commit (.writeLog (tail+1)))
    | none => s.setOp p (.commit .writeHead)
  | .writeHead =>
    {s.putHead.setOp p (.commit (.install 0)) with
      committed := s.committed ++ [s.pending], pending := []}
  | .install tail =>
    match s.log.lh[tail]? with
    | some b => (s.installBlock tail b).setOp p (.commit (.install (tail+1)))
    | none => s.clearHead.setOp p (.commit .erase)
  | .erase => s.putHead.setOp p (.commit .release)
  | .release => {s with log := {s.log with committing := false}}.setOp p .idle

def recoverStep (s : LogSystem) : RecoverPc → LogSystem
  | .readHead => {s with
      log := {s.log with lh := Xv6Paging.readHead (s.disk s.log.start)}, recovering := some (.install 0)}
  | .install tail =>
    match s.log.lh[tail]? with
    | some b => {s.installBlock tail b with recovering := some (.install (tail+1))}
    | none => {s.clearHead with recovering := some .erase}
  | .erase => {s.putHead with recovering := none}

/-- What memory holds is lost; the next boot starts with `recover_from_log`. -/
def crash (s : LogSystem) : LogSystem :=
  {s with
    cache := s.disk
    locked := fun _ => false
    log := {s.log with outstanding := 0, committing := false, lh := []}
    ops := fun _ => .idle
    recovering := some .readHead
    pending := []}

def begun (s : LogSystem) (p : ℕ) (l : Log) : LogSystem :=
  {{s with log := l}.setOp p (.active s.nextOp []) with nextOp := s.nextOp+1}

def written (s : LogSystem) (p op : ℕ) (logged : List Word) (b : Word) (v : Block) : LogSystem :=
  {s with
    cache := update s.cache b.toNat v
    locked := update s.locked b true}.setOp p (.writing op logged b v)

def appended (s : LogSystem) (p op : ℕ) (logged : List Word) (b : Word) (v : Block) (l : Log) : LogSystem :=
  {{s with log := l}.setOp p (.active op (if b ∈ logged then logged else b :: logged)) with
    locked := update s.locked b false
    issued := s.issued ++ [⟨op,b,v⟩]
    pending := s.pending ++ [⟨op,b,v⟩]}

def finished (s : LogSystem) (p : ℕ) (doCommit : Bool) (l : Log) : LogSystem :=
  {s with log := l}.setOp p
    (if doCommit then .commit (if 0 < l.lh.length then .writeLog 0 else .release) else .idle)

/-- The result `none` says that the action is not the operation's next one, that it has to wait,
or that it ends in a panic. -/
def step (s : LogSystem) : LogAction → Option LogSystem
  | .begin p =>
    match s.recovering, s.ops p with
    | none, .idle => (beginOp s.log).map (s.begun p)
    | _, _ => none
  | .write p b v =>
    match s.ops p with
    | .active op logged =>
      match s.locked b, bgetReturns s.log.lh b.toNat, logWriteCheck s.log with
      | false, true, .ok _ => some (s.written p op logged b v)
      | _, _, _ => none
    | _ => none
  | .append p =>
    match s.ops p with
    | .writing op logged b v =>
      match logWriteLocked b s.log with
      | .ok l => some (s.appended p op logged b v l)
      | .error _ => none
    | _ => none
  | .finish p =>
    match s.ops p with
    | .active _ _ =>
      match endOp s.log with
      | .ok (doCommit,l) => some (s.finished p doCommit l)
      | .error _ => none
    | _ => none
  | .commit p =>
    match s.ops p with
    | .commit pc => if s.commitReads pc then some (s.commitStep p pc) else none
    | _ => none
  | .crash => some s.crash
  | .recover => s.recovering.map s.recoverStep

end LogSystem

end Xv6Paging
