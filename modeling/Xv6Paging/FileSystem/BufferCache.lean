import Xv6Paging.Library.LinkRing
import Xv6Paging.Library.Sector

/-! # The buffer cache

`binit`, `bget`, `bread`, `bwrite` and `brelse` of `bio.c`, with `iderw` of `ide.c` and
the flag that `log_write` sets. A use of a buffer is one activation of `bread` together
with everything up to its `brelse`; a process may have several at a time, and the two
loops of a commit are such uses too. Each step is what happens inside one critical
section of `bcache.lock`, one operation on a sleep lock, one completed disk request, or
one change by the use that holds the sleep lock. Device 0 is not used, since all buffers
start out with its block 0.
-/
namespace Xv6Paging
open LinkRing Sector Function

/-- An index of `bcache.buf`; `NBUF` is 30. -/
abbrev BufSlot := Fin 30

structure Buf where
  dev : ℕ
  blockno : ℕ
  valid : Bool
  dirty : Bool
  refcnt : ℕ
  data : Block

def Buf.key (b : Buf) : ℕ × ℕ := (b.dev,b.blockno)

/-- Waiting for the sleep lock, reading the block, between calls, with a change not yet passed to `bwrite`
or `log_write`, in the request of `bwrite`, in `brelse` before `refcnt` is decremented. -/
inductive BufUse
  | idle
  | waiting (b : BufSlot)
  | filling (b : BufSlot)
  | holding (b : BufSlot)
  | changed (b : BufSlot)
  | writing (b : BufSlot)
  | releasing (b : BufSlot)
  deriving DecidableEq

/-- The last three fields are history: the block that each use asked for, the uses of each buffer, the data
last stored. -/
structure BufferCache where
  buf : BufSlot → Buf
  links : Links BufSlot
  lock : BufSlot → Option ℕ
  disk : ℕ × ℕ → Block
  uses : ℕ → BufUse
  request : ℕ → ℕ × ℕ
  users : BufSlot → List ℕ
  stored : ℕ × ℕ → Block

inductive BufferAction
  | bget (k dev blockno : ℕ)
  | acquire (k : ℕ)
  | iderw (k : ℕ)
  | change (k : ℕ) (data : Block)
  | bwrite (k : ℕ)
  | logWrite (k : ℕ)
  | brelse (k : ℕ)
  | drop (k : ℕ)

namespace BufferCache

/-- The list of all buffers that `binit` builds; the links it has not set yet are not read. -/
def binit (disk : ℕ × ℕ → Block) : BufferCache where
  buf _ := ⟨0,0,false,false,0,fun _ => 0⟩
  links := (List.finRange 30).foldl Links.pushFront ⟨fun _ => none,fun _ => none⟩
  lock _ := none
  disk := disk
  uses _ := .idle
  request _ := (0,0)
  users _ := []
  stored := disk

def setBuf (s : BufferCache) (b : BufSlot) (c : Buf) : BufferCache :=
  {s with buf := update s.buf b c}

def setUse (s : BufferCache) (k : ℕ) (u : BufUse) : BufferCache :=
  {s with uses := update s.uses k u}

def setLock (s : BufferCache) (b : BufSlot) (o : Option ℕ) : BufferCache :=
  {s with lock := update s.lock b o}

/-- The first loop of `bget`. -/
def lookup (s : BufferCache) (key : ℕ × ℕ) : Option BufSlot :=
  chase (fun b => s.links.next (some b)) (fun b => (s.buf b).key = key) 31 (s.links.next none)

/-- The second loop of `bget`. -/
def unused (s : BufferCache) : Option BufSlot :=
  chase (fun b => s.links.prev (some b)) (fun b => (s.buf b).refcnt = 0 ∧ (s.buf b).dirty = false) 31
    (s.links.prev none)

def join (s : BufferCache) (k : ℕ) (b : BufSlot) (key : ℕ × ℕ) : BufferCache :=
  {s.setUse k (.waiting b) with
    request := update s.request k key
    users := update s.users b (k :: s.users b)}

/-- The critical section of `bget`; it panics when no buffer is unused. -/
def bget (s : BufferCache) (k dev blockno : ℕ) : Option BufferCache :=
  match s.lookup (dev,blockno) with
  | some b => some ((s.setBuf b {s.buf b with refcnt := (s.buf b).refcnt+1}).join k b (dev,blockno))
  | none =>
    match s.unused with
    | some b => some ((s.setBuf b {s.buf b with
        dev := dev, blockno := blockno, valid := false, dirty := false, refcnt := 1}).join k b (dev,blockno))
    | none => none

def iderw (s : BufferCache) (b : BufSlot) : BufferCache :=
  if (s.buf b).dirty then
    {s.setBuf b {s.buf b with valid := true, dirty := false} with
      disk := update s.disk (s.buf b).key (s.buf b).data}
  else s.setBuf b {s.buf b with valid := true, dirty := false, data := s.disk (s.buf b).key}

def change (s : BufferCache) (k : ℕ) (b : BufSlot) (data : Block) : BufferCache :=
  {(s.setBuf b {s.buf b with data := data}).setUse k (.changed b) with
    stored := update s.stored (s.buf b).key data}

def setDirty (s : BufferCache) (b : BufSlot) : BufferCache := s.setBuf b {s.buf b with dirty := true}

/-- The critical section of `brelse`. -/
def drop (s : BufferCache) (k : ℕ) (b : BufSlot) : BufferCache :=
  let t := {(s.setBuf b {s.buf b with refcnt := (s.buf b).refcnt-1}).setUse k .idle with
    users := update s.users b ((s.users b).erase k)}
  if (s.buf b).refcnt-1 = 0 then {t with links := (s.links.unlink b).pushFront b} else t

/-- The result `none` says that the action is not the next one of the use, that it has to wait, or
that it ends in a panic. -/
def step (s : BufferCache) : BufferAction → Option BufferCache
  | .bget k dev blockno =>
    match s.uses k with
    | .idle => if dev = 0 then none else s.bget k dev blockno
    | _ => none
  | .acquire k =>
    match s.uses k with
    | .waiting b =>
      if s.lock b = none then
        some ((s.setLock b (some k)).setUse k (if (s.buf b).valid then .holding b else .filling b))
      else none
    | _ => none
  | .iderw k =>
    match s.uses k with
    | .filling b => some ((s.iderw b).setUse k (.holding b))
    | .writing b => some ((s.iderw b).setUse k (.holding b))
    | _ => none
  | .change k data =>
    match s.uses k with
    | .holding b => some (s.change k b data)
    | .changed b => some (s.change k b data)
    | _ => none
  | .bwrite k =>
    match s.uses k with
    | .holding b => some ((s.setDirty b).setUse k (.writing b))
    | .changed b => some ((s.setDirty b).setUse k (.writing b))
    | _ => none
  | .logWrite k =>
    match s.uses k with
    | .holding b => some ((s.setDirty b).setUse k (.holding b))
    | .changed b => some ((s.setDirty b).setUse k (.holding b))
    | _ => none
  | .brelse k =>
    match s.uses k with
    | .holding b => some ((s.setLock b none).setUse k (.releasing b))
    | _ => none
  | .drop k =>
    match s.uses k with
    | .releasing b => some (s.drop k b)
    | _ => none

end BufferCache

end Xv6Paging
