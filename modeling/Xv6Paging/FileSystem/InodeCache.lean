import Mathlib.Data.List.FinRange

/-! # The inode cache

`iget`, `idup`, `ilock`, `iunlock` and `iput` of `fs.c`, and the part of `ialloc` that
marks an inode on disk. A step is what one process does inside one critical section of
`icache.lock` or, for the fields that the sleep lock of an entry protects, between two of
them; `iput` is cut at its three uses of a lock and at its two changes of the disk inode.
The history of the system is the list of references that processes hold.
-/
namespace Xv6Paging
open Function

abbrev CacheSlot := Fin 50

structure InodeRecord where
  type : ℕ
  nlink : ℕ
  deriving DecidableEq

structure CacheEntry where
  dev : ℕ
  inum : ℕ
  ref : ℤ
  valid : Bool
  copy : InodeRecord
  deriving DecidableEq

def CacheEntry.key (e : CacheEntry) : ℕ × ℕ := (e.dev,e.inum)

/-- Outside of the functions, in `ialloc` before its `iget`, or in `iput` before it reads `ref`, truncates,
writes the free inode, clears `valid`, releases the sleep lock, decrements `ref`. The last two record
whether the inode was freed. -/
inductive IputPc
  | ready
  | allocated (dev inum : ℕ)
  | checking (e : CacheSlot)
  | freeing (e : CacheSlot)
  | clearing (e : CacheSlot)
  | freed (e : CacheSlot)
  | unlocking (e : CacheSlot) (done : Bool)
  | dropping (e : CacheSlot) (done : Bool)
  deriving DecidableEq

structure InodeCache where
  entries : CacheSlot → CacheEntry
  lock : CacheSlot → Option ℕ
  disk : ℕ × ℕ → InodeRecord
  pcs : ℕ → IputPc
  refs : List (ℕ × CacheSlot)

inductive InodeAction
  | iget (p dev inum : ℕ)
  | idup (p : ℕ) (e : CacheSlot)
  | ilock (p : ℕ) (e : CacheSlot)
  | iunlock (p : ℕ) (e : CacheSlot)
  | setLinks (p : ℕ) (e : CacheSlot) (n : ℕ)
  | ialloc (p dev inum type : ℕ)
  | iput (p : ℕ) (e : CacheSlot)
  | next (p : ℕ)

namespace InodeCache

def setEntry (s : InodeCache) (e : CacheSlot) (c : CacheEntry) : InodeCache :=
  {s with entries := update s.entries e c}

def setPc (s : InodeCache) (p : ℕ) (q : IputPc) : InodeCache := {s with pcs := update s.pcs p q}

def setLock (s : InodeCache) (e : CacheSlot) (o : Option ℕ) : InodeCache :=
  {s with lock := update s.lock e o}

def setDisk (s : InodeCache) (k : ℕ × ℕ) (r : InodeRecord) : InodeCache :=
  {s with disk := update s.disk k r}

def lookup (s : InodeCache) (dev inum : ℕ) : Option CacheSlot :=
  (List.finRange 50).find? fun e =>
    0 < (s.entries e).ref ∧ (s.entries e).dev = dev ∧ (s.entries e).inum = inum

def empty (s : InodeCache) : Option CacheSlot := (List.finRange 50).find? fun e => (s.entries e).ref = 0

/-- The critical section of `iget`; without a free entry it panics. -/
def iget (s : InodeCache) (p dev inum : ℕ) : Option InodeCache :=
  match s.lookup dev inum with
  | some e => some {s.setEntry e {s.entries e with ref := (s.entries e).ref+1} with refs := (p,e) :: s.refs}
  | none =>
    match s.empty with
    | some e => some {s.setEntry e {s.entries e with dev := dev, inum := inum, ref := 1, valid := false} with
        refs := (p,e) :: s.refs}
    | none => none

/-- `ilock`, once it has the sleep lock; an inode without a type makes it panic. -/
def ilock (s : InodeCache) (p : ℕ) (e : CacheSlot) : Option InodeCache :=
  if (s.entries e).valid then some (s.setLock e (some p))
  else if (s.disk (s.entries e).key).type = 0 then none
  else some ((s.setEntry e {s.entries e with valid := true, copy := s.disk (s.entries e).key}).setLock e
    (some p))

def next (s : InodeCache) (p : ℕ) : Option InodeCache :=
  match s.pcs p with
  | .checking e => some (s.setPc p (if (s.entries e).ref = 1 then .freeing e else .unlocking e false))
  | .freeing e => some (s.setPc p (.clearing e))
  | .clearing e => some (((s.setEntry e {s.entries e with copy := {(s.entries e).copy with type := 0}}).setDisk
      (s.entries e).key {(s.entries e).copy with type := 0}).setPc p (.freed e))
  | .freed e => some ((s.setEntry e {s.entries e with valid := false}).setPc p (.unlocking e true))
  | .unlocking e done => some ((s.setLock e none).setPc p (.dropping e done))
  | .dropping e _ => some {(s.setEntry e {s.entries e with ref := (s.entries e).ref-1}).setPc p .ready with
      refs := s.refs.erase (p,e)}
  | _ => none

/-- `none`: the action is not possible, has to wait, or panics. Callers use `iget` only for inodes with
links or for one they have just allocated, and an entry only while they hold a reference to it. -/
def step (s : InodeCache) : InodeAction → Option InodeCache
  | .iget p dev inum =>
    match s.pcs p with
    | .ready => if 0 < (s.disk (dev,inum)).nlink then s.iget p dev inum else none
    | .allocated dev' inum' =>
      if dev' = dev ∧ inum' = inum then (s.iget p dev inum).map fun t => t.setPc p .ready else none
    | _ => none
  | .idup p e =>
    if s.pcs p = .ready ∧ (p,e) ∈ s.refs then
      some {s.setEntry e {s.entries e with ref := (s.entries e).ref+1} with refs := (p,e) :: s.refs}
    else none
  | .ilock p e =>
    if s.pcs p = .ready ∧ (p,e) ∈ s.refs ∧ s.lock e = none then s.ilock p e else none
  | .iunlock p e => if s.pcs p = .ready ∧ s.lock e = some p then some (s.setLock e none) else none
  | .setLinks p e n =>
    if s.pcs p = .ready ∧ (p,e) ∈ s.refs ∧ s.lock e = some p ∧ (s.entries e).valid then
      some ((s.setEntry e {s.entries e with copy := {(s.entries e).copy with nlink := n}}).setDisk
        (s.entries e).key {(s.entries e).copy with nlink := n})
    else none
  | .ialloc p dev inum type =>
    if s.pcs p = .ready ∧ (s.disk (dev,inum)).type = 0 ∧ type ≠ 0 then
      some ((s.setDisk (dev,inum) ⟨type,0⟩).setPc p (.allocated dev inum))
    else none
  | .iput p e =>
    if s.pcs p = .ready ∧ (p,e) ∈ s.refs ∧ s.lock e = none then
      some ((s.setLock e (some p)).setPc p
        (if (s.entries e).valid ∧ (s.entries e).copy.nlink = 0 then .checking e else .unlocking e false))
    else none
  | .next p => s.next p

end InodeCache

end Xv6Paging
