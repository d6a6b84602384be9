import Xv6Paging.Kernel.Swap

/-! # What fork copies

The part of `fork` that copies the paging fields of the parent to the child, and
`copySwapFile`. The loops read the `va` field behind the parent's links, so a null link is
dereferenced.
-/
namespace Xv6Paging
open WordPage

def derefVa (p : ProcPages) : Option Slot → Except Fault (Option ℕ)
  | none => .error .nullDeref
  | some i => .ok (p.va i)

/-- The counters and the first loop. -/
def forkCopy (curproc np : ProcPages) : ProcPages :=
  {np with
    pagesInSwapfileCounter := curproc.pagesInSwapfileCounter
    pagesInMemoryCounter := curproc.pagesInMemoryCounter
    pagedout := 0
    faultCounter := 0
    va := curproc.va
    age := curproc.age
    diskVa := curproc.diskVa
    diskLocation := curproc.diskLocation}

/-- The body of the second loop. A link that is found is set to slot `i` itself. -/
def forkLink (curproc : ProcPages) (i : Slot) (np : ProcPages) (j : Slot) : Except Fault ProcPages := do
  let next ← derefVa curproc (curproc.next i)
  let np := if np.va j = next then {np with next := Function.update np.next i (some i)} else np
  let prev ← derefVa curproc (curproc.prev i)
  return if np.va j = prev then {np with prev := Function.update np.prev i (some i)} else np

def forkLinks (curproc np : ProcPages) : Except Fault ProcPages :=
  (List.finRange 16).foldlM (fun np i => (List.finRange 16).foldlM (forkLink curproc i) np) np

/-- The body of the third loop. -/
def forkEnd (curproc np : ProcPages) (i : Slot) : Except Fault ProcPages := do
  let head ← derefVa curproc curproc.head
  let np := if head = np.va i then {np with head := some i} else np
  let tail ← derefVa curproc curproc.tail
  return if tail = np.va i then {np with tail := some i} else np

def forkPages (curproc np : ProcPages) : Except Fault ProcPages := do
  let np ← forkLinks curproc (forkCopy curproc np)
  (List.finRange 16).foldlM (forkEnd curproc) np

/-- One iteration of `copySwapFile`, with the buffer on the stack and the child. -/
def copySwapSlot (fromP : Proc) (x : Page × Proc) (i : Slot) : Except Fault (Page × Proc) :=
  if fromP.pages.diskVa i ≠ none then do
    let (r,buff) ← readFromSwapFile fromP x.1 (i.val*pgSize) pgSize
    if r ≠ pgSize then .error (.panic "CopySwapFile error")
    else do
      let (w,toP) ← writeToSwapFile x.2 buff (i.val*pgSize) pgSize
      if w ≠ pgSize then .error (.panic "CopySwapFile error") else return (buff,toP)
  else .ok x

def copySwapFile (fromP toP : Proc) (buff : Page) : Except Fault Proc :=
  if fromP.pid < 3 then .ok toP
  else do
    let x ← (List.finRange 16).foldlM (copySwapSlot fromP) (buff,toP)
    return x.2

end Xv6Paging
