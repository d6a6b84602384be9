import Xv6Paging.Kernel.State
import Xv6Paging.Library.ArrayScan
import Xv6Paging.Library.LinkedCells

/-! # Page replacement

The functions of `vm.c` and `proc.c` that keep `memory_pg_arr` and the queue threaded
through it: the four `update_memory` variants, the four selection algorithms, the part
of `deallocuvm` that forgets a page, and the passes of `scheduler`. They reach the page
table only through the bits they sample, so those are parameters: `accessBit` stands for
`updateAccessBit` or `updateAccessBit_proc`, which return `PTE_A` and clear it, and
`userBit` for `get_user_bit`. Loops that chase pointers carry fuel, and a loop that
uses it all up has met a cycle.
-/
namespace Xv6Paging
open WordPage LinkedCells Function

def firstFree (va : Slot → Option ℕ) : Option Slot :=
  (List.finRange 16).find? fun i => (va i).isNone

def ProcPages.occupy (p : ProcPages) (i : Slot) (va : ℕ) (age : Word) : ProcPages :=
  {p with
    va := update p.va i (some va)
    age := update p.age i age
    pagesInMemoryCounter := p.pagesInMemoryCounter+1}

def updateMemoryScfifo (age : Word) (p : ProcPages) (va : ℕ) : Except Fault (Slot × ProcPages) :=
  match p.head, p.tail with
  | none, some _ => .error (.panic "structure is wrong tail is  ")
  | some _, none => .error (.panic "structure is wrong tail is  ")
  | none, none =>
    match firstFree p.va with
    | none => .error (.panic "no empty place in memory scfifo\n")
    | some i =>
      .ok (i,{p.occupy i va age with
        next := update p.next i none
        prev := update p.prev i none
        head := some i
        tail := some i})
  | some h, some t =>
    if (p.prev h).isSome then .error (.panic "queue head got prev pointer\n")
    else match firstFree p.va with
    | none => .error (.panic "no empty place in memory scfifo\n")
    | some i =>
      if (p.next t).isSome then .error (.panic "queue tail got next pointer\n")
      else .ok (i,{p.occupy i va age with
        next := update (update p.next t (some i)) i none
        tail := some i})

def updateMemoryAq (age : Word) (p : ProcPages) (va : ℕ) : Except Fault (Slot × ProcPages) :=
  match p.head, p.tail with
  | none, some _ => .error (.panic "structure is wrong tail is  ")
  | some _, none => .error (.panic "structure is wrong tail is  ")
  | none, none =>
    match firstFree p.va with
    | none => .error (.panic "no empty place in memory aq\n")
    | some i =>
      .ok (i,{p.occupy i va age with
        next := update p.next i none
        prev := update p.prev i none
        head := some i
        tail := some i})
  | some h, some _ =>
    if (p.prev h).isSome then .error (.panic "queue head got prev pointer\n")
    else match firstFree p.va with
    | none => .error (.panic "no empty place in memory aq\n")
    | some i =>
      .ok (i,{p.occupy i va age with
        next := update p.next i none
        prev := update (update p.prev i none) h (some i)
        head := some i})

/-- The common body of `update_memorynfua` and `update_memorylapa`. -/
def updateMemoryArray (msg : String) (age : Word) (p : ProcPages) (va : ℕ) :
    Except Fault (Slot × ProcPages) :=
  match firstFree p.va with
  | none => .error (.panic msg)
  | some i =>
    .ok (i,{p.occupy i va age with
      next := update p.next i none
      prev := update p.prev i none})

def updateMemoryNfua := updateMemoryArray "no empty place in memory nfua\n"
def updateMemoryLapa := updateMemoryArray "no empty place in memory lapa\n"

def updateMemory (b : Build) (p : ProcPages) (va : ℕ) : Except Fault (Slot × ProcPages) :=
  match b with
  | .scfifo => updateMemoryScfifo (defaultAge b) p va
  | .nfua => updateMemoryNfua (defaultAge b) p va
  | .lapa => updateMemoryLapa (defaultAge b) p va
  | .aq => updateMemoryAq (defaultAge b) p va
  | .none => .error (.panic "unknown paging method\n")

/-- The minimum search of `nfu_alg`; without an occupied slot it returns the address of
`memory_pg_arr[-1]`. -/
def nfuAlg (p : ProcPages) : Except Fault Slot :=
  match (List.finRange 16).foldl (fun (m : Option (Slot × Word)) i =>
      if (p.va i).isSome then
        match m with
        | none => some (i,p.age i)
        | some (j,minAge) => if p.age i < minAge then some (i,p.age i) else some (j,minAge)
      else m) none with
  | none => .error .outOfBounds
  | some (i,_) => .ok i

def countOnes (x : Word) : ℕ :=
  (List.range 32).foldl (fun res i => if has (1#32 <<< i) x then res+1 else res) 0

def lapaAlg (p : ProcPages) : Except Fault Slot :=
  match (List.finRange 16).foldl (fun (m : Option (Slot × Word × ℕ)) i =>
      if (p.va i).isSome then
        let tmpOnes := countOnes (p.age i)
        match m with
        | none => some (i,p.age i,tmpOnes)
        | some (j,minAge,minOnes) =>
          if tmpOnes = minOnes then
            if p.age i < minAge then some (i,p.age i,tmpOnes) else some (j,minAge,minOnes)
          else if tmpOnes < minOnes then some (i,p.age i,tmpOnes)
          else some (j,minAge,minOnes)
      else m) none with
  | none => .error .outOfBounds
  | some (i,_) => .ok i

/-- The unlinking code at the end of `scfifo_alg` and of `aq_alg`. -/
def unlinkTmp (p : ProcPages) (tmp : Slot) : ProcPages :=
  let p := {p with next := storeAt p.next (p.prev tmp) (p.next tmp)}
  let p := {p with prev := storeAt p.prev (p.next tmp) (p.prev tmp)}
  let p := if p.head = some tmp then {p with head := p.next tmp} else p
  if p.tail = some tmp then {p with tail := p.prev tmp} else p

section Sampling
variable {σ : Type} (accessBit : ℕ → σ → Except Fault (Bool × σ)) (userBit : ℕ → Except Fault Bool)

/-- One second chance: the head `tmp` moves behind the tail. -/
def scfifoRotate (p : ProcPages) (tmp : Slot) : Except Fault ProcPages :=
  match p.next tmp with
  | none => .error .nullDeref
  | some h =>
    match p.tail with
    | none => .error .nullDeref
    | some t =>
      .ok {p with
        head := some h
        prev := update (update p.prev h none) tmp (some t)
        next := update (update p.next tmp none) t (some tmp)
        tail := some tmp}

/-- The do-while loop of `scfifo_alg`; `tmp` equals the head whenever the body starts. -/
def scfifoLoop (oldhead : Option Slot) : ℕ → ProcPages → σ → Except Fault (Slot × ProcPages × σ)
  | 0, _, _ => .error .diverges
  | fuel+1, p, t =>
    match p.head with
    | none => .error .nullDeref
    | some tmp =>
      match accessBit (vaAddr (p.va tmp)) t with
      | .error e => .error e
      | .ok (true,t) =>
        match scfifoRotate p tmp with
        | .error e => .error e
        | .ok p =>
          match p.head with
          | none => .error .nullDeref
          | some h => if some h ≠ oldhead then scfifoLoop oldhead fuel p t else .ok (h,p,t)
      | .ok (false,t) =>
        if p.head = p.tail then
          .ok (tmp,{p with
            next := update p.next tmp none
            prev := update p.prev tmp none},t)
        else .ok (tmp,p,t)

/-- Every iteration that goes on has cleared one more access bit, so one more iteration than
there are slots always suffices. -/
def scfifoAlg (p : ProcPages) (t : σ) : Except Fault (Slot × ProcPages × σ) :=
  match scfifoLoop accessBit p.head (maxPsycPages+1) p t with
  | .error e => .error e
  | .ok (tmp,p,t) => .ok (tmp,unlinkTmp p tmp,t)

/-- The while loop of `aq_alg`; `tmp` equals the tail whenever the condition is tested. -/
def aqLoop (oldtail : Slot) : ℕ → ProcPages → Slot → Except Fault (Slot × ProcPages)
  | 0, _, _ => .error .diverges
  | fuel+1, p, tmp =>
    match userBit (vaAddr (p.va tmp)) with
    | .error e => .error e
    | .ok true => .ok (tmp,p)
    | .ok false =>
      match p.prev tmp, p.head with
      | some t, some h =>
        if t = oldtail then .error (.panic "all pages in memory are with user bit off\n")
        else aqLoop oldtail fuel {p with
          tail := some t
          next := update (update p.next t none) tmp (some h)
          prev := update (update p.prev tmp none) h (some tmp)
          head := some tmp} t
      | _, _ => .error .nullDeref

def aqAlg (p : ProcPages) : Except Fault (Slot × ProcPages) :=
  match p.tail with
  | none => .error (.panic "tail empty at aq alg\n")
  | some tmp =>
    match aqLoop userBit tmp 64 p tmp with
    | .error e => .error e
    | .ok (tmp,p) => .ok (tmp,unlinkTmp p tmp)

def agePass (p : ProcPages) (t : σ) : Except Fault (ProcPages × σ) :=
  (List.finRange 16).foldlM (fun (p,t) i =>
    match p.va i with
    | none => .ok (p,t)
    | some va =>
      match accessBit va t with
      | .error e => .error e
      | .ok (b,t) =>
        let age := p.age i >>> 1
        .ok ({p with age := update p.age i (if b then age ||| (1#32 <<< 31) else age)},t))
    (p,t)

/-- The scheduler's sampling loop of the AQ build: every age becomes the sampled bit. -/
def aqSample (p : ProcPages) (t : σ) : Except Fault (ProcPages × σ) :=
  (List.finRange 16).foldlM (fun (p,t) i =>
    match p.va i with
    | none => .ok (p,t)
    | some va =>
      match accessBit va t with
      | .error e => .error e
      | .ok (b,t) => .ok ({p with age := update p.age i (if b then 1 else 0)},t))
    (p,t)

end Sampling

def ProcPages.exchange (p : ProcPages) (i j : Slot) : ProcPages :=
  {p with
    va := update (update p.va j (p.va i)) i (p.va j)
    age := update (update p.age j (p.age i)) i (p.age j)}

/-- The links do not change, so a chain longer than the array is a cycle. -/
def aqAdvance : ℕ → ProcPages → Option Slot → Except Fault ProcPages
  | _, p, none => .ok p
  | 0, _, some _ => .error .diverges
  | fuel+1, p, some cur =>
    match p.prev cur with
    | none => aqAdvance fuel p (p.next cur)
    | some q =>
      if p.age q = 0 ∧ p.age cur = 1 then aqAdvance fuel (p.exchange cur q) (p.next cur)
      else aqAdvance fuel p (p.next cur)

def aqPass {σ : Type} (accessBit : ℕ → σ → Except Fault (Bool × σ)) (p : ProcPages) (t : σ) :
    Except Fault (ProcPages × σ) :=
  match aqSample accessBit p t with
  | .error e => .error e
  | .ok (p,t) =>
    match aqAdvance maxPsycPages p p.head with
    | .error e => .error e
    | .ok p => .ok (p,t)

/-- The unlinking code of `deallocuvm`. -/
def unlinkFreed (p : ProcPages) (i : Slot) : ProcPages :=
  let p := {p with prev := storeAt p.prev (p.next i) (p.prev i)}
  let p := {p with next := storeAt p.next (p.prev i) (p.next i)}
  let p := if p.head = some i then {p with head := p.next i} else p
  if p.tail = some i then {p with tail := p.prev i} else p

/-- What `deallocuvm` does to the slot `i` that lists the freed page. `own` is the test
`p->pgdir==pgdir`. -/
def freeSlot (age : Word) (own : Bool) (p : ProcPages) (i : Slot) : ProcPages :=
  let p := unlinkFreed p i
  {p with
    next := update p.next i none
    prev := update p.prev i none
    age := update p.age i age
    va := update p.va i none
    pagesInMemoryCounter := if own then p.pagesInMemoryCounter-1 else p.pagesInMemoryCounter}

def freeDiskSlot (own : Bool) (p : ProcPages) (i : Slot) : ProcPages :=
  {p with
    diskVa := update p.diskVa i none
    diskLocation := update p.diskLocation i (-1)
    pagesInSwapfileCounter :=
      if own then p.pagesInSwapfileCounter-1 else p.pagesInSwapfileCounter}

/-- The loop of `deallocuvm` over `memory_pg_arr` for a present page at `a`, with the
number of slots found. -/
def forgetResident (age : Word) (own : Bool) (a : ℕ) (p : ProcPages) : ProcPages × ℕ :=
  ArrayScan.scan ProcPages.va (freeSlot age own) (some a) (List.finRange 16) (p,0)

def forgetSwapped (own : Bool) (a : ℕ) (p : ProcPages) : ProcPages × ℕ :=
  ArrayScan.scan ProcPages.diskVa (freeDiskSlot own) (some a) (List.finRange 16) (p,0)

end Xv6Paging
