import Xv6Paging.Kernel.Config

/-! # The user's memory allocator

`malloc` and `free` of `umalloc.c`. The memory of the process is seen as eight-byte cells, each of which can be
a header: a pointer and a size in units of a header. `sbrk` is a system call that extends the memory at its end
or fails; which of the two it does is given with the call, by the end at which it is asked. The pages up to the end
of the memory are there, and a store beyond them faults, which kills the process. Only `morecore` can come to such a
store: it trusts what `sbrk` returns, and the other headers that are read and written are those of listed blocks.
-/
namespace Xv6Paging.Umalloc

structure Header where
  ptr : ℕ
  size : ℕ
  deriving DecidableEq

structure Heap where
  mem : ℕ → Header
  freep : Option ℕ
  brk : ℕ

namespace Heap

def put (s : Heap) (p : ℕ) (h : Header) : Heap := {s with mem := Function.update s.mem p h}

def setPtr (s : Heap) (p q : ℕ) : Heap := s.put p ⟨q,(s.mem p).size⟩
def setSize (s : Heap) (p n : ℕ) : Heap := s.put p ⟨(s.mem p).ptr,n⟩
def setFreep (s : Heap) (p : ℕ) : Heap := ⟨s.mem,some p,s.brk⟩

end Heap

def plus (p n : ℕ) : ℕ := (p+8*n)%2^32

/-- The loop of `free`: the block at `p` after which `bp` belongs. -/
def freeLoop (bp : ℕ) (s : Heap) : ℕ → ℕ → Except Fault ℕ
  | 0, _ => .error .diverges
  | fuel+1, p =>
    if p < bp ∧ bp < (s.mem p).ptr then .ok p
    else if (s.mem p).ptr ≤ p ∧ (p < bp ∨ bp < (s.mem p).ptr) then .ok p
    else freeLoop bp s fuel (s.mem p).ptr

def joinNext (bp p : ℕ) (s : Heap) : Heap :=
  if plus bp (s.mem bp).size = (s.mem p).ptr then
    let s := s.setSize bp (((s.mem bp).size+(s.mem (s.mem p).ptr).size)%2^32)
    s.setPtr bp (s.mem (s.mem p).ptr).ptr
  else s.setPtr bp (s.mem p).ptr

def joinPrev (bp p : ℕ) (s : Heap) : Heap :=
  if plus p (s.mem p).size = bp then
    let s := s.setSize p (((s.mem p).size+(s.mem bp).size)%2^32)
    s.setPtr p (s.mem bp).ptr
  else s.setPtr p bp

/-- Every block has at least eight bytes, so the loop has fewer iterations than the memory has bytes. -/
def free (ap : ℕ) (s : Heap) : Except Fault Heap := do
  let bp := (ap+2^32-8)%2^32
  match s.freep with
  | none => .error .nullDeref
  | some freep => do
    let p ← freeLoop bp s (s.brk+1) freep
    let s := joinPrev bp p (joinNext bp p s)
    return s.setFreep p

/-- `grant` says at which ends of the memory the kernel has room. For a negative argument `growproc` calls
`deallocuvm`, which does nothing for a size above the present one; if nothing would be left, it fails. -/
def sbrk (grant : ℕ → Bool) (n : ℕ) (s : Heap) : Option ℕ × Heap :=
  if n = 0 then (some s.brk,s)
  else if n < 2^31 then
    if grant s.brk ∧ s.brk+n < kernBase then (some s.brk,{s with brk := s.brk+n}) else (none,s)
  else
    let newsz := (s.brk+n)%2^32
    if s.brk ≤ newsz then (some s.brk,s)
    else if newsz = 0 then (none,s)
    else (some s.brk,{s with brk := newsz})

def morecore (grant : ℕ → Bool) (nu : ℕ) (s : Heap) : Except Fault (Option ℕ × Heap) :=
  let nu := if nu < 4096 then 4096 else nu
  match sbrk grant (nu*8%2^32) s with
  | (none,s) => .ok (none,s)
  | (some p,s) =>
    if pgRoundUp s.brk < p+8 then .error .outOfBounds
    else do
      let s ← free (plus p 1) (s.setSize p nu)
      return (s.freep,s)

/-- Takes `nunits` units from the block at `p`, which has as many and follows `prevp`. -/
def carve (nunits prevp p : ℕ) (s : Heap) : Option ℕ × Heap :=
  if (s.mem p).size = nunits then
    (some (plus p 1),(s.setPtr prevp (s.mem p).ptr).setFreep prevp)
  else
    let s := s.setSize p ((s.mem p).size-nunits)
    let p := plus p (s.mem p).size
    let s := s.setSize p nunits
    (some (plus p 1),s.setFreep prevp)

def mallocLoop (grant : ℕ → Bool) (nunits : ℕ) : ℕ → ℕ → ℕ → Heap → Except Fault (Option ℕ × Heap)
  | 0, _, _, _ => .error .diverges
  | fuel+1, prevp, p, s =>
    if nunits ≤ (s.mem p).size then .ok (carve nunits prevp p s)
    else if s.freep = some p then do
      match ← morecore grant nunits s with
      | (none,s) => return (none,s)
      | (some p,s) => mallocLoop grant nunits fuel p (s.mem p).ptr s
    else mallocLoop grant nunits fuel p (s.mem p).ptr s

def Heap.initBase (base : ℕ) (s : Heap) : Heap :=
  (s.put base ⟨base,0⟩).setFreep base

/-- The loop goes through the list at most twice. -/
def malloc (base : ℕ) (grant : ℕ → Bool) (nbytes : ℕ) (s : Heap) : Except Fault (Option ℕ × Heap) :=
  let nunits := (nbytes+8-1)%2^32/8+1
  match s.freep with
  | none => mallocLoop grant nunits (2*s.brk+4) base ((s.initBase base).mem base).ptr (s.initBase base)
  | some prevp => mallocLoop grant nunits (2*s.brk+4) prevp (s.mem prevp).ptr s

end Xv6Paging.Umalloc
