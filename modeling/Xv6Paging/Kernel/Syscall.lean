import Xv6Paging.Kernel.Trap

/-! # System call arguments

`fetchint`, `fetchstr`, `argint`, `argptr` and `argstr` of `syscall.c`. They compare user
addresses with the process size and then use them as pointers.
-/
namespace Xv6Paging
open WordPage

def kernelWord (va : ℕ) (s : Kernel) : Except Fault Word := do
  let b0 ← kernelByte va s
  let b1 ← kernelByte (va+1) s
  let b2 ← kernelByte (va+2) s
  let b3 ← kernelByte (va+3) s
  return b3 ++ b2 ++ b1 ++ b0

/-- A result of `none` is the error return -1. -/
def fetchint (addr : ℕ) (s : Kernel) : Except Fault (Option Word) :=
  if s.proc.sz ≤ addr ∨ s.proc.sz < (addr+4)%2^32 then .ok none
  else do
    let w ← kernelWord addr s
    return some w

/-- The loop of `fetchstr`, `n` bytes before the end of the address space. -/
def fetchstrLoop : ℕ → ℕ → ℕ → Kernel → Except Fault (Option ℕ)
  | 0, _, _, _ => .ok none
  | n+1, a, len, s => do
    let b ← kernelByte a s
    if b = 0 then return some len else fetchstrLoop n (a+1) (len+1) s

def fetchstr (addr : ℕ) (s : Kernel) : Except Fault (Option ℕ) :=
  if s.proc.sz ≤ addr then .ok none
  else fetchstrLoop (s.proc.sz-addr) addr 0 s

def argint (n : ℕ) (s : Kernel) : Except Fault (Option Word) := fetchint ((s.proc.esp+4+4*n)%2^32) s

def argptr (n : ℕ) (size : ℤ) (s : Kernel) : Except Fault (Option ℕ) := do
  match ← argint n s with
  | none => return none
  | some i =>
    if size < 0 ∨ s.proc.sz ≤ i.toNat ∨ s.proc.sz < (i.toNat+size.toNat)%2^32 then return none
    else return some i.toNat

def argstr (n : ℕ) (s : Kernel) : Except Fault (Option ℕ) := do
  match ← argint n s with
  | none => return none
  | some addr => fetchstr addr.toNat s

end Xv6Paging
