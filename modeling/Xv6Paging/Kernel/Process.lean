import Xv6Paging.Kernel.Trap

/-! # What a process does

The steps that a user process takes part in: loads and stores of user code, `sbrk`, and
the pass that the scheduler makes over the process's pages after the process has run.
-/
namespace Xv6Paging
open WordPage

/-- The access bit, which is cleared; an empty entry counts as not accessed. -/
def updateAccessBitProc (va : ℕ) (s : Kernel) : Except Fault (Bool × Kernel) :=
  match walkpgdir s.proc.pgdir va false s with
  | (none,_) => .error (.panic "updateAccessBi111t: pte is empty")
  | (some pte,s) =>
    if s.readPte pte = 0 then .ok (false,s)
    else .ok (has (s.readPte pte) pteA,s.writePte pte (s.readPte pte &&& ~~~pteA))

def schedulerPass (c : Config) (s : Kernel) : Except Fault Kernel :=
  if s.proc.unpaged then .ok s
  else
    match c.build with
    | .none => .ok s
    | .scfifo => .ok s
    | .aq => do
      let (pages,s) ← aqPass updateAccessBitProc s.proc.pages s
      return s.setPages pages
    | .nfua => do
      let (pages,s) ← agePass updateAccessBitProc s.proc.pages s
      return s.setPages pages
    | .lapa => do
      let (pages,s) ← agePass updateAccessBitProc s.proc.pages s
      return s.setPages pages

/-- `sys_sbrk`, once its argument has been fetched. -/
def sysSbrk (c : Config) (n : ℤ) (s : Kernel) : Except Fault (ℤ × Kernel) := do
  let addr := s.proc.sz
  let (r,s) ← growproc c n s
  if r < 0 then return (-1,s) else return (addr,s)

inductive UserOp
  | load (va : ℕ)
  | store (va : ℕ) (b : Byte)
  | sbrk (n : ℤ)
  | tick

inductive Seen
  | byte (b : Byte)
  | stored
  | killed
  | result (r : ℤ)
  | nothing
  deriving DecidableEq

def userStep (c : Config) : UserOp → Kernel → Except Fault (Seen × Kernel)
  | .load va, s => do
    match ← userLoad c va s with
    | (none,s) => return (.killed,s)
    | (some b,s) => return (.byte b,s)
  | .store va b, s => do
    match ← userStore c va b s with
    | (false,s) => return (.killed,s)
    | (true,s) => return (.stored,s)
  | .sbrk n, s => do
    let (r,s) ← sysSbrk c n s
    return (.result r,s)
  | .tick, s => do
    let s ← schedulerPass c s
    return (.nothing,s)

end Xv6Paging
