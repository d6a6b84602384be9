import Xv6Paging.Kernel.Space

/-! # Page faults and memory accesses

The `T_PGFLT` case of `trap`, and what the hardware does on a user-mode access: it
requires `PTE_P` and `PTE_U`, and `PTE_W` for a store, sets `PTE_A` and `PTE_D`, and
otherwise raises a fault at the address. After a fault the instruction is restarted
unless the process was killed.
-/
namespace Xv6Paging
open WordPage

def Kernel.kill (s : Kernel) : Kernel := {s with proc := {s.proc with killed := true}}

/-- `trap` for a page fault of user code at `fault`; `getPageFromFile` always returns 1. -/
def trapPgflt (c : Config) (fault : ℕ) (s : Kernel) : Except Fault Kernel :=
  if c.build = .none then .ok s.kill
  else do
    if ← pageIsInFile fault s.proc.pgdir s then
      let s ← getPageFromFile c fault s
      return s.setPages {s.proc.pages with faultCounter := s.proc.pages.faultCounter+1}
    else return s.kill

def accessAllowed (w : Word) (isStore : Bool) : Bool :=
  has w pteP && has w pteU && (!isStore || has w pteW)

/-- The frame that the access reaches, or `none` when the process is killed. A page just brought in has all
three bits, so the second attempt succeeds. -/
def userAccess (c : Config) (va : ℕ) (isStore : Bool) : ℕ → Kernel → Except Fault (Option Frame × Kernel)
  | 0, _ => .error .diverges
  | fuel+1, s => do
    let fault := do
      let s ← trapPgflt c va s
      if s.proc.killed then return (none,s) else userAccess c va isStore fuel s
    match walkpgdir s.proc.pgdir va false s with
    | (none,_) => fault
    | (some pte,_) =>
      if accessAllowed (s.readPte pte) isStore then
        let bits := if isStore then pteA ||| pteD else pteA
        return (some (pteAddr (s.readPte pte)),s.writePte pte (s.readPte pte ||| bits))
      else fault

def pageOffset (va : ℕ) : Fin 4096 := Fin.ofNat 4096 va

def userLoad (c : Config) (va : ℕ) (s : Kernel) : Except Fault (Option Byte × Kernel) := do
  match ← userAccess c va false 2 s with
  | (none,s) => return (none,s)
  | (some f,s) => return (some (s.mem f (pageOffset va)),s)

/-- A user-mode store of one byte; the result says whether the process survived it. -/
def userStore (c : Config) (va : ℕ) (b : Byte) (s : Kernel) : Except Fault (Bool × Kernel) := do
  match ← userAccess c va true 2 s with
  | (none,s) => return (false,s)
  | (some f,s) => return (true,s.store f (Function.update (s.mem f) (pageOffset va) b))

def kernelByte (va : ℕ) (s : Kernel) : Except Fault Byte := do
  let f ← kernelAccess va s
  return s.mem f (pageOffset va)

/-- A byte that kernel code writes through a user address. `CR0_WP` is set, so the page has to be writable. -/
def kernelStore (va : ℕ) (b : Byte) (s : Kernel) : Except Fault Kernel :=
  match walkpgdir s.proc.pgdir va false s with
  | (none,_) => .error (.panic "trap")
  | (some pte,s) =>
    if has (s.readPte pte) pteP && has (s.readPte pte) pteW then
      let f := pteAddr (s.readPte pte)
      .ok (s.store f (Function.update (s.mem f) (pageOffset va) b))
    else .error (.panic "trap")

end Xv6Paging
