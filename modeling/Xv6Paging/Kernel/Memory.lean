import Xv6Paging.Kernel.State

/-! # Physical memory and page tables

`kalloc` and `kfree` of `kalloc.c`, and the functions of `vm.c` that read and write
page-table entries. A pointer to an entry is the frame of its table with an index. The
free list is a list of frames, so the link word that the allocator keeps in a free frame
is not part of the frame's contents. Reloading `cr3` has no effect in the model, since
addresses are always translated by the tables in memory.
-/
namespace Xv6Paging
open WordPage

/-- Takes the first free frame; a null result is `none`. -/
def kalloc (s : Kernel) : Option Frame × Kernel :=
  match s.freelist with
  | [] => (none,{s with pageCounter := s.pageCounter-1, kallocZero := true})
  | r :: next => (some r,{s with freelist := next, pageCounter := s.pageCounter-1})

def Kernel.store (s : Kernel) (f : Frame) (pg : Page) : Kernel :=
  {s with mem := Function.update s.mem f pg}

def kfree (c : Config) (f : Frame) (s : Kernel) : Except Fault Kernel :=
  if kernBase+f.toNat*pgSize < c.endAddr ∨ phystop ≤ f.toNat*pgSize then .error (.panic "kfree")
  else
    let s := s.store f fun _ => 1
    .ok {s with freelist := f :: s.freelist, pageCounter := s.pageCounter+1}

/-- The address of an entry: the frame of a table or directory and an index into it. -/
abbrev PtePtr := Frame × Fin 1024

def Kernel.readPte (s : Kernel) (pte : PtePtr) : Word := readWord (s.mem pte.1) pte.2

def Kernel.writePte (s : Kernel) (pte : PtePtr) (w : Word) : Kernel :=
  s.store pte.1 (writeWord (s.mem pte.1) pte.2 w)

def walkpgdir (pgdir : Frame) (va : ℕ) (alloc : Bool) (s : Kernel) : Option PtePtr × Kernel :=
  let pde := s.readPte (pgdir,pdx va)
  if has pde pteP then (some (pteAddr pde,ptx va),s)
  else if !alloc then (none,s)
  else
    match kalloc s with
    | (none,s) => (none,s)
    | (some pgtab,s) =>
      let s := s.store pgtab fun _ => 0
      (some (pgtab,ptx va),
        s.writePte (pgdir,pdx va) (frameAddr pgtab ||| pteP ||| pteW ||| pteU))

/-- The frame of `getPagePAddr`'s result; `none` is its -1. -/
def getPagePAddr (userPageVAddr : ℕ) (pgdir : Frame) (s : Kernel) : Option Frame :=
  match walkpgdir pgdir userPageVAddr false s with
  | (none,_) => none
  | (some pte,s) => some (pteAddr (s.readPte pte))

def fixPagedInPTE (userPageVAddr : ℕ) (page : Frame) (pgdir : Frame) (s : Kernel) :
    Except Fault Kernel :=
  match walkpgdir pgdir userPageVAddr false s with
  | (none,_) => .error (.panic "PTE of swapped page is missing")
  | (some pte,s) =>
    if has (s.readPte pte) pteP then .error (.panic "REMAP!")
    else
      let w := s.readPte pte ||| (pteP ||| pteW ||| pteU)
      let w := w &&& ~~~ptePG
      .ok (s.writePte pte (w ||| frameAddr page))

def fixPagedOutPTE (pgdir : Frame) (va : ℕ) (walkpgdirmode : Bool) (s : Kernel) :
    Except Fault Kernel :=
  match walkpgdir pgdir va walkpgdirmode s with
  | (none,_) => .error (.panic "PTE of swapped page is missing")
  | (some pte,s) =>
    let w := s.readPte pte ||| ptePG
    let w := w &&& ~~~pteP
    .ok (s.writePte pte (w &&& pteFlags w))

/-- The loop of `mappages`; `n` is the number of pages from `a` to `last`. -/
def mappagesLoop (pgdir : Frame) (perm : Word) : ℕ → ℕ → Word → Kernel → Except Fault (ℤ × Kernel)
  | n, a, pa, s =>
    match walkpgdir pgdir a true s with
    | (none,s) => .ok (-1,s)
    | (some pte,s) =>
      if has (s.readPte pte) pteP then .error (.panic "remap")
      else
        let s := s.writePte pte (pa ||| perm ||| pteP)
        match n with
        | 0 => .ok (0,s)
        | n+1 => mappagesLoop pgdir perm n (a+pgSize) (pa+0x1000#32) s

def mappages (pgdir : Frame) (va size : ℕ) (pa perm : Word) (s : Kernel) : Except Fault (ℤ × Kernel) :=
  let a := pgRoundDown va
  let last := pgRoundDown ((va+size-1)%2^32)
  mappagesLoop pgdir perm ((last-a)/pgSize) a pa s

def getUserBit (va : ℕ) (s : Kernel) : Except Fault Bool :=
  match walkpgdir s.proc.pgdir va false s with
  | (none,_) => .error .nullDeref
  | (some pte,s) =>
    if s.readPte pte = 0 then .error (.panic "updateAccessBit: pte is empty")
    else .ok (has (s.readPte pte) pteU)

def updateAccessBit (va : ℕ) (s : Kernel) : Except Fault (Bool × Kernel) :=
  match walkpgdir s.proc.pgdir va false s with
  | (none,_) => .error .nullDeref
  | (some pte,s) =>
    if s.readPte pte = 0 then .error (.panic "updateAccessBit: pte is empty")
    else .ok (has (s.readPte pte) pteA,s.writePte pte (s.readPte pte &&& ~~~pteA))

def pageIsInFile (userPageVAddr : ℕ) (pgdir : Frame) (s : Kernel) : Except Fault Bool :=
  match walkpgdir pgdir userPageVAddr false s with
  | (none,_) => .error .nullDeref
  | (some pte,s) => .ok (has (s.readPte pte) ptePG && !has (s.readPte pte) pteP)

def clearpteu (pgdir : Frame) (uva : ℕ) (s : Kernel) : Except Fault Kernel :=
  match walkpgdir pgdir uva false s with
  | (none,_) => .error (.panic "clearpteu")
  | (some pte,s) => .ok (s.writePte pte (s.readPte pte &&& ~~~pteU))

def uva2ka (pgdir : Frame) (uva : ℕ) (s : Kernel) : Except Fault (Option Frame) :=
  match walkpgdir pgdir uva false s with
  | (none,_) => .error .nullDeref
  | (some pte,s) =>
    if !has (s.readPte pte) pteP then .ok none
    else if !has (s.readPte pte) pteU then .ok none
    else .ok (some (pteAddr (s.readPte pte)))

/-- The loop of `copyout`; every iteration but the first starts at a page boundary. -/
def copyoutLoop (pgdir : Frame) : ℕ → ℕ → (ℕ → Byte) → ℕ → Kernel → Except Fault (ℤ × Kernel)
  | 0, _, _, _, _ => .error .diverges
  | fuel+1, va, buf, len, s =>
    if 0 < len then do
      let va0 := pgRoundDown va
      match ← uva2ka pgdir va0 s with
      | none => .ok (-1,s)
      | some pa0 =>
        let n := min (pgSize-(va-va0)) len
        let s := s.store pa0 (blit Fin.val (s.mem pa0) (va-va0) n buf)
        copyoutLoop pgdir fuel ((va0+pgSize)%2^32) (fun k => buf (n+k)) (len-n) s
    else .ok (0,s)

def copyout (pgdir : Frame) (va : ℕ) (p : ℕ → Byte) (len : ℕ) (s : Kernel) :
    Except Fault (ℤ × Kernel) :=
  copyoutLoop pgdir (len+1) va p len s

/-- The frame behind a user address that kernel code uses as a pointer. A fault in kernel mode ends in
`trap`'s panic. -/
def kernelAccess (va : ℕ) (s : Kernel) : Except Fault Frame :=
  match walkpgdir s.proc.pgdir va false s with
  | (none,_) => .error (.panic "trap")
  | (some pte,s) =>
    if has (s.readPte pte) pteP then .ok (pteAddr (s.readPte pte)) else .error (.panic "trap")

def readUserPage (va : ℕ) (s : Kernel) : Except Fault Page := do
  let first ← kernelAccess va s
  let last ← kernelAccess (va+(pgSize-1)) s
  return fun k =>
    if h : va%pgSize+k.val < pgSize then s.mem first ⟨va%pgSize+k.val,h⟩
    else s.mem last (Fin.ofNat 4096 (va%pgSize+k.val-pgSize))

end Xv6Paging
