import Xv6Paging.Kernel.Swap

/-! # Address spaces

Growing, shrinking, freeing and copying address spaces: `oldallocuvm`, `allocuvm`,
`deallocuvm`, `freevm`, `setupkvm` and `copyuvm` of `vm.c`, and `growproc` of `proc.c`.
Sizes stay below `KERNBASE`, so a loop over pages has at most as many iterations as the
fuel it is given.
-/
namespace Xv6Paging
open WordPage

/-- `deallocuvm` panics when it found more than one slot for a page. -/
def checkFound (found : ℕ) (s : Kernel) : Except Fault Kernel :=
  if 1 < found then
    .error (.panic "found same virtual address more then once in the data strucure\n")
  else .ok s

/-- The body of `deallocuvm`'s loop. The NONE build neither keeps page arrays nor tests `PTE_PG`. -/
def deallocPage (c : Config) (pgdir : Frame) (a : ℕ) (pte : PtePtr) (s : Kernel) :
    Except Fault Kernel :=
  if has (s.readPte pte) pteP then
    if pteAddr (s.readPte pte) = 0 then .error (.panic "kfree_deallocuvm")
    else if c.build = .none then do
      let s' ← kfree c (pteAddr (s.readPte pte)) s
      return s'.writePte pte 0
    else do
      let (pages,found) :=
        forgetResident (defaultAge c.build) (s.proc.pgdir = pgdir) a s.proc.pages
      let s' ← kfree c (pteAddr (s.readPte pte)) (s.setPages pages)
      checkFound found (s'.writePte pte 0)
  else if c.build ≠ .none ∧ has (s.readPte pte) ptePG then
    let (pages,found) := forgetSwapped (s.proc.pgdir = pgdir) a s.proc.pages
    checkFound found ((s.writePte pte 0).setPages pages)
  else .ok s

/-- Without a page table the loop skips to the first page of the next one. -/
def deallocuvmLoop (c : Config) (pgdir : Frame) (oldsz : ℕ) : ℕ → ℕ → Kernel → Except Fault Kernel
  | 0, _, _ => .error .diverges
  | fuel+1, a, s =>
    if a < oldsz then
      match walkpgdir pgdir a false s with
      | (none,s) => deallocuvmLoop c pgdir oldsz fuel (((pdx a).val+1)*2^22%2^32) s
      | (some pte,s) => do
        let s ← deallocPage c pgdir a pte s
        deallocuvmLoop c pgdir oldsz fuel (a+pgSize) s
    else .ok s

def deallocuvm (c : Config) (pgdir : Frame) (oldsz newsz : ℕ) (s : Kernel) :
    Except Fault (ℕ × Kernel) :=
  if oldsz ≤ newsz then .ok (oldsz,s)
  else do
    let s ← deallocuvmLoop c pgdir oldsz (oldsz/pgSize+2) (pgRoundUp newsz) s
    return (newsz,s)

/-- The loop of `freevm` over the directory. -/
def freeTables (c : Config) (pgdir : Frame) (s : Kernel) : Except Fault Kernel :=
  (List.finRange 1024).foldlM (fun s i =>
    if has (s.readPte (pgdir,i)) pteP then kfree c (pteAddr (s.readPte (pgdir,i))) s
    else .ok s) s

def freevm (c : Config) (pgdir : Frame) (s : Kernel) : Except Fault Kernel := do
  let (_,s) ← deallocuvm c pgdir kernBase 0 s
  let s ← freeTables c pgdir s
  kfree c pgdir s

structure Kmap where
  virt : ℕ
  physStart : ℕ
  physEnd : ℕ
  perm : Word

def kmap (c : Config) : List Kmap :=
  [⟨kernBase,0,extMem,pteW⟩,
   ⟨kernLink,kernLink-kernBase,c.dataAddr-kernBase,0⟩,
   ⟨c.dataAddr,c.dataAddr-kernBase,phystop,pteW⟩,
   ⟨devSpace,devSpace,0,pteW⟩]

/-- The loop of `setupkvm` over the table of mappings; a failed mapping frees the directory. -/
def setupkvmLoop (c : Config) (pgdir : Frame) : List Kmap → Kernel → Except Fault (Option Frame × Kernel)
  | [], s => .ok (some pgdir,s)
  | k :: ks, s => do
    let size := (k.physEnd+2^32-k.physStart)%2^32
    let (r,s) ← mappages pgdir k.virt size (BitVec.ofNat 32 k.physStart) k.perm s
    if r < 0 then do
      let s ← freevm c pgdir s
      return (none,s)
    else setupkvmLoop c pgdir ks s

def setupkvm (c : Config) (s : Kernel) : Except Fault (Option Frame × Kernel) :=
  match kalloc s with
  | (none,s) => .ok (none,s)
  | (some pgdir,s) =>
    let s := s.store pgdir fun _ => 0
    if devSpace < kernBase+phystop then .error (.panic "PHYSTOP too high")
    else setupkvmLoop c pgdir (kmap c) s

def userPerm : Word := pteW ||| pteU

/-- The common part of the loops of `allocuvm` and `oldallocuvm`. The result 0 stands for the failed exits. -/
def allocPage (c : Config) (pgdir : Frame) (oldsz newsz a : ℕ) (s : Kernel) :
    Except Fault (ℤ × Kernel) :=
  match kalloc s with
  | (none,s) => do
    let (_,s) ← deallocuvm c pgdir newsz oldsz s
    return (0,s)
  | (some mem,s) => do
    let s := s.store mem fun _ => 0
    let (r,s) ← mappages pgdir a pgSize (frameAddr mem) userPerm s
    if r < 0 then do
      let (_,s) ← deallocuvm c pgdir newsz oldsz s
      let s ← kfree c mem s
      return (0,s)
    else return (1,s)

def oldallocuvmLoop (c : Config) (pgdir : Frame) (oldsz newsz : ℕ) :
    ℕ → ℕ → Kernel → Except Fault (ℕ × Kernel)
  | 0, _, _ => .error .diverges
  | fuel+1, a, s =>
    if a < newsz then do
      let (r,s) ← allocPage c pgdir oldsz newsz a s
      if r = 0 then return (0,s)
      else oldallocuvmLoop c pgdir oldsz newsz fuel (a+pgSize) s
    else .ok (newsz,s)

def oldallocuvm (c : Config) (pgdir : Frame) (oldsz newsz : ℕ) (s : Kernel) :
    Except Fault (ℕ × Kernel) :=
  if kernBase ≤ newsz then .ok (0,s)
  else if newsz < oldsz then .ok (oldsz,s)
  else oldallocuvmLoop c pgdir oldsz newsz (newsz/pgSize+2) (pgRoundUp oldsz) s

/-- The part of `allocuvm`'s loop that makes room for a new page and lists it. -/
def listPage (c : Config) (a : ℕ) (s : Kernel) : Except Fault Kernel := do
  let s ←
    if (maxPsycPages : ℤ) ≤ s.proc.pages.pagesInMemoryCounter then
      if (maxPsycPages : ℤ) ≤ s.proc.pages.pagesInSwapfileCounter then
        .error (.panic
          "swap file and ram full should have detected before starting to allocate memmory\n")
      else moveramToDisk c s
    else .ok s
  let (_,pages) ← updateMemory c.build s.proc.pages a
  return s.setPages pages

def allocuvmLoop (c : Config) (pgdir : Frame) (oldsz newsz : ℕ) :
    ℕ → ℕ → Kernel → Except Fault (ℕ × Kernel)
  | 0, _, _ => .error .diverges
  | fuel+1, a, s =>
    if a < newsz then do
      let (r,s) ← allocPage c pgdir oldsz newsz a s
      if r = 0 then return (0,s)
      else do
        let s ← listPage c a s
        allocuvmLoop c pgdir oldsz newsz fuel (a+pgSize) s
    else .ok (newsz,s)

/-- `init` and `sh` are not paged. -/
def Proc.unpaged (p : Proc) : Bool := p.pid = 1 ∨ p.parentPid = 1

def allocuvm (c : Config) (pgdir : Frame) (oldsz newsz : ℕ) (s : Kernel) : Except Fault (ℕ × Kernel) :=
  if c.build = .none ∨ s.proc.unpaged then oldallocuvm c pgdir oldsz newsz s
  else if kernBase ≤ newsz then .ok (0,s)
  else if newsz < oldsz then .ok (oldsz,s)
  else if maxTotalPages < pgRoundUp newsz/pgSize then .ok (0,s)
  else allocuvmLoop c pgdir oldsz newsz (newsz/pgSize+2) (pgRoundUp oldsz) s

/-- The loop of `copyuvm` from the page at `i` on; `none` is its failed exit. -/
def copyuvmLoop (pgdir d : Frame) (sz : ℕ) : ℕ → ℕ → Kernel → Except Fault (Option Frame × Kernel)
  | 0, _, _ => .error .diverges
  | fuel+1, i, s =>
    if i < sz then
      match walkpgdir pgdir i false s with
      | (none,_) => .error (.panic "copyuvm: pte should exist")
      | (some pte,s) =>
        let w := s.readPte pte
        if !has w pteP && !has w ptePG then .error (.panic "copyuvm: page not present")
        else if has w ptePG then do
          let s ← fixPagedOutPTE d i false s
          copyuvmLoop pgdir d sz fuel (i+pgSize) s
        else
          match kalloc s with
          | (none,s) => .ok (none,s)
          | (some mem,s) => do
            let s := s.store mem (s.mem (pteAddr w))
            let (r,s) ← mappages d i pgSize (frameAddr mem) (pteFlags w) s
            if r < 0 then return (none,s)
            else copyuvmLoop pgdir d sz fuel (i+pgSize) s
    else .ok (some d,s)

def copyuvm (c : Config) (pgdir : Frame) (sz : ℕ) (s : Kernel) : Except Fault (Option Frame × Kernel) := do
  match ← setupkvm c s with
  | (none,s) => return (none,s)
  | (some d,s) =>
    match ← copyuvmLoop pgdir d sz (sz/pgSize+2) 0 s with
    | (some d,s) => return (some d,s)
    | (none,s) => do
      let s ← freevm c d s
      return (none,s)

/-- The arguments of `allocuvm` and `deallocuvm` are `uint`. -/
def growproc (c : Config) (n : ℤ) (s : Kernel) : Except Fault (ℤ × Kernel) :=
  let newsz := ((s.proc.sz+n)%2^32).toNat
  if 0 < n then do
    let (sz,s) ← allocuvm c s.proc.pgdir s.proc.sz newsz s
    if sz = 0 then return (-1,s)
    else return (0,{s with proc := {s.proc with sz := sz}})
  else if n < 0 then do
    let (sz,s) ← deallocuvm c s.proc.pgdir s.proc.sz newsz s
    if sz = 0 then return (-1,s)
    else return (0,{s with proc := {s.proc with sz := sz}})
  else .ok (0,s)

end Xv6Paging
