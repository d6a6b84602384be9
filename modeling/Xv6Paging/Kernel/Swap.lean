import Xv6Paging.Kernel.Memory
import Xv6Paging.Kernel.Replacement

/-! # Swapping pages in and out

The functions of `vm.c` that move a page between memory and the swap file:
`moveram_to_disk` with `insert_to_disk` on the allocation path, and `getPageFromFile`
with `readPageFromFile` and `writePageToFile` on the fault path.
-/
namespace Xv6Paging
open WordPage Function

def readFromSwapFile (p : Proc) (buffer : Page) (placeOnFile size : ℕ) : Except Fault (ℤ × Page) :=
  match p.swapFile with
  | none => .error .nullDeref
  | some ip => .ok (fileread ip placeOnFile buffer size)

def writeToSwapFile (p : Proc) (buffer : Page) (placeOnFile size : ℕ) : Except Fault (ℤ × Proc) :=
  match p.swapFile with
  | none => .error .nullDeref
  | some ip => do
    let (r,ip) ← filewrite ip placeOnFile (fun k => buffer (Fin.ofNat 4096 k)) size
    return (r,{p with swapFile := some ip})

/-- The result -2 says that no slot of `disk_pg_arr` lists the address. -/
def readPageFromFile (b : Build) (p : Proc) (userAddress : ℕ) (buffer : Page) :
    Except Fault (ℤ × Page × Proc) :=
  match (List.finRange 16).find? fun i => p.pages.diskVa i = some userAddress with
  | none => .ok (-2,buffer,p)
  | some i => do
    let (read,buffer) ← readFromSwapFile p buffer (i.val*pgSize) pgSize
    let pages := {p.pages with
      diskVa := update p.pages.diskVa i none
      pagesInSwapfileCounter := p.pages.pagesInSwapfileCounter-1}
    if read = -1 then .error (.panic "failled to read from  swapfile\n")
    else do
      let (_,pages) ← updateMemory b pages userAddress
      return (read,buffer,{p with pages := pages})

/-- The result -2 says that `disk_pg_arr` is full. -/
def writePageToFile (userPageVAddr : ℕ) (s : Kernel) : Except Fault (ℤ × Kernel) :=
  match firstFree s.proc.pages.diskVa with
  | none => .ok (-2,s)
  | some i => do
    let page ← readUserPage userPageVAddr s
    let (res,p) ← writeToSwapFile s.proc page (pgSize*i.val) pgSize
    let s := {s with proc := p}
    if res = -1 then return (-1,s)
    else
      return (res,s.setPages {s.proc.pages with
        diskVa := update s.proc.pages.diskVa i (some userPageVAddr)
        pagesInSwapfileCounter := s.proc.pages.pagesInSwapfileCounter+1
        pagedout := s.proc.pages.pagedout+1})

def selectPageToRemove (b : Build) (s : Kernel) : Except Fault (Slot × Kernel) :=
  match b with
  | .scfifo => do
    let (tmp,p,s) ← scfifoAlg updateAccessBit s.proc.pages s
    return (tmp,s.setPages p)
  | .nfua => do
    let tmp ← nfuAlg s.proc.pages
    return (tmp,s)
  | .lapa => do
    let tmp ← lapaAlg s.proc.pages
    return (tmp,s)
  | .aq => do
    let (tmp,p) ← aqAlg (fun va => getUserBit va s) s.proc.pages
    return (tmp,s.setPages p)
  | .none => .error (.panic "unknown paging method2\n")

def ProcPages.vacate (p : ProcPages) (i : Slot) : ProcPages :=
  {p with va := update p.va i none, pagesInMemoryCounter := p.pagesInMemoryCounter-1}

/-- The path of `getPageFromFile` that first makes room in memory. -/
def getPageSwapping (c : Config) (userPageVAddr : ℕ) (newPg : Frame) (s : Kernel) :
    Except Fault Kernel := do
  let (toRemove,s) ← selectPageToRemove c.build s
  let va := vaAddr (s.proc.pages.va toRemove)
  let s := s.setPages (s.proc.pages.vacate toRemove)
  let s ← fixPagedInPTE userPageVAddr newPg s.proc.pgdir s
  let (_,buff,p) ← readPageFromFile c.build s.proc userPageVAddr s.buff
  let s := {s with buff := buff, proc := p}
  let outPagePAddr := getPagePAddr va s.proc.pgdir s
  let s := s.store newPg s.buff
  let (_,s) ← writePageToFile va s
  let s ← fixPagedOutPTE s.proc.pgdir va false s
  match outPagePAddr with
  | none => .error (.panic "kfree")
  | some f => kfree c f s

/-- The path of `getPageFromFile` without a swap: the page is read to its user address. -/
def getPageDirectly (c : Config) (userPageVAddr : ℕ) (newPg : Frame) (s : Kernel) :
    Except Fault Kernel := do
  let s ← fixPagedInPTE userPageVAddr newPg s.proc.pgdir s
  let dst ← kernelAccess userPageVAddr s
  let (_,page,p) ← readPageFromFile c.build s.proc userPageVAddr (s.mem dst)
  return {s with proc := p}.store dst page

/-- The call of `memset` with the null that `kalloc` may have returned is a fault. -/
def getPageFromFile (c : Config) (faultAddress : ℕ) (s : Kernel) : Except Fault Kernel :=
  let userPageVAddr := pgRoundDown faultAddress
  match kalloc s with
  | (none,_) => .error .kallocNull
  | (some newPg,s) =>
    let s := s.store newPg fun _ => 0
    if (maxPsycPages : ℤ) ≤ s.proc.pages.pagesInMemoryCounter then
      getPageSwapping c userPageVAddr newPg s
    else getPageDirectly c userPageVAddr newPg s

def insertToDisk (c : Config) (i : Slot) (tmp : Slot) (s : Kernel) : Except Fault Kernel := do
  let va := vaAddr (s.proc.pages.va tmp)
  let s := s.setPages {s.proc.pages with
    diskVa := update s.proc.pages.diskVa i (s.proc.pages.va tmp)
    pagesInSwapfileCounter := s.proc.pages.pagesInSwapfileCounter+1
    pagedout := s.proc.pages.pagedout+1}
  let page ← readUserPage (pgRoundDown va) s
  let (r,p) ← writeToSwapFile s.proc page (i.val*pgSize) pgSize
  let s := {s with proc := p}
  if r ≤ 0 then .error (.panic "failled to write to swapfile\n")
  else
    match walkpgdir s.proc.pgdir va false s with
    | (none,_) => .error .nullDeref
    | (some pte1,s) =>
      if s.readPte pte1 = 0 then .error (.panic "pte1 is empty\n")
      else do
        let s ← kfree c (pteAddr (s.readPte pte1)) (s.setPages (s.proc.pages.vacate tmp))
        return s.writePte pte1 (pteW ||| pteU ||| ptePG)

def moveramToDisk (c : Config) (s : Kernel) : Except Fault Kernel :=
  match firstFree s.proc.pages.diskVa with
  | none => .error (.panic "disk full\n")
  | some i =>
    if c.build = .scfifo ∧ (s.proc.pages.head = none ∨ s.proc.pages.tail = none) then
      .error (.panic "head or tail null\n")
    else do
      let (tmp,s) ← selectPageToRemove c.build s
      insertToDisk c i tmp s

end Xv6Paging
