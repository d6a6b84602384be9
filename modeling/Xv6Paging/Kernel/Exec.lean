import Xv6Paging.Kernel.Space

/-! # exec

`loaduvm` of `vm.c` and `exec` of `exec.c`. The parts of `exec` between its jumps are functions of their own; `none`
is the jump to `bad`. The result of `namei` is the inode or a null pointer. The strings of `argv` have been fetched from
the old address space before.
-/
namespace Xv6Paging
open WordPage

def elfMagic : ℕ := 0x464C457F
def elfProgLoad : ℕ := 1
def maxArg : ℕ := 32

structure ElfHdr where
  magic : ℕ
  entry : ℕ
  phoff : ℕ
  phnum : ℕ

def elfHdrSize : ℕ := 52

def elfHdr (buf : Page) : ElfHdr where
  magic := (readWord buf ⟨0,by decide⟩).toNat
  entry := (readWord buf ⟨6,by decide⟩).toNat
  phoff := (readWord buf ⟨7,by decide⟩).toNat
  phnum := (readWord buf ⟨11,by decide⟩).toNat%2^16

structure ProgHdr where
  type : ℕ
  off : ℕ
  vaddr : ℕ
  filesz : ℕ
  memsz : ℕ

def progHdrSize : ℕ := 32

def progHdr (buf : Page) : ProgHdr where
  type := (readWord buf ⟨0,by decide⟩).toNat
  off := (readWord buf ⟨1,by decide⟩).toNat
  vaddr := (readWord buf ⟨2,by decide⟩).toNat
  filesz := (readWord buf ⟨4,by decide⟩).toNat
  memsz := (readWord buf ⟨5,by decide⟩).toNat

/-- The loop of `loaduvm` from the byte `i` of the segment on. -/
def loaduvmLoop (pgdir : Frame) (addr : ℕ) (ip : Inode) (offset sz : ℕ) : ℕ → ℕ → Kernel → Except Fault (ℤ × Kernel)
  | 0, _, _ => .error .diverges
  | fuel+1, i, s =>
    if i < sz then
      match walkpgdir pgdir ((addr+i)%2^32) false s with
      | (none,_) => .error (.panic "loaduvm: address should exist")
      | (some pte,s) =>
        let pa := pteAddr (s.readPte pte)
        let n := if sz-i < pgSize then sz-i else pgSize
        let (r,pg) := readi ip (s.mem pa) ((offset+i)%2^32) n
        let s := s.store pa pg
        if r ≠ n then .ok (-1,s) else loaduvmLoop pgdir addr ip offset sz fuel (i+pgSize) s
    else .ok (0,s)

def loaduvm (pgdir : Frame) (addr : ℕ) (ip : Inode) (offset sz : ℕ) (s : Kernel) : Except Fault (ℤ × Kernel) :=
  if addr%pgSize ≠ 0 then .error (.panic "loaduvm: addr must be page aligned")
  else loaduvmLoop pgdir addr ip offset sz (sz/pgSize+2) 0 s

/-- With the number of headers left, the offset of the next one and the size so far. The sum of `vaddr` and
`memsz` is a `uint`. -/
def loadSegments (c : Config) (ip : Inode) (pgdir : Frame) : ℕ → ℕ → ℕ → Kernel → Except Fault (Option ℕ × Kernel)
  | 0, _, sz, s => .ok (some sz,s)
  | n+1, off, sz, s =>
    let (r,buf) := readi ip (fun _ => 0) off progHdrSize
    let ph := progHdr buf
    if r ≠ progHdrSize then .ok (none,s)
    else if ph.type ≠ elfProgLoad then loadSegments c ip pgdir n ((off+progHdrSize)%2^32) sz s
    else if ph.memsz < ph.filesz then .ok (none,s)
    else if (ph.vaddr+ph.memsz)%2^32 < ph.vaddr then .ok (none,s)
    else do
      let (sz,s) ← allocuvm c pgdir sz ((ph.vaddr+ph.memsz)%2^32) s
      if sz = 0 then return (none,s)
      else if ph.vaddr%pgSize ≠ 0 then return (none,s)
      else do
        let (r,s) ← loaduvm pgdir ph.vaddr ip ph.off ph.filesz s
        if r < 0 then return (none,s)
        else loadSegments c ip pgdir n ((off+progHdrSize)%2^32) sz s

/-- The guard page and the stack page above the image; the result is the size with both. -/
def makeStack (c : Config) (pgdir : Frame) (sz : ℕ) (s : Kernel) : Except Fault (Option ℕ × Kernel) := do
  let sz := pgRoundUp sz
  let (sz,s) ← allocuvm c pgdir sz (sz+2*pgSize) s
  if sz = 0 then return (none,s)
  else do
    let s ← clearpteu pgdir (sz-2*pgSize) s
    return (some sz,s)

structure CString where
  bytes : List Byte
  nonzero : 0#8 ∉ bytes

def CString.strlen (a : CString) : ℕ := a.bytes.length

def CString.byte (a : CString) (k : ℕ) : Byte := a.bytes.getD k 0#8

def uintSub (a b : ℕ) : ℕ := (a+2^32-b%2^32)%2^32

/-- The loop that pushes the arguments. The addresses of those already pushed are the entries of `ustack` from 3 on. -/
def pushArgs (pgdir : Frame) : List CString → ℕ → List ℕ → Kernel → Except Fault (Option (ℕ × List ℕ) × Kernel)
  | [], sp, ptrs, s => .ok (some (sp,ptrs),s)
  | arg :: argv, sp, ptrs, s =>
    if maxArg ≤ ptrs.length then .ok (none,s)
    else do
      let sp := uintSub sp (arg.strlen+1)/4*4
      let (r,s) ← copyout pgdir sp arg.byte (arg.strlen+1) s
      if r < 0 then return (none,s) else pushArgs pgdir argv sp (ptrs ++ [sp]) s

def arrayByte (ws : List ℕ) (k : ℕ) : Byte := (BitVec.ofNat 32 (ws.getD (k/4) 0)).extractLsb' (8*(k%4)) 8

/-- Pushes the array `ustack`; the result is the final stack pointer. -/
def pushVector (pgdir : Frame) (sp : ℕ) (ptrs : List ℕ) (s : Kernel) : Except Fault (Option ℕ × Kernel) := do
  let argc := ptrs.length
  let ustack := [0xffffffff,argc,uintSub sp ((argc+1)*4)] ++ ptrs ++ [0]
  let sp := uintSub sp ((3+argc+1)*4)
  let (r,s) ← copyout pgdir sp (arrayByte ustack) ((3+argc+1)*4) s
  if r < 0 then return (none,s) else return (some sp,s)

def pushStack (pgdir : Frame) (argv : List CString) (sz : ℕ) (s : Kernel) : Except Fault (Option ℕ × Kernel) := do
  match ← pushArgs pgdir argv sz [] s with
  | (none,s) => return (none,s)
  | (some (sp,ptrs),s) => pushVector pgdir sp ptrs s

/-- The exit `bad`. Builds with paging restore the page arrays. -/
def execBad (c : Config) (pgdir : Frame) (backup : ProcPages) (s : Kernel) : Except Fault (ℤ × Kernel) := do
  let s ← freevm c pgdir s
  return (-1,if c.build = .none then s else s.setPages backup)

/-- The new image replaces the old one. Builds with paging give the process a new swap file. -/
def execCommit (c : Config) (pgdir : Frame) (sz entry sp : ℕ) (s : Kernel) : Except Fault (ℤ × Kernel) := do
  let swapFile := if c.build = .none ∨ s.proc.unpaged then s.proc.swapFile else some ⟨0,fun _ => 0⟩
  let s' := {s with proc := {s.proc with pgdir := pgdir, sz := sz, eip := entry, esp := sp, swapFile := swapFile}}
  let s' ← freevm c s.proc.pgdir s'
  return (0,s')

/-- The end of `exec`: the arguments are pushed and the new image is installed. -/
def execArgs (c : Config) (argv : List CString) (backup : ProcPages) (pgdir : Frame) (sz entry : ℕ) (s : Kernel) :
    Except Fault (ℤ × Kernel) := do
  match ← pushStack pgdir argv sz s with
  | (none,s) => execBad c pgdir backup s
  | (some sp,s) => execCommit c pgdir sz entry sp s

def execImage (c : Config) (ip : Inode) (elf : ElfHdr) (argv : List CString) (backup : ProcPages) (pgdir : Frame)
    (s : Kernel) : Except Fault (ℤ × Kernel) := do
  match ← loadSegments c ip pgdir elf.phnum elf.phoff 0 s with
  | (none,s) => execBad c pgdir backup s
  | (some sz,s) =>
    match ← makeStack c pgdir sz s with
    | (none,s) => execBad c pgdir backup s
    | (some sz,s) => execArgs c argv backup pgdir sz elf.entry s

/-- Builds with paging reset the page arrays of the process before the image is loaded. -/
def exec (c : Config) (file : Option Inode) (argv : List CString) (s : Kernel) : Except Fault (ℤ × Kernel) :=
  match file with
  | none => .ok (-1,s)
  | some ip =>
    let backup := s.proc.pages
    let (r,buf) := readi ip (fun _ => 0) 0 elfHdrSize
    if r ≠ elfHdrSize then .ok (-1,s)
    else if (elfHdr buf).magic ≠ elfMagic then .ok (-1,s)
    else do
      match ← setupkvm c s with
      | (none,s) => return (-1,if c.build = .none then s else s.setPages backup)
      | (some pgdir,s) =>
        let s := if c.build = .none then s else s.setPages (.init c.build)
        execImage c ip (elfHdr buf) argv backup pgdir s

end Xv6Paging
