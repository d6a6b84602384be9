import Xv6Paging.Kernel.File

/-! # Kernel state

The paging fields of `struct proc` and the part of the machine that the paging code
reads and writes: physical memory, the free list of frames and the running process. Pointers into `memory_pg_arr` are
slot numbers with `none` for null, and the address `(char*)-1` of an unused slot is
`none`.
-/
namespace Xv6Paging
open WordPage

def maxPsycPages : ℕ := 16
def maxTotalPages : ℕ := 32

abbrev Slot := Fin 16

instance slots_neZero : NeZero 16 := ⟨by decide⟩

/-- The paging fields of `struct proc`. The arrays of structs are stored by field:
`memory_pg_arr[i].va` is `va i` and `disk_pg_arr[i].va` is `diskVa i`. -/
structure ProcPages where
  pagesInMemoryCounter : ℤ
  pagesInSwapfileCounter : ℤ
  pagedout : ℕ
  faultCounter : ℕ
  diskVa : Slot → Option ℕ
  diskLocation : Slot → ℤ
  next : Slot → Option Slot
  prev : Slot → Option Slot
  va : Slot → Option ℕ
  age : Slot → Word
  head : Option Slot
  tail : Option Slot

/-- The fields of `struct proc` that the modelled functions use. The parent is
represented by its pid, and the swap file by its inode. -/
structure Proc where
  sz : ℕ
  pgdir : Frame
  pid : ℤ
  parentPid : ℤ
  killed : Bool
  swapFile : Option Inode
  pages : ProcPages
  eip : ℕ
  esp : ℕ

/-- `buff` is the static buffer of `getPageFromFile`. `kallocZero` records whether a call of `kalloc` has
returned 0; no function reads it. -/
structure Kernel where
  mem : Frame → Page
  freelist : List Frame
  pageCounter : ℤ
  kallocZero : Bool
  buff : Page
  proc : Proc

def Kernel.setPages (s : Kernel) (p : ProcPages) : Kernel := {s with proc := {s.proc with pages := p}}

def defaultAge : Build → Word
  | .lapa => 0xffffffff#32
  | _ => 0#32

def ProcPages.init (b : Build) : ProcPages where
  pagesInMemoryCounter := 0
  pagesInSwapfileCounter := 0
  pagedout := 0
  faultCounter := 0
  diskVa _ := none
  diskLocation _ := -1
  next _ := none
  prev _ := none
  va _ := none
  age _ := defaultAge b
  head := none
  tail := none

/-- The address stored in a slot; an unused slot holds `(char*)-1`. -/
def vaAddr (v : Option ℕ) : ℕ := v.getD 0xffffffff

end Xv6Paging
