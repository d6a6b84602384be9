import Mathlib.Data.List.ProdSigma
import Xv6Paging.Kernel.Config
import Xv6Paging.Library.Occurrences
import Xv6Paging.Process.Table

/-! # The file table

The functions of `file.c`, `pipe.c`, `sysfile.c` and `proc.c` that create and drop references to the entries
of `ftable`: `open`, `dup`, `close`, `pipe`, `fork` and `exit` with all their ways to fail,
and the swap files, which are entries that no descriptor points to. The pipes are numbered
in the order of their creation; of a pipe the two flags appear, and how often its page has
been freed. What a path resolves to and whether memory is left is given with the call.
-/
namespace Xv6Paging.Files
open Process Occurrences Function

abbrev FileSlot := Fin 100

abbrev Descriptor := ProcSlot × Fin 16

inductive FileType
  | none
  | pipe (k : ℕ) (writable : Bool)
  | inode
  deriving DecidableEq

structure File where
  ref : ℕ
  type : FileType
  deriving DecidableEq

/-- `live` tells which slots of the process table hold a process, `swap` which files are swap files. -/
structure FileTable where
  files : FileSlot → File
  ofile : Descriptor → Option FileSlot
  live : ProcSlot → Bool
  swap : FileSlot → Bool
  npipes : ℕ
  readopen : ℕ → Bool
  writeopen : ℕ → Bool
  freed : ℕ → ℕ

def descriptors : List Descriptor := (List.finRange 64).product (List.finRange 16)

namespace FileTable

def refs (s : FileTable) (f : FileSlot) : ℕ := occurrences descriptors s.ofile (some f)

def setFile (s : FileTable) (f : FileSlot) (x : File) : FileTable := {s with files := update s.files f x}

def setFd (s : FileTable) (d : Descriptor) (o : Option FileSlot) : FileTable :=
  {s with ofile := update s.ofile d o}

def filealloc (s : FileTable) : Option (FileSlot × FileTable) :=
  ((List.finRange 100).find? fun f => decide ((s.files f).ref = 0)).map fun f =>
    (f,s.setFile f ⟨1,(s.files f).type⟩)

def filedup (s : FileTable) (f : FileSlot) : Except Fault FileTable :=
  if (s.files f).ref < 1 then .error (.panic "filedup")
  else .ok (s.setFile f ⟨(s.files f).ref+1,(s.files f).type⟩)

/-- The page of the pipe is freed when both ends are closed. -/
def pipeclose (s : FileTable) (k : ℕ) (writable : Bool) : FileTable :=
  let s := if writable then {s with writeopen := update s.writeopen k false}
    else {s with readopen := update s.readopen k false}
  if s.readopen k = false ∧ s.writeopen k = false then {s with freed := update s.freed k (s.freed k+1)}
  else s

def fileclose (s : FileTable) (f : FileSlot) : Except Fault FileTable :=
  if (s.files f).ref < 1 then .error (.panic "fileclose")
  else if 0 < (s.files f).ref-1 then .ok (s.setFile f ⟨(s.files f).ref-1,(s.files f).type⟩)
  else
    let t := s.setFile f ⟨0,.none⟩
    match (s.files f).type with
    | .pipe k writable => .ok (t.pipeclose k writable)
    | _ => .ok t

def fdalloc (s : FileTable) (p : ProcSlot) (f : FileSlot) : Option (Fin 16 × FileTable) :=
  ((List.finRange 16).find? fun fd => decide (s.ofile (p,fd) = none)).map fun fd => (fd,s.setFd (p,fd) (some f))

def argfd (s : FileTable) (p : ProcSlot) (n : ℤ) : Option (Fin 16 × FileSlot) :=
  if h : 0 ≤ n ∧ n.toNat < 16 then (s.ofile (p,⟨n.toNat,h.2⟩)).map fun f => (⟨n.toNat,h.2⟩,f) else none

def sysDup (s : FileTable) (p : ProcSlot) (n : ℤ) : Except Fault FileTable :=
  match s.argfd p n with
  | none => .ok s
  | some (_,f) =>
    match s.fdalloc p f with
    | none => .ok s
    | some (_,s) => s.filedup f

def sysClose (s : FileTable) (p : ProcSlot) (n : ℤ) : Except Fault FileTable :=
  match s.argfd p n with
  | none => .ok s
  | some (fd,f) => (s.setFd (p,fd) none).fileclose f

/-- `found` says that the path names an inode that may be opened. -/
def sysOpen (s : FileTable) (p : ProcSlot) (found : Bool) : Except Fault FileTable :=
  if found then
    match s.filealloc with
    | none => .ok s
    | some (f,s) =>
      match s.fdalloc p f with
      | none => s.fileclose f
      | some (_,s) => .ok (s.setFile f ⟨(s.files f).ref,.inode⟩)
  else .ok s

def newPipe (s : FileTable) (f0 f1 : FileSlot) : FileTable :=
  let s := {s with
    readopen := update s.readopen s.npipes true
    writeopen := update s.writeopen s.npipes true}
  let s := s.setFile f0 ⟨(s.files f0).ref,.pipe s.npipes false⟩
  let s := s.setFile f1 ⟨(s.files f1).ref,.pipe s.npipes true⟩
  {s with npipes := s.npipes+1}

/-- `page` says that `kalloc` returns a page. -/
def pipealloc (s : FileTable) (page : Bool) : Except Fault (Option (FileSlot × FileSlot) × FileTable) :=
  match s.filealloc with
  | none => .ok (none,s)
  | some (f0,s) =>
    match s.filealloc with
    | none => do
      let s ← s.fileclose f0
      return (none,s)
    | some (f1,s) =>
      if page then .ok (some (f0,f1),s.newPipe f0 f1)
      else do
        let s ← s.fileclose f0
        let s ← s.fileclose f1
        return (none,s)

/-- `arg` says that the argument is a valid pointer. -/
def sysPipe (s : FileTable) (p : ProcSlot) (arg page : Bool) : Except Fault FileTable :=
  if arg then do
    let r ← s.pipealloc page
    match r with
    | (none,s) => return s
    | (some (rf,wf),s) =>
      match s.fdalloc p rf with
      | none => do
        let s ← s.fileclose rf
        s.fileclose wf
      | some (fd0,s) =>
        match s.fdalloc p wf with
        | none => do
          let s ← (s.setFd (p,fd0) none).fileclose rf
          s.fileclose wf
        | some (_,s) => return s
  else return s

/-- One turn of the loop of `fork` over the descriptors. -/
def copyFd (p q : ProcSlot) (s : FileTable) (i : Fin 16) : Except Fault FileTable :=
  match s.ofile (p,i) with
  | none => .ok s
  | some f => do
    let s ← s.filedup f
    return s.setFd (q,i) (some f)

/-- The slot `q` is the one that `allocproc` found. -/
def fork (s : FileTable) (p q : ProcSlot) : Except Fault FileTable :=
  (List.finRange 16).foldlM (copyFd p q) {s with live := update s.live q true}

/-- One turn of the loop of `exit` over the descriptors. -/
def closeFd (p : ProcSlot) (s : FileTable) (fd : Fin 16) : Except Fault FileTable :=
  match s.ofile (p,fd) with
  | none => .ok s
  | some f => do
    let s ← s.fileclose f
    return s.setFd (p,fd) none

def exit (s : FileTable) (p : ProcSlot) : Except Fault FileTable := do
  let s ← (List.finRange 16).foldlM (closeFd p) s
  return {s with live := update s.live p false}

def createSwapFile (s : FileTable) : Except Fault FileTable :=
  match s.filealloc with
  | none => .error (.panic "no slot for files on /store")
  | some (f,s) => .ok {s.setFile f ⟨(s.files f).ref,.inode⟩ with swap := update s.swap f true}

/-- The part of `removeSwapFile` that drops the file. -/
def removeSwapFile (s : FileTable) (f : FileSlot) : Except Fault FileTable :=
  ({s with swap := update s.swap f false} : FileTable).fileclose f

end FileTable

inductive Action
  | open (p : ProcSlot) (found : Bool)
  | dup (p : ProcSlot) (n : ℤ)
  | close (p : ProcSlot) (n : ℤ)
  | pipe (p : ProcSlot) (arg page : Bool)
  | fork (p q : ProcSlot)
  | exit (p : ProcSlot)
  | createSwapFile
  | removeSwapFile (f : FileSlot)
  deriving DecidableEq

namespace FileTable

def act (s : FileTable) : Action → Except Fault FileTable
  | .open p found => s.sysOpen p found
  | .dup p n => s.sysDup p n
  | .close p n => s.sysClose p n
  | .pipe p arg page => s.sysPipe p arg page
  | .fork p q => s.fork p q
  | .exit p => s.exit p
  | .createSwapFile => s.createSwapFile
  | .removeSwapFile f => s.removeSwapFile f

/-- Calls are made by processes, `fork` fills an unused slot, and only swap files are removed as such. -/
def ready (s : FileTable) : Action → Bool
  | .open p _ | .dup p _ | .close p _ | .pipe p _ _ | .exit p => s.live p
  | .fork p q => s.live p && !s.live q
  | .createSwapFile => true
  | .removeSwapFile f => s.swap f

def step (s : FileTable) (a : Action) : Option FileTable := if s.ready a then (s.act a).toOption else none

def fileinit : FileTable where
  files _ := ⟨0,.none⟩
  ofile _ := none
  live p := decide (p = initproc)
  swap _ := false
  npipes := 0
  readopen _ := false
  writeopen _ := false
  freed _ := 0

end FileTable

end Xv6Paging.Files
