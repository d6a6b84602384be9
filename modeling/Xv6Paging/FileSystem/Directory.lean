import Xv6Paging.FileSystem.Inodes

/-! # Directories and paths

`strncmp`, `strncpy`, `namecmp`, `dirlookup` and `dirlink`, the part of `sys_unlink` that
clears an entry, and `skipelem`, `namex`, `namei` and `nameiparent`. Memory behind a
pointer is the function from offsets to bytes. A path is the list of its bytes before
the NUL.
-/
namespace Xv6Paging.Fs
open WordPage Sector
variable (sb : Superblock)

def nInode : ℕ := 50

def push (b : Byte) (s : ℕ → Byte) : ℕ → Byte
  | 0 => b
  | k+1 => s k

def rest (s : ℕ → Byte) (k : ℕ) : Byte := s (k+1)

def strncmp (p q : ℕ → Byte) : ℕ → ℤ
  | 0 => 0
  | n+1 => if p 0 ≠ 0 ∧ p 0 = q 0 then strncmp (rest p) (rest q) n else ((p 0).toNat : ℤ)-(q 0).toNat

/-- The second loop of `strncpy`. -/
def zeroFill (s : ℕ → Byte) : ℕ → ℕ → Byte
  | 0 => s
  | n+1 => push 0 (zeroFill (rest s) n)

def strncpy (s t : ℕ → Byte) : ℕ → ℕ → Byte
  | 0 => s
  | n+1 => push (t 0) (if t 0 ≠ 0 then strncpy (rest s) (rest t) n else zeroFill (rest s) n)

def namecmp (s t : ℕ → Byte) : ℤ := strncmp s t dirSiz

abbrev Dirent := ℕ → Byte

namespace Dirent

def inum (de : Dirent) : ℕ := (de 0).toNat+256*(de 1).toNat

def name (de : Dirent) : ℕ → Byte := rest (rest de)

def setName (de : Dirent) (s : ℕ → Byte) : Dirent := push (de 0) (push (de 1) s)

def setInum (de : Dirent) (inum : ℕ) : Dirent :=
  push (BitVec.ofNat 8 inum) (push (BitVec.ofNat 8 (inum/256)) de.name)

end Dirent

/-- The loop of `dirlookup`. The result is the inode's number, with a reference taken, and the
offset of the entry. -/
def dirlookupLoop (dp : ℕ) (name : ℕ → Byte) :
    ℕ → FsState → Dirent → ℕ → Except Fault (Option (ℕ × ℕ) × FsState)
  | 0, _, _, _ => .error .diverges
  | fuel+1, s, de, off =>
    if off < (s.icache dp).copy.size.toNat then do
      let (r,de,ip,d) ← readi sb (s.icache dp).copy de off direntSize s.disk
      if r ≠ direntSize then .error (.panic "dirlookup read")
      else if Dirent.inum de = 0 then dirlookupLoop dp name fuel (s.store dp ip d) de ((off+direntSize)%2^32)
      else if namecmp name (Dirent.name de) = 0 then
        return (some (Dirent.inum de,off),(s.store dp ip d).iget (Dirent.inum de))
      else dirlookupLoop dp name fuel (s.store dp ip d) de ((off+direntSize)%2^32)
    else .ok (none,s)

/-- `de` is what the stack holds. An iteration is for one entry, so the loop ends in time if `off` does
not wrap around. -/
def dirlookup (s : FsState) (dp : ℕ) (name : ℕ → Byte) (de : Dirent) : Except Fault (Option (ℕ × ℕ) × FsState) :=
  if (s.icache dp).copy.type ≠ tDir then .error (.panic "dirlookup not DIR")
  else dirlookupLoop sb dp name ((s.icache dp).copy.size.toNat+1) s de 0

/-- The loop of `dirlink` that looks for an empty entry. -/
def emptyDirent (dp : ℕ) : ℕ → FsState → Dirent → ℕ → Except Fault (ℕ × Dirent × FsState)
  | 0, _, _, _ => .error .diverges
  | fuel+1, s, de, off =>
    if off < (s.icache dp).copy.size.toNat then do
      let (r,de,ip,d) ← readi sb (s.icache dp).copy de off direntSize s.disk
      if r ≠ direntSize then .error (.panic "dirlink read")
      else if Dirent.inum de = 0 then return (off,de,s.store dp ip d)
      else emptyDirent dp fuel (s.store dp ip d) de ((off+direntSize)%2^32)
    else .ok (off,de,s)

/-- The caller has the lock of `dp`. -/
def dirlink (s : FsState) (dp : ℕ) (name : ℕ → Byte) (inum : ℕ) (de : Dirent) : Except Fault (ℤ × FsState) := do
  let (found,s) ← dirlookup sb s dp name de
  match found with
  | some (ip,_) =>
    let s ← s.iput sb (some dp) ip
    return (-1,s)
  | none =>
    let (off,de,s) ← emptyDirent sb dp ((s.icache dp).copy.size.toNat+1) s de 0
    let de := (Dirent.setName de (strncpy (Dirent.name de) name dirSiz)).setInum inum
    let (r,ip,d) ← writei sb dp (s.icache dp).copy de off direntSize s.disk
    if r ≠ direntSize then .error (.panic "dirlink") else return (0,s.store dp ip d)

/-- What `sys_unlink` does to the directory. The caller keeps the reference to the inode. -/
def clearDirent (s : FsState) (dp : ℕ) (name : ℕ → Byte) (de : Dirent) : Except Fault (Option ℕ × FsState) := do
  let (found,s) ← dirlookup sb s dp name de
  match found with
  | none => return (none,s)
  | some (inum,off) =>
    let (r,ip,d) ← writei sb dp (s.icache dp).copy (fun _ => 0) off direntSize s.disk
    if r ≠ direntSize then .error (.panic "unlink: writei") else return (some inum,s.store dp ip d)

def slash : Byte := 47

def copyElem (name : ℕ → Byte) (s : List Byte) : ℕ → Byte :=
  if dirSiz ≤ s.length then blit id name 0 dirSiz fun k => s.getD k 0
  else Function.update (blit id name 0 s.length fun k => s.getD k 0) s.length 0

def skipelem (path : List Byte) (name : ℕ → Byte) : Option (List Byte × (ℕ → Byte)) :=
  let path := path.dropWhile (· = slash)
  if path = [] then none
  else
    let elem := path.takeWhile (· ≠ slash)
    some ((path.dropWhile (· ≠ slash)).dropWhile (· = slash),copyElem name elem)

def iunlockput (s : FsState) (inum : ℕ) : Except Fault FsState := s.iput sb none inum

/-- The entries of the inode cache in use. If they are more than `NINODE` after an `iget`, it has found none and
panicked. -/
def inUse (s : FsState) : ℕ := (List.range sb.ninodes).countP fun i => 0 < (s.icache i).ref

/-- The loop of `namex`, with the buffer `name` in the result. Every element that `skipelem` takes makes
the path shorter. -/
def namexLoop (nameiparent : Bool) (de : Dirent) :
    ℕ → FsState → ℕ → List Byte → (ℕ → Byte) → Except Fault (Option ℕ × (ℕ → Byte) × FsState)
  | 0, _, _, _, _ => .error .diverges
  | fuel+1, s, ip, path, name =>
    match skipelem path name with
    | none => do
      if nameiparent then
        let s ← s.iput sb none ip
        return (none,name,s)
      else return (some ip,name,s)
    | some (path,name) => do
      let s ← s.ilock sb ip
      if (s.icache ip).copy.type ≠ tDir then
        let s ← iunlockput sb s ip
        return (none,name,s)
      else if nameiparent = true ∧ path = [] then return (some ip,name,s)
      else
        let (next,s) ← dirlookup sb s ip name de
        match next with
        | none =>
          let s ← iunlockput sb s ip
          return (none,name,s)
        | some (next,_) =>
          if inUse sb s ≤ nInode then
            let s ← iunlockput sb s ip
            namexLoop nameiparent de fuel s next path name
          else .error (.panic "iget: no inodes")

/-- `idup` is `iget` of an inode that has a reference. -/
def namex (nameiparent : Bool) (s : FsState) (cwd : ℕ) (path : List Byte) (name : ℕ → Byte) (de : Dirent) :
    Except Fault (Option ℕ × (ℕ → Byte) × FsState) :=
  let ip := if path.head? = some slash then rootIno else cwd
  if inUse sb (s.iget ip) ≤ nInode then namexLoop sb nameiparent de (path.length+1) (s.iget ip) ip path name
  else .error (.panic "iget: no inodes")

def namei (s : FsState) (cwd : ℕ) (path : List Byte) (name : ℕ → Byte) (de : Dirent) :
    Except Fault (Option ℕ × FsState) := do
  let (ip,_,s) ← namex sb false s cwd path name de
  return (ip,s)

def nameiparent (s : FsState) (cwd : ℕ) (path : List Byte) (name : ℕ → Byte) (de : Dirent) :
    Except Fault (Option ℕ × (ℕ → Byte) × FsState) :=
  namex sb true s cwd path name de

end Xv6Paging.Fs
