import Mathlib.Data.List.Basic
import Xv6Paging.FileSystem.Layout

/-! # mkfs

The program that writes the first image of the file system. It keeps the numbers of the
next free inode and block, maps the blocks of its files by itself and writes the free map
last. The image file exists as far as it has been written, so a sector behind its end
cannot be read.
-/
namespace Xv6Paging.Mkfs
open WordPage Sector

def fsSize : ℕ := 1000
def nInodes : ℕ := 200
def nlog : ℕ := maxOpBlocks*3
def nbitmap : ℕ := fsSize/(bSize*8)+1
def ninodeblocks : ℕ := nInodes/ipb+1
def nmeta : ℕ := 2+nlog+ninodeblocks+nbitmap
def nblocks : ℕ := fsSize-nmeta

def super : Superblock :=
  {size := fsSize, ninodes := nInodes, inodestart := 2+nlog, bmapstart := 2+nlog+ninodeblocks}

def superBytes : Block :=
  [fsSize,nblocks,nInodes,nlog,2,2+nlog,2+nlog+ninodeblocks].zipIdx.foldl
    (fun buf x => setWord buf x.2 (BitVec.ofNat 32 x.1)) fun _ => 0

inductive Error
  | assertion (text : String)
  | perror (text : String)
  | outOfFuel
  deriving DecidableEq

structure Image where
  disk : Disk
  freeinode : ℕ
  freeblock : ℕ

def wsect (m : Image) (sec : ℕ) (buf : Block) : Image := {m with disk := Function.update m.disk sec buf}

def rsect (m : Image) (sec : ℕ) : Except Error Block :=
  if sec < fsSize then .ok (m.disk sec) else .error (.perror "read")

def winode (m : Image) (inum : ℕ) (ip : Dinode) : Except Error Image := do
  let buf ← rsect m (super.iblock inum)
  return wsect m (super.iblock inum) (putDinode buf (inum%ipb) ip)

def rinode (m : Image) (inum : ℕ) : Except Error Dinode := do
  let buf ← rsect m (super.iblock inum)
  return dinodeAt buf (inum%ipb)

def ialloc (m : Image) (type : BitVec 16) : Except Error (ℕ × Image) := do
  let inum := m.freeinode
  let m ← winode {m with freeinode := m.freeinode+1} inum {Dinode.zero with type := type, nlink := 1}
  return (inum,m)

def usedBits (used : ℕ) : Block := (List.range used).foldl setBit fun _ => 0

def balloc (m : Image) (used : ℕ) : Except Error Image :=
  if used < bSize*8 then .ok (wsect m super.bmapstart (usedBits used))
  else .error (.assertion "used < BSIZE*8")

/-- `if(xint(din.addrs[k]) == 0) din.addrs[k] = xint(freeblock++);` -/
def slot (din : Dinode) (k : Fin 13) (m : Image) : Dinode × Image :=
  if din.addrs k = 0 then
    (din.setAddr k (BitVec.ofNat 32 m.freeblock),{m with freeblock := m.freeblock+1})
  else (din,m)

/-- The block of `iappend`'s variable `x`. -/
def appendBlock (din : Dinode) (fbn : ℕ) (m : Image) : Except Error (Word × Dinode × Image) :=
  if fbn < nDirect then
    let (din,m) := slot din (Fin.ofNat 13 fbn) m
    .ok (din.addrs (Fin.ofNat 13 fbn),din,m)
  else do
    let (din,m) := slot din 12 m
    let indirect ← rsect m (din.addrs 12).toNat
    if wordAt indirect (fbn-nDirect) = 0 then
      let x := BitVec.ofNat 32 m.freeblock
      let m := wsect {m with freeblock := m.freeblock+1} (din.addrs 12).toNat (setWord indirect (fbn-nDirect) x)
      return (x,din,m)
    else return (wordAt indirect (fbn-nDirect),din,m)

structure AppendLoop where
  off : ℕ
  tot : ℕ
  din : Dinode
  image : Image

def appendStep (p : ℕ → Byte) (n : ℕ) (w : AppendLoop) : Except Error AppendLoop :=
  let fbn := w.off/bSize
  if fbn < maxFile then do
    let (x,din,m) ← appendBlock w.din fbn w.image
    let n1 := min (n-w.tot) ((fbn+1)*bSize-w.off)
    let buf ← rsect m x.toNat
    return {
      off := w.off+n1, tot := w.tot+n1, din := din
      image := wsect m x.toNat (blit Fin.val buf (w.off-fbn*bSize) n1 fun k => p (w.tot+k))}
  else .error (.assertion "fbn < MAXFILE")

def appendLoop (p : ℕ → Byte) (n : ℕ) : ℕ → AppendLoop → Except Error AppendLoop
  | 0, w => if w.tot < n then .error .outOfFuel else .ok w
  | fuel+1, w =>
    if w.tot < n then do
      let w ← appendStep p n w
      appendLoop p n fuel w
    else .ok w

def iappend (m : Image) (inum : ℕ) (p : ℕ → Byte) (n : ℕ) : Except Error Image := do
  let din ← rinode m inum
  let w ← appendLoop p n n ⟨din.size.toNat,0,din,m⟩
  winode w.image inum {w.din with size := BitVec.ofNat 32 w.off}

def dirent (inum : ℕ) (name : List Byte) (k : ℕ) : Byte :=
  if k < 2 then (BitVec.ofNat 16 inum).extractLsb' (8*k) 8 else name.getD (k-2) 0

structure InputFile where
  name : List Byte
  length : ℕ
  data : ℕ → Byte

def InputFile.stored (f : InputFile) : List Byte := if f.name.head? = some 95 then f.name.tail else f.name

/-- The loop that copies a file in pieces of a block, from position `pos` on. -/
def copyLoop (f : InputFile) (inum : ℕ) : ℕ → ℕ → Image → Except Error Image
  | 0, pos, m => if pos < f.length then .error .outOfFuel else .ok m
  | fuel+1, pos, m =>
    if pos < f.length then do
      let m ← iappend m inum (fun k => f.data (pos+k)) (min bSize (f.length-pos))
      copyLoop f inum fuel (pos+min bSize (f.length-pos)) m
    else .ok m

def addFile (m : Image) (f : InputFile) : Except Error Image :=
  if 47 ∈ f.name then .error (.assertion "index(argv[i], '/') == 0")
  else do
    let (inum,m) ← ialloc m tFile
    let m ← iappend m rootIno (dirent inum f.stored) direntSize
    copyLoop f inum f.length 0 m

/-- `main`, with the disk of the finished image. -/
def mkfs (files : List InputFile) : Except Error Disk := do
  let m := wsect ⟨fun _ _ => 0,1,nmeta⟩ 1 superBytes
  let (rootino,m) ← ialloc m tDir
  if rootino ≠ rootIno then .error (.assertion "rootino == ROOTINO")
  else do
    let m ← iappend m rootino (dirent rootino [46]) direntSize
    let m ← iappend m rootino (dirent rootino [46,46]) direntSize
    let m ← files.foldlM addFile m
    let din ← rinode m rootino
    let m ← winode m rootino {din with size := BitVec.ofNat 32 ((din.size.toNat/bSize+1)*bSize)}
    let m ← balloc m m.freeblock
    return m.disk

end Xv6Paging.Mkfs
