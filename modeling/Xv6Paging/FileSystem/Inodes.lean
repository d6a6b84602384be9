import Xv6Paging.FileSystem.Layout

/-! # Blocks and inodes

The allocation of blocks and inodes and the contents of inodes that are not devices:
`balloc`, `bfree`, `ialloc`, `iupdate`, `iget`, `ilock`, `iput`, `bmap`, `itrunc`, `readi`
and `writei` of `fs.c`. Calls run one after the other. A block's contents are those that
`bread` returns, so that the log and the buffer cache do not appear, and the inode cache
has one entry for every inode number. The super block does not change, so `bfree` reads
the same one again.
-/
namespace Xv6Paging.Fs
open WordPage Sector Function
variable (sb : Superblock)

/-- The block that the two loops of `balloc` find. -/
def freeBlock (d : Disk) : Option ℕ :=
  (List.range ((sb.size+bpb-1)/bpb)).findSome? fun k =>
    ((List.range bpb).find? fun bi => k*bpb+bi < sb.size ∧ bitAt (d (sb.bblock (k*bpb))) bi = false).map
      (k*bpb+·)

def balloc (d : Disk) : Except Fault (Word × Disk) :=
  match freeBlock sb d with
  | some b => .ok (BitVec.ofNat 32 b,update (sb.mark d b) b fun _ => 0)
  | none => .error (.panic "balloc: out of blocks")

def bfree (b : Word) (d : Disk) : Except Fault Disk :=
  if sb.marked d b.toNat then .ok (sb.unmark d b.toNat) else .error (.panic "freeing free block")

/-- The address of a direct block or of the indirect block, allocating it if necessary. -/
def ensureAddr (ip : Dinode) (k : Fin 13) (d : Disk) : Except Fault (Word × Dinode × Disk) :=
  if ip.addrs k = 0 then do
    let (a,d) ← balloc sb d
    return (a,ip.setAddr k a,d)
  else .ok (ip.addrs k,ip,d)

def bmap (ip : Dinode) (bn : ℕ) (d : Disk) : Except Fault (Word × Dinode × Disk) :=
  if bn < nDirect then ensureAddr sb ip (Fin.ofNat 13 bn) d
  else if bn-nDirect < nIndirect then do
    let (a,ip,d) ← ensureAddr sb ip 12 d
    if wordAt (d a.toNat) (bn-nDirect) = 0 then do
      let (b,d) ← balloc sb d
      return (b,ip,update d a.toNat (setWord (d a.toNat) (bn-nDirect) b))
    else return (wordAt (d a.toNat) (bn-nDirect),ip,d)
  else .error (.panic "bmap: out of range")

def iupdate (inum : ℕ) (ip : Dinode) (d : Disk) : Disk := sb.setDinode d inum ip

/-- One iteration of `itrunc`'s first loop. -/
def truncDirect (x : Dinode × Disk) (k : Fin 12) : Except Fault (Dinode × Disk) :=
  if x.1.addrs k.castSucc = 0 then .ok x
  else do
    let d ← bfree sb (x.1.addrs k.castSucc) x.2
    return (x.1.setAddr k.castSucc 0,d)

/-- One iteration of `itrunc`'s second loop, over the entries of the indirect block `a`. -/
def truncEntry (a : Word) (d : Disk) (j : ℕ) : Except Fault Disk :=
  if wordAt (d a.toNat) j = 0 then .ok d else bfree sb (wordAt (d a.toNat) j) d

def truncIndirect (ip : Dinode) (d : Disk) : Except Fault (Dinode × Disk) :=
  if ip.addrs 12 = 0 then .ok (ip,d)
  else do
    let d ← (List.range nIndirect).foldlM (truncEntry sb (ip.addrs 12)) d
    let d ← bfree sb (ip.addrs 12) d
    return (ip.setAddr 12 0,d)

def itrunc (inum : ℕ) (ip : Dinode) (d : Disk) : Except Fault (Dinode × Disk) := do
  let x ← (List.finRange 12).foldlM (truncDirect sb) (ip,d)
  let (ip,d) ← truncIndirect sb x.1 x.2
  let ip := {ip with size := 0}
  return (ip,iupdate sb inum ip d)

/-- The variables of `readi`'s loop, with the inode and the disk that `bmap` may change; `dst` is the
whole target. -/
structure ReadLoop where
  dst : ℕ → Byte
  off : ℕ
  tot : ℕ
  ip : Dinode
  disk : Disk

def readiStep (n : ℕ) (r : ReadLoop) : Except Fault ReadLoop := do
  let (a,ip,d) ← bmap sb r.ip (r.off/bSize) r.disk
  let m := min (n-r.tot) (bSize-r.off%bSize)
  return {
    dst := blit id r.dst r.tot m fun k => d a.toNat (Fin.ofNat 512 (r.off%bSize+k))
    off := r.off+m, tot := r.tot+m, ip := ip, disk := d}

/-- Every iteration copies at least one byte, so as many iterations as bytes suffice. -/
def readiLoop (n : ℕ) : ℕ → ReadLoop → Except Fault ReadLoop
  | 0, r => if r.tot < n then .error .diverges else .ok r
  | fuel+1, r =>
    if r.tot < n then do
      let r ← readiStep sb n r
      readiLoop n fuel r
    else .ok r

def readi (ip : Dinode) (dst : ℕ → Byte) (off n : ℕ) (d : Disk) :
    Except Fault (ℤ × (ℕ → Byte) × Dinode × Disk) :=
  if ip.size.toNat < off ∨ (off+n)%2^32 < off then .ok (-1,dst,ip,d)
  else do
    let n := if ip.size.toNat < off+n then ip.size.toNat-off else n
    let r ← readiLoop sb n n ⟨dst,off,0,ip,d⟩
    return (n,r.dst,r.ip,r.disk)

structure WriteLoop where
  off : ℕ
  tot : ℕ
  ip : Dinode
  disk : Disk

def writeiStep (src : ℕ → Byte) (n : ℕ) (w : WriteLoop) : Except Fault WriteLoop := do
  let (a,ip,d) ← bmap sb w.ip (w.off/bSize) w.disk
  let m := min (n-w.tot) (bSize-w.off%bSize)
  return {
    off := w.off+m, tot := w.tot+m, ip := ip
    disk := update d a.toNat (blit Fin.val (d a.toNat) (w.off%bSize) m fun k => src (w.tot+k))}

def writeiLoop (src : ℕ → Byte) (n : ℕ) : ℕ → WriteLoop → Except Fault WriteLoop
  | 0, w => if w.tot < n then .error .diverges else .ok w
  | fuel+1, w =>
    if w.tot < n then do
      let w ← writeiStep sb src n w
      writeiLoop src n fuel w
    else .ok w

def writei (inum : ℕ) (ip : Dinode) (src : ℕ → Byte) (off n : ℕ) (d : Disk) :
    Except Fault (ℤ × Dinode × Disk) :=
  if ip.size.toNat < off ∨ (off+n)%2^32 < off then .ok (-1,ip,d)
  else if maxFile*bSize < off+n then .ok (-1,ip,d)
  else do
    let w ← writeiLoop sb src n n ⟨off,0,ip,d⟩
    if 0 < n ∧ w.ip.size.toNat < w.off then
      let ip := {w.ip with size := BitVec.ofNat 32 w.off}
      return (n,ip,iupdate sb inum ip w.disk)
    else return (n,w.ip,w.disk)

structure CachedInode where
  ref : ℕ
  valid : Bool
  copy : Dinode

structure FsState where
  disk : Disk
  icache : ℕ → CachedInode

namespace FsState

def setEntry (s : FsState) (inum : ℕ) (e : CachedInode) : FsState :=
  {s with icache := update s.icache inum e}

/-- An entry without references is recycled, which makes it invalid. -/
def iget (s : FsState) (inum : ℕ) : FsState :=
  let e := s.icache inum
  if 0 < e.ref then s.setEntry inum {e with ref := e.ref+1}
  else s.setEntry inum {e with ref := 1, valid := false}

def ialloc (s : FsState) (type : BitVec 16) : Except Fault (ℕ × FsState) :=
  match (List.range (sb.ninodes-1)).find? fun i => (sb.dinode s.disk (i+1)).type = 0 with
  | some i => .ok (i+1,
      {s with disk := sb.setDinode s.disk (i+1) {Dinode.zero with type := type}}.iget (i+1))
  | none => .error (.panic "ialloc: no inodes")

def ilock (s : FsState) (inum : ℕ) : Except Fault FsState :=
  let e := s.icache inum
  if e.ref < 1 then .error (.panic "ilock")
  else if e.valid then .ok s
  else if (sb.dinode s.disk inum).type = 0 then .error (.panic "ilock: no type")
  else .ok (s.setEntry inum {e with valid := true, copy := sb.dinode s.disk inum})

/-- `holds` is the inode whose sleep lock the caller has, if any; nobody else has one. A caller that asks for the lock
it has sleeps for ever. -/
def iput (s : FsState) (holds : Option ℕ) (inum : ℕ) : Except Fault FsState :=
  let e := s.icache inum
  if holds = some inum then .error .diverges
  else if e.valid ∧ e.copy.nlink = 0 ∧ e.ref = 1 then do
    let (ip,d) ← itrunc sb inum e.copy s.disk
    let ip := {ip with type := 0}
    return {s with disk := iupdate sb inum ip d}.setEntry inum ⟨e.ref-1,false,ip⟩
  else .ok (s.setEntry inum {e with ref := e.ref-1})

def store (s : FsState) (inum : ℕ) (ip : Dinode) (d : Disk) : FsState :=
  {s with disk := d}.setEntry inum {s.icache inum with copy := ip}

end FsState

/-- The calls; `setLinks` changes `nlink` and then calls `iupdate`, as the callers in `sysfile.c` do. -/
inductive Call
  | iget (inum : ℕ)
  | ialloc (type : BitVec 16)
  | ilock (inum : ℕ)
  | readi (inum : ℕ) (dst : ℕ → Byte) (off n : ℕ)
  | writei (inum : ℕ) (src : ℕ → Byte) (off n : ℕ)
  | itrunc (inum : ℕ)
  | setLinks (inum : ℕ) (n : BitVec 16)
  | iput (inum : ℕ)

inductive Reply
  | done
  | allocated (inum : ℕ)
  | written (r : ℤ)
  | read (r : ℤ) (dst : ℕ → Byte)

def call (s : FsState) : Call → Except Fault (Reply × FsState)
  | .iget inum => .ok (.done,s.iget inum)
  | .ialloc type => do
    let (inum,s) ← s.ialloc sb type
    return (.allocated inum,s)
  | .ilock inum => do
    let s ← s.ilock sb inum
    return (.done,s)
  | .readi inum dst off n => do
    let (r,dst,ip,d) ← readi sb (s.icache inum).copy dst off n s.disk
    return (.read r dst,s.store inum ip d)
  | .writei inum src off n => do
    let (r,ip,d) ← writei sb inum (s.icache inum).copy src off n s.disk
    return (.written r,s.store inum ip d)
  | .itrunc inum => do
    let (ip,d) ← itrunc sb inum (s.icache inum).copy s.disk
    return (.done,s.store inum ip d)
  | .setLinks inum n =>
    let ip := {(s.icache inum).copy with nlink := n}
    .ok (.done,s.store inum ip (iupdate sb inum ip s.disk))
  | .iput inum => do
    let s ← s.iput sb none inum
    return (.done,s)

end Xv6Paging.Fs
