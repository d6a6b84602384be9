import Xv6Paging.Kernel.Config

/-! # Files

`readi` and `writei` on regular files, and the `fileread` and `filewrite` that the
swap-file functions call. An inode is its length and its bytes; the buffer cache and the
log are transparent. Both loops copy one piece of a 512-byte block an iteration, and
every iteration copies at least one byte, so as many iterations as bytes suffice.
-/
namespace Xv6Paging
open WordPage

def bSize : ℕ := 512
def maxFile : ℕ := 12+bSize/4
def maxOpBlocks : ℕ := 10

structure Inode where
  size : ℕ
  data : ℕ → Byte

def Inode.slotPage (ip : Inode) (i : ℕ) : Page := fun k => ip.data (i*pgSize+k.val)

/-- The variables of `readi`'s loop; `dst` is the whole target and `tot` counts the bytes
already copied into it. -/
structure ReadLoop where
  dst : Page
  off : ℕ
  tot : ℕ

/-- One iteration of `readi`'s loop: it waits for a block and copies from it. -/
def readiStep (ip : Inode) (n : ℕ) (r : ReadLoop) : ReadLoop :=
  let m := min (n-r.tot) (bSize-r.off%bSize)
  {dst := blit Fin.val r.dst r.tot m fun k => ip.data (r.off+k)
   off := r.off+m
   tot := r.tot+m}

def readiLoop (ip : Inode) (n : ℕ) : ℕ → ReadLoop → ReadLoop
  | 0, r => r
  | fuel+1, r => if r.tot < n then readiLoop ip n fuel (readiStep ip n r) else r

def readi (ip : Inode) (dst : Page) (off n : ℕ) : ℤ × Page :=
  if ip.size < off ∨ (off+n)%2^32 < off then (-1,dst)
  else
    let n := if ip.size < off+n then ip.size-off else n
    (n,(readiLoop ip n n ⟨dst,off,0⟩).dst)

structure WriteLoop where
  data : ℕ → Byte
  off : ℕ
  tot : ℕ

def writeiStep (src : ℕ → Byte) (n : ℕ) (w : WriteLoop) : WriteLoop :=
  let m := min (n-w.tot) (bSize-w.off%bSize)
  {data := blit id w.data w.off m fun k => src (w.tot+k)
   off := w.off+m
   tot := w.tot+m}

def writeiLoop (src : ℕ → Byte) (n : ℕ) : ℕ → WriteLoop → WriteLoop
  | 0, w => w
  | fuel+1, w => if w.tot < n then writeiLoop src n fuel (writeiStep src n w) else w

def writei (ip : Inode) (src : ℕ → Byte) (off n : ℕ) : ℤ × Inode :=
  if ip.size < off ∨ (off+n)%2^32 < off then (-1,ip)
  else if maxFile*bSize < off+n then (-1,ip)
  else
    let w := writeiLoop src n n ⟨ip.data,off,0⟩
    (n,{data := w.data, size := if 0 < n ∧ ip.size < w.off then w.off else ip.size})

def filewriteMax : ℕ := (maxOpBlocks-1-1-2)/2*512

/-- The while loop of `filewrite`, with the return value it leads to. -/
def filewriteLoop (addr : ℕ → Byte) (n : ℕ) : ℕ → Inode → ℕ → ℕ → Except Fault (ℤ × Inode)
  | 0, _, _, _ => .error .diverges
  | fuel+1, ip, off, i =>
    if i < n then
      let n1 := min (n-i) filewriteMax
      let (r,ip) := writei ip (fun k => addr (i+k)) off n1
      if r < 0 then .ok (-1,ip)
      else if r ≠ n1 then .error (.panic "short filewrite")
      else filewriteLoop addr n fuel ip (off+n1) (i+n1)
    else .ok (n,ip)

def filewrite (ip : Inode) (off : ℕ) (addr : ℕ → Byte) (n : ℕ) : Except Fault (ℤ × Inode) :=
  filewriteLoop addr n (n+1) ip off 0

def fileread (ip : Inode) (off : ℕ) (addr : Page) (n : ℕ) : ℤ × Page := readi ip addr off n

section Loops
variable (ip : Inode) (n : ℕ) (dst : Page) (off : ℕ) (src : ℕ → Byte)

def readProgress (tot : ℕ) : ReadLoop :=
  ⟨blit Fin.val dst 0 tot fun k => ip.data (off+k),off+tot,tot⟩

theorem readiStep_progress (tot : ℕ) : readiStep ip n (readProgress ip dst off tot) =
    readProgress ip dst off (tot+min (n-tot) (bSize-(off+tot)%bSize)) := by
  have h := blit_append Fin.val dst 0 (fun k => ip.data (off+k)) tot
    (min (n-tot) (bSize-(off+tot)%bSize))
  rw [Nat.zero_add] at h
  simp only [readiStep,readProgress,Nat.add_assoc] at h ⊢
  rw [h]

theorem blockwise {F : ℕ → ℕ → Prop} {n : ℕ} (off : ℕ) (hdone : ∀ fuel, F fuel n)
    (hstep : ∀ fuel tot, tot < n → F fuel (tot+min (n-tot) (bSize-(off+tot)%bSize)) → F (fuel+1) tot)
    (fuel tot : ℕ) (ht : tot ≤ n) (hf : n-tot ≤ fuel) : F fuel tot := by
  induction fuel generalizing tot with
  | zero =>
    obtain rfl : tot = n := by omega
    exact hdone 0
  | succ fuel ih =>
    rcases ht.lt_or_eq with h | rfl
    · have hpos : 0 < bSize-(off+tot)%bSize := Nat.sub_pos_of_lt (Nat.mod_lt _ (by decide))
      exact hstep fuel tot h (ih _ (by omega) (by omega))
    · exact hdone (fuel+1)

theorem readiLoop_progress : readiLoop ip n n (readProgress ip dst off 0) = readProgress ip dst off n := by
  refine blockwise (F := fun fuel tot => readiLoop ip n fuel (readProgress ip dst off tot) = _) off
    (fun fuel => ?_) (fun fuel tot h ih => ?_) n 0 (Nat.zero_le n) (Nat.sub_le n 0)
  · cases fuel with
    | zero => rfl
    | succ fuel => exact if_neg (lt_irrefl n)
  · rw [readiLoop,if_pos (show (readProgress ip dst off tot).tot < n from h),readiStep_progress]
    exact ih

theorem readiLoop_dst : (readiLoop ip n n ⟨dst,off,0⟩).dst =
    blit Fin.val dst 0 n fun k => ip.data (off+k) := by
  have h := readiLoop_progress ip n dst off
  rw [readProgress,blit_zero] at h
  exact congrArg ReadLoop.dst h

def writeProgress (data : ℕ → Byte) (tot : ℕ) : WriteLoop :=
  ⟨blit id data off tot src,off+tot,tot⟩

theorem writeiLoop_progress (data : ℕ → Byte) :
    writeiLoop src n n (writeProgress off src data 0) = writeProgress off src data n := by
  refine blockwise (F := fun fuel tot => writeiLoop src n fuel (writeProgress off src data tot) = _) off
    (fun fuel => ?_) (fun fuel tot h ih => ?_) n 0 (Nat.zero_le n) (Nat.sub_le n 0)
  · cases fuel with
    | zero => rfl
    | succ fuel => exact if_neg (lt_irrefl n)
  · have hstep : writeiStep src n (writeProgress off src data tot) =
        writeProgress off src data (tot+min (n-tot) (bSize-(off+tot)%bSize)) := by
      simp only [writeiStep,writeProgress,blit_append,Nat.add_assoc]
    rw [writeiLoop,if_pos (show (writeProgress off src data tot).tot < n from h),hstep]
    exact ih

theorem writeiLoop_eq (data : ℕ → Byte) : writeiLoop src n n ⟨data,off,0⟩ =
    ⟨blit id data off n src,off+n,n⟩ := by
  have h := writeiLoop_progress n off src data
  rw [writeProgress,blit_zero] at h
  exact h

theorem readi_eq (h : off+n ≤ ip.size) (hw : off+n < 2^32) :
    readi ip dst off n = ((n : ℤ),blit Fin.val dst 0 n fun k => ip.data (off+k)) := by
  have hoff : ¬ (ip.size < off ∨ (off+n)%2^32 < off) := by
    rw [Nat.mod_eq_of_lt hw]
    omega
  simp only [readi,if_neg hoff,if_neg (not_lt.mpr h),readiLoop_dst]

def Inode.written (m : ℕ) : Inode :=
  {data := blit id ip.data off m src, size := max ip.size (off+m)}

theorem writei_eq (h : off ≤ ip.size) (hw : off+n ≤ maxFile*bSize) :
    writei ip src off n = ((n : ℤ),ip.written off src n) := by
  have hmax : maxFile*bSize < 2^32 := by decide
  have hoff : ¬ (ip.size < off ∨ (off+n)%2^32 < off) := by
    rw [Nat.mod_eq_of_lt (by omega)]
    omega
  have hsize : (if 0 < n ∧ ip.size < off+n then off+n else ip.size) = max ip.size (off+n) := by
    split <;> omega
  simp only [writei,if_neg hoff,if_neg (not_lt.mpr hw),writeiLoop_eq,Inode.written,hsize]

theorem Inode.written_append (m k : ℕ) :
    (ip.written off src m).written (off+m) (fun j => src (m+j)) k = ip.written off src (m+k) := by
  simp only [Inode.written,blit_append]
  congr 1
  omega

theorem filewriteLoop_eq (hw : off+n ≤ maxFile*bSize) (fuel i : ℕ) (hi : i ≤ n)
    (hf : n-i < fuel) : filewriteLoop src n fuel (ip.written off src i) (off+i) i =
      .ok ((n : ℤ),ip.written off src n) := by
  induction fuel generalizing i with
  | zero => omega
  | succ fuel ih =>
    rw [filewriteLoop]
    by_cases h : i < n
    · have hpos : 0 < filewriteMax := by decide
      have hsz : off+i ≤ (ip.written off src i).size := Nat.le_max_right _ _
      have hr := writei_eq (ip.written off src i) (min (n-i) filewriteMax) (off+i)
        (fun k => src (i+k)) hsz (by omega)
      have hneg : ¬ (((min (n-i) filewriteMax : ℕ) : ℤ) < 0) := by omega
      simp only [if_pos h,hr,if_neg hneg,ne_eq,not_true_eq_false,if_false,
        Inode.written_append,Nat.add_assoc]
      exact ih _ (by omega) (by omega)
    · obtain rfl : i = n := by omega
      exact if_neg h

theorem filewrite_eq (h : off ≤ ip.size) (hw : off+n ≤ maxFile*bSize) :
    filewrite ip off src n = .ok ((n : ℤ),ip.written off src n) := by
  have h0 : ip.written off src 0 = ip := by
    simp only [Inode.written,blit_zero,Nat.add_zero,max_eq_left h]
  have hl := filewriteLoop_eq ip n off src hw (n+1) 0 (Nat.zero_le n) (by omega)
  rw [h0] at hl
  exact hl

end Loops

end Xv6Paging
