import Xv6Paging.FileSystem.Consistency

/-! # Files as byte arrays

The purpose of the block-level file system: each inode is a growable array of bytes of its
own. The abstract calls work on such arrays, and every sequence of `readi` and `writei` on
a consistent file system returns what the abstract calls return.
-/
namespace Xv6Paging.Fs
open WordPage Sector Function
variable {sb : Superblock} {start : ℕ} {s t : FsState} {i : ℕ}

inductive FileCall
  | readi (inum : ℕ) (dst : ℕ → Byte) (off n : ℕ)
  | writei (inum : ℕ) (src : ℕ → Byte) (off n : ℕ)

def FileCall.toCall : FileCall → Call
  | .readi inum dst off n => .readi inum dst off n
  | .writei inum src off n => .writei inum src off n

section Abstract
variable (f : Inode)

/-- The bytes from `off` on are returned as far as they exist. -/
def arrayRead (dst : ℕ → Byte) (off n : ℕ) : ℤ × (ℕ → Byte) :=
  if f.size < off ∨ 2^32 ≤ off+n then (-1,dst)
  else (((min (off+n) f.size-off : ℕ) : ℤ),blit id dst 0 (min (off+n) f.size-off) fun k => f.data (off+k))

/-- Exactly the bytes from `off` to `off+n` are replaced, and the array grows if it has to. -/
def arrayWrite (src : ℕ → Byte) (off n : ℕ) : ℤ × Inode :=
  if off ≤ f.size ∧ off+n < 2^32 ∧ off+n ≤ maxFile*bSize then (n,f.written off src n) else (-1,f)

/-- A call on a family of arrays; it changes no array but its own. -/
def arrayCall (fs : ℕ → Inode) : FileCall → Reply × (ℕ → Inode)
  | .readi inum dst off n => (.read (arrayRead (fs inum) dst off n).1 (arrayRead (fs inum) dst off n).2,fs)
  | .writei inum src off n =>
    (.written (arrayWrite (fs inum) src off n).1,update fs inum (arrayWrite (fs inum) src off n).2)

def arrayCalls : List FileCall → (ℕ → Inode) → List Reply × (ℕ → Inode)
  | [], fs => ([],fs)
  | c :: cs, fs => ((arrayCall fs c).1 :: (arrayCalls cs (arrayCall fs c).2).1,(arrayCalls cs (arrayCall fs c).2).2)

end Abstract

def contents (sb : Superblock) (s : FsState) (i : ℕ) : Inode :=
  {size := (table sb s.disk i).size.toNat, data := bytes (table sb s.disk) s.disk i}

/-- The inode of the call is held and not a device, and the offset and the count are machine words. -/
def Usable (s : FsState) : FileCall → Prop
  | .readi inum _ off n => Held s inum ∧ (s.icache inum).copy.type ≠ tDev ∧ off < 2^32 ∧ n < 2^32
  | .writei inum _ off n => Held s inum ∧ (s.icache inum).copy.type ≠ tDev ∧ off < 2^32 ∧ n < 2^32

def performCalls (sb : Superblock) : List FileCall → FsState → Except Fault (List Reply × FsState)
  | [], s => .ok ([],s)
  | c :: cs, s => do
    let r ← call sb s c.toCall
    let rs ← performCalls sb cs r.2
    return (r.1 :: rs.1,rs.2)

def SameEntries (s t : FsState) : Prop :=
  ∀ j, (t.icache j).ref = (s.icache j).ref ∧ (t.icache j).valid = (s.icache j).valid ∧
    (t.icache j).copy.type = (s.icache j).copy.type

theorem SameEntries.usable (h : SameEntries s t) {c : FileCall} (hc : Usable s c) : Usable t c := by
  cases c with
  | readi inum dst off n =>
    obtain ⟨h1,h2,h3⟩ := h inum
    rw [Usable,Held,h1,h2,h3]
    exact hc
  | writei inum src off n =>
    obtain ⟨h1,h2,h3⟩ := h inum
    rw [Usable,Held,h1,h2,h3]
    exact hc

theorem written_contents (h : Consistent sb start s) (hh : Held s i) {src : ℕ → Byte} {off n : ℕ}
    {x : ℤ × Dinode × Disk} (hx : Written sb start (table sb s.disk) s.disk i src off n x)
    (hn : off+n ≤ maxFile*bSize) :
    contents sb (s.store i x.2.1 x.2.2) = update (contents sb s) i ((contents sb s i).written off src n) := by
  obtain ⟨hi,hcopy,ht,htab⟩ := h.held hh
  have htype : x.2.1.type ≠ 0 := by
    rw [hx.fields]
    dsimp only
    rw [htab,hcopy]
    exact ht
  have htable : table sb x.2.2 = update (table sb s.disk) i x.2.1 := by
    refine table_update hi hx.dinodes ?_
    rw [hx.dinode]
    exact if_neg htype
  funext j
  change Inode.mk (table sb x.2.2 j).size.toNat (bytes (table sb x.2.2) x.2.2 j) = _
  rw [htable]
  by_cases hj : j = i
  · subst hj
    have hdata : bytes (update (table sb s.disk) j x.2.1) x.2.2 j =
        blit id (bytes (table sb s.disk) s.disk j) off n src := funext hx.written
    have hsize : x.2.1.size.toNat = max (table sb s.disk j).size.toNat (off+n) := by
      have hlim : maxFile*bSize = 71680 := rfl
      have hlt := (table sb s.disk j).size.isLt
      rw [hx.fields]
      dsimp only
      rw [BitVec.toNat_ofNat]
      exact Nat.mod_eq_of_lt (max_lt hlt (by omega))
    rw [update_self,update_self,hdata,hsize]
    rfl
  · have hdata : bytes (update (table sb s.disk) i x.2.1) x.2.2 j = bytes (table sb s.disk) s.disk j :=
      funext fun o => hx.others j o hj
    rw [update_of_ne hj,update_of_ne hj,hdata]
    rfl

theorem fileCall_refines (hl : Layout sb start) (h : Consistent sb start s) (c : FileCall) (hc : Usable s c) :
    Outcome (call sb s c.toCall) (fun r => (r.1,contents sb r.2) = arrayCall (contents sb s) c ∧
      Consistent sb start r.2 ∧ SameEntries s r.2) OutOfBlocks := by
  cases c with
  | readi inum dst off n =>
    obtain ⟨hh,-,hoff,hn⟩ := hc
    obtain ⟨-,-,-,htab⟩ := h.held hh
    rw [FileCall.toCall,readi_keeps h hh dst hoff hn]
    refine Outcome.ok ⟨?_,h,fun _ => ⟨rfl,rfl,rfl⟩⟩
    have hsize : (contents sb s inum).size = (s.icache inum).copy.size.toNat := by rw [contents,htab]
    rw [arrayCall,arrayRead,hsize]
    split <;> rfl
  | writei inum src off n =>
    obtain ⟨hh,-,hoff,hn⟩ := hc
    obtain ⟨-,-,-,htab⟩ := h.held hh
    have hsize : (contents sb s inum).size = (s.icache inum).copy.size.toNat := by rw [contents,htab]
    have hlim : maxFile*bSize = 71680 := rfl
    refine (writei_call hl h hh).post ?_
    rintro r (⟨hok,x,hx,rfl⟩ | ⟨hok,rfl⟩)
    · refine ⟨?_,writei_keeps h hh hx,fun j => ?_⟩
      · rw [arrayCall,arrayWrite,hsize,if_pos (by omega),written_contents h hh hx hok.2]
      · by_cases hj : j = inum
        · subst hj
          have he : (s.store j x.2.1 x.2.2).icache j = {s.icache j with copy := x.2.1} := update_self ..
          dsimp only
          rw [he]
          refine ⟨rfl,rfl,?_⟩
          dsimp only
          rw [hx.fields]
          dsimp only
          rw [htab]
        · have he : (s.store inum x.2.1 x.2.2).icache j = s.icache j := update_of_ne hj _ _
          dsimp only
          rw [he]
          exact ⟨rfl,rfl,rfl⟩
    · refine ⟨?_,h,fun _ => ⟨rfl,rfl,rfl⟩⟩
      rw [arrayCall,arrayWrite,hsize,if_neg (by omega),update_eq_self]

/-- Reads and writes of any inodes return what they return on arrays of bytes, and fail only for want of a
block. -/
theorem files_are_byte_arrays (hl : Layout sb start) (h : Consistent sb start s) (cs : List FileCall)
    (hcs : ∀ c ∈ cs, Usable s c) :
    Outcome (performCalls sb cs s) (fun r => (r.1,contents sb r.2) = arrayCalls cs (contents sb s)) OutOfBlocks := by
  induction cs generalizing s with
  | nil => exact Outcome.ok rfl
  | cons c cs ih =>
    rw [performCalls]
    refine (fileCall_refines hl h c (hcs c List.mem_cons_self)).bind ?_
    rintro ⟨reply,s'⟩ ⟨href,hcons,hsame⟩
    have hrest := ih hcons fun c' hc' => hsame.usable (hcs c' (List.mem_cons_of_mem _ hc'))
    refine hrest.bind ?_
    rintro ⟨rs,t⟩ hrs
    refine Outcome.ok ?_
    dsimp only at href hrs ⊢
    rw [arrayCalls,← href]
    dsimp only
    rw [← hrs]

def sampleFileCalls : List FileCall :=
  [.writei 1 (fun k => BitVec.ofNat 8 k) 0 600,.writei 1 (fun _ => 7) 601 1,.readi 1 (fun _ => 0) 500 200]

theorem files_are_byte_arrays_sample : ∃ t, Consistent sampleSuper 4 t ∧ (∀ c ∈ sampleFileCalls, Usable t c) ∧
    ∃ r, performCalls sampleSuper sampleFileCalls t = .ok r ∧
      (r.1,contents sampleSuper r.2) = arrayCalls sampleFileCalls (contents sampleSuper t) := by
  have hrun : (Runs.exec (step sampleSuper) (Allowed sampleSuper) [.ialloc tFile,.ilock 1] sampleState).map
      (fun t => decide (0 < (t.icache 1).ref ∧ (t.icache 1).valid = true ∧ (t.icache 1).copy.type ≠ tDev) &&
        (performCalls sampleSuper sampleFileCalls t).toOption.isSome) = some true := by decide +kernel
  obtain ⟨t,ht,htest⟩ := Runs.exists_reaches hrun
  obtain ⟨hheld,hok⟩ := Bool.and_eq_true_iff.mp htest
  obtain ⟨href,hvalid,htype⟩ := of_decide_eq_true hheld
  have hcons := sample_consistent.reaches sample_layout ht
  have huse : ∀ c ∈ sampleFileCalls, Usable t c := by
    intro c hc
    simp only [sampleFileCalls,List.mem_cons,List.not_mem_nil,or_false] at hc
    rcases hc with rfl | rfl | rfl <;> exact ⟨⟨href,hvalid⟩,htype,by decide,by decide⟩
  refine ⟨t,hcons,huse,?_⟩
  have href := files_are_byte_arrays sample_layout hcons sampleFileCalls huse
  cases hr : performCalls sampleSuper sampleFileCalls t with
  | ok r => exact ⟨r,rfl,href.of_ok hr⟩
  | error e =>
    rw [hr] at hok
    cases hok

end Xv6Paging.Fs
