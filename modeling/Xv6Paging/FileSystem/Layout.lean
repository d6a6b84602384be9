import Xv6Paging.Kernel.File
import Xv6Paging.Library.Sector

/-! # The layout of the disk

The super block, the free bit map and the inode blocks of `fs.h`. A disk is the function
from block numbers to the contents that `bread` returns. The lemmas say that a stored
inode or bit is read back, and that storing one keeps the others.
-/
namespace Xv6Paging
open WordPage Sector Function

abbrev Disk := ℕ → Block

def nDirect : ℕ := 12
def nIndirect : ℕ := bSize/4
def bpb : ℕ := bSize*8
def ipb : ℕ := bSize/64

def rootIno : ℕ := 1
def dirSiz : ℕ := 14
def direntSize : ℕ := 2+dirSiz

def tDir : BitVec 16 := 1
def tFile : BitVec 16 := 2
def tDev : BitVec 16 := 3

structure Superblock where
  size : ℕ
  ninodes : ℕ
  inodestart : ℕ
  bmapstart : ℕ

/-- `struct dinode`, and the fields that `struct inode` copies from it. The last address is the
indirect block's. -/
structure Dinode where
  type : BitVec 16
  major : BitVec 16
  minor : BitVec 16
  nlink : BitVec 16
  size : Word
  addrs : Fin 13 → Word

instance addrs_neZero : NeZero 13 := ⟨by decide⟩

def Dinode.setAddr (ip : Dinode) (k : Fin 13) (a : Word) : Dinode :=
  {ip with addrs := update ip.addrs k a}

@[simp] theorem Dinode.setAddr_self (ip : Dinode) (k : Fin 13) (a : Word) : (ip.setAddr k a).addrs k = a :=
  update_self ..

def Dinode.zero : Dinode := ⟨0,0,0,0,0,fun _ => 0⟩

def Dinode.word (x : Dinode) : ℕ → Word
  | 0 => x.major ++ x.type
  | 1 => x.nlink ++ x.minor
  | 2 => x.size
  | k+3 => x.addrs (Fin.ofNat 13 k)

def Dinode.ofWords (w : ℕ → Word) : Dinode where
  type := (w 0).extractLsb' 0 16
  major := (w 0).extractLsb' 16 16
  minor := (w 1).extractLsb' 0 16
  nlink := (w 1).extractLsb' 16 16
  size := w 2
  addrs k := w (k.val+3)

theorem Dinode.ofWords_congr {w w' : ℕ → Word} (h : ∀ k < 16, w k = w' k) : ofWords w = ofWords w' := by
  have h3 : ∀ k : Fin 13, w (k.val+3) = w' (k.val+3) := fun k => h _ (by omega)
  simp only [ofWords,h 0 (by decide),h 1 (by decide),h 2 (by decide),h3]

theorem Dinode.ofWords_word (x : Dinode) : ofWords x.word = x := by
  obtain ⟨type,major,minor,nlink,size,addrs⟩ := x
  have hlow : ∀ a b : BitVec 16, (a ++ b).extractLsb' 0 16 = b := by
    intro a b
    apply BitVec.eq_of_getLsbD_eq
    intro i hi
    simp only [BitVec.getLsbD_extractLsb',BitVec.getLsbD_append]
    grind
  have hhigh : ∀ a b : BitVec 16, (a ++ b).extractLsb' 16 16 = a := by
    intro a b
    apply BitVec.eq_of_getLsbD_eq
    intro i hi
    simp only [BitVec.getLsbD_extractLsb',BitVec.getLsbD_append]
    grind
  have haddrs : (fun k : Fin 13 => addrs (Fin.ofNat 13 k.val)) = addrs := by
    funext k
    simp
  simp only [ofWords,word,hlow,hhigh,haddrs]

def dinodeAt (b : Block) (j : ℕ) : Dinode := .ofWords fun k => wordAt b (16*j+k)

def putDinode (b : Block) (j : ℕ) (x : Dinode) : Block :=
  putWords (fun i => if i/16 = j then some (x.word (i%16)) else none) b

section Inodes
variable (b : Block) (x : Dinode) {j j' : ℕ}

theorem dinodeAt_putDinode (hj : j < ipb) : dinodeAt (putDinode b j x) j = x := by
  have hj' : j < 8 := hj
  refine (Dinode.ofWords_congr fun k hk => ?_).trans x.ofWords_word
  have hd : (16*j+k)/16 = j := by omega
  have hm : (16*j+k)%16 = k := by omega
  rw [putDinode,wordAt_putWords (by omega),if_pos hd,hm]
  rfl

theorem dinodeAt_putDinode_of_ne (hj : j' < ipb) (hne : j' ≠ j) :
    dinodeAt (putDinode b j x) j' = dinodeAt b j' := by
  have hj' : j' < 8 := hj
  refine Dinode.ofWords_congr fun k hk => ?_
  have hd : ¬ (16*j'+k)/16 = j := by omega
  rw [putDinode,wordAt_putWords (by omega),if_neg hd]
  rfl

end Inodes

def bitAt (b : Block) (i : ℕ) : Bool := (b (Fin.ofNat 512 (i/8))).getLsbD (i%8)

def setBit (b : Block) (i : ℕ) : Block :=
  update b (Fin.ofNat 512 (i/8)) (b (Fin.ofNat 512 (i/8)) ||| 1#8 <<< (i%8))

def clearBit (b : Block) (i : ℕ) : Block :=
  update b (Fin.ofNat 512 (i/8)) (b (Fin.ofNat 512 (i/8)) &&& ~~~ (1#8 <<< (i%8)))

section Bits
variable (b : Block) {i j : ℕ}

theorem byte_index_inj (hi : i < bpb) (hj : j < bpb) (h : Fin.ofNat 512 (i/8) = Fin.ofNat 512 (j/8)) :
    i/8 = j/8 := by
  have hi' : i < 4096 := hi
  have hj' : j < 4096 := hj
  have hv := congrArg Fin.val h
  change i/8%512 = j/8%512 at hv
  omega

theorem getLsbD_one_shiftLeft {k m : ℕ} (hm : m < 8) : (1#8 <<< k).getLsbD m = decide (m = k) := by
  rw [BitVec.getLsbD_shiftLeft]
  by_cases h : m = k
  · subst h
    simp [hm]
  · by_cases hlt : m < k
    · simp [h,hlt]
    · simp [h,hlt,hm,BitVec.getLsbD_one,show m-k ≠ 0 by omega]

theorem bitAt_setBit (hi : i < bpb) (hj : j < bpb) : bitAt (setBit b i) j = (bitAt b j || decide (j = i)) := by
  have hm : j%8 < 8 := Nat.mod_lt _ (by decide)
  by_cases h : Fin.ofNat 512 (j/8) = Fin.ofNat 512 (i/8)
  · have hd := byte_index_inj hj hi h
    have hiff : (j%8 = i%8) ↔ j = i := by omega
    rw [bitAt,bitAt,setBit,h,update_self,BitVec.getLsbD_or,getLsbD_one_shiftLeft hm]
    simp only [hiff]
  · have hne : j ≠ i := by
      rintro rfl
      exact h rfl
    rw [bitAt,bitAt,setBit,update_of_ne h]
    simp [hne]

theorem bitAt_clearBit (hi : i < bpb) (hj : j < bpb) :
    bitAt (clearBit b i) j = (bitAt b j && !decide (j = i)) := by
  have hm : j%8 < 8 := Nat.mod_lt _ (by decide)
  by_cases h : Fin.ofNat 512 (j/8) = Fin.ofNat 512 (i/8)
  · have hd := byte_index_inj hj hi h
    have hiff : (j%8 = i%8) ↔ j = i := by omega
    rw [bitAt,bitAt,clearBit,h,update_self,BitVec.getLsbD_and,BitVec.getLsbD_not,
      getLsbD_one_shiftLeft hm]
    simp [hiff,hm]
  · have hne : j ≠ i := by
      rintro rfl
      exact h rfl
    rw [bitAt,bitAt,clearBit,update_of_ne h]
    simp [hne]

end Bits

namespace Superblock
variable (sb : Superblock)

def iblock (i : ℕ) : ℕ := i/ipb+sb.inodestart

def bblock (b : ℕ) : ℕ := b/bpb+sb.bmapstart

def dinode (d : Disk) (i : ℕ) : Dinode := dinodeAt (d (sb.iblock i)) (i%ipb)

def setDinode (d : Disk) (i : ℕ) (x : Dinode) : Disk :=
  update d (sb.iblock i) (putDinode (d (sb.iblock i)) (i%ipb) x)

def marked (d : Disk) (b : ℕ) : Bool := bitAt (d (sb.bblock b)) (b%bpb)

def mark (d : Disk) (b : ℕ) : Disk :=
  update d (sb.bblock b) (setBit (d (sb.bblock b)) (b%bpb))

def unmark (d : Disk) (b : ℕ) : Disk :=
  update d (sb.bblock b) (clearBit (d (sb.bblock b)) (b%bpb))

variable {sb} {d d' : Disk} {b c i : ℕ}

theorem dinode_congr (h : d' (sb.iblock i) = d (sb.iblock i)) : sb.dinode d' i = sb.dinode d i := by
  rw [dinode,dinode,h]

theorem marked_congr (h : d' (sb.bblock b) = d (sb.bblock b)) : sb.marked d' b = sb.marked d b := by
  rw [marked,marked,h]

theorem dinode_setDinode (x : Dinode) : sb.dinode (sb.setDinode d i x) i = x := by
  rw [dinode,setDinode,update_self,dinodeAt_putDinode _ _ (Nat.mod_lt _ (by decide))]

theorem dinode_setDinode_of_ne (x : Dinode) {j : ℕ} (h : j ≠ i) :
    sb.dinode (sb.setDinode d i x) j = sb.dinode d j := by
  by_cases hb : sb.iblock j = sb.iblock i
  · have hne : j%ipb ≠ i%ipb := by
      simp only [iblock] at hb
      have hj := Nat.div_add_mod j ipb
      have hi := Nat.div_add_mod i ipb
      have hd : j/ipb = i/ipb := by omega
      intro hm
      rw [hd,hm] at hj
      omega
    rw [dinode,dinode,setDinode,hb,update_self,
      dinodeAt_putDinode_of_ne _ _ (Nat.mod_lt _ (by decide)) hne]
  · rw [dinode,dinode,setDinode,update_of_ne hb]

theorem mod_eq_of_bblock (h : sb.bblock c = sb.bblock b) : c%bpb = b%bpb ↔ c = b := by
  simp only [bblock] at h
  have hc := Nat.div_add_mod c bpb
  have hb := Nat.div_add_mod b bpb
  have hd : c/bpb = b/bpb := by omega
  constructor
  · intro hm
    rw [hd,hm] at hc
    omega
  · rintro rfl
    rfl

theorem marked_mark : sb.marked (sb.mark d b) c = (sb.marked d c || decide (c = b)) := by
  by_cases h : sb.bblock c = sb.bblock b
  · rw [marked,marked,mark,h,update_self,
      bitAt_setBit _ (Nat.mod_lt _ (by decide)) (Nat.mod_lt _ (by decide))]
    simp only [mod_eq_of_bblock h]
  · have hne : c ≠ b := fun he => h (he ▸ rfl)
    rw [marked,marked,mark,update_of_ne h]
    simp [hne]

theorem marked_unmark : sb.marked (sb.unmark d b) c = (sb.marked d c && !decide (c = b)) := by
  by_cases h : sb.bblock c = sb.bblock b
  · rw [marked,marked,unmark,h,update_self,
      bitAt_clearBit _ (Nat.mod_lt _ (by decide)) (Nat.mod_lt _ (by decide))]
    simp only [mod_eq_of_bblock h]
  · have hne : c ≠ b := fun he => h (he ▸ rfl)
    rw [marked,marked,unmark,update_of_ne h]
    simp [hne]

end Superblock

end Xv6Paging
