import Xv6Paging.Library.WordPage

/-! # Page-table entries

The constants and macros of `mmu.h` and `memlayout.h`. An entry is a 32-bit word
whose upper twenty bits name a physical frame and whose lower twelve bits are
flags. Physical frames are named by their page number, so `PTE_ADDR` yields a
`Frame` and `V2P(mem) | flags` is `frameAddr mem ||| flags`.
-/
namespace Xv6Paging
open WordPage

abbrev Frame := BitVec 20

def pgSize : ℕ := 4096
def kernBase : ℕ := 0x80000000
def extMem : ℕ := 0x100000
def phystop : ℕ := 0xE000000
def devSpace : ℕ := 0xFE000000
def kernLink : ℕ := kernBase+extMem

def pteP : Word := 0x001#32
def pteW : Word := 0x002#32
def pteU : Word := 0x004#32
def pteA : Word := 0x020#32
def pteD : Word := 0x040#32
def ptePG : Word := 0x200#32

def pteAddr (w : Word) : Frame := w.extractLsb' 12 20

def pteFlags (w : Word) : Word := w &&& 0xFFF#32

def frameAddr (f : Frame) : Word := f ++ 0#12

def has (w m : Word) : Bool := w &&& m != 0#32

def pdx (va : ℕ) : Fin 1024 := Fin.ofNat 1024 (va/2^22)

def ptx (va : ℕ) : Fin 1024 := Fin.ofNat 1024 (va/2^12)

def pgRoundUp (sz : ℕ) : ℕ := (sz+pgSize-1)%2^32/pgSize*pgSize
def pgRoundDown (a : ℕ) : ℕ := a/pgSize*pgSize

theorem has_twoPow (w : Word) {i : ℕ} (hi : i < 32) : has w (BitVec.twoPow 32 i) = w.getLsbD i := by
  rw [has,BitVec.and_twoPow]
  cases h : w.getLsbD i with
  | false => simp
  | true =>
    have hne : BitVec.twoPow 32 i ≠ 0#32 := by
      intro he
      have hb := congrArg (fun v => BitVec.getLsbD v i) he
      simp [hi] at hb
    simp [hne]

@[simp] theorem has_pteP (w : Word) : has w pteP = w.getLsbD 0 := has_twoPow w (i := 0) (by decide)
@[simp] theorem has_pteW (w : Word) : has w pteW = w.getLsbD 1 := has_twoPow w (i := 1) (by decide)
@[simp] theorem has_pteU (w : Word) : has w pteU = w.getLsbD 2 := has_twoPow w (i := 2) (by decide)
@[simp] theorem has_pteA (w : Word) : has w pteA = w.getLsbD 5 := has_twoPow w (i := 5) (by decide)
@[simp] theorem has_ptePG (w : Word) : has w ptePG = w.getLsbD 9 := has_twoPow w (i := 9) (by decide)

@[simp] theorem pteAddr_or (v w : Word) : pteAddr (v ||| w) = pteAddr v ||| pteAddr w :=
  BitVec.extractLsb'_or
@[simp] theorem pteAddr_and (v w : Word) : pteAddr (v &&& w) = pteAddr v &&& pteAddr w :=
  BitVec.extractLsb'_and
@[simp] theorem pteAddr_frameAddr (f : Frame) : pteAddr (frameAddr f) = f := by
  unfold pteAddr frameAddr
  rw [BitVec.extractLsb'_append_eq_of_le (by decide)]
  simp

@[simp] theorem pteAddr_pteP : pteAddr pteP = 0 := by decide
@[simp] theorem pteAddr_pteW : pteAddr pteW = 0 := by decide
@[simp] theorem pteAddr_pteU : pteAddr pteU = 0 := by decide
@[simp] theorem pteAddr_pteA : pteAddr pteA = 0 := by decide
@[simp] theorem pteAddr_pteD : pteAddr pteD = 0 := by decide
@[simp] theorem pteAddr_ptePG : pteAddr ptePG = 0 := by decide
@[simp] theorem pteAddr_not_pteP : pteAddr (~~~pteP) = BitVec.allOnes 20 := by decide
@[simp] theorem pteAddr_not_pteA : pteAddr (~~~pteA) = BitVec.allOnes 20 := by decide
@[simp] theorem pteAddr_not_ptePG : pteAddr (~~~ptePG) = BitVec.allOnes 20 := by decide

@[simp] theorem pteAddr_pteFlags (w : Word) : pteAddr (pteFlags w) = 0 := by
  have h : pteAddr 0xFFF#32 = 0 := by decide
  simp [pteFlags,h]

theorem frameAddr_getLsbD (f : Frame) {i : ℕ} (hi : i < 12) : (frameAddr f).getLsbD i = false := by
  have h := BitVec.getLsbD_append (x := f) (y := 0#12) (i := i)
  rw [if_pos hi] at h
  exact h.trans (by simp)

theorem pteFlags_getLsbD (w : Word) {i : ℕ} (hi : i < 12) : (pteFlags w).getLsbD i = w.getLsbD i := by
  have hb : ∀ i, i < 12 → (0xFFF#32).getLsbD i = true := by decide
  simp [pteFlags,hb i hi]

theorem pteFlags_or (v w : Word) : pteFlags (v ||| w) = pteFlags v ||| pteFlags w := by
  refine BitVec.eq_of_getLsbD_eq fun i _ => ?_
  simp [pteFlags,Bool.and_or_distrib_right]

theorem pteFlags_toNat (w : Word) : (pteFlags w).toNat = w.toNat%2^12 := by
  rw [pteFlags,BitVec.toNat_and]
  exact Nat.and_two_pow_sub_one_eq_mod _ 12

theorem pteAddr_toNat (w : Word) : (pteAddr w).toNat = w.toNat/2^12 := by
  have hlt := w.isLt
  rw [pteAddr,BitVec.extractLsb'_toNat,Nat.shiftRight_eq_div_pow]
  omega

end Xv6Paging
