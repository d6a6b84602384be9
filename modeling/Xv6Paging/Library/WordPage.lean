import Mathlib.Algebra.Order.Ring.Nat

/-! # Pages of bytes read as little-endian words

A page holds 4096 bytes. A 32-bit word of it is the four bytes at an aligned
offset, least significant first. The two lemmas that later proofs use are that a
word just written is read back, and that writing a word changes no other word. A block
copy overwrites a range of a byte sequence, and adjacent block copies from one source
compose to one.
-/
namespace Xv6Paging.WordPage

abbrev Byte := BitVec 8
abbrev Word := BitVec 32
abbrev Page := Fin 4096 → Byte

instance pageBytes_neZero : NeZero 4096 := ⟨by decide⟩

instance word_lawfulBEq : LawfulBEq Word := inferInstance

def byteIndex (i : Fin 1024) (k : Fin 4) : Fin 4096 := ⟨4*i.val+k.val,by omega⟩

def readWord (p : Page) (i : Fin 1024) : Word :=
  p (byteIndex i 3) ++ p (byteIndex i 2) ++ p (byteIndex i 1) ++ p (byteIndex i 0)

def writeWord (p : Page) (i : Fin 1024) (w : Word) : Page := fun o =>
  if o.val/4 = i.val then w.extractLsb' (8*(o.val%4)) 8 else p o

theorem writeWord_byteIndex (p : Page) (i : Fin 1024) (w : Word) (k : Fin 4) :
    writeWord p i w (byteIndex i k) = w.extractLsb' (8*k.val) 8 := by
  have hd : (4*i.val+k.val)/4 = i.val := by omega
  have hm : (4*i.val+k.val)%4 = k.val := by omega
  simp only [writeWord,byteIndex,hd,hm,if_true]

theorem writeWord_byteIndex_of_ne (p : Page) {i j : Fin 1024} (h : j ≠ i) (w : Word) (k : Fin 4) :
    writeWord p i w (byteIndex j k) = p (byteIndex j k) := by
  have hd : ¬ (4*j.val+k.val)/4 = i.val := by
    intro hh
    exact h (Fin.ext (by omega))
  unfold writeWord byteIndex
  exact if_neg hd

@[simp] theorem readWord_writeWord_same (p : Page) (i : Fin 1024) (w : Word) :
    readWord (writeWord p i w) i = w := by
  simp only [readWord,writeWord_byteIndex]
  apply BitVec.eq_of_getLsbD_eq
  intro n hn
  simp only [BitVec.getLsbD_append,BitVec.getLsbD_extractLsb']
  grind

theorem readWord_writeWord_of_ne (p : Page) {i j : Fin 1024} (h : j ≠ i) (w : Word) :
    readWord (writeWord p i w) j = readWord p j := by
  simp only [readWord,writeWord_byteIndex_of_ne p h]

@[simp] theorem readWord_zero (i : Fin 1024) : readWord (fun _ => 0#8) i = 0#32 := by
  change (0#8 ++ 0#8 ++ 0#8 ++ 0#8 : Word) = 0#32
  decide

/-- Copies `m` bytes of `src` over the cells whose positions start at `o`. -/
def blit {ι : Type*} (pos : ι → ℕ) (dst : ι → Byte) (o m : ℕ) (src : ℕ → Byte) : ι → Byte := fun i =>
  if o ≤ pos i ∧ pos i < o+m then src (pos i-o) else dst i

section Blit
variable {ι : Type*} (pos : ι → ℕ) (dst : ι → Byte) (o : ℕ) (src : ℕ → Byte)

@[simp] theorem blit_zero : blit pos dst o 0 src = dst := by
  funext i
  have hi : ¬ (o ≤ pos i ∧ pos i < o+0) := by omega
  rw [blit,if_neg hi]

/-- A second piece copied right behind the first one makes one longer piece. -/
theorem blit_append (m n : ℕ) : blit pos (blit pos dst o m src) (o+m) n (fun k => src (m+k)) =
    blit pos dst o (m+n) src := by
  funext i
  simp only [blit]
  by_cases hm : o+m ≤ pos i ∧ pos i < o+m+n
  · have hs : m+(pos i-(o+m)) = pos i-o := by omega
    rw [if_pos hm,if_pos (by omega),hs]
  · rw [if_neg hm]
    by_cases ho : o ≤ pos i ∧ pos i < o+m
    · rw [if_pos ho,if_pos (by omega)]
    · rw [if_neg ho,if_neg (by omega)]

theorem blit_congr {src' : ℕ → Byte} {m : ℕ} (h : ∀ k < m, src k = src' k) :
    blit pos dst o m src = blit pos dst o m src' := by
  funext i
  simp only [blit]
  split
  · next hi => exact h _ (by omega)
  · rfl

theorem blit_page (dst : Page) : blit Fin.val dst 0 4096 src = fun k => src k.val := by
  funext k
  have hk : 0 ≤ k.val ∧ k.val < 0+4096 := by omega
  rw [blit,if_pos hk,Nat.sub_zero]

end Blit

end Xv6Paging.WordPage
