import Xv6Paging.Library.WordPage

/-! # Disk blocks read as little-endian words

A disk block holds 512 bytes. Its words are the four bytes at aligned offsets, least
significant first; an index outside the block wraps. The lemmas say which words a block
has when its bytes are given word by word, and that storing one word keeps the others.
-/
namespace Xv6Paging.Sector
open WordPage

abbrev Block := Fin 512 → Byte

instance blockBytes_neZero : NeZero 512 := ⟨by decide⟩

def byteOf (w : Word) (k : ℕ) : Byte := w.extractLsb' (8*k) 8

theorem byteOf_append (w : Word) : byteOf w 3 ++ byteOf w 2 ++ byteOf w 1 ++ byteOf w 0 = w := by
  apply BitVec.eq_of_getLsbD_eq
  intro n hn
  simp only [byteOf,BitVec.getLsbD_append,BitVec.getLsbD_extractLsb']
  grind

def wordAt (b : Block) (i : ℕ) : Word :=
  b (Fin.ofNat 512 (4*i+3)) ++ b (Fin.ofNat 512 (4*i+2)) ++ b (Fin.ofNat 512 (4*i+1)) ++
    b (Fin.ofNat 512 (4*i))

def putWords (w : ℕ → Option Word) (b : Block) : Block := fun o =>
  match w (o.val/4) with
  | some v => byteOf v (o.val%4)
  | none => b o

section PutWords
variable {w : ℕ → Option Word} {b : Block} {i : ℕ}

theorem putWords_byte (hi : i < 128) {k : ℕ} (hk : k < 4) : putWords w b (Fin.ofNat 512 (4*i+k)) =
    match w i with
    | some v => byteOf v k
    | none => b (Fin.ofNat 512 (4*i+k)) := by
  have hv : (Fin.ofNat 512 (4*i+k)).val = 4*i+k := Nat.mod_eq_of_lt (by omega)
  have hd : (4*i+k)/4 = i := by omega
  have hm : (4*i+k)%4 = k := by omega
  simp only [putWords,hv,hd,hm]

theorem wordAt_putWords (hi : i < 128) : wordAt (putWords w b) i = (w i).getD (wordAt b i) := by
  have h0 := putWords_byte (w := w) (b := b) hi (k := 0) (by decide)
  rw [Nat.add_zero] at h0
  rw [wordAt,putWords_byte hi (by decide),putWords_byte hi (by decide),putWords_byte hi (by decide),h0]
  cases w i with
  | none => rfl
  | some v => exact byteOf_append v

end PutWords

def setWord (b : Block) (i : ℕ) (v : Word) : Block := putWords (fun j => if j = i then some v else none) b

section SetWord
variable (b : Block) (v : Word) {i j : ℕ}

theorem wordAt_setWord (hi : i < 128) : wordAt (setWord b i v) i = v := by
  rw [setWord,wordAt_putWords hi,if_pos rfl]
  rfl

theorem wordAt_setWord_of_ne (hj : j < 128) (hne : j ≠ i) : wordAt (setWord b i v) j = wordAt b j := by
  rw [setWord,wordAt_putWords hj,if_neg hne]
  rfl

end SetWord

@[simp] theorem wordAt_zero (i : ℕ) : wordAt (fun _ => 0#8) i = 0#32 := by
  change (0#8 ++ 0#8 ++ 0#8 ++ 0#8 : Word) = 0#32
  decide

end Xv6Paging.Sector
