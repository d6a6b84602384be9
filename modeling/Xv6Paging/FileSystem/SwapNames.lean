import Mathlib.Data.List.GetD
import Mathlib.Data.Nat.Digits.Lemmas
import Xv6Paging.FileSystem.Paths

/-! # The names of swap files

`itoa`, and the path that `createSwapFile` and `removeSwapFile` build from it in a buffer of
`DIGITS` bytes. The path of a process number of up to seven digits fits, and then no other
process has a file of that name.
-/
namespace Xv6Paging.Fs
open WordPage Function

def digitsSize : ℕ := 14

def putByte (path : ℕ → Byte) (p : ℕ) (b : Byte) : Except Fault (ℕ → Byte) :=
  if p < digitsSize then .ok (update path p b) else .error .outOfBounds

def digit (d : ℕ) : Byte := BitVec.ofNat 8 (48+d)

/-- The first loop of `itoa`: where the digits end. -/
def digitsEnd (p shifter : ℕ) : ℕ := if shifter/10 = 0 then p+1 else digitsEnd (p+1) (shifter/10)
termination_by shifter

/-- The second loop, which writes the digits from the last to the first. -/
def putDigits (path : ℕ → Byte) (p i : ℕ) : Except Fault (ℕ → Byte) := do
  let path ← putByte path (p-1) (digit (i%10))
  if i/10 = 0 then return path else putDigits path (p-1) (i/10)
termination_by i

/-- `b` is the offset in the buffer. -/
def itoa (i : ℤ) (b : ℕ) (path : ℕ → Byte) : Except Fault (ℕ → Byte) :=
  if i < 0 then do
    let path ← putByte path b 45
    let p := digitsEnd (b+1) (-i).toNat
    let path ← putByte path p 0
    putDigits path p (-i).toNat
  else do
    let p := digitsEnd b i.toNat
    let path ← putByte path p 0
    putDigits path p i.toNat

def swapDir : List Byte := [47,46,115,119,97,112]

def swapPath (pid : ℤ) (path : ℕ → Byte) : Except Fault (ℕ → Byte) :=
  itoa pid 6 (blit id path 0 6 fun k => swapDir.getD k 0)

def decimal (n : ℕ) : List Byte := (Nat.digits 10 n).reverse.map digit

section
variable {path : ℕ → Byte} {b p i n : ℕ}

theorem decimal_length (n : ℕ) : (decimal n).length = (Nat.digits 10 n).length := by
  rw [decimal,List.length_map,List.length_reverse]

theorem decimal_zero : decimal 0 = [] := rfl

theorem decimal_step (hi : 0 < i) : decimal i = decimal (i/10) ++ [digit (i%10)] := by
  rw [decimal,Nat.digits_def' (by decide) hi,List.reverse_cons,List.map_append]
  rfl

theorem digitsEnd_eq (hi : 0 < i) (p : ℕ) : digitsEnd p i = p+(decimal i).length := by
  induction i using Nat.strong_induction_on generalizing p with
  | _ i ih =>
    rw [digitsEnd,decimal_step hi,List.length_append,List.length_singleton]
    by_cases hl : i/10 = 0
    · rw [if_pos hl,hl]
      rfl
    · rw [if_neg hl,ih (i/10) (by omega) (by omega)]
      omega

theorem blit_concat (path : ℕ → Byte) (b : ℕ) (l : List Byte) (x : Byte) :
    blit id (update path (b+l.length) x) b l.length (fun k => l.getD k 0) =
      blit id path b (l ++ [x]).length fun k => (l ++ [x]).getD k 0 := by
  funext k
  simp only [blit,id,List.length_append,List.length_singleton]
  by_cases hin : b ≤ k ∧ k < b+l.length
  · rw [if_pos hin,if_pos (by omega),List.getD_append _ _ _ _ (by omega)]
  · rw [if_neg hin]
    by_cases hk : k = b+l.length
    · rw [hk,update_self,if_pos (by omega),Nat.add_sub_cancel_left,List.getD_append_right _ _ _ _ le_rfl,
        Nat.sub_self]
      rfl
    · rw [update_of_ne hk,if_neg (by omega)]

theorem putDigits_eq (path : ℕ → Byte) (hi : 0 < i) (hfit : b+(decimal i).length ≤ digitsSize) :
    putDigits path (b+(decimal i).length) i =
      .ok (blit id path b (decimal i).length fun k => (decimal i).getD k 0) := by
  induction i using Nat.strong_induction_on generalizing path with
  | _ i ih =>
    have hlen : (decimal i).length = (decimal (i/10)).length+1 := by
      rw [decimal_step hi,List.length_append,List.length_singleton]
    have hput : putByte path (b+(decimal i).length-1) (digit (i%10)) =
        .ok (update path (b+(decimal (i/10)).length) (digit (i%10))) := by
      rw [hlen,putByte,if_pos (by omega)]
      rfl
    have hconcat := blit_concat path b (decimal (i/10)) (digit (i%10))
    rw [← decimal_step hi] at hconcat
    rw [putDigits,hput]
    dsimp only [bind,Except.bind]
    by_cases hl : i/10 = 0
    · rw [if_pos hl,← hconcat,hl,decimal_zero,List.length_nil,blit_zero]
      rfl
    · have hback : b+(decimal i).length-1 = b+(decimal (i/10)).length := by omega
      rw [if_neg hl,hback,ih (i/10) (by omega) _ (by omega) (by omega),hconcat]

theorem swapPath_eq {pid : ℕ} (hpid : 0 < pid) (hfit : 6+(decimal pid).length < digitsSize) (path : ℕ → Byte) :
    ∃ path', swapPath pid path = .ok path' ∧
      ∀ k ≤ 6+(decimal pid).length, path' k = (swapDir ++ decimal pid).getD k 0 := by
  have hput := putDigits_eq (update (blit id path 0 6 fun k => swapDir.getD k 0) (6+(decimal pid).length) 0)
    hpid hfit.le
  refine ⟨blit id (update (blit id path 0 6 fun k => swapDir.getD k 0) (6+(decimal pid).length) 0) 6
    (decimal pid).length fun k => (decimal pid).getD k 0,?_,?_⟩
  · rw [swapPath,itoa,if_neg (by omega),Int.toNat_natCast,digitsEnd_eq hpid]
    dsimp only
    rw [putByte,if_pos hfit]
    exact hput
  · intro k hk
    have hdir : swapDir.length = 6 := rfl
    rw [blit,id]
    by_cases hdigit : 6 ≤ k ∧ k < 6+(decimal pid).length
    · rw [if_pos hdigit,List.getD_append_right _ _ _ _ hdigit.1,hdir]
    · rw [if_neg hdigit]
      by_cases hend : k = 6+(decimal pid).length
      · rw [hend,update_self,List.getD_eq_default]
        rw [List.length_append,hdir]
      · rw [update_of_ne hend,blit,id,if_pos (by omega),Nat.sub_zero,List.getD_append _ _ _ _ (by omega)]

theorem swapPath_error {pid : ℕ} (hpid : 0 < pid) (hfit : digitsSize ≤ 6+(decimal pid).length) (path : ℕ → Byte) :
    swapPath pid path = .error .outOfBounds := by
  rw [swapPath,itoa,if_neg (by omega),Int.toNat_natCast,digitsEnd_eq hpid]
  dsimp only
  rw [putByte,if_neg (by omega)]
  rfl

theorem digit_inj {c d : ℕ} (hc : c < 10) (hd : d < 10) (h : digit c = digit d) : c = d := by
  have hnat := congrArg BitVec.toNat h
  rw [digit,digit,BitVec.toNat_ofNat,BitVec.toNat_ofNat] at hnat
  omega

theorem decimal_injective : Function.Injective decimal := by
  intro i
  induction i using Nat.strong_induction_on with
  | _ i ih =>
    intro j h
    have hlen := congrArg List.length h
    rcases Nat.eq_zero_or_pos i with rfl | hi
    · rcases Nat.eq_zero_or_pos j with rfl | hj
      · rfl
      · rw [decimal_step hj,List.length_append] at hlen
        cases hlen
    · rcases Nat.eq_zero_or_pos j with rfl | hj
      · rw [decimal_step hi,List.length_append] at hlen
        cases hlen
      · rw [decimal_step hi,decimal_step hj] at h
        obtain ⟨hinit,hlast⟩ := List.append_inj' h rfl
        have hdiv := ih (i/10) (by omega) hinit
        have hmod := digit_inj (by omega) (by omega) (List.singleton_inj.mp hlast)
        omega

theorem mem_decimal {x : Byte} (hx : x ∈ decimal n) : x ≠ 0 ∧ x ≠ slash := by
  rw [decimal,List.mem_map] at hx
  obtain ⟨d,hd,rfl⟩ := hx
  have hlt := Nat.digits_lt_base (by decide) (List.mem_reverse.mp hd)
  have hval : (digit d).toNat = 48+d := by
    rw [digit,BitVec.toNat_ofNat]
    omega
  refine ⟨fun h => ?_,fun h => ?_⟩
  · rw [h] at hval
    have hzero : (0 : Byte).toNat = 0 := rfl
    omega
  · rw [h] at hval
    have hslash : slash.toNat = 47 := rfl
    omega

def swapElem (pid : ℕ) : List Byte := swapDir.tail ++ decimal pid

theorem zero_notMem_swapElem (pid : ℕ) : (0 : Byte) ∉ swapElem pid := by
  intro h
  rcases List.mem_append.mp h with h | h
  · exact absurd h (by decide)
  · exact (mem_decimal h).1 rfl

theorem swapElem_length (pid : ℕ) : (swapElem pid).length = 5+(decimal pid).length := by
  rw [swapElem,List.length_append]
  rfl

theorem skipelem_swapPath (pid : ℕ) (name : ℕ → Byte) :
    skipelem (swapDir ++ decimal pid) name = some ([],copyElem name (swapElem pid)) := by
  have hcons : swapDir ++ decimal pid = slash :: 46 :: ([115,119,97,112] ++ decimal pid) := rfl
  have helem : (46 : Byte) :: ([115,119,97,112] ++ decimal pid) = swapElem pid := rfl
  have hslash : ∀ x ∈ swapElem pid, decide (x ≠ slash) = true := by
    intro x hx
    rcases List.mem_append.mp hx with h | h
    · exact decide_eq_true fun he => absurd (he ▸ h) (by decide)
    · exact decide_eq_true (mem_decimal h).2
  have hdrop : (swapDir ++ decimal pid).dropWhile (· = slash) = swapElem pid := by
    rw [hcons,List.dropWhile_cons_of_pos (by decide),List.dropWhile_cons_of_neg (by decide),helem]
  have hne : swapElem pid ≠ [] := List.cons_ne_nil _ _
  rw [skipelem,hdrop]
  dsimp only
  rw [if_neg hne,List.takeWhile_eq_self_iff.mpr hslash,List.dropWhile_eq_nil_iff.mpr hslash]
  rfl

theorem nameOf_swapElem (pid : ℕ) (name : ℕ → Byte) :
    nameOf (copyElem name (swapElem pid)) = (swapElem pid).take dirSiz :=
  nameOf_copyElem (zero_notMem_swapElem pid)

end

/-- The path is built inside the buffer from the decimal representation, and `namecmp` takes no other
process's name for it. -/
structure NamesSwapFile (pid : ℕ) : Prop where
  fits (path : ℕ → Byte) : ∃ path', swapPath pid path = .ok path' ∧
    cstr path' digitsSize = swapDir ++ decimal pid ∧ (swapDir ++ decimal pid).length < digitsSize
  distinct (pid' : ℕ) (_ : 0 < pid') (_ : pid' < 2^31) (_ : pid' ≠ pid) (name name' : ℕ → Byte)
    (r r' : List Byte × (ℕ → Byte)) (_ : skipelem (swapDir ++ decimal pid) name = some r)
    (_ : skipelem (swapDir ++ decimal pid') name' = some r') : namecmp r.2 r'.2 ≠ 0

section
variable {pid pid' : ℕ}

theorem decimal_length_le_iff (n : ℕ) : (decimal n).length ≤ 7 ↔ n < 10^7 := by
  rw [decimal_length,Nat.digits_length_le_iff (by decide)]

theorem take_swapElem_ne (hlt : pid < 10^7) (hne : pid' ≠ pid) :
    (swapElem pid).take dirSiz ≠ (swapElem pid').take dirSiz := by
  intro h
  have hseven := (decimal_length_le_iff pid).mpr hlt
  have hdir : dirSiz = 14 := rfl
  have hlen := congrArg List.length h
  rw [List.length_take,List.length_take,swapElem_length,swapElem_length] at hlen
  rw [List.take_of_length_le (by rw [swapElem_length]; omega),
    List.take_of_length_le (by rw [swapElem_length]; omega)] at h
  exact hne (decimal_injective (List.append_cancel_left h)).symm

/-- The condition is what the buffer's size leaves for the digits. -/
theorem namesSwapFile_iff (hpos : 0 < pid) : NamesSwapFile pid ↔ pid < 10^7 := by
  have hlen : (swapDir ++ decimal pid).length = 6+(decimal pid).length := by
    rw [List.length_append]
    rfl
  have hsize : digitsSize = 14 := rfl
  rw [← decimal_length_le_iff]
  constructor
  · intro h
    obtain ⟨path',-,-,hfit⟩ := h.fits fun _ => 0
    omega
  · intro hseven
    have hzero : (0 : Byte) ∉ swapDir ++ decimal pid := by
      intro h
      rcases List.mem_append.mp h with h | h
      · exact absurd h (by decide)
      · exact (mem_decimal h).1 rfl
    refine ⟨fun path => ?_,fun pid' _ _ hne name name' r r' hr hr' => ?_⟩
    · obtain ⟨path',hok,hbytes⟩ := swapPath_eq hpos (by omega) path
      refine ⟨path',hok,?_,by omega⟩
      rw [cstr_eq_take hzero fun k _ hk => hbytes k (by omega),List.take_of_length_le (by omega)]
    · rw [skipelem_swapPath,Option.some_inj] at hr hr'
      subst hr
      subst hr'
      rw [Ne,namecmp_eq_zero,nameOf_swapElem,nameOf_swapElem]
      exact take_swapElem_ne ((decimal_length_le_iff pid).mp hseven) hne

end

theorem namesSwapFile_four : 0 < 4 ∧ NamesSwapFile 4 :=
  ⟨by decide,(namesSwapFile_iff (by decide)).mpr (by decide)⟩

/-- With eight digits the buffer is too short, and with ten the names of two processes are the same. -/
theorem swapNames_fail : ¬ NamesSwapFile 10000000 ∧ (∀ path, swapPath 10000000 path = .error .outOfBounds) ∧
    ∀ name name' r r', skipelem (swapDir ++ decimal 1000000000) name = some r →
      skipelem (swapDir ++ decimal 1000000001) name' = some r' → namecmp r.2 r'.2 = 0 := by
  have hover : ∀ path, swapPath 10000000 path = .error .outOfBounds := fun path =>
    swapPath_error (Nat.zero_lt_succ 9999999) (by decide +kernel) path
  refine ⟨fun h => ?_,hover,fun name name' r r' hr hr' => ?_⟩
  · obtain ⟨path',hok,-⟩ := h.fits fun _ => 0
    have herr := hover fun _ => 0
    cases herr.symm.trans hok
  · rw [skipelem_swapPath,Option.some_inj] at hr hr'
    subst hr
    subst hr'
    rw [namecmp_eq_zero,nameOf_swapElem,nameOf_swapElem]
    decide +kernel

end Xv6Paging.Fs
