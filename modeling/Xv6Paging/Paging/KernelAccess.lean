import Xv6Paging.Kernel.Syscall
import Xv6Paging.Paging.GrowthContents
import Xv6Paging.Paging.Transparency

/-! # Kernel code at user addresses

System calls compare a user address with the size of the process and then use it as a pointer. The bytes of the process
are in memory or in the swap file, but a fault of kernel code is not repaired, so such a pointer is good only as long as
its page is in memory.
-/
namespace Xv6Paging
open WordPage PageTree Function

/-- The byte of the process at `x`, from memory or from the swap file. -/
def Kernel.seenByte (s : Kernel) (x : ℕ) : Option Byte :=
  (s.userPage (pgRoundDown x)).map fun pg => pg (pageOffset x)

def Kernel.seenWord (s : Kernel) (x : ℕ) : Option Word := do
  let b0 ← s.seenByte x
  let b1 ← s.seenByte (x+1)
  let b2 ← s.seenByte (x+2)
  let b3 ← s.seenByte (x+3)
  return b3 ++ b2 ++ b1 ++ b0

/-- Kernel code that reads at `x` finds the byte of the process, and the process finds what kernel code writes there. -/
structure KernelSees (s : Kernel) (x : ℕ) : Prop where
  read : ∃ b, s.seenByte x = some b ∧ kernelByte x s = .ok b
  write : ∀ b, ∃ s', kernelStore x b s = .ok s' ∧ ∀ y < s.proc.sz, s'.seenByte y = if y = x then some b else s.seenByte y

/-- The length of the string at `a`, or `none` if the process ends before the string. -/
def SeenString (s : Kernel) (a : ℕ) : Option ℕ → Prop
  | none => ∀ x, a ≤ x → x < s.proc.sz → s.seenByte x ≠ some 0
  | some k => a+k < s.proc.sz ∧ s.seenByte (a+k) = some 0 ∧ ∀ x, a ≤ x → x < a+k → s.seenByte x ≠ some 0

def InString (s : Kernel) (a x : ℕ) : Prop :=
  a ≤ x ∧ x < s.proc.sz ∧ ∀ y, a ≤ y → y < x → s.seenByte y ≠ some 0

def Kernel.inMemory (s : Kernel) (x : ℕ) : Bool := has (s.pte s.proc.pgdir (vpn x)) pteP

/-- An address space of its own in which the pages of the process that are present can be written. -/
structure Resides (c : Config) (s : Kernel) : Prop where
  wf : Wf c {s.proc.pgdir} s
  size : s.proc.sz ≤ kernBase
  writable : ∀ x < s.proc.sz, s.inMemory x = true → has (s.pte s.proc.pgdir (vpn x)) pteW = true

section Bytes
variable {c : Config} {s : Kernel} {x y : ℕ} {b : Byte}

theorem eq_of_pageOffset (hr : pgRoundDown y = pgRoundDown x) (ho : pageOffset y = pageOffset x) : y = x := by
  have hmod : y%4096 = x%4096 := Fin.ext_iff.mp ho
  simp only [pgRoundDown,pgSize] at hr
  omega

theorem seenByte_of_inMemory (hm : s.inMemory x = true) :
    s.seenByte x = some (s.page s.proc.pgdir (vpn x) (pageOffset x)) := by
  have hp : has (s.pte s.proc.pgdir (vpn x)) pteP = true := hm
  rw [Kernel.seenByte,Kernel.userPage,vpn_roundDown,if_pos hp]
  rfl

theorem kernelByte_eq (x : ℕ) (s : Kernel) : kernelByte x s =
    if s.inMemory x then .ok (s.page s.proc.pgdir (vpn x) (pageOffset x)) else .error (.panic "trap") := by
  unfold kernelByte Kernel.inMemory
  rw [kernelAccess_eq]
  split <;> rfl

theorem exists_kernelByte (hm : s.inMemory x = true) : ∃ b, s.seenByte x = some b ∧ kernelByte x s = .ok b := by
  refine ⟨_,seenByte_of_inMemory hm,?_⟩
  rw [kernelByte_eq,if_pos hm]

theorem inMemory_of_kernelByte (hr : kernelByte x s = .ok b) : s.inMemory x = true := by
  rw [kernelByte_eq] at hr
  split at hr
  · next hm => exact hm
  · cases hr

theorem Same.userPage {s' : Kernel} {a c : ℕ} (h : Same {s.proc.pgdir} {(s.proc.pgdir,vpn a)} s s')
    (hproc : s'.proc = s.proc) (ha : UserPage a) (hc : UserPage c) (hne : c ≠ a) : s'.userPage c = s.userPage c := by
  have hk : (s.proc.pgdir,vpn c) ∉ ({(s.proc.pgdir,vpn a)} : Set (Frame × Index)) :=
    fun hm => ha.vpn_ne hc hne (Prod.ext_iff.mp hm).2
  unfold Kernel.userPage
  rw [hproc,h.pte_of_ne rfl ha hc hne]
  by_cases hp : has (s.pte s.proc.pgdir (vpn c)) pteP = true
  · rw [if_pos hp,if_pos hp,h.page rfl hk hc.own hp]
  · rw [if_neg hp,if_neg hp]

theorem Resides.kernelStore (h : Resides c s) (hx : x < s.proc.sz) (hm : s.inMemory x = true) (b : Byte) :
    ∃ s', kernelStore x b s = .ok s' ∧ ∀ y < s.proc.sz, s'.seenByte y = if y = x then some b else s.seenByte y := by
  have hp : has (s.pte s.proc.pgdir (vpn x)) pteP = true := hm
  have hw := h.writable x hx hm
  have hu := UserPage.roundDown (hx.trans_le h.size)
  obtain ⟨t,ht⟩ := table_of_has hp
  have hstore : Xv6Paging.kernelStore x b s = .ok (s.store (pteAddr (s.pte s.proc.pgdir (vpn x)))
      (update (s.page s.proc.pgdir (vpn x)) (pageOffset x) b)) := by
    simp only [Xv6Paging.kernelStore,walkpgdir_of_table ht,readPte_eq ht,hp,hw,Bool.and_self,if_true]
    rfl
  have hwrite := h.wf.store_page rfl hu.own (vpn_roundDown x ▸ hp) (update (s.page s.proc.pgdir (vpn x)) (pageOffset x) b)
  rw [vpn_roundDown] at hwrite
  refine ⟨_,hstore,?_⟩
  have hproc : (s.store (pteAddr (s.pte s.proc.pgdir (vpn x))) (update (s.page s.proc.pgdir (vpn x)) (pageOffset x)
    b)).proc = s.proc := rfl
  generalize s.store _ _ = s' at hwrite hproc
  obtain ⟨-,hsame,hpte,hpage⟩ := hwrite
  intro y hy
  by_cases hr : pgRoundDown y = pgRoundDown x
  · have hk : vpn y = vpn x := by rw [← vpn_roundDown y,hr,vpn_roundDown]
    have hmy : s.inMemory y = true := by rw [Kernel.inMemory,hk,hp]
    have hmy' : s'.inMemory y = true := by rw [Kernel.inMemory,hproc,hk,hpte,hp]
    rw [seenByte_of_inMemory hmy',seenByte_of_inMemory hmy,hproc,hk,hpage]
    by_cases hyx : y = x
    · rw [if_pos hyx,hyx,update_self]
    · rw [if_neg hyx,update_of_ne (fun ho => hyx (eq_of_pageOffset hr ho))]
  · have hyx : y ≠ x := fun he => hr (congrArg pgRoundDown he)
    rw [← vpn_roundDown x] at hsame
    rw [if_neg hyx,Kernel.seenByte,Kernel.seenByte,hsame.userPage hproc hu (.roundDown (hy.trans_le h.size)) hr]

theorem Resides.sees_iff (h : Resides c s) (hx : x < s.proc.sz) : KernelSees s x ↔ s.inMemory x = true := by
  constructor
  · rintro ⟨⟨b,-,hr⟩,-⟩
    exact inMemory_of_kernelByte hr
  · intro hm
    exact ⟨exists_kernelByte hm,h.kernelStore hx hm⟩

end Bytes

section Calls
variable {c : Config} {s : Kernel} {a n : ℕ}

theorem kernelWord_iff : (∃ w, s.seenWord a = some w ∧ kernelWord a s = .ok w) ↔
    ∀ x, a ≤ x → x < a+4 → s.inMemory x = true := by
  constructor
  · rintro ⟨w,-,hw⟩ x hlo hhi
    obtain ⟨b0,h0,hw⟩ := bind_eq_ok hw
    obtain ⟨b1,h1,hw⟩ := bind_eq_ok hw
    obtain ⟨b2,h2,hw⟩ := bind_eq_ok hw
    obtain ⟨b3,h3,-⟩ := bind_eq_ok hw
    obtain rfl | rfl | rfl | rfl : x = a ∨ x = a+1 ∨ x = a+2 ∨ x = a+3 := by omega
    · exact inMemory_of_kernelByte h0
    · exact inMemory_of_kernelByte h1
    · exact inMemory_of_kernelByte h2
    · exact inMemory_of_kernelByte h3
  · intro hm
    obtain ⟨b0,hs0,h0⟩ := exists_kernelByte (hm a le_rfl (by omega))
    obtain ⟨b1,hs1,h1⟩ := exists_kernelByte (hm (a+1) (by omega) (by omega))
    obtain ⟨b2,hs2,h2⟩ := exists_kernelByte (hm (a+2) (by omega) (by omega))
    obtain ⟨b3,hs3,h3⟩ := exists_kernelByte (hm (a+3) (by omega) (by omega))
    refine ⟨b3 ++ b2 ++ b1 ++ b0,?_,?_⟩
    · rw [Kernel.seenWord,hs0,hs1,hs2,hs3]
      rfl
    · rw [kernelWord,h0,h1,h2,h3]
      rfl

theorem fetchint_iff (hlt : a < s.proc.sz) (hend : (a+4)%2^32 ≤ s.proc.sz) :
    (∃ w, s.seenWord a = some w ∧ fetchint a s = .ok (some w)) ↔ ∀ x, a ≤ x → x < a+4 → s.inMemory x = true := by
  rw [← kernelWord_iff,fetchint,if_neg (by omega)]
  refine exists_congr fun w => and_congr_right fun _ => ?_
  constructor
  · intro hw
    obtain ⟨w',hw',hret⟩ := bind_eq_ok hw
    cases hret
    exact hw'
  · intro hw
    rw [hw]
    rfl

theorem InString.first (ha : a < s.proc.sz) : InString s a a := ⟨le_rfl,ha,fun _ hlo hhi => absurd hlo (not_le.mpr hhi)⟩

theorem InString.cases {x : ℕ} (h : InString s a x) : x = a ∨ s.seenByte a ≠ some 0 ∧ InString s (a+1) x := by
  obtain ⟨hlo,hhi,hall⟩ := h
  rcases Nat.eq_or_lt_of_le hlo with he | hgt
  · exact Or.inl he.symm
  · exact Or.inr ⟨hall a le_rfl hgt,hgt,hhi,fun y hy hyx => hall y (Nat.le_of_succ_le hy) hyx⟩

theorem InString.later {x : ℕ} (h : InString s (a+1) x) (hne : s.seenByte a ≠ some 0) : InString s a x := by
  obtain ⟨hlo,hhi,hall⟩ := h
  refine ⟨Nat.le_of_succ_le hlo,hhi,fun y hy hyx => ?_⟩
  rcases Nat.eq_or_lt_of_le hy with rfl | hgt
  · exact hne
  · exact hall y hgt hyx

theorem SeenString.later {r : Option ℕ} (h : SeenString s (a+1) r) (hne : s.seenByte a ≠ some 0) :
    SeenString s a (r.map (1+·)) := by
  have hfirst : ∀ x, a ≤ x → (a+1 ≤ x → s.seenByte x ≠ some 0) → s.seenByte x ≠ some 0 := by
    intro x hx hrest
    rcases Nat.eq_or_lt_of_le hx with rfl | hgt
    · exact hne
    · exact hrest hgt
  cases r with
  | none => exact fun x hx hhi => hfirst x hx fun hgt => h x hgt hhi
  | some k =>
    obtain ⟨hlt,hzero,hall⟩ := h
    rw [Nat.add_assoc] at hlt hzero
    refine ⟨hlt,hzero,fun x hx hhi => hfirst x hx fun hgt => hall x hgt ?_⟩
    rwa [Nat.add_assoc]

theorem fetchstrLoop_succ (hm : s.inMemory a = true) (n len : ℕ) : fetchstrLoop (n+1) a len s =
    if s.seenByte a = some 0 then .ok (some len) else fetchstrLoop n (a+1) (len+1) s := by
  obtain ⟨b,hseen,hb⟩ := exists_kernelByte hm
  rw [fetchstrLoop,hb,hseen]
  simp only [Option.some.injEq]
  rfl

theorem fetchstrLoop_inMemory (len : ℕ) (hn : a+n = s.proc.sz) (hall : ∀ x, InString s a x → s.inMemory x = true) :
    ∃ r, fetchstrLoop n a len s = .ok (r.map (len+·)) ∧ SeenString s a r := by
  induction n generalizing a len with
  | zero => exact ⟨none,rfl,fun x hlo hhi => by omega⟩
  | succ n ih =>
    have ha : a < s.proc.sz := by omega
    rw [fetchstrLoop_succ (hall a (.first ha))]
    by_cases hzero : s.seenByte a = some 0
    · rw [if_pos hzero]
      exact ⟨some 0,rfl,ha,hzero,fun x hlo hhi => by omega⟩
    · obtain ⟨r,hr,hspec⟩ := ih (len+1) (show a+1+n = s.proc.sz by omega) fun x hx => hall x (hx.later hzero)
      refine ⟨r.map (1+·),?_,hspec.later hzero⟩
      rw [if_neg hzero,hr,Option.map_map]
      refine congrArg (fun f => Except.ok (r.map f)) (funext fun k => ?_)
      exact Nat.add_assoc len 1 k

theorem inMemory_of_fetchstrLoop {r : Option ℕ} (len : ℕ) (hn : a+n = s.proc.sz)
    (hr : fetchstrLoop n a len s = .ok r) : ∀ x, InString s a x → s.inMemory x = true := by
  induction n generalizing a len with
  | zero =>
    rintro x ⟨hlo,hhi,-⟩
    omega
  | succ n ih =>
    obtain ⟨b,hb,-⟩ := bind_eq_ok hr
    have hm := inMemory_of_kernelByte hb
    rw [fetchstrLoop_succ hm] at hr
    intro x hx
    rcases hx.cases with rfl | ⟨hne,hx⟩
    · exact hm
    · rw [if_neg hne] at hr
      exact ih (len+1) (by omega) hr x hx

theorem fetchstr_iff (ha : a < s.proc.sz) :
    (∃ r, fetchstr a s = .ok r ∧ SeenString s a r) ↔ ∀ x, InString s a x → s.inMemory x = true := by
  have hn : a+(s.proc.sz-a) = s.proc.sz := by omega
  rw [fetchstr,if_neg (not_le.mpr ha)]
  constructor
  · rintro ⟨r,hr,-⟩
    exact inMemory_of_fetchstrLoop 0 hn hr
  · intro hall
    obtain ⟨r,hr,hspec⟩ := fetchstrLoop_inMemory 0 hn hall
    refine ⟨r,hr.trans ?_,hspec⟩
    refine congrArg Except.ok ?_
    cases r with
    | none => rfl
    | some k => exact congrArg some (Nat.zero_add k)

theorem argptr_range {m p : ℕ} {size : ℤ} (hsz : s.proc.sz ≤ kernBase) (hsize : size < 2^31)
    (hr : argptr m size s = .ok (some p)) : p+size.toNat ≤ s.proc.sz := by
  have hk : kernBase = 2^31 := by decide
  obtain ⟨r,-,hr⟩ := bind_eq_ok hr
  cases r with
  | none => cases hr
  | some i =>
    dsimp only at hr
    by_cases hbad : size < 0 ∨ s.proc.sz ≤ i.toNat ∨ s.proc.sz < (i.toNat+size.toNat)%2^32
    · rw [if_pos hbad] at hr
      cases hr
    · rw [if_neg hbad] at hr
      cases hr
      omega

/-- A checked user pointer is good exactly if the pages of the range are present. -/
theorem checked_pointer_iff (h : Resides c s) :
    (∀ a, a < s.proc.sz → (a+4)%2^32 ≤ s.proc.sz → ((∃ w, s.seenWord a = some w ∧ fetchint a s = .ok (some w)) ↔
      ∀ x, a ≤ x → x < a+4 → s.inMemory x = true)) ∧
    (∀ a, a < s.proc.sz → ((∃ r, fetchstr a s = .ok r ∧ SeenString s a r) ↔
      ∀ x, InString s a x → s.inMemory x = true)) ∧
    ∀ (n p : ℕ) (size : ℤ), size < 2^31 → argptr n size s = .ok (some p) →
      ((∀ x, p ≤ x → x < p+size.toNat → KernelSees s x) ↔ ∀ x, p ≤ x → x < p+size.toNat → s.inMemory x = true) := by
  refine ⟨fun a hlt hend => fetchint_iff hlt hend,fun a ha => fetchstr_iff ha,fun n p size hsize hr => ?_⟩
  have hrange := argptr_range h.size hsize hr
  exact forall_congr' fun x => forall_congr' fun _ => forall_congr' fun hhi => h.sees_iff (by omega)

end Calls

section Sample

theorem full_writable {perm : ℕ → Word} {a : ℕ} (b : Build) (hperm : ∀ n, pteAddr (perm n) = 0)
    (hallow : permAccess perm a true = true) (ha : a ∈ pagesBelow (16*pgSize)) :
    has ((fullProcess b perm).pte 0x200 (vpn a)) pteW = true := by
  have hexact := (built_full b hperm).exact ha true
  rw [hallow,accessAllowed,Bool.and_eq_true] at hexact
  exact hexact.2

theorem resides_fullProcess : Resides (sampleConfig .nfua) (fullProcess .nfua fun _ => userPerm) := by
  have hallow : accessAllowed (userPerm ||| pteP) true = true := by decide
  refine ⟨holds_fullProcess.space.wf,by decide,fun x hx _ => ?_⟩
  rw [← vpn_roundDown x]
  exact full_writable .nfua (fun _ => by decide) hallow ⟨Nat.dvd_mul_left _ _,(Nat.div_mul_le_self _ _).trans_lt hx⟩

/-- While all pages of a process are in memory, its words can be fetched. -/
theorem checked_pointer_fullProcess : ∃ w, (fullProcess .nfua fun _ => userPerm).seenWord 0 = some w ∧
    fetchint 0 (fullProcess .nfua fun _ => userPerm) = .ok (some w) := by
  refine ((checked_pointer_iff resides_fullProcess).1 0 (by decide) (by decide)).mpr fun x _ hx => ?_
  have hpage : pgRoundDown x ∈ pagesBelow (16*pgSize) \ (fullPages .nfua).swapped := by
    rw [fullPages_swapped]
    exact ⟨⟨Nat.dvd_mul_left _ _,(Nat.div_mul_le_self _ _).trans_lt (hx.trans (by decide))⟩,Set.notMem_empty _⟩
  have hp := holds_fullProcess.space.present _ hpage
  rwa [vpn_roundDown] at hp

/-- After the process has grown, its page at 0 is in the swap file. User code reads it, but the kernel
panics. -/
theorem fetchint_swapped : ∃ s, growproc (sampleConfig .nfua) 4096 (fullProcess .nfua fun _ => userPerm) = .ok (0,s) ∧
    (∃ s', userStep (sampleConfig .nfua) (.load 0) s = .ok (.byte 0,s')) ∧ 0+4 ≤ s.proc.sz ∧
    fetchint 0 s = .error (.panic "trap") := by
  have hperm : ∀ n, pteAddr ((fun _ : ℕ => userPerm) n) = 0 := fun _ => show pteAddr userPerm = 0 by decide
  obtain ⟨s,hs,hp,hsw,hfree,-⟩ := full_grow hperm
  obtain ⟨s',hs',-⟩ := Transparency.load_swapped (Or.inl rfl) hp hsw hfree
  rw [Transparency.grown_bytes] at hs'
  have hsz : s.proc.sz = 17*pgSize := hp.sz
  obtain ⟨i,hi⟩ := hsw
  have habs := (hp.consistent.swapped i 0 hi).absent
  have hbyte : kernelByte 0 s = .error (.panic "trap") := by
    rw [kernelByte,kernelAccess_eq,habs]
    rfl
  refine ⟨s,hs,⟨s',hs'⟩,?_,?_⟩
  · rw [hsz]
    decide
  · rw [fetchint,hsz,if_neg (by decide),kernelWord,hbyte]
    rfl

end Sample

end Xv6Paging
