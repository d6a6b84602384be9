import Xv6Paging.Kernel.Memory
import Xv6Paging.Library.PageTree

/-! # The kernel's page tables as page trees

`walkpgdir` walks a two-level tree whose words link to a frame when `PTE_P` is set. Pages
below `KERNBASE` own their frames. Each function that follows `walkpgdir` gets one
equation here, in terms of the entry it reads and the entry it writes.
-/
namespace Xv6Paging
open WordPage PageTree

def vpn (va : ℕ) : Index := (pdx va,ptx va)

def x86 : Format Frame where
  link w := if has w pteP then some (pteAddr w) else none
  own k := k.1.val < 512
  link_zero := by decide

def Config.frames (c : Config) : Set Frame :=
  {f | c.endAddr ≤ kernBase+f.toNat*pgSize ∧ f.toNat*pgSize < phystop}

def Kernel.table (s : Kernel) (d : Frame) (k : Index) : Option Frame := x86.table s.mem d k.1

/-- The entry of a page; a page without a page table has the entry zero. -/
def Kernel.pte (s : Kernel) (d : Frame) (k : Index) : Word := x86.entry s.mem d k

def Kernel.setPte (s : Kernel) (d : Frame) (k : Index) (w : Word) : Kernel :=
  {s with mem := x86.setEntry s.mem d k w}

def Kernel.page (s : Kernel) (d : Frame) (k : Index) : Page := s.mem (pteAddr (s.pte d k))

def Kernel.free (s : Kernel) (f : Frame) : Kernel :=
  {s.store f (fun _ => 1) with freelist := f :: s.freelist, pageCounter := s.pageCounter+1}

/-- The address spaces of the directories in `S` are disjoint from each other and from the free list, in
frames that `kfree` accepts. -/
abbrev Wf (c : Config) (S : Set Frame) (s : Kernel) : Prop := Owned x86 c.frames S s.freelist s.mem

abbrev FreshFrame (c : Config) (S : Set Frame) (s : Kernel) (f : Frame) : Prop :=
  Fresh x86 c.frames S s.freelist s.mem f

/-- Outside `A` the pages of the address spaces in `S` are unchanged. -/
abbrev Same (S : Set Frame) (A : Set (Frame × Index)) (s s' : Kernel) : Prop :=
  Keeps x86 S A s.mem s'.mem

section Links
variable {w : Word} {f : Frame}

theorem link_eq_none : x86.link w = none ↔ has w pteP = false := by
  simp only [x86]
  split <;> simp_all

theorem link_eq_some : x86.link w = some f ↔ has w pteP = true ∧ pteAddr w = f := by
  simp only [x86]
  split <;> simp_all

theorem pdx_val (va : ℕ) : (pdx va).val = va/2^22%1024 := rfl
theorem ptx_val (va : ℕ) : (ptx va).val = va/2^12%1024 := rfl

theorem own_iff {va : ℕ} (h : va < 2^32) : x86.own (vpn va) = true ↔ va < kernBase := by
  have hk : x86.own (vpn va) = decide ((pdx va).val < 512) := rfl
  rw [hk,decide_eq_true_iff,pdx_val,kernBase]
  omega

theorem vpn_inj {a b : ℕ} (ha : a < 2^32) (hb : b < 2^32) : vpn a = vpn b ↔ a/pgSize = b/pgSize := by
  simp only [vpn,pdx_val,ptx_val,pgSize,Prod.mk.injEq,Fin.ext_iff]
  omega

theorem vpn_congr {a b : ℕ} (h : a/pgSize%2^20 = b/pgSize%2^20) : vpn a = vpn b := by
  simp only [pgSize] at h
  simp only [vpn,Prod.mk.injEq,Fin.ext_iff,pdx_val,ptx_val]
  omega

theorem vpn_roundDown (va : ℕ) : vpn (pgRoundDown va) = vpn va :=
  vpn_congr (by simp only [pgRoundDown,pgSize]; omega)

theorem vpn_eq_iff {a b : ℕ} (ha : pgSize ∣ a) (hb : pgSize ∣ b) (hak : a < kernBase)
    (hbk : b < kernBase) : vpn a = vpn b ↔ a = b := by
  have hk : kernBase < 2^32 := by decide
  rw [vpn_inj (by omega) (by omega)]
  exact ⟨fun h => by rw [← Nat.div_mul_cancel ha,h,Nat.div_mul_cancel hb],fun h => by rw [h]⟩

end Links

section Walk
variable {d t f : Frame} {va : ℕ} {s : Kernel} {w : Word}

theorem walkpgdir_false (d : Frame) (va : ℕ) (s : Kernel) : walkpgdir d va false s =
    ((s.table d (vpn va)).map fun t => (t,ptx va),s) := by
  simp only [walkpgdir,Kernel.table,Format.table,x86,vpn,Kernel.readPte]
  split <;> simp_all

theorem walkpgdir_of_table (h : s.table d (vpn va) = some t) (alloc : Bool) :
    walkpgdir d va alloc s = (some (t,ptx va),s) := by
  simp only [Kernel.table,Format.table,link_eq_some,vpn] at h
  simp only [walkpgdir,Kernel.readPte,h.1,if_true,h.2]

theorem readPte_eq (h : s.table d (vpn va) = some t) : s.readPte (t,ptx va) = s.pte d (vpn va) :=
  (entry_of_table h).symm

theorem writePte_eq (h : s.table d (vpn va) = some t) :
    s.writePte (t,ptx va) w = s.setPte d (vpn va) w := by
  simp only [Kernel.writePte,Kernel.setPte,Kernel.store]
  rw [setEntry_eq h]
  rfl

theorem pte_of_no_table (h : s.table d (vpn va) = none) : s.pte d (vpn va) = 0#32 :=
  entry_of_no_table h

theorem table_of_pte_ne {k : Index} (h : s.pte d k ≠ 0#32) : ∃ t, s.table d k = some t := by
  cases ht : s.table d k with
  | none => exact (h (entry_of_no_table ht)).elim
  | some t => exact ⟨t,rfl⟩

theorem table_of_has {k : Index} {m : Word} (h : has (s.pte d k) m = true) :
    ∃ t, s.table d k = some t := by
  refine table_of_pte_ne fun h0 => ?_
  rw [h0,has] at h
  simp at h

theorem kfree_eq {c : Config} (hf : f ∈ c.frames) : kfree c f s = .ok (s.free f) := by
  have h : ¬ (kernBase+f.toNat*pgSize < c.endAddr ∨ phystop ≤ f.toNat*pgSize) := by
    have h1 := hf.1
    have h2 := hf.2
    omega
  rw [kfree,if_neg h]
  rfl

def pagedIn (w : Word) (f : Frame) : Word := (w ||| (pteP ||| pteW ||| pteU)) &&& ~~~ptePG ||| frameAddr f

def pagedOut (w : Word) : Word := (w ||| ptePG) &&& ~~~pteP &&& pteFlags ((w ||| ptePG) &&& ~~~pteP)

theorem fixPagedInPTE_eq (ht : s.table d (vpn va) = some t) (hp : has (s.pte d (vpn va)) pteP = false) :
    fixPagedInPTE va f d s = .ok (s.setPte d (vpn va) (pagedIn (s.pte d (vpn va)) f)) := by
  simp only [fixPagedInPTE,walkpgdir_of_table ht,readPte_eq ht,hp,Bool.false_eq_true,if_false,
    writePte_eq ht,pagedIn]

theorem fixPagedOutPTE_eq (ht : s.table d (vpn va) = some t) (mode : Bool) :
    fixPagedOutPTE d va mode s = .ok (s.setPte d (vpn va) (pagedOut (s.pte d (vpn va)))) := by
  simp only [fixPagedOutPTE,walkpgdir_of_table ht,readPte_eq ht,writePte_eq ht,pagedOut]

theorem fixPagedOutPTE_missing (ht : s.table d (vpn va) = none) :
    fixPagedOutPTE d va false s = .error (.panic "PTE of swapped page is missing") := by
  simp only [fixPagedOutPTE,walkpgdir_false,ht,Option.map_none]

theorem getPagePAddr_eq (ht : s.table d (vpn va) = some t) :
    getPagePAddr va d s = some (pteAddr (s.pte d (vpn va))) := by
  simp only [getPagePAddr,walkpgdir_of_table ht,readPte_eq ht]

theorem updateAccessBit_eq (h : s.pte s.proc.pgdir (vpn va) ≠ 0#32) :
    updateAccessBit va s = .ok (has (s.pte s.proc.pgdir (vpn va)) pteA,
      s.setPte s.proc.pgdir (vpn va) (s.pte s.proc.pgdir (vpn va) &&& ~~~pteA)) := by
  obtain ⟨t,ht⟩ := table_of_pte_ne h
  simp only [updateAccessBit,walkpgdir_of_table ht,readPte_eq ht,writePte_eq ht]
  exact if_neg h

theorem getUserBit_eq (h : s.pte s.proc.pgdir (vpn va) ≠ 0#32) :
    getUserBit va s = .ok (has (s.pte s.proc.pgdir (vpn va)) pteU) := by
  obtain ⟨t,ht⟩ := table_of_pte_ne h
  simp only [getUserBit,walkpgdir_of_table ht,readPte_eq ht]
  exact if_neg h

theorem pageIsInFile_eq (ht : s.table d (vpn va) = some t) : pageIsInFile va d s =
    .ok (has (s.pte d (vpn va)) ptePG && !has (s.pte d (vpn va)) pteP) := by
  simp only [pageIsInFile,walkpgdir_of_table ht,readPte_eq ht]

theorem pageIsInFile_missing (ht : s.table d (vpn va) = none) :
    pageIsInFile va d s = .error .nullDeref := by
  simp only [pageIsInFile,walkpgdir_false,ht,Option.map_none]

theorem kernelAccess_eq (va : ℕ) (s : Kernel) : kernelAccess va s =
    if has (s.pte s.proc.pgdir (vpn va)) pteP then .ok (pteAddr (s.pte s.proc.pgdir (vpn va)))
    else .error (.panic "trap") := by
  cases ht : s.table s.proc.pgdir (vpn va) with
  | none =>
    simp only [kernelAccess,walkpgdir_false,ht,Option.map_none,pte_of_no_table ht]
    rfl
  | some t => simp only [kernelAccess,walkpgdir_of_table ht,readPte_eq ht]

theorem readUserPage_of_aligned (hva : pgSize ∣ va) (hlt : va < 2^32)
    (hp : has (s.pte s.proc.pgdir (vpn va)) pteP = true) :
    readUserPage va s = .ok (s.page s.proc.pgdir (vpn va)) := by
  have hv : vpn (va+(pgSize-1)) = vpn va := by
    obtain ⟨q,rfl⟩ := hva
    rw [vpn_inj _ hlt]
    · simp only [pgSize]
      omega
    · simp only [pgSize] at hlt ⊢
      omega
  have hmod : va%pgSize = 0 := Nat.mod_eq_zero_of_dvd hva
  simp only [readUserPage,kernelAccess_eq,hv,hp,if_true,hmod,Nat.zero_add]
  change Except.ok _ = Except.ok _
  congr 1
  funext k
  have hk : k.val < pgSize := k.isLt
  simp only [hk,dif_pos]
  rfl

end Walk

end Xv6Paging
