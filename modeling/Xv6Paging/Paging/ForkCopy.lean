import Xv6Paging.Paging.CopySpace

/-! # The copy that fork makes

When `copyuvm` succeeds, and what the child then has.
-/
namespace Xv6Paging
open WordPage PageTree

variable {c : Config} {s : Kernel} {pgdir : Frame} {sz : ℕ}

/-- Every page below the size is present or swapped out. -/
def Kernel.populated (s : Kernel) (pgdir : Frame) (sz : ℕ) : Prop :=
  ∀ n < pagesIn sz, has (s.pte pgdir (pageAt n)) ptePG = !has (s.pte pgdir (pageAt n)) pteP

/-- Present pages are present with the same flags and bytes in frames that were free, swapped pages are
marked, and no other user page is mapped. -/
structure FaithfulCopy (s : Kernel) (pgdir : Frame) (sz : ℕ) (d : Frame) (s' : Kernel) : Prop where
  present : ∀ n < pagesIn sz, has (s.pte pgdir (pageAt n)) pteP = true →
    has (s'.pte d (pageAt n)) pteP = true ∧
      pteFlags (s'.pte d (pageAt n)) = pteFlags (s.pte pgdir (pageAt n)) ∧
      s'.page d (pageAt n) = s.page pgdir (pageAt n) ∧ pteAddr (s'.pte d (pageAt n)) ∈ s.freelist
  distinct : ∀ m < pagesIn sz, ∀ n < pagesIn sz, has (s'.pte d (pageAt m)) pteP = true →
    has (s'.pte d (pageAt n)) pteP = true → pteAddr (s'.pte d (pageAt m)) = pteAddr (s'.pte d (pageAt n)) → m = n
  swapped : ∀ n < pagesIn sz, has (s.pte pgdir (pageAt n)) ptePG = true →
    has (s'.pte d (pageAt n)) ptePG = true ∧ has (s'.pte d (pageAt n)) pteP = false
  rest : ∀ va, pagesIn sz*pgSize ≤ va → va < kernBase → s'.pte d (vpn va) = 0#32
  parent : ∀ k, s'.pte pgdir k = s.pte pgdir k
  bytes : ∀ k, x86.own k = true → has (s.pte pgdir k) pteP = true → s'.page pgdir k = s.page pgdir k

theorem resident_of_populated (h : s.populated pgdir sz) {n : ℕ} (hn : n < pagesIn sz) :
    s.resident pgdir n = has (s.pte pgdir (pageAt n)) pteP := by
  rw [Kernel.resident,h n hn,Bool.not_not,Bool.and_self]

theorem lt_pagesIn {n : ℕ} : n < pagesIn sz ↔ n*pgSize < sz := by
  have hsize : pgSize = 4096 := rfl
  simp only [pagesIn,hsize]
  omega

theorem Copying.faithful {d : Frame} {s' : Kernel} (hpop : s.populated pgdir sz) (hsz : sz ≤ kernBase)
    (h : Copying c {pgdir} d pgdir s (pagesIn sz) s') : FaithfulCopy s pgdir sz d s' := by
  have hd : d ∈ insert d ({pgdir} : Set Frame) := Set.mem_insert d _
  have hown : ∀ n < pagesIn sz, x86.own (pageAt n) = true := fun n hn =>
    pageAt_own (Nat.lt_of_lt_of_le (lt_pagesIn.mp hn) hsz)
  have huse : ∀ n < pagesIn sz, has (s'.pte d (pageAt n)) pteP = true →
      (Use.leaf d (pageAt n)).frame x86 s'.mem = some (pteAddr (s'.pte d (pageAt n))) := by
    intro n hn hp
    simp only [Use.frame,hown n hn,if_true]
    exact link_eq_some.mpr ⟨hp,rfl⟩
  refine ⟨?_,?_,?_,h.rest,fun k => h.same.entry pgdir rfl k (Set.notMem_empty _),
    fun k ho hp => Same.page h.same rfl (Set.notMem_empty _) ho hp⟩
  · intro n hn hp
    rw [← resident_of_populated hpop hn] at hp
    obtain ⟨hp',hflags,hpage⟩ := h.copied n hn hp
    refine ⟨hp',hflags,hpage,?_⟩
    have hmem : pteAddr (s'.pte d (pageAt n)) ∈ s'.accounted {d} := Or.inr ⟨.leaf d (pageAt n),rfl,huse n hn hp'⟩
    rw [h.accounted] at hmem
    exact hmem
  · intro m hm n hn hpm hpn he
    have hum := huse m hm hpm
    rw [he] at hum
    have hinj := h.wf.inj (.leaf d (pageAt m)) (.leaf d (pageAt n)) _ hd hd hum (huse n hn hpn)
    have heq : pageAt m = pageAt n := (Use.leaf.inj hinj).2
    obtain hlt | rfl | hlt := Nat.lt_trichotomy m n
    · exact (pageAt_ne (Nat.lt_of_lt_of_le (lt_pagesIn.mp hn) hsz) hlt heq).elim
    · rfl
    · exact (pageAt_ne (Nat.lt_of_lt_of_le (lt_pagesIn.mp hm) hsz) hlt heq.symm).elim
  · intro n hn hpg
    refine h.swapped n hn ?_
    rw [Kernel.resident,hpg]
    simp

/-- `copyuvm` makes a faithful copy exactly when every page that is swapped out shares its page table with a
present page at a lower address. -/
theorem copyuvm_faithful_iff (hw : Wf c {pgdir} s) (hsz : sz ≤ kernBase) (hpop : s.populated pgdir sz)
    (hfree : s.demand pgdir (pagesIn sz) ≤ s.freelist.length) :
    (∃ d s', copyuvm c pgdir sz s = .ok (some d,s') ∧ FaithfulCopy s pgdir sz d s') ↔
      ∀ n < pagesIn sz, has (s.pte pgdir (pageAt n)) ptePG = true →
        ∃ j < n, j/1024 = n/1024 ∧ has (s.pte pgdir (pageAt j)) pteP = true := by
  constructor
  · rintro ⟨d,s',hrun,-⟩ n hn hpg
    obtain ⟨d',hd',-,hcopy⟩ | ⟨hnone,-⟩ := (copyuvm_spec (S := {pgdir}) rfl hsz hw).of_ok hrun
    · obtain hres | ⟨-,j,hj,hjn,hres⟩ := hcopy.copyable n hn
      · rw [Kernel.resident,hpg] at hres
        simp at hres
      · rw [resident_of_populated hpop (hj.trans hn)] at hres
        exact ⟨j,hj,hjn,hres⟩
    · cases hnone
  · intro hbacked
    have hcopyable : ∀ n, n*pgSize < sz → s.copyable pgdir n := by
      intro n hn
      have hn : n < pagesIn sz := lt_pagesIn.mpr hn
      cases hp : has (s.pte pgdir (pageAt n)) pteP with
      | true => exact Or.inl ((resident_of_populated hpop hn).trans hp)
      | false =>
        have hpg : has (s.pte pgdir (pageAt n)) ptePG = true := by
          rw [hpop n hn,hp]
          rfl
        obtain ⟨j,hj,hjn,hjp⟩ := hbacked n hn hpg
        exact Or.inr ⟨hpg,j,hj,hjn,(resident_of_populated hpop (hj.trans hn)).trans hjp⟩
    obtain ⟨d,s',hrun,-,hcopy⟩ := copyuvm_succeeds (S := {pgdir}) rfl hsz hw hcopyable hfree
    exact ⟨d,s',hrun,hcopy.faithful hpop hsz⟩

def partlySwapped (n : ℕ) : Kernel := (presentParent n).setPte 0x400 (pageAt 1) (pteW ||| pteU ||| ptePG)

theorem presentParent_table {n : ℕ} (hn : n ≤ 512) : (presentParent n).table 0x400 (pageAt 1) = some 0x401 := by
  have hblank := wf_frameRun (b := .none) (n := n+2) (by omega) (ProcPages.init .none)
  have hgrown := hblank.grow (k := vpn 0) (t := 0x401) (l := frameRun 0x402 (n+1)) rfl blank_table rfl
  have htaken := (hgrown.take (f := 0x402) (l := frameRun 0x403 n) rfl).1
  refine (htaken.setPte_table rfl rfl).trans ?_
  exact hblank.grow_table_same (k := vpn 0) (t := 0x401) (l := frameRun 0x402 (n+1)) rfl rfl

theorem partlySwapped_pte {n : ℕ} (hn : n ≤ 512) :
    (partlySwapped n).pte 0x400 (pageAt 0) = frameAddr 0x402 ||| pteW ||| pteU ||| pteP ∧
      (partlySwapped n).pte 0x400 (pageAt 1) = pteW ||| pteU ||| ptePG := by
  have hw := wf_presentParent (b := .none) hn
  refine ⟨?_,hw.setPte_same rfl (presentParent_table hn)⟩
  refine ((hw.same_setPte rfl).entry 0x400 rfl (pageAt 0) ?_).trans (presentParent_pte hn)
  intro he
  exact absurd (Prod.mk.inj he).2 (by decide)

/-- The copy of the process has a page table when it comes to the swapped page. -/
theorem copyuvm_faithful_partlySwapped :
    ∃ d s', copyuvm (sampleConfig .scfifo) 0x400 8192 (partlySwapped 67) = .ok (some d,s') ∧
      FaithfulCopy (partlySwapped 67) 0x400 8192 d s' := by
  have hw := wf_presentParent (b := .scfifo) (n := 67) (by decide)
  obtain ⟨h0,h1⟩ := partlySwapped_pte (n := 67) (by decide)
  have htwo : pagesIn 8192 = 2 := by decide
  have hpages : ∀ n < 2, n = 0 ∨ n = 1 := by decide
  have hres0 : (partlySwapped 67).resident 0x400 0 = true := by
    rw [Kernel.resident,h0]
    decide
  have hres1 : (partlySwapped 67).resident 0x400 1 = false := by
    rw [Kernel.resident,h1]
    decide
  have hopen1 : (partlySwapped 67).opens 0x400 1 = false := by
    rw [Kernel.opens,hres1]
    rfl
  have hwf : Wf (sampleConfig .scfifo) {0x400} (partlySwapped 67) :=
    hw.setPte_flags rfl (presentParent_table (by decide)) (Or.inl (by decide))
  refine (copyuvm_faithful_iff hwf (by decide) ?_ ?_).mpr ?_
  · intro n hn
    rcases hpages n (htwo ▸ hn) with rfl | rfl
    · rw [h0]
      decide
    · rw [h1]
      decide
  · rw [htwo,demand_succ,demand_one,opens_zero,hres0,hres1,hopen1]
    exact le_of_eq rfl
  · intro n hn hpg
    rcases hpages n (htwo ▸ hn) with rfl | rfl
    · rw [h0] at hpg
      exact absurd hpg (by decide)
    · refine ⟨0,by decide,rfl,?_⟩
      rw [h0]
      decide

/-- The only page of the parent is swapped out: the copy has no page table for it, and `fixPagedOutPTE` panics. -/
theorem copyuvm_panics_first_page_swapped :
    Wf (sampleConfig .scfifo) {0x400} (swappedParent 67) ∧ (swappedParent 67).populated 0x400 4096 ∧
      (swappedParent 67).demand 0x400 (pagesIn 4096) ≤ (swappedParent 67).freelist.length ∧
      ¬ ∃ d s', copyuvm (sampleConfig .scfifo) 0x400 4096 (swappedParent 67) = .ok (some d,s') := by
  have hpte := swappedParent_pte (n := 67) (by decide)
  have hres : (swappedParent 67).resident 0x400 0 = false := by
    rw [Kernel.resident,hpte]
    decide
  have hone : pagesIn 4096 = 1 := by decide
  have hw := wf_swappedParent (b := .scfifo) (n := 67) (by decide)
  refine ⟨hw,?_,?_,?_⟩
  · intro n hn
    rw [hone,Nat.lt_one_iff] at hn
    subst hn
    rw [hpte]
    decide
  · rw [hone,demand_one,opens_zero,hres]
    decide
  · rintro ⟨d,s',hrun⟩
    obtain ⟨d',-,-,hcopy⟩ | ⟨hnone,-⟩ :=
      (copyuvm_spec (S := {0x400}) (Set.mem_singleton _) (by decide : 4096 ≤ kernBase) hw).of_ok hrun
    · obtain hyes | ⟨-,j,hj,-⟩ := hcopy.copyable 0 (by decide)
      · rw [hres] at hyes
        cases hyes
      · exact Nat.not_lt_zero j hj
    · cases hnone

end Xv6Paging
