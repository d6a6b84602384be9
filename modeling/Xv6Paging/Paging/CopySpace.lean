import Mathlib.Data.Nat.Count
import Xv6Paging.Paging.KernelMap

/-! # Copying an address space

What `copyuvm` makes of a parent's page table, for every pattern of present and swapped pages and every
length of the free list. The copy takes a frame for each present page and one for each page table that
such a page opens; how far it gets is a matter of counting these demands.
-/
namespace Xv6Paging
open WordPage PageTree

variable {c : Config} {S : Set Frame} {s s₀ s₁ : Kernel} {d f t pgdir : Frame} {n : ℕ}

def pageAt (n : ℕ) : Index := vpn (n*pgSize)

/-- The pages that `copyuvm` copies: it tests `PTE_PG` first. -/
def Kernel.resident (s : Kernel) (pgdir : Frame) (n : ℕ) : Bool :=
  has (s.pte pgdir (pageAt n)) pteP && !has (s.pte pgdir (pageAt n)) ptePG

def Kernel.opens (s : Kernel) (pgdir : Frame) (n : ℕ) : Bool :=
  s.resident pgdir n && !(List.range n).any fun j => decide (j/1024 = n/1024) && s.resident pgdir j

/-- The frames that `copyuvm` has asked for when it comes to a page. -/
def Kernel.demand (s : Kernel) (pgdir : Frame) (n : ℕ) : ℕ :=
  65+Nat.count (fun j => s.resident pgdir j = true) n+Nat.count (fun j => s.opens pgdir j = true) n

/-- There is something to copy for the page: it is present, or it is swapped out and a page below it shares its
page table and is present. -/
def Kernel.copyable (s : Kernel) (pgdir : Frame) (n : ℕ) : Prop :=
  s.resident pgdir n = true ∨
    has (s.pte pgdir (pageAt n)) ptePG = true ∧ ∃ j < n, j/1024 = n/1024 ∧ s.resident pgdir j = true

theorem opens_iff : s.opens pgdir n = true ↔
    s.resident pgdir n = true ∧ ¬ ∃ j < n, j/1024 = n/1024 ∧ s.resident pgdir j = true := by
  rw [Kernel.opens,Bool.and_eq_true_iff,Bool.not_eq_true',← Bool.not_eq_true,List.any_eq_true]
  refine and_congr_right fun _ => not_congr ?_
  simp only [List.mem_range,Bool.and_eq_true_iff,decide_eq_true_eq]

theorem demand_succ (s : Kernel) (pgdir : Frame) (n : ℕ) : s.demand pgdir (n+1) =
    s.demand pgdir n+(if s.resident pgdir n then 1 else 0)+(if s.opens pgdir n then 1 else 0) := by
  simp only [Kernel.demand,Nat.count_succ]
  omega

theorem demand_mono (s : Kernel) (pgdir : Frame) {m : ℕ} (h : n ≤ m) : s.demand pgdir n ≤ s.demand pgdir m := by
  have h1 := Nat.count_monotone (fun j => s.resident pgdir j = true) h
  have h2 := Nat.count_monotone (fun j => s.opens pgdir j = true) h
  simp only [Kernel.demand]
  omega

structure Copying (c : Config) (S : Set Frame) (d pgdir : Frame) (s₀ : Kernel) (n : ℕ) (s : Kernel) : Prop where
  wf : Wf c (insert d S) s
  same : Same S ∅ s₀ s
  accounted : s.accounted {d} = s₀.freeFrames
  copied : ∀ j < n, s₀.resident pgdir j = true → has (s.pte d (pageAt j)) pteP = true ∧
    pteFlags (s.pte d (pageAt j)) = pteFlags (s₀.pte pgdir (pageAt j)) ∧ s.page d (pageAt j) = s₀.page pgdir (pageAt j)
  swapped : ∀ j < n, s₀.resident pgdir j = false →
    has (s.pte d (pageAt j)) ptePG = true ∧ has (s.pte d (pageAt j)) pteP = false
  rest : ∀ va, n*pgSize ≤ va → va < kernBase → s.pte d (vpn va) = 0#32
  tables : ∀ k, x86.own k = true →
    ((∃ t, s.table d k = some t) ↔ ∃ j < n, j/1024 = k.1.val ∧ s₀.resident pgdir j = true)
  copyable : ∀ j < n, s₀.copyable pgdir j
  count : s.freelist.length+s₀.demand pgdir n = s₀.freelist.length
  top : pteAddr (s.pte d (vpn (2^32-1))) = topFrame
  proc : s.proc = s₀.proc

theorem NewSpace.copying (h : NewSpace c S d s₀ s) (pgdir : Frame) : Copying c S d pgdir s₀ 0 s := by
  have hm := h.mapping
  refine ⟨hm.wf,hm.same,hm.accounted,fun j hj => (Nat.not_lt_zero j hj).elim,fun j hj => (Nat.not_lt_zero j hj).elim,
    ?_,?_,fun j hj => (Nat.not_lt_zero j hj).elim,h.count,h.top,hm.proc⟩
  · intro va _ hva
    have hk : kernBase < 2^32 := by decide
    exact pte_of_no_table (hm.user (vpn va) ((own_iff (by omega)).mpr hva))
  · intro k ho
    rw [hm.user k ho]
    refine iff_of_false (by simp) ?_
    rintro ⟨j,hj,-⟩
    exact Nat.not_lt_zero j hj

theorem Copying.parent (hS : pgdir ∈ S) (h : Copying c S d pgdir s₀ n s) (j : ℕ) :
    s.pte pgdir (pageAt j) = s₀.pte pgdir (pageAt j) :=
  h.same.entry pgdir hS _ (Set.notMem_empty _)

section Page
variable (hdS : d ∉ S) (hn : n*pgSize < kernBase)
include hn

theorem pageAt_own : x86.own (pageAt n) = true := by
  have hk : kernBase < 2^32 := by decide
  exact (own_iff (by omega)).mpr hn

theorem pageAt_fst : (pageAt n).1.val = n/1024 := by
  have hsize : pgSize = 4096 := rfl
  have hk : kernBase = 2^31 := by decide
  rw [pageAt,vpn,pdx_val]
  rw [hsize] at hn ⊢
  omega

theorem pageAt_ne {j : ℕ} (hj : j < n) : pageAt j ≠ pageAt n := by
  have hpos : 0 < pgSize := by decide
  have hk : kernBase < 2^32 := by decide
  have hjn : j*pgSize < n*pgSize := Nat.mul_lt_mul_of_pos_right hj hpos
  intro he
  have hq := (vpn_inj (hjn.trans (hn.trans hk)) (hn.trans hk)).mp he
  rw [Nat.mul_div_cancel _ hpos,Nat.mul_div_cancel _ hpos] at hq
  omega

include hdS

theorem Copying.write (h : Copying c S d pgdir s₀ n s) {w : Word} (hwf₁ : Wf c (insert d S) s₁)
    (hwf : Wf c (insert d S) (s₁.setPte d (pageAt n) w)) (hsame₁ : Same (insert d S) ∅ s s₁)
    (hacc : (s₁.setPte d (pageAt n) w).accounted {d} = s₀.freeFrames) (ht : s₁.table d (pageAt n) = some t)
    (htables : ∀ k : Index, k.1 ≠ (pageAt n).1 → s₁.table d k = s.table d k)
    (hcase : s₀.resident pgdir n = true ∧ has w pteP = true ∧ pteFlags w = pteFlags (s₀.pte pgdir (pageAt n)) ∧
        (s₁.setPte d (pageAt n) w).page d (pageAt n) = s₀.page pgdir (pageAt n) ∨
      s₀.resident pgdir n = false ∧ has w ptePG = true ∧ has w pteP = false ∧ s₁.table d (pageAt n) = s.table d (pageAt n))
    (hcopy : s₀.copyable pgdir n)
    (hcount : s₁.freelist.length+s₀.demand pgdir (n+1) = s₀.freelist.length) (hproc : s₁.proc = s₀.proc) :
    Copying c S d pgdir s₀ (n+1) (s₁.setPte d (pageAt n) w) := by
  have hd : d ∈ insert d S := Set.mem_insert d S
  have hsize : pgSize = 4096 := rfl
  have hk : kernBase = 2^31 := by decide
  have hsamew := hwf₁.same_setPte (k := pageAt n) (w := w) hd
  have hother : ∀ k, k ≠ pageAt n → (s₁.setPte d (pageAt n) w).pte d k = s.pte d k := by
    intro k hne
    have h1 : (s₁.setPte d (pageAt n) w).pte d k = s₁.pte d k :=
      hsamew.entry d hd k fun he => hne (Prod.mk.inj he).2
    exact h1.trans (hsame₁.entry d hd k (Set.notMem_empty _))
  have hself : (s₁.setPte d (pageAt n) w).pte d (pageAt n) = w := hwf₁.setPte_same hd ht
  have htable : ∀ k, (s₁.setPte d (pageAt n) w).table d k = s₁.table d k := fun k => hwf₁.setPte_table hd hd
  refine ⟨hwf,?_,hacc,?_,?_,?_,?_,?_,hcount,?_,hproc⟩
  · refine (h.same.trans (hsame₁.subset (Set.subset_insert d S))).trans (hsamew.others (Set.subset_insert d S) ?_)
    rintro q rfl
    exact hdS
  · intro j hj hres
    obtain hlt | rfl := Nat.lt_succ_iff_lt_or_eq.mp hj
    · obtain ⟨hp,hflags,hpage⟩ := h.copied j hlt hres
      have hne := pageAt_ne hn hlt
      rw [hother _ hne]
      refine ⟨hp,hflags,?_⟩
      have hown : x86.own (pageAt j) = true := pageAt_own ((Nat.mul_lt_mul_of_pos_right hlt (by decide)).trans hn)
      have hp₁ : has (s₁.pte d (pageAt j)) pteP = true := by
        rw [show s₁.pte d (pageAt j) = s.pte d (pageAt j) from hsame₁.entry d hd _ (Set.notMem_empty _)]
        exact hp
      rw [hsamew.page hd (fun he => hne (Prod.mk.inj he).2) hown hp₁,
        Same.page hsame₁ hd (Set.notMem_empty _) hown hp]
      exact hpage
    · obtain ⟨-,hp,hflags,hpage⟩ | ⟨hno,-⟩ := hcase
      · rw [hself]
        exact ⟨hp,hflags,hpage⟩
      · rw [hno] at hres
        cases hres
  · intro j hj hres
    obtain hlt | rfl := Nat.lt_succ_iff_lt_or_eq.mp hj
    · rw [hother _ (pageAt_ne hn hlt)]
      exact h.swapped j hlt hres
    · obtain ⟨hyes,-⟩ | ⟨-,hpg,hp,-⟩ := hcase
      · rw [hyes] at hres
        cases hres
      · rw [hself]
        exact ⟨hpg,hp⟩
  · intro va hlo hva
    have hne : vpn va ≠ pageAt n := by
      intro he
      have hq := (vpn_inj (a := va) (b := n*pgSize) (by omega) (by omega)).mp he
      rw [hsize] at hq hlo
      omega
    rw [hother _ hne]
    exact h.rest va ((Nat.mul_le_mul_right pgSize (Nat.le_succ n)).trans hlo) hva
  · intro k ho
    rw [htable]
    by_cases hkn : k.1 = (pageAt n).1
    · have hkt : s₁.table d k = some t := by
        rw [Kernel.table,hkn]
        exact ht
      refine iff_of_true ⟨t,hkt⟩ ?_
      obtain ⟨hyes,-⟩ | ⟨-,-,-,hold⟩ := hcase
      · exact ⟨n,Nat.lt_succ_self n,by rw [hkn,pageAt_fst hn],hyes⟩
      · obtain ⟨j,hj,hjn,hres⟩ := (h.tables (pageAt n) (pageAt_own hn)).mp ⟨t,hold.symm.trans ht⟩
        exact ⟨j,Nat.lt_succ_of_lt hj,by rw [hkn]; exact hjn,hres⟩
    · rw [htables k hkn,h.tables k ho]
      constructor
      · rintro ⟨j,hj,hjk,hres⟩
        exact ⟨j,Nat.lt_succ_of_lt hj,hjk,hres⟩
      · rintro ⟨j,hj,hjk,hres⟩
        refine ⟨j,?_,hjk,hres⟩
        obtain hlt | rfl := Nat.lt_succ_iff_lt_or_eq.mp hj
        · exact hlt
        · exact (hkn (Fin.ext (by rw [pageAt_fst hn,hjk]))).elim
  · intro j hj
    obtain hlt | rfl := Nat.lt_succ_iff_lt_or_eq.mp hj
    · exact h.copyable j hlt
    · exact hcopy
  · have hne : vpn (2^32-1) ≠ pageAt n := by
      intro he
      have hq := (vpn_inj (a := 2^32-1) (b := n*pgSize) (by decide) (by omega)).mp he
      rw [hsize] at hq hn
      omega
    rw [hother _ hne]
    exact h.top

end Page

section Entry

def copyWord (f : Frame) (w : Word) : Word := frameAddr f ||| pteFlags w ||| pteP

theorem copyWord_addr (f : Frame) (w : Word) : pteAddr (copyWord f w) = f := by simp [copyWord]

theorem copyWord_present (f : Frame) (w : Word) : has (copyWord f w) pteP = true := has_mapped f (pteFlags w)

theorem copyWord_flags (f : Frame) {w : Word} (h : has w pteP = true) : pteFlags (copyWord f w) = pteFlags w := by
  have hlow : ∀ v : Word, ∀ i, (pteFlags v).getLsbD i = (v.getLsbD i && decide (i < 12)) := by
    intro v i
    have hmask : (0xFFF#32).getLsbD i = decide (i < 12) := by
      by_cases hi : i < 32
      · revert i
        decide
      · rw [BitVec.getLsbD_of_ge _ _ (by omega)]
        simp
        omega
    rw [pteFlags,BitVec.getLsbD_and,hmask]
  refine BitVec.eq_of_getLsbD_eq fun i _ => ?_
  rw [hlow,hlow]
  by_cases hi : i < 12
  · rw [copyWord,BitVec.getLsbD_or,BitVec.getLsbD_or,frameAddr_getLsbD f hi,pteFlags_getLsbD w hi]
    by_cases h0 : i = 0
    · subst h0
      rw [has_pteP] at h
      rw [h]
      rfl
    · have hbit : pteP.getLsbD i = false := by
        rw [pteP]
        simp [h0]
      rw [hbit]
      simp
  · simp [hi]

end Entry

section Loop
variable (hdS : d ∉ S) (hn : n*pgSize < kernBase)
include hn

theorem Copying.opens_iff (h : Copying c S d pgdir s₀ n s) (hres : s₀.resident pgdir n = true) :
    s₀.opens pgdir n = true ↔ s.table d (pageAt n) = none := by
  have ht := h.tables (pageAt n) (pageAt_own hn)
  rw [pageAt_fst hn] at ht
  rw [Xv6Paging.opens_iff,and_iff_right hres,← ht]
  cases s.table d (pageAt n) <;> simp

include hdS

theorem Copying.mappages (h : Copying c S d pgdir s₀ n s) (hres : s₀.resident pgdir n = true)
    (hwf₁ : Wf c (insert d S) s₁) (hf : FreshFrame c (insert d S) s₁ f) (hsame₁ : Same (insert d S) ∅ s s₁)
    (htables : ∀ k, s₁.table d k = s.table d k) (hbytes : s₁.mem f = s₀.page pgdir (pageAt n))
    (hacc : insert f (s₁.accounted {d}) = s₀.freeFrames) (hproc : s₁.proc = s₀.proc)
    (hcount : s₁.freelist.length+1+s₀.demand pgdir n = s₀.freelist.length) :
    (s₀.opens pgdir n = true ∧ s₁.freelist = [] ∧
      Xv6Paging.mappages d (n*pgSize) pgSize (frameAddr f) (pteFlags (s₀.pte pgdir (pageAt n))) s₁ = .ok (-1,s₁.starve)) ∨
    ∃ s₂, Xv6Paging.mappages d (n*pgSize) pgSize (frameAddr f) (pteFlags (s₀.pte pgdir (pageAt n))) s₁ = .ok (0,s₂) ∧
      Copying c S d pgdir s₀ (n+1) s₂ := by
  have hd : d ∈ insert d S := Set.mem_insert d S
  have hu : UserPage (n*pgSize) := ⟨Nat.dvd_mul_left _ _,hn⟩
  have hdemand := demand_succ s₀ pgdir n
  rw [if_pos hres] at hdemand
  have hopens := h.opens_iff hn hres
  rw [← htables] at hopens
  obtain ⟨ht,hl,hm⟩ | ⟨t,s₂,ho,hm⟩ := mappages_cases hu hwf₁ hd (frameAddr f) (pteFlags (s₀.pte pgdir (pageAt n)))
  · exact Or.inl ⟨hopens.mpr ht,hl,hm⟩
  · have hp : has (s₀.pte pgdir (pageAt n)) pteP = true := (Bool.and_eq_true_iff.mp hres).1
    have hzero : s₁.pte d (pageAt n) = 0#32 :=
      (hsame₁.entry d hd _ (Set.notMem_empty _)).trans (h.rest _ le_rfl hn)
    have hwfd : Wf c {d} s₁ := hwf₁.subset (Set.singleton_subset_iff.mpr hd)
    have hwfd₂ : Wf c {d} s₂ := ho.wf.subset (Set.singleton_subset_iff.mpr hd)
    have hlink : x86.link (copyWord f (s₀.pte pgdir (pageAt n))) = some f :=
      link_eq_some.mpr ⟨copyWord_present f _,copyWord_addr f _⟩
    obtain ⟨hf₂,hmem⟩ := ho.fresh f hf
    obtain ⟨hwf₂,hpage⟩ := hf₂.map ho.wf hd ho.table (copyWord_addr f (s₀.pte pgdir (pageAt n)))
    change _ = if has (s₁.pte d (pageAt n)) pteP then _ else _ at hm
    rw [hzero,if_neg (by decide)] at hm
    refine Or.inr ⟨_,hm,h.write hdS hn ho.wf hwf₂ (hsame₁.trans ho.same) ?_ ho.table
      (fun k hk => (ho.tables d hd k fun he => hk (Prod.mk.inj he).2).trans (htables k))
      (Or.inl ⟨hres,copyWord_present f _,copyWord_flags f hp,?_⟩) (Or.inl hres) ?_ (ho.rest.1.trans hproc)⟩
    · have habs : has (s₂.pte d (pageAt n)) pteP = false := by
        rw [ho.pte hd,hzero]
        decide
      refine (hwfd₂.accounted_map rfl ho.table (pageAt_own hn) habs hlink).trans ?_
      rw [ho.accounted hwfd rfl]
      exact hacc
    · exact hpage.trans (hmem.trans hbytes)
    · have htab := ho.table
      obtain rfl | ⟨ht,l,hl,rfl⟩ := ho.origin
      · have hnot : ¬ s₀.opens pgdir n = true := by
          rw [hopens]
          intro hnone
          cases hnone.symm.trans htab
        rw [if_neg hnot] at hdemand
        omega
      · rw [if_pos (hopens.mpr ht)] at hdemand
        change s₁.freelist.tail.length+_ = _
        rw [hl,List.length_cons] at hcount
        rw [hl,List.tail_cons]
        omega

end Loop

/-- For a page, or for the page table of its copy; the frame for the page itself is then in neither place. -/
structure Stopped (c : Config) (S : Set Frame) (d pgdir : Frame) (s₀ : Kernel) (sz : ℕ) (s : Kernel) : Prop where
  wf : Wf c (insert d S) s
  same : Same S ∅ s₀ s
  proc : s.proc = s₀.proc
  short : ∃ n, n*pgSize < sz ∧ s₀.resident pgdir n = true ∧
    (s₀.freelist.length = s₀.demand pgdir n ∧ s.accounted {d} = s₀.freeFrames ∨
      s₀.opens pgdir n = true ∧ s₀.freelist.length = s₀.demand pgdir n+1 ∧
        ∃ f, f ∉ s.accounted {d} ∧ insert f (s.accounted {d}) = s₀.freeFrames)

section Loop
variable {sz : ℕ} (hdS : d ∉ S) (hS : pgdir ∈ S) (hsz : sz ≤ kernBase)
include hdS hsz

theorem Copying.mark (h : Copying c S d pgdir s₀ n s) (hn : n*pgSize < sz) (hres : s₀.resident pgdir n = false)
    (hcopy : s₀.copyable pgdir n) :
    ∃ s₂, fixPagedOutPTE d (n*pgSize) false s = .ok s₂ ∧ Copying c S d pgdir s₀ (n+1) s₂ := by
  have hd : d ∈ insert d S := Set.mem_insert d S
  have hnk : n*pgSize < kernBase := Nat.lt_of_lt_of_le hn hsz
  obtain ⟨j,hj,hjn,hjres⟩ : ∃ j < n, j/1024 = n/1024 ∧ s₀.resident pgdir j = true := by
    obtain hyes | ⟨-,hex⟩ := hcopy
    · rw [hyes] at hres
      cases hres
    · exact hex
  obtain ⟨t,ht⟩ := (h.tables (pageAt n) (pageAt_own hnk)).mpr ⟨j,hj,by rw [pageAt_fst hnk]; exact hjn,hjres⟩
  have hzero : s.pte d (pageAt n) = 0#32 := h.rest _ le_rfl hnk
  have hword : has (pagedOut (s.pte d (pageAt n))) pteP = false := has_pagedOut_pteP _
  have hlink : x86.link (pagedOut (s.pte d (pageAt n))) = x86.link (s.pte d (pageAt n)) := by
    rw [link_eq_none.mpr hword,hzero]
    rfl
  have hwfd : Wf c {d} s := h.wf.subset (Set.singleton_subset_iff.mpr hd)
  have hopens : ¬ s₀.opens pgdir n = true := by
    intro hyes
    rw [(Xv6Paging.opens_iff.mp hyes).1] at hres
    cases hres
  have hcount : s.freelist.length+s₀.demand pgdir (n+1) = s₀.freelist.length := by
    rw [demand_succ,if_neg hopens,hres]
    exact h.count
  refine ⟨s.setPte d (pageAt n) (pagedOut (s.pte d (pageAt n))),fixPagedOutPTE_eq ht false,?_⟩
  refine h.write hdS hnk h.wf (h.wf.setPte_flags hd ht (Or.inr hlink)) (Keeps.refl _) ?_ ht (fun _ _ => rfl)
    (Or.inr ⟨hres,has_pagedOut_ptePG _,hword,rfl⟩) hcopy hcount h.proc
  rw [hwfd.accounted_flags (Set.mem_singleton d) ht hlink]
  exact h.accounted

include hS

theorem Copying.copy (h : Copying c S d pgdir s₀ n s) (hn : n*pgSize < sz) (hres : s₀.resident pgdir n = true)
    {k : Kernel → Except Fault (Option Frame × Kernel)} {Q : Option Frame × Kernel → Prop}
    {E : Fault → Prop} (hstop : ∀ s', Stopped c S d pgdir s₀ sz s' → Q (none,s'))
    (hnext : ∀ s', Copying c S d pgdir s₀ (n+1) s' → Outcome (k s') Q E) :
    Outcome (match kalloc s with
      | (none,s) => .ok (none,s)
      | (some mem,s) => do
        let s := s.store mem (s.mem (pteAddr (s₀.pte pgdir (pageAt n))))
        let (r,s) ← Xv6Paging.mappages d (n*pgSize) pgSize (frameAddr mem) (pteFlags (s₀.pte pgdir (pageAt n))) s
        if r < 0 then return (none,s) else k s) Q E := by
  have hd : d ∈ insert d S := Set.mem_insert d S
  have hnk : n*pgSize < kernBase := Nat.lt_of_lt_of_le hn hsz
  have hp : has (s₀.pte pgdir (pageAt n)) pteP = true := (Bool.and_eq_true_iff.mp hres).1
  have hcount := h.count
  cases hl : s.freelist with
  | nil =>
    rw [kalloc_nil hl]
    rw [hl,List.length_nil,Nat.zero_add] at hcount
    exact .ok (hstop _ ⟨h.wf,h.same,h.proc,n,hn,hres,Or.inl ⟨hcount.symm,h.accounted⟩⟩)
  | cons f l =>
    rw [kalloc_cons hl]
    rw [hl,List.length_cons] at hcount
    obtain ⟨hwt,hft⟩ := h.wf.take hl
    generalize hpg : s.take.mem (pteAddr (s₀.pte pgdir (pageAt n))) = pg
    obtain ⟨hws,hfs,hsame⟩ := hft.store (A := ∅) hwt pg
    have hlen : (s.take.store f pg).freelist.length = l.length := by
      change s.take.freelist.length = l.length
      simp only [Kernel.take,hl,List.tail_cons]
    have hbytes : (s.take.store f pg).mem f = s₀.page pgdir (pageAt n) := by
      have hpage := Same.page h.same hS (Set.notMem_empty _) (pageAt_own hnk) hp
      rw [Kernel.page,h.parent hS n] at hpage
      rw [Kernel.store]
      dsimp only
      rw [Function.update_self,← hpg]
      exact hpage
    have hacc : insert f ((s.take.store f pg).accounted {d}) = s₀.freeFrames := by
      have hnot : NotTree x86 {d} s.take.mem f :=
        ⟨fun he => hft.notTree.1 (he ▸ hd),fun d' hd' => hft.notTree.2 d' (hd' ▸ hd)⟩
      rw [accounted_store hnot pg,← accounted_of_take hl]
      exact h.accounted
    dsimp only
    rw [hpg]
    obtain ⟨hopens,hempty,hmap⟩ | ⟨s₂,hmap,hcopy⟩ := h.mappages hdS hnk hres hws hfs hsame
      (fun k => store_table hft.notTree hd pg) hbytes hacc h.proc (by omega)
    · rw [hmap]
      refine .ok (hstop _ ⟨hws,?_,h.proc,n,hn,hres,Or.inr ⟨hopens,?_,f,?_,hacc⟩⟩)
      · exact h.same.trans (hsame.subset (Set.subset_insert d S))
      · rw [hempty] at hlen
        rw [← hlen,List.length_nil] at hcount
        omega
      · rintro (hfree | ⟨u,hu,hf⟩)
        · exact hfs.not_free hfree
        · exact hfs.unused u (hu ▸ hd) hf
    · rw [hmap]
      exact hnext s₂ hcopy

def pagesIn (sz : ℕ) : ℕ := (sz+pgSize-1)/pgSize

theorem copyuvmLoop_spec (fuel : ℕ) (h : Copying c S d pgdir s₀ n s) (hle : n ≤ pagesIn sz)
    (hfuel : sz ≤ (n+fuel)*pgSize) :
    Outcome (copyuvmLoop pgdir d sz (fuel+1) (n*pgSize) s)
      (fun r => (r.1 = some d ∧ Copying c S d pgdir s₀ (pagesIn sz) r.2) ∨
        (r.1 = none ∧ Stopped c S d pgdir s₀ sz r.2))
      (fun _ => ∃ m, m*pgSize < sz ∧ ¬ s₀.copyable pgdir m) := by
  have hsize : pgSize = 4096 := rfl
  have hlast : ∀ {n}, n ≤ pagesIn sz → ¬ n*pgSize < sz → n = pagesIn sz := by
    intro n hle hn
    rw [pagesIn,hsize] at hle ⊢
    rw [hsize] at hn
    omega
  induction fuel generalizing n s with
  | zero =>
    have hn : ¬ n*pgSize < sz := by simpa using hfuel
    rw [copyuvmLoop,if_neg hn]
    exact .ok (Or.inl ⟨rfl,hlast hle hn ▸ h⟩)
  | succ fuel ih =>
    rw [copyuvmLoop]
    by_cases hn : n*pgSize < sz
    · have hnext : ∀ s', Copying c S d pgdir s₀ (n+1) s' →
          Outcome (copyuvmLoop pgdir d sz (fuel+1) (n*pgSize+pgSize) s')
            (fun r => (r.1 = some d ∧ Copying c S d pgdir s₀ (pagesIn sz) r.2) ∨
              (r.1 = none ∧ Stopped c S d pgdir s₀ sz r.2))
            (fun _ => ∃ m, m*pgSize < sz ∧ ¬ s₀.copyable pgdir m) := by
        intro s' h'
        have hle' : n+1 ≤ pagesIn sz := by
          simp only [pagesIn,hsize] at hn ⊢
          omega
        have hfuel' : sz ≤ (n+1+fuel)*pgSize := by
          rw [Nat.add_right_comm]
          exact hfuel
        have hstep := ih h' hle' hfuel'
        rwa [Nat.add_mul,Nat.one_mul] at hstep
      rw [if_pos hn,walkpgdir_false]
      have hpte : s.pte pgdir (vpn (n*pgSize)) = s₀.pte pgdir (pageAt n) := h.parent hS n
      cases ht : s.table pgdir (vpn (n*pgSize)) with
      | none =>
        refine .error ⟨n,hn,?_⟩
        rw [pte_of_no_table ht] at hpte
        rw [Kernel.copyable,Kernel.resident,← hpte]
        simp [has]
      | some t =>
        have hread : s.readPte (t,ptx (n*pgSize)) = s₀.pte pgdir (pageAt n) := (readPte_eq ht).trans hpte
        simp only [Option.map_some,hread]
        by_cases hpg : has (s₀.pte pgdir (pageAt n)) ptePG = true
        · have hres : s₀.resident pgdir n = false := by
            rw [Kernel.resident,hpg]
            simp
          rw [if_neg (by simp [hpg]),if_pos hpg]
          by_cases hcopy : s₀.copyable pgdir n
          · obtain ⟨s₂,hmark,h₂⟩ := h.mark hdS hsz hn hres hcopy
            rw [hmark]
            exact hnext s₂ h₂
          · have hnone : s.table d (vpn (n*pgSize)) = none := by
              by_contra hne
              obtain ⟨t',ht'⟩ := Option.ne_none_iff_exists'.mp hne
              have hnk : n*pgSize < kernBase := Nat.lt_of_lt_of_le hn hsz
              obtain ⟨j,hj,hjn,hjres⟩ := (h.tables (pageAt n) (pageAt_own hnk)).mp ⟨t',ht'⟩
              rw [pageAt_fst hnk] at hjn
              exact hcopy (Or.inr ⟨hpg,j,hj,hjn,hjres⟩)
            rw [fixPagedOutPTE_missing hnone]
            exact .error ⟨n,hn,hcopy⟩
        · by_cases hp : has (s₀.pte pgdir (pageAt n)) pteP = true
          · have hres : s₀.resident pgdir n = true := by
              rw [Kernel.resident,hp]
              simpa using hpg
            rw [if_neg (by simp [hp]),if_neg hpg]
            exact h.copy hdS hS hsz hn hres (fun s' hs' => Or.inr ⟨rfl,hs'⟩) hnext
          · rw [if_pos (by simp [hp,hpg])]
            refine .error ⟨n,hn,?_⟩
            rintro (hres | ⟨hyes,-⟩)
            · exact hp (Bool.and_eq_true_iff.mp hres).1
            · exact hpg hyes
    · rw [if_neg hn]
      exact .ok (Or.inl ⟨rfl,hlast hle hn ▸ h⟩)

end Loop

section Copy
variable {sz : ℕ}

/-- The free list ends at the page table for the copy of a page. -/
def Kernel.shortOfTable (s : Kernel) (pgdir : Frame) (sz : ℕ) : Prop :=
  ∃ n, n*pgSize < sz ∧ s.opens pgdir n = true ∧ s.freelist.length = s.demand pgdir n+1

theorem demand_lt (hn : n*pgSize < sz) (hres : s.resident pgdir n = true) :
    s.demand pgdir n+(if s.opens pgdir n then 1 else 0) < s.demand pgdir (pagesIn sz) := by
  have hle : n+1 ≤ pagesIn sz := by
    have hsize : pgSize = 4096 := rfl
    simp only [pagesIn,hsize] at hn ⊢
    omega
  have hmono := demand_mono s pgdir hle
  rw [demand_succ,if_pos hres] at hmono
  omega

theorem not_shortOfTable (hl : s.freelist.length = s.demand pgdir n) :
    ¬ s.shortOfTable pgdir sz := by
  rintro ⟨m,-,hopens,hm⟩
  have hresm := (opens_iff.mp hopens).1
  obtain hlt | hle := Nat.lt_or_ge m n
  · have hmono := demand_mono s pgdir (Nat.succ_le_of_lt hlt)
    rw [Nat.succ_eq_add_one,demand_succ,if_pos hresm,if_pos hopens] at hmono
    omega
  · have hmono := demand_mono s pgdir hle
    omega

/-- A call of `copyuvm` that returned 0: a frame is lost if the list ended at a page table. -/
structure CopyFailed (c : Config) (S : Set Frame) (pgdir : Frame) (sz : ℕ) (s s' : Kernel) : Prop where
  wf : Wf c S s'
  same : Same S ∅ s s'
  short : s.freelist.length < s.demand pgdir (pagesIn sz)
  kept : ¬ s.shortOfTable pgdir sz → s'.freeFrames = s.freeFrames
  lost : s.shortOfTable pgdir sz → ∃ f, f ∉ s'.freeFrames ∧ insert f s'.freeFrames = s.freeFrames

theorem Stopped.freevm (hdS : d ∉ S) (h : Stopped c S d pgdir s sz s₁) :
    Outcome (freevm c d s₁) (CopyFailed c S pgdir sz s) (fun _ => ¬ c.Forgets s.proc.pages) := by
  have hd : d ∈ insert d S := Set.mem_insert d S
  cases hrun : Xv6Paging.freevm c d s₁ with
  | error e =>
    refine .error fun hforgets => ?_
    rw [← h.proc] at hforgets
    refine (freevm_spec (M := fun _ p => c.Forgets p) (E := fun _ => False) h.wf hd ?_ hforgets).of_error hrun
    intro b p _ _ _ hm
    obtain ⟨hm',hf⟩ := hm.step (s₁.proc.pgdir = d) b (s₁.pte d (vpn b))
    rw [checkFound,if_neg (not_lt.mpr hf)]
    exact .ok hm'
  | ok s' =>
    obtain ⟨hw,hsame,l,hl,-,hmem⟩ := freevm_returns h.wf hd hrun
    rw [Set.insert_sdiff_of_mem _ (Set.mem_singleton d),Set.sdiff_singleton_eq_self hdS] at hw hsame
    have hfree : s'.freeFrames = s₁.accounted {d} := by
      rw [accounted_eq]
      ext f
      change f ∈ s'.freelist ↔ f ∈ s₁.freelist ∨ f ∈ s₁.spaceFrames {d}
      rw [hl,List.mem_append,hmem,or_comm]
    obtain ⟨n,hn,hres,hcase⟩ := h.short
    have hlt := demand_lt hn hres
    obtain ⟨hlen,hacc⟩ | ⟨hopens,hlen,f,hf,hacc⟩ := hcase
    · refine .ok ⟨hw,h.same.trans hsame,by omega,fun _ => hfree.trans hacc,fun hleak => ?_⟩
      exact (not_shortOfTable hlen hleak).elim
    · rw [if_pos hopens] at hlt
      refine .ok ⟨hw,h.same.trans hsame,by omega,fun hno => (hno ⟨n,hn,hopens,hlen⟩).elim,fun _ => ⟨f,?_,?_⟩⟩
      · rw [hfree]
        exact hf
      · rw [hfree]
        exact hacc

theorem copyuvm_spec (hS : pgdir ∈ S) (hsz : sz ≤ kernBase) (hw : Wf c S s) :
    Outcome (copyuvm c pgdir sz s)
      (fun r => (∃ d, r.1 = some d ∧ d ∉ S ∧ Copying c S d pgdir s (pagesIn sz) r.2) ∨
        (r.1 = none ∧ CopyFailed c S pgdir sz s r.2))
      (fun _ => (∃ m, m*pgSize < sz ∧ ¬ s.copyable pgdir m) ∨
        s.freelist.length < s.demand pgdir (pagesIn sz) ∧ ¬ c.Forgets s.proc.pages) := by
  have hbase : ∀ n, 65 ≤ s.demand pgdir n := by
    intro n
    rw [Kernel.demand]
    omega
  unfold copyuvm
  refine (setupkvm_spec hw).mono (fun _ => id) (fun _ => False.elim) |>.bind ?_
  rintro ⟨r,s₁⟩ (⟨d,hr,hdS,hnew⟩ | ⟨hr,hshort,hundone⟩)
  · dsimp only at hr
    subst hr
    dsimp only
    have hfuel : sz ≤ (0+(sz/pgSize+1))*pgSize := by
      have hsize : pgSize = 4096 := rfl
      simp only [hsize]
      omega
    have hloop := copyuvmLoop_spec hdS hS hsz (sz/pgSize+1) (hnew.copying pgdir) (Nat.zero_le _) hfuel
    rw [Nat.zero_mul] at hloop
    refine (hloop.mono (fun _ => id) fun _ he => Or.inl he).bind ?_
    rintro ⟨r,s₂⟩ (⟨hr,hcopy⟩ | ⟨hr,hstop⟩)
    · dsimp only at hr
      subst hr
      exact .ok (Or.inl ⟨d,rfl,hdS,hcopy⟩)
    · dsimp only at hr
      subst hr
      obtain ⟨n,hn,hres,hcase⟩ := hstop.short
      have hlt := demand_lt hn hres
      have hfew : s.freelist.length < s.demand pgdir (pagesIn sz) := by
        obtain ⟨hlen,-⟩ | ⟨hopens,hlen,-⟩ := hcase
        · omega
        · rw [if_pos hopens] at hlt
          omega
      refine ((hstop.freevm hdS).mono (fun _ => id) fun _ hno => Or.inr ⟨hfew,hno⟩).bind ?_
      intro s₃ hfailed
      exact .ok (Or.inr ⟨rfl,hfailed⟩)
  · dsimp only at hr
    subst hr
    refine .ok (Or.inr ⟨rfl,hundone.wf,hundone.same,Nat.lt_of_lt_of_le hshort (hbase _),fun _ => hundone.frames,?_⟩)
    rintro ⟨n,-,-,hn⟩
    have h65 := hbase n
    omega

end Copy

theorem copyuvm_succeeds (hS : pgdir ∈ S) (hsz : sz ≤ kernBase) (hw : Wf c S s)
    (hcopyable : ∀ m, m*pgSize < sz → s.copyable pgdir m) (hfree : s.demand pgdir (pagesIn sz) ≤ s.freelist.length) :
    ∃ d s', copyuvm c pgdir sz s = .ok (some d,s') ∧ d ∉ S ∧ Copying c S d pgdir s (pagesIn sz) s' := by
  have hspec := copyuvm_spec hS hsz hw
  cases hrun : copyuvm c pgdir sz s with
  | error e =>
    obtain ⟨m,hm,hno⟩ | ⟨hlt,-⟩ := hspec.of_error hrun
    · exact (hno (hcopyable m hm)).elim
    · omega
  | ok r =>
    obtain ⟨r,s'⟩ := r
    obtain ⟨d,rfl,hdS,hcopy⟩ | ⟨-,hfailed⟩ := hspec.of_ok hrun
    · exact ⟨d,s',rfl,hdS,hcopy⟩
    · have hshort := hfailed.short
      omega

section Sample

def frameRun (k n : ℕ) : List Frame := (List.range' k n).map (BitVec.ofNat 20)

theorem frameRun_nodup {k : ℕ} (h : k+n ≤ 2^20) : (frameRun k n).Nodup := by
  refine List.Nodup.map_on ?_ List.nodup_range'
  intro i hi j hj he
  have hi' := List.mem_range'_1.mp hi
  have hj' := List.mem_range'_1.mp hj
  have hv := congrArg BitVec.toNat he
  rw [BitVec.toNat_ofNat,BitVec.toNat_ofNat,Nat.mod_eq_of_lt (by omega),Nat.mod_eq_of_lt (by omega)] at hv
  exact hv

theorem frameRun_valid {b : Build} {k : ℕ} (h1 : 0x400 ≤ k) (h2 : k+n ≤ 0x800) :
    ∀ f ∈ frameRun k n, f ∈ (sampleConfig b).frames := by
  intro f hf
  obtain ⟨i,hi,rfl⟩ := List.mem_map.mp hf
  have hi' := List.mem_range'_1.mp hi
  have hval : (BitVec.ofNat 20 i).toNat = i := by
    rw [BitVec.toNat_ofNat]
    exact Nat.mod_eq_of_lt (by omega)
  have hend : (sampleConfig b).endAddr = 0x80115000 := rfl
  have hbase : kernBase = 0x80000000 := rfl
  have hsize : pgSize = 4096 := rfl
  have hstop : phystop = 0xE000000 := rfl
  refine ⟨?_,?_⟩
  · rw [hval,hend,hbase,hsize]
    omega
  · rw [hval,hstop,hsize]
    omega

def presentParent (n : ℕ) : Kernel :=
  (Kernel.blank 0x400 (frameRun 0x401 (n+2)) (ProcPages.init .none)).mapZero 0x400 0x401 0x402

def swappedParent (n : ℕ) : Kernel :=
  ((Kernel.blank 0x400 (frameRun 0x401 (n+1)) (ProcPages.init .none)).grow 0x400 (vpn 0) 0x401).setPte 0x400 (vpn 0)
    (pteW ||| pteU ||| ptePG)

theorem wf_frameRun {b : Build} (hn : n ≤ 1000) (pages : ProcPages) :
    Wf (sampleConfig b) {0x400} (Kernel.blank 0x400 (frameRun 0x401 n) pages) := by
  have hrun : (0x400 : Frame) :: frameRun 0x401 n = frameRun 0x400 (n+1) := rfl
  refine wf_blank ?_ ?_
  · rw [hrun]
    exact frameRun_nodup (by omega)
  · rw [hrun]
    exact frameRun_valid le_rfl (by omega)

theorem wf_presentParent {b : Build} (hn : n ≤ 512) : Wf (sampleConfig b) {0x400} (presentParent n) :=
  (wf_frameRun (by omega) _).mapZero rfl blank_table rfl

theorem wf_swappedParent {b : Build} (hn : n ≤ 512) : Wf (sampleConfig b) {0x400} (swappedParent n) := by
  have hblank := wf_frameRun (b := b) (n := n+1) (by omega) (ProcPages.init .none)
  exact (hblank.grow rfl blank_table rfl).setPte_flags rfl (hblank.grow_table_same rfl rfl) (Or.inl (by decide))

theorem presentParent_pte (hn : n ≤ 512) :
    (presentParent n).pte 0x400 (pageAt 0) = frameAddr 0x402 ||| pteW ||| pteU ||| pteP := by
  have hblank := wf_frameRun (b := .none) (n := n+2) (by omega) (ProcPages.init .none)
  have hgrown := hblank.grow (k := vpn 0) (t := 0x401) (l := frameRun 0x402 (n+1)) rfl blank_table rfl
  exact (hgrown.take (f := 0x402) (l := frameRun 0x403 n) rfl).1.setPte_same rfl (hblank.grow_table_same rfl rfl)

theorem presentParent_resident (hn : n ≤ 512) : (presentParent n).resident 0x400 0 = true := by
  rw [Kernel.resident,presentParent_pte hn]
  decide

theorem swappedParent_pte (hn : n ≤ 512) :
    (swappedParent n).pte 0x400 (pageAt 0) = pteW ||| pteU ||| ptePG := by
  have hblank := wf_frameRun (b := .none) (n := n+1) (by omega) (ProcPages.init .none)
  exact (hblank.grow rfl blank_table rfl).setPte_same rfl (hblank.grow_table_same rfl rfl)

theorem demand_one : s.demand pgdir 1 = 65+(if s.resident pgdir 0 then 1 else 0)+(if s.opens pgdir 0 then 1 else 0) :=
  demand_succ s pgdir 0

theorem opens_zero : s.opens pgdir 0 = s.resident pgdir 0 := Bool.and_true _

end Sample

end Xv6Paging
