import Xv6Paging.Paging.Consistency

/-! # Swapping in and out

What `insert_to_disk`, `moveram_to_disk` and `getPageFromFile` do to a consistent process
in the two builds that select a page by its age.
-/
namespace Xv6Paging
open WordPage PageTree Function

structure OnlySwap (s s' : Kernel) : Prop where
  kallocZero : s'.kallocZero = s.kallocZero
  proc : s'.proc = {s.proc with swapFile := s'.proc.swapFile, pages := s'.proc.pages}

theorem OnlySwap.refl (s : Kernel) : OnlySwap s s := ⟨rfl,rfl⟩

theorem OnlySwap.trans {s s' s'' : Kernel} (h : OnlySwap s s') (h' : OnlySwap s' s'') : OnlySwap s s'' :=
  ⟨h'.kallocZero.trans h.kallocZero,by rw [h'.proc,h.proc]⟩

/-- The builds that select the page with the lowest age. -/
def Build.Aging (b : Build) : Prop := b = .nfua ∨ b = .lapa

section Evict
variable {c : Config} {Y : Set ℕ} {μ : ℕ → Page} {α : ℕ → Bool → Bool} {s : Kernel} {a : ℕ}
  {i tmp : Slot} {ip : Inode}

theorem pgRoundDown_of_dvd (h : pgSize ∣ a) : pgRoundDown a = a := Nat.div_mul_cancel h

def ProcPages.evict (p : ProcPages) (i tmp : Slot) (a : ℕ) : ProcPages :=
  {p with
    diskVa := update p.diskVa i (some a)
    pagesInSwapfileCounter := p.pagesInSwapfileCounter+1
    pagedout := p.pagedout+1}.vacate tmp

theorem insertToDisk_eq {d : Frame} {S : Set Frame} (hwf : Wf c S s) (hd : s.proc.pgdir ∈ S)
    (hpd : s.proc.pgdir = d) (htmp : s.proc.pages.va tmp = some a) (hu : UserPage a)
    (hP : has (s.pte d (vpn a)) pteP = true) (hip : s.proc.swapFile = some ip)
    (hroom : i.val*pgSize ≤ ip.size) : insertToDisk c i tmp s =
      .ok (((s.setPte d (vpn a) (pteW ||| pteU ||| ptePG)).free (pteAddr (s.pte d (vpn a)))).setSwap
        (ip.putPage i (s.page d (vpn a))) (s.proc.pages.evict i tmp a)) := by
  subst hpd
  obtain ⟨t,ht⟩ := table_of_has hP
  have hne : s.pte s.proc.pgdir (vpn a) ≠ 0 := by
    intro h0
    rw [h0] at hP
    cases hP
  have hread : ∀ p, readUserPage a (s.setPages p) = .ok (s.page s.proc.pgdir (vpn a)) :=
    fun p => readUserPage_of_aligned (s := s.setPages p) hu.1 hu.lt hP
  have hwrite : ∀ p, writeToSwapFile (s.setPages p).proc (s.page s.proc.pgdir (vpn a)) (i.val*pgSize)
      pgSize = .ok ((pgSize : ℤ),{(s.setPages p).proc with
        swapFile := some (ip.putPage i (s.page s.proc.pgdir (vpn a)))}) :=
    fun p => writeToSwapFile_eq (p := (s.setPages p).proc) hip hroom
  have hcomm := free_setPte_comm (w := pteW ||| pteU ||| ptePG) hwf hd hu.own hP ht
  have hpos : ¬ ((pgSize : ℤ) ≤ 0) := by decide
  have hmem := hwf.pteAddr_mem hd hu.own hP
  have hwalk : ∀ q : Proc, walkpgdir s.proc.pgdir a false {s with proc := q} =
      (some (t,ptx a),{s with proc := q}) :=
    fun q => walkpgdir_of_table (s := {s with proc := q}) ht false
  have hpte : ∀ q : Proc, {s with proc := q}.readPte (t,ptx a) = s.pte s.proc.pgdir (vpn a) :=
    fun q => readPte_eq (s := {s with proc := q}) ht
  simp only [insertToDisk,htmp,vaAddr,Option.getD_some,pgRoundDown_of_dvd hu.1,hread,hwrite,bind,
    Except.bind,if_neg hpos]
  simp only [Kernel.setPages,hwalk,hpte,if_neg hne,kfree_eq hmem]
  exact congrArg (fun r : Kernel => Except.ok (r.setSwap (ip.putPage i (s.page s.proc.pgdir (vpn a)))
    (s.proc.pages.evict i tmp a))) hcomm

/-- `insert_to_disk` moves one page to the first free slot. -/
theorem insertToDisk_spec (h : Consistent c Y μ α s) (htmp : s.proc.pages.va tmp = some a)
    (hi : firstFree s.proc.pages.diskVa = some i) :
    ∃ s', insertToDisk c i tmp s = .ok s' ∧ Consistent c Y μ α s' ∧ OnlySwap s s' ∧
      s'.proc.pages.va = update s.proc.pages.va tmp none ∧
      s'.proc.pages.residents = s.proc.pages.residents \ {a} ∧
      s'.proc.pages.swapped = insert a s.proc.pages.swapped ∧ s'.freelist ≠ [] := by
  obtain ⟨ip,hip⟩ := Option.ne_none_iff_exists'.mp h.file
  have haZ : a ∈ s.proc.pages.residents ∪ Y := Or.inl ⟨tmp,htmp⟩
  have haY : a ∉ Y := fun ha => (h.transit a ha).1 ⟨tmp,htmp⟩
  have hroom := h.room hip hi
  have heq := insertToDisk_eq h.space.wf rfl rfl htmp (h.space.user a haZ) (h.space.present a haZ)
    hip hroom
  obtain ⟨hout,hsw⟩ := (h.vacate htmp).pageOut (Set.mem_insert a Y) (firstFree_some hi) hip
    (w := pteW ||| pteU ||| ptePG) (p := s.proc.pages.evict i tmp a) (by decide) (by decide)
    (by decide) rfl rfl rfl rfl
  rw [Set.insert_sdiff_self_of_notMem haY] at hout
  have hres := residents_vacate h.once htmp
  exact ⟨_,heq,hout,⟨rfl,rfl⟩,rfl,hres,hsw,List.cons_ne_nil _ _⟩

end Evict

section Select
variable {c : Config} {Y : Set ℕ} {μ : ℕ → Page} {α : ℕ → Bool → Bool} {s : Kernel} {a : ℕ} {i : Slot}
  {p p' : ProcPages} {b : Build}

theorem selectPageToRemove_aging (hb : b.Aging) (hi : s.proc.pages.va i ≠ none) :
    ∃ tmp a, selectPageToRemove b s = .ok (tmp,s) ∧ s.proc.pages.va tmp = some a := by
  rcases hb with rfl | rfl
  · obtain ⟨tmp,htmp,hmin⟩ := Aging.nfuAlg_firstMin ⟨i,hi⟩
    obtain ⟨a,ha⟩ := Option.ne_none_iff_exists'.mp hmin.used
    exact ⟨tmp,a,by simp only [selectPageToRemove,htmp]; rfl,ha⟩
  · obtain ⟨tmp,htmp,hmin⟩ := Aging.lapaAlg_firstMin ⟨i,hi⟩
    obtain ⟨a,ha⟩ := Option.ne_none_iff_exists'.mp hmin.used
    exact ⟨tmp,a,by simp only [selectPageToRemove,htmp]; rfl,ha⟩

structure ListedIn (p : ProcPages) (i : Slot) (a : ℕ) (p' : ProcPages) : Prop where
  free : p.va i = none
  va : p'.va = update p.va i (some a)
  count : p'.pagesInMemoryCounter = p.pagesInMemoryCounter+1
  diskVa : p'.diskVa = p.diskVa
  swapCount : p'.pagesInSwapfileCounter = p.pagesInSwapfileCounter

theorem updateMemory_listedIn {build : Build} {p q : ProcPages} {j : Slot} (h : updateMemory build p a = .ok (j,q)) :
    ListedIn p j a q := by
  cases build with
  | none => cases h
  | nfua =>
    simp only [updateMemory,updateMemoryNfua,updateMemoryArray] at h
    split at h <;> cases h
    exact ⟨firstFree_some ‹_›,rfl,rfl,rfl,rfl⟩
  | lapa =>
    simp only [updateMemory,updateMemoryLapa,updateMemoryArray] at h
    split at h <;> cases h
    exact ⟨firstFree_some ‹_›,rfl,rfl,rfl,rfl⟩
  | scfifo =>
    simp only [updateMemory,updateMemoryScfifo] at h
    repeat' split at h
    all_goals cases h
    all_goals exact ⟨firstFree_some ‹_›,rfl,rfl,rfl,rfl⟩
  | aq =>
    simp only [updateMemory,updateMemoryAq] at h
    repeat' split at h
    all_goals cases h
    all_goals exact ⟨firstFree_some ‹_›,rfl,rfl,rfl,rfl⟩

theorem updateMemory_aging (hb : b.Aging) (hi : p.va i = none) (a : ℕ) :
    ∃ j p', updateMemory b p a = .ok (j,p') ∧ ListedIn p j a p' := by
  obtain ⟨j,hj⟩ := exists_firstFree hi
  have hl : ∀ msg age, ∃ p', updateMemoryArray msg age p a = .ok (j,p') ∧ ListedIn p j a p' := by
    intro msg age
    exact ⟨{p.occupy j a age with
        next := update p.next j none
        prev := update p.prev j none},by simp only [updateMemoryArray,hj],
      firstFree_some hj,rfl,rfl,rfl,rfl⟩
  rcases hb with rfl | rfl
  · exact ⟨j,hl _ _⟩
  · exact ⟨j,hl _ _⟩

theorem Consistent.listedIn (h : Consistent c Y μ α s) (ha : a ∈ Y) (hl : ListedIn s.proc.pages i a p) :
    Consistent c (Y \ {a}) μ α (s.setPages p) ∧ p.residents = insert a s.proc.pages.residents :=
  h.list ha hl.free hl.va hl.count hl.diskVa hl.swapCount

def ProcPages.listed (p : ProcPages) : Set ℕ := p.residents ∪ p.swapped

/-- `moveram_to_disk` frees one slot of `memory_pg_arr`. -/
theorem moveramToDisk_spec (hb : c.build.Aging) (h : Consistent c Y μ α s)
    (hi : s.proc.pages.va i ≠ none) (hroom : occupied s.proc.pages.diskVa < 16) :
    ∃ s' tmp a, selectPageToRemove c.build s = .ok (tmp,s) ∧ s.proc.pages.va tmp = some a ∧
      moveramToDisk c s = .ok s' ∧ Consistent c Y μ α s' ∧ OnlySwap s s' ∧
      s'.proc.pages.va = update s.proc.pages.va tmp none ∧
      s'.proc.pages.residents = s.proc.pages.residents \ {a} ∧
      s'.proc.pages.swapped = insert a s.proc.pages.swapped ∧ s'.freelist ≠ [] := by
  obtain ⟨tmp,a,hsel,htmp⟩ := selectPageToRemove_aging hb hi
  obtain ⟨j,hj⟩ := exists_free_of_occupied hroom
  obtain ⟨k,hk⟩ := exists_firstFree hj
  obtain ⟨s',hs',hrest⟩ := insertToDisk_spec h htmp hk
  refine ⟨s',tmp,a,hsel,htmp,?_,hrest⟩
  have hne : ¬ (c.build = .scfifo ∧ (s.proc.pages.head = none ∨ s.proc.pages.tail = none)) := by
    rintro ⟨h1,-⟩
    rcases hb with h2 | h2 <;> rw [h2] at h1 <;> cases h1
  simp only [moveramToDisk,hk,if_neg hne,hsel]
  exact hs'

/-- `allocuvm` lists a page that it has mapped, if there is a free slot in one of the arrays. -/
theorem listPage_spec (hb : c.build.Aging) (h : Consistent c Y μ α s) (ha : a ∈ Y)
    (hroom : occupied s.proc.pages.va < 16 ∨ occupied s.proc.pages.diskVa < 16) :
    ∃ s', listPage c a s = .ok s' ∧ Consistent c (Y \ {a}) μ α s' ∧ OnlySwap s s' ∧
      s'.proc.pages.listed = insert a s.proc.pages.listed ∧
      (16 ≤ occupied s.proc.pages.va → ∃ tmp v, selectPageToRemove c.build s = .ok (tmp,s) ∧
        s.proc.pages.va tmp = some v ∧ s'.proc.pages.swapped = insert v s.proc.pages.swapped ∧
        s'.freelist ≠ []) := by
  have hcount := h.residentCount
  have hscount := h.swappedCount
  have hmax : maxPsycPages = 16 := rfl
  by_cases hfull : (maxPsycPages : ℤ) ≤ s.proc.pages.pagesInMemoryCounter
  · have hd : occupied s.proc.pages.diskVa < 16 := by omega
    have hdc : ¬ ((maxPsycPages : ℤ) ≤ s.proc.pages.pagesInSwapfileCounter) := by omega
    obtain ⟨s₁,tmp,v,hsel,htmp,hs₁,hc₁,ho₁,hva₁,hr₁,hsw₁,hfl₁⟩ :=
      moveramToDisk_spec hb h (ne_none_of_occupied (by omega) 0) hd
    have hfree : s₁.proc.pages.va tmp = none := by rw [hva₁,update_self]
    obtain ⟨j,p,hp,hl⟩ := updateMemory_aging hb hfree a
    obtain ⟨hc₂,hr₂⟩ := hc₁.listedIn ha hl
    have hv : v ∈ s.proc.pages.residents := ⟨tmp,htmp⟩
    refine ⟨s₁.setPages p,?_,hc₂,ho₁.trans ⟨rfl,rfl⟩,?_,fun _ => ⟨tmp,v,hsel,htmp,?_,hfl₁⟩⟩
    · simp only [listPage,if_pos hfull,if_neg hdc,hs₁,bind,Except.bind,hp]
      rfl
    · change p.residents ∪ {a | ∃ i, p.diskVa i = some a} = _
      rw [hr₂,hl.diskVa,hr₁]
      change insert a (s.proc.pages.residents \ {v}) ∪ s₁.proc.pages.swapped = _
      rw [hsw₁]
      ext e
      by_cases he : e = v <;> simp [ProcPages.listed,he,hv,or_assoc]
    · rw [← hsw₁]
      simp only [ProcPages.swapped]
      change {a | ∃ i, p.diskVa i = some a} = _
      rw [hl.diskVa]
  · obtain ⟨j,hj⟩ := exists_free_of_occupied (v := s.proc.pages.va) (by omega)
    obtain ⟨k,p,hp,hl⟩ := updateMemory_aging hb hj a
    obtain ⟨hc₂,hr₂⟩ := h.listedIn ha hl
    refine ⟨s.setPages p,?_,hc₂,⟨rfl,rfl⟩,?_,fun ho => absurd ho (by omega)⟩
    · simp only [listPage,if_neg hfull,bind,Except.bind,hp]
      rfl
    · change p.residents ∪ {a | ∃ i, p.diskVa i = some a} = _
      rw [hr₂,hl.diskVa,Set.insert_union]
      rfl

end Select

section PageIn
variable {c : Config} {Y : Set ℕ} {μ : ℕ → Page} {α : ℕ → Bool → Bool} {s s₁ s' : Kernel} {a v : ℕ}
  {i j k tmp : Slot} {ip : Inode} {f : Frame} {p : ProcPages}

theorem Consistent.same (h : Consistent c Y μ α s) (hwf : Wf c {s.proc.pgdir} s')
    (hs : Same {s.proc.pgdir} ∅ s s') (hp : s'.proc = s.proc) : Consistent c Y μ α s' := by
  have hpte : ∀ k, s'.pte s.proc.pgdir k = s.pte s.proc.pgdir k :=
    fun k => hs.entry _ rfl k (Set.notMem_empty _)
  refine ⟨?_,?_,fun i a hi => ?_,?_,?_,?_,?_⟩
  · rw [hp]
    exact h.space.same hwf hs
  · rw [hp]
    exact h.file
  · rw [hp] at hi ⊢
    rw [hpte]
    exact h.swapped i a hi
  · rw [hp]
    exact h.once
  · rw [hp]
    exact h.transit
  · rw [hp]
    exact h.residentCount
  · rw [hp]
    exact h.swappedCount

theorem Consistent.setBuff (h : Consistent c Y μ α s) (pg : Page) :
    Consistent c Y μ α {s with buff := pg} := h.same h.space.wf (Keeps.refl _) rfl

def ProcPages.unswap (p : ProcPages) (j : Slot) : ProcPages :=
  {p with
    diskVa := update p.diskVa j none
    pagesInSwapfileCounter := p.pagesInSwapfileCounter-1}

theorem readPageFromFile_eq {q : Proc} {b : Build} (hj : q.pages.diskVa j = some a)
    (honce : ListedOnce q.pages) (hip : q.swapFile = some ip) (hsize : (j.val+1)*pgSize ≤ ip.size)
    (hupd : updateMemory b (q.pages.unswap j) a = .ok (k,p)) (buf : Page) :
    readPageFromFile b q a buf =
      .ok ((pgSize : ℤ),ip.slotPage j.val,{q with pages := p}) := by
  have hfind := find?_slot hj fun i hi => honce.diskVa i j a hi hj
  have hne : ¬ ((pgSize : ℤ) = -1) := by decide
  simp only [ProcPages.unswap] at hupd
  simp only [readPageFromFile,hfind,readFromSwapFile_eq hip hsize,bind,Except.bind,if_neg hne,hupd]
  rfl

theorem writePageToFile_eq (hi : firstFree s.proc.pages.diskVa = some i) (hu : UserPage v)
    (hP : has (s.pte s.proc.pgdir (vpn v)) pteP = true) (hip : s.proc.swapFile = some ip)
    (hroom : i.val*pgSize ≤ ip.size) : writePageToFile v s =
      .ok ((pgSize : ℤ),s.setSwap (ip.putPage i (s.page s.proc.pgdir (vpn v))) {s.proc.pages with
        diskVa := update s.proc.pages.diskVa i (some v)
        pagesInSwapfileCounter := s.proc.pages.pagesInSwapfileCounter+1
        pagedout := s.proc.pages.pagedout+1}) := by
  have hne : ¬ ((pgSize : ℤ) = -1) := by decide
  simp only [writePageToFile,hi,readUserPage_of_aligned hu.1 hu.lt hP,bind,Except.bind,
    Nat.mul_comm pgSize,writeToSwapFile_eq hip hroom,if_neg hne]
  rfl

theorem has_pagedOut_pteP (w : Word) : has (pagedOut w) pteP = false := by
  simp only [pagedOut,has_pteP,BitVec.getLsbD_and,BitVec.getLsbD_or]
  simp [pteP]

theorem has_pagedOut_ptePG (w : Word) : has (pagedOut w) ptePG = true := by
  simp only [pagedOut,has_ptePG,BitVec.getLsbD_and,BitVec.getLsbD_or,
    pteFlags_getLsbD _ (show 9 < 12 by decide)]
  simp [pteP,ptePG]

theorem pteAddr_pagedOut (w : Word) : pteAddr (pagedOut w) = 0 := by
  rw [pagedOut,pteAddr_and,pteAddr_pteFlags]
  simp

theorem writeOut_spec (h : Consistent c (insert v Y) μ α s) (hvY : v ∉ Y) (hj : s.proc.pages.diskVa j = none) :
    ∃ s₁ s₂ s', writePageToFile v s = .ok ((pgSize : ℤ),s₁) ∧
      fixPagedOutPTE s₁.proc.pgdir v false s₁ = .ok s₂ ∧
      kfree c (pteAddr (s.pte s.proc.pgdir (vpn v))) s₂ = .ok s' ∧ Consistent c Y μ α s' ∧
      OnlySwap s s' ∧ s'.proc.pages.residents = s.proc.pages.residents ∧
      s'.proc.pages.swapped = insert v s.proc.pages.swapped := by
  obtain ⟨ip,hip⟩ := Option.ne_none_iff_exists'.mp h.file
  obtain ⟨i,hi⟩ := exists_firstFree hj
  have hvZ : v ∈ s.proc.pages.residents ∪ insert v Y := Or.inr (Set.mem_insert v Y)
  have hu := h.space.user v hvZ
  have hP := h.space.present v hvZ
  obtain ⟨t,ht⟩ := table_of_has hP
  have hwrite := writePageToFile_eq hi hu hP hip (h.room hip hi)
  obtain ⟨s₁,hs₁⟩ : ∃ s₁, s₁ = s.setSwap (ip.putPage i (s.page s.proc.pgdir (vpn v)))
      {s.proc.pages with
        diskVa := update s.proc.pages.diskVa i (some v)
        pagesInSwapfileCounter := s.proc.pages.pagesInSwapfileCounter+1
        pagedout := s.proc.pages.pagedout+1} := ⟨_,rfl⟩
  have hfix : fixPagedOutPTE s₁.proc.pgdir v false s₁ =
      .ok (s₁.setPte s.proc.pgdir (vpn v) (pagedOut (s.pte s.proc.pgdir (vpn v)))) := by
    rw [hs₁]
    exact fixPagedOutPTE_eq (s := s.setSwap _ _) ht false
  obtain ⟨hout,hsw⟩ := h.pageOut (Set.mem_insert v Y) (firstFree_some hi) hip (has_pagedOut_pteP _)
    (has_pagedOut_ptePG (s.pte s.proc.pgdir (vpn v))) (pteAddr_pagedOut _) (p := s₁.proc.pages)
    (by rw [hs₁]; rfl) (by rw [hs₁]; rfl) (by rw [hs₁]; rfl) (by rw [hs₁]; rfl)
  rw [Set.insert_sdiff_self_of_notMem hvY] at hout
  rw [← hs₁] at hwrite
  refine ⟨s₁,_,_,hwrite,hfix,kfree_eq (h.space.wf.pteAddr_mem rfl hu.own hP),?_,?_,?_,hsw⟩
  · rw [hs₁] at hout ⊢
    exact hout
  · rw [hs₁]
    exact ⟨rfl,rfl⟩
  · rw [hs₁]
    rfl

theorem getPageSwapping_spec (hsel : selectPageToRemove c.build s = .ok (tmp,s₁))
    (h : Consistent c Y μ α s₁) (htmp : s₁.proc.pages.va tmp = some v)
    (hj : s₁.proc.pages.diskVa j = some a) (hf : FreshFrame c {s₁.proc.pgdir} s₁ f)
    (hupd : updateMemory c.build ((s₁.proc.pages.vacate tmp).unswap j) a = .ok (k,p))
    (hl : ListedIn ((s₁.proc.pages.vacate tmp).unswap j) k a p) :
    ∃ s', getPageSwapping c a f s = .ok s' ∧ Consistent c Y μ α s' ∧ OnlySwap s₁ s' ∧
      s'.proc.pages.residents = insert a (s₁.proc.pages.residents \ {v}) ∧
      s'.proc.pages.swapped = insert v (s₁.proc.pages.swapped \ {a}) := by
  obtain ⟨hu,habs,hflag,-,ip,hip,hsize,hslot⟩ := h.swapped j a hj
  obtain ⟨t,ht⟩ := table_of_has hflag
  have hvr : v ∈ s₁.proc.pages.residents ∪ Y := Or.inl ⟨tmp,htmp⟩
  have hvY : v ∉ Y := fun hv => (h.transit v hv).1 ⟨tmp,htmp⟩
  have haY : a ∉ Y := fun ha => (h.transit a ha).2 ⟨j,hj⟩
  have hvu := h.space.user v hvr
  have hva : v ≠ a := by
    rintro rfl
    exact h.not_resident hj hvr
  have hvac := h.vacate htmp
  obtain ⟨hin,hsw,hsame⟩ := hvac.pageIn (p := (s₁.proc.pages.vacate tmp).unswap j) hj hf rfl rfl rfl rfl
  obtain ⟨hlist,hres⟩ := hin.listedIn (Set.mem_insert _ _) hl
  have haY' : a ∉ insert v Y := fun hm => hm.elim (fun he => hva he.symm) haY
  rw [Set.insert_sdiff_self_of_notMem haY'] at hlist
  obtain ⟨s₂,hs₂⟩ : ∃ s₂, s₂ = (s₁.setPages (s₁.proc.pages.vacate tmp)).setPte s₁.proc.pgdir (vpn a)
      (pagedIn (s₁.pte s₁.proc.pgdir (vpn a)) f) := ⟨_,rfl⟩
  have hfix : fixPagedInPTE a f (s₁.setPages (s₁.proc.pages.vacate tmp)).proc.pgdir
      (s₁.setPages (s₁.proc.pages.vacate tmp)) = .ok s₂ := by
    rw [hs₂]
    exact fixPagedInPTE_eq (s := s₁.setPages (s₁.proc.pages.vacate tmp)) ht habs
  have hread : readPageFromFile c.build s₂.proc a s₂.buff =
      .ok ((pgSize : ℤ),μ a,{s₂.proc with pages := p}) := by
    rw [hs₂,← hslot]
    exact readPageFromFile_eq (q := (s₁.setPages (s₁.proc.pages.vacate tmp)).proc) hj
      hvac.once hip hsize hupd _
  -- the state in which the selected page is written to the file
  obtain ⟨s₄,hs₄⟩ : ∃ s₄, s₄ = {s₂ with buff := μ a, proc := {s₂.proc with pages := p}}.store f (μ a) :=
    ⟨_,rfl⟩
  have hc₄ : Consistent c (insert v Y) μ α s₄ := by
    rw [hs₄,hs₂]
    exact hlist.setBuff (μ a)
  have hd₄ : s₄.proc.pgdir = s₁.proc.pgdir := by rw [hs₄,hs₂]; rfl
  have hp₄ : s₄.proc.pages = p := by rw [hs₄]; rfl
  have hd₂ : s₂.proc.pgdir = s₁.proc.pgdir := by rw [hs₂]; rfl
  have hfree : s₄.proc.pages.diskVa j = none := by
    rw [hp₄,hl.diskVa]
    exact update_self _ _ _
  have hpte₂ : s₂.pte s₁.proc.pgdir (vpn v) = s₁.pte s₁.proc.pgdir (vpn v) := by
    rw [hs₂]
    exact (hvac.space.wf.same_setPte rfl).pte_of_ne rfl hu hvu hva
  have hpte₄ : s₄.pte s₁.proc.pgdir (vpn v) = s₁.pte s₁.proc.pgdir (vpn v) := by
    rw [hs₄,hs₂]
    exact hsame.pte_of_ne rfl hu hvu hva
  obtain ⟨tv,htv⟩ : ∃ t, s₂.table s₁.proc.pgdir (vpn v) = some t := by
    refine table_of_has (m := pteP) ?_
    rw [hpte₂]
    exact h.space.present v hvr
  have haddr : getPagePAddr v s₂.proc.pgdir {s₂ with buff := μ a, proc := {s₂.proc with pages := p}} =
      some (pteAddr (s₄.pte s₄.proc.pgdir (vpn v))) := by
    rw [hd₂,hd₄,hpte₄,← hpte₂]
    exact getPagePAddr_eq (s := {s₂ with buff := μ a, proc := {s₂.proc with pages := p}}) htv
  obtain ⟨s₅,s₆,s',hwrite,hfix',hkfree,hcons,honly,hr',hsw'⟩ := writeOut_spec hc₄ hvY hfree
  refine ⟨s',?_,hcons,?_,?_,?_⟩
  · simp only [getPageSwapping,hsel,bind,Except.bind,htmp,vaAddr,Option.getD_some,hfix,hread,haddr]
    rw [← hs₄]
    simp only [hwrite,hfix',hkfree]
  · refine OnlySwap.trans ⟨?_,?_⟩ honly
    · rw [hs₄,hs₂]
      rfl
    · rw [hs₄,hs₂]
      rfl
  · rw [hr',hp₄,hres]
    exact congrArg (insert a) (residents_vacate h.once htmp)
  · rw [hsw',hp₄]
    simp only [ProcPages.swapped,hl.diskVa]
    exact congrArg (insert v) hsw

theorem getPageDirectly_spec (h : Consistent c Y μ α s) (hj : s.proc.pages.diskVa j = some a)
    (hf : FreshFrame c {s.proc.pgdir} s f)
    (hupd : updateMemory c.build (s.proc.pages.unswap j) a = .ok (k,p))
    (hl : ListedIn (s.proc.pages.unswap j) k a p) :
    ∃ s', getPageDirectly c a f s = .ok s' ∧ Consistent c Y μ α s' ∧ OnlySwap s s' ∧
      s'.proc.pages.residents = insert a s.proc.pages.residents ∧
      s'.proc.pages.swapped = s.proc.pages.swapped \ {a} := by
  obtain ⟨hu,habs,hflag,haddr,ip,hip,hsize,hslot⟩ := h.swapped j a hj
  obtain ⟨t,ht⟩ := table_of_has hflag
  obtain ⟨hin,hsw,-⟩ := h.pageIn (p := s.proc.pages.unswap j) hj hf rfl rfl rfl rfl
  have haY : a ∉ Y := fun ha => (h.transit a ha).2 ⟨j,hj⟩
  obtain ⟨hlist,hres⟩ := hin.listedIn (Set.mem_insert a Y) hl
  rw [Set.insert_sdiff_self_of_notMem haY] at hlist
  obtain ⟨s₂,hs₂⟩ : ∃ s₂, s₂ = s.setPte s.proc.pgdir (vpn a)
      (pagedIn (s.pte s.proc.pgdir (vpn a)) f) := ⟨_,rfl⟩
  have hfix : fixPagedInPTE a f s.proc.pgdir s = .ok s₂ := by
    rw [hs₂]
    exact fixPagedInPTE_eq ht habs
  have hpte : s₂.pte s₂.proc.pgdir (vpn a) = pagedIn (s.pte s.proc.pgdir (vpn a)) f := by
    rw [hs₂]
    exact h.space.wf.setPte_same rfl ht
  have hdst : kernelAccess a s₂ = .ok f := by
    rw [kernelAccess_eq,hpte,if_pos (has_pagedIn_pteP _ f),pteAddr_pagedIn haddr]
  have hread : readPageFromFile c.build s₂.proc a (s₂.mem f) =
      .ok ((pgSize : ℤ),μ a,{s₂.proc with pages := p}) := by
    rw [hs₂,← hslot]
    exact readPageFromFile_eq (q := s.proc) hj h.once hip hsize hupd _
  refine ⟨{s₂ with proc := {s₂.proc with pages := p}}.store f (μ a),?_,?_,?_,hres,?_⟩
  · simp only [getPageDirectly,hfix,hdst,hread,bind,Except.bind]
    rfl
  · rw [hs₂]
    exact hlist
  · rw [hs₂]
    exact ⟨rfl,rfl⟩
  · change {e | ∃ i, p.diskVa i = some e} = _
    rw [hl.diskVa]
    exact hsw

theorem Consistent.clearFrame {l : List Frame} (h : Consistent c Y μ α s) (hl : s.freelist = f :: l) :
    Consistent c Y μ α (s.take.store f fun _ => 0) ∧
    FreshFrame c {s.proc.pgdir} (s.take.store f fun _ => 0) f := by
  obtain ⟨hw,hf⟩ := h.space.wf.take hl
  obtain ⟨hw',hf',hs⟩ := hf.store (A := ∅) hw fun _ => 0
  exact ⟨h.same hw' hs rfl,hf'⟩

/-- A page fault on a swapped page makes it resident and keeps what the process sees. -/
theorem getPageFromFile_spec {l : List Frame} {fault : ℕ} (hb : c.build.Aging)
    (h : Consistent c ∅ μ α s) (ha : pgRoundDown fault ∈ s.proc.pages.swapped)
    (hl : s.freelist = f :: l) :
    ∃ s', getPageFromFile c fault s = .ok s' ∧ Consistent c ∅ μ α s' ∧ OnlySwap s s' ∧
      pgRoundDown fault ∈ s'.proc.pages.residents ∧
      s'.proc.pages.listed = s.proc.pages.listed := by
  obtain ⟨j,hj⟩ := ha
  obtain ⟨h₀,hf₀⟩ := h.clearFrame hl
  have hmax : maxPsycPages = 16 := rfl
  have hcount := h.residentCount
  have htake : OnlySwap s (s.take.store f fun _ => 0) := ⟨rfl,rfl⟩
  simp only [getPageFromFile,kalloc_cons hl]
  by_cases hfull : (maxPsycPages : ℤ) ≤ s.proc.pages.pagesInMemoryCounter
  · have hocc : 16 ≤ occupied s.proc.pages.va := by omega
    obtain ⟨tmp,v,hsel,htmp⟩ := selectPageToRemove_aging (s := s.take.store f fun _ => 0) hb
      (ne_none_of_occupied hocc 0)
    have hfree : ((s.proc.pages.vacate tmp).unswap j).va tmp = none := update_self _ _ _
    obtain ⟨k,p,hupd,hlist⟩ := updateMemory_aging hb hfree (pgRoundDown fault)
    obtain ⟨s',hs',hc',ho',hr',hsw'⟩ := getPageSwapping_spec hsel h₀ htmp hj hf₀ hupd hlist
    have hv : v ∈ s.proc.pages.residents := ⟨tmp,htmp⟩
    have has : pgRoundDown fault ∈ s.proc.pages.swapped := ⟨j,hj⟩
    refine ⟨s',?_,hc',htake.trans ho',?_,?_⟩
    · rw [← hs']
      exact if_pos hfull
    · rw [hr']
      exact Or.inl rfl
    · simp only [ProcPages.listed,hr',hsw']
      change insert _ (s.proc.pages.residents \ {v}) ∪ insert v (s.proc.pages.swapped \ _) = _
      ext e
      by_cases h1 : e = v
      · simp [h1,hv]
      · by_cases h2 : e = pgRoundDown fault
        · simp [h2,has]
        · simp [h1,h2]
  · obtain ⟨i,hi⟩ := exists_free_of_occupied (v := s.proc.pages.va) (by omega)
    have hfree : (s.proc.pages.unswap j).va i = none := hi
    obtain ⟨k,p,hupd,hlist⟩ := updateMemory_aging hb hfree (pgRoundDown fault)
    obtain ⟨s',hs',hc',ho',hr',hsw'⟩ := getPageDirectly_spec h₀ hj hf₀ hupd hlist
    have has : pgRoundDown fault ∈ s.proc.pages.swapped := ⟨j,hj⟩
    refine ⟨s',?_,hc',htake.trans ho',?_,?_⟩
    · rw [← hs']
      exact if_neg hfull
    · rw [hr']
      exact Or.inl rfl
    · simp only [ProcPages.listed,hr',hsw']
      change insert _ s.proc.pages.residents ∪ (s.proc.pages.swapped \ _) = _
      ext e
      by_cases h2 : e = pgRoundDown fault
      · simp [h2,has]
      · simp [h2]

end PageIn

end Xv6Paging
