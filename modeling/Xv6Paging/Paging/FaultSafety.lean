import Xv6Paging.Paging.PageMoves
import Xv6Paging.Paging.VictimQueue

/-! # Page faults of user code

When a page fault of user code ends well: the page comes back from the swap file, or the process is killed. The handler
reads the entry of the address without a check for a missing page table, it takes a frame without a check for an empty
free list, it brings in a page that `disk_pg_arr` does not list as a page of zeros, and it panics if the replacement
queue is not as it expects it.
-/
namespace Xv6Paging
open WordPage PageTree LinkedCells Function

/-! ## Selecting a page -/

def Kernel.openSlot (s : Kernel) (i : Slot) : Prop := has (s.pte s.proc.pgdir (s.slotKey i)) pteU = true

def Kernel.closedSlot (s : Kernel) (i : Slot) : Prop :=
  s.pte s.proc.pgdir (s.slotKey i) ≠ 0 ∧ has (s.pte s.proc.pgdir (s.slotKey i)) pteU = false

/-- Memory has a page that the build can select, and the queue can do without it. -/
structure GivesUp (b : Build) (s : Kernel) : Prop where
  aging : b.Aging → ∃ i, s.proc.pages.va i ≠ none
  scfifo : b = .scfifo → ScfifoGives s.accessed s.proc.pages
  aq : b = .aq → AqGives s.closedSlot s.openSlot s.proc.pages

/-- The last page of the address space is not the user's, and nobody has accessed it. -/
structure QuietTop (s : Kernel) : Prop where
  access : has (s.pte s.proc.pgdir (vpn (2^32-1))) pteA = false
  user : has (s.pte s.proc.pgdir (vpn (2^32-1))) pteU = false

structure SampledBits (c : Config) (s : Kernel) (l : List Slot) (t : Kernel) : Prop where
  wf : Wf c {s.proc.pgdir} t
  proc : t.proc = s.proc
  used : ∀ i ∈ l, s.proc.pages.va i ≠ none
  pte : ∀ k, t.pte s.proc.pgdir k =
    if k ∈ l.map s.slotKey then s.pte s.proc.pgdir k &&& ~~~pteA else s.pte s.proc.pgdir k

section Select
variable {c : Config} {b : Build} {s t t' : Kernel} {va : ℕ} {u : Bool} {i : Slot} {l : List Slot}

theorem Described.listsPages (h : Described c s) (hl : ∀ i ∈ l, s.proc.pages.va i ≠ none) : ListsPages s l := by
  exact listsPages_of_residents h.resident h.once hl

theorem updateAccessBit_ok (h : updateAccessBit va s = .ok (u,t)) : u = has (s.pte s.proc.pgdir (vpn va)) pteA := by
  by_cases h0 : s.pte s.proc.pgdir (vpn va) = 0
  · cases ht : s.table s.proc.pgdir (vpn va) with
    | none =>
      simp only [updateAccessBit,walkpgdir_false,ht,Option.map_none] at h
      cases h
    | some t =>
      simp only [updateAccessBit,walkpgdir_of_table ht,readPte_eq ht,if_pos h0] at h
      cases h
  · rw [updateAccessBit_eq h0] at h
    cases h
    rfl

theorem Described.sampler (h : Described c s) (hq : QuietTop s) :
    Sampler updateAccessBit s.proc.pages.va s.accessed (SampledBits c s) := by
  refine ⟨fun l t i ht hi => ?_,fun l t i t' ht hi hrun => ?_⟩
  · have hl : ListsPages s (i :: l) := h.listsPages (List.forall_mem_cons.mpr ⟨hi,ht.used⟩)
    have hkey : s.slotKey i ∈ l.map s.slotKey ↔ i ∈ l := by
      refine ⟨fun hm => ?_,List.mem_map_of_mem⟩
      obtain ⟨j,hj,he⟩ := List.mem_map.mp hm
      exact hl.inj j (List.mem_cons_of_mem _ hj) i List.mem_cons_self he ▸ hj
    have hpte := ht.pte (s.slotKey i)
    have hP : has (t.pte s.proc.pgdir (s.slotKey i)) pteP = true := by
      obtain ⟨a,ha⟩ := Option.ne_none_iff_exists'.mp hi
      have hPa := (h.resident i a ha).2
      rw [has_pteP] at hPa
      rw [hpte,Kernel.slotKey,Kernel.slotAddr,ha,has_pteP]
      split_ifs
      · rw [has_and_not_pteA _ (by decide) (by decide)]
        exact hPa
      · exact hPa
    have h0 : t.pte t.proc.pgdir (s.slotKey i) ≠ 0 := by
      intro hz
      rw [ht.proc] at hz
      rw [hz] at hP
      cases hP
    have hrun : updateAccessBit (vaAddr (s.proc.pages.va i)) t = _ := updateAccessBit_eq h0
    have hwt : Wf c {t.proc.pgdir} t := by
      rw [ht.proc]
      exact ht.wf
    obtain ⟨hwf,hself,hother⟩ := clearBit_spec hwt h0
    rw [ht.proc] at hwf hself hother
    refine ⟨t.clearBit (s.slotKey i),?_,⟨hwf,ht.proc,List.forall_mem_cons.mpr ⟨hi,ht.used⟩,fun k => ?_⟩⟩
    · rw [hrun]
      refine congrArg Except.ok (Prod.ext_iff.mpr ⟨?_,rfl⟩)
      dsimp only
      rw [ht.proc]
      change has (t.pte s.proc.pgdir (s.slotKey i)) pteA = _
      rw [hpte]
      by_cases hm : i ∈ l
      · rw [if_pos (hkey.mpr hm),has_pteA_cleared,decide_eq_false (not_not_intro hm),Bool.and_false]
      · rw [if_neg (mt hkey.mp hm),decide_eq_true hm,Bool.and_true]
        rfl
    · rw [List.map_cons]
      by_cases hk : k = s.slotKey i
      · rw [if_pos (hk ▸ List.mem_cons_self),hk]
        refine hself.trans ?_
        rw [hpte]
        split_ifs
        · rw [BitVec.and_assoc,BitVec.and_self]
        · rfl
      · rw [hother k hk,ht.pte k]
        simp only [List.mem_cons,hk,false_or]
  · have hbit := updateAccessBit_ok hrun
    rw [ht.proc,hi,ht.pte] at hbit
    split_ifs at hbit
    · rw [has_pteA_cleared] at hbit
      cases hbit
    · exact Bool.false_ne_true (hq.access.symm.trans hbit.symm)

theorem getUserBit_cases (va : ℕ) (s : Kernel) :
    (getUserBit va s = .ok true ↔ has (s.pte s.proc.pgdir (vpn va)) pteU = true) ∧
    (getUserBit va s = .ok false ↔
      s.pte s.proc.pgdir (vpn va) ≠ 0 ∧ has (s.pte s.proc.pgdir (vpn va)) pteU = false) := by
  by_cases h0 : s.pte s.proc.pgdir (vpn va) = 0
  · have hno : ∀ u, getUserBit va s ≠ .ok u := by
      intro u hu
      cases ht : s.table s.proc.pgdir (vpn va) with
      | none =>
        simp only [getUserBit,walkpgdir_false,ht,Option.map_none] at hu
        cases hu
      | some t =>
        simp only [getUserBit,walkpgdir_of_table ht,readPte_eq ht,if_pos h0] at hu
        cases hu
    rw [h0]
    exact ⟨iff_of_false (hno true) (by decide),iff_of_false (hno false) fun hn => hn.1 rfl⟩
  · rw [getUserBit_eq h0,Except.ok.injEq,Except.ok.injEq]
    exact ⟨Iff.rfl,fun hU => ⟨h0,hU⟩,fun hU => hU.2⟩

theorem Described.selects_iff (hb : b ≠ .none) (h : Described c s) (hq : QuietTop s) :
    (∃ tmp s₁, selectPageToRemove b s = .ok (tmp,s₁) ∧ s.proc.pages.va tmp ≠ none ∧
      TakesPage b (s₁.proc.pages.vacate tmp)) ↔ GivesUp b s := by
  have hfree : ∀ (p : ProcPages) (tmp : Slot), ∃ i, (p.vacate tmp).va i = none :=
    fun p tmp => ⟨tmp,update_self _ _ _⟩
  have haging : b.Aging → ((∃ tmp s₁, selectPageToRemove b s = .ok (tmp,s₁) ∧ s.proc.pages.va tmp ≠ none ∧
      TakesPage b (s₁.proc.pages.vacate tmp)) ↔ ∃ i, s.proc.pages.va i ≠ none) := by
    intro ha
    constructor
    · rintro ⟨tmp,-,-,htmp,-⟩
      exact ⟨tmp,htmp⟩
    · rintro ⟨i,hi⟩
      obtain ⟨tmp,a,hsel,htmp⟩ := selectPageToRemove_aging ha hi
      refine ⟨tmp,s,hsel,by simp [htmp],hfree _ _,?_,?_⟩ <;>
      · rintro rfl
        rcases ha with ha | ha <;> cases ha
  cases b with
  | none => exact (hb rfl).elim
  | nfua =>
    rw [haging (Or.inl rfl)]
    exact ⟨fun hi => ⟨fun _ => hi,by rintro ⟨⟩,by rintro ⟨⟩⟩,fun hg => hg.aging (Or.inl rfl)⟩
  | lapa =>
    rw [haging (Or.inr rfl)]
    exact ⟨fun hi => ⟨fun _ => hi,by rintro ⟨⟩,by rintro ⟨⟩⟩,fun hg => hg.aging (Or.inr rfl)⟩
  | scfifo =>
    have hstart : SampledBits c s [] s := ⟨h.wf,rfl,by simp,by simp⟩
    have hiff := scfifoAlg_gives_iff (p := s.proc.pages) (h.sampler hq) hstart
    constructor
    · rintro ⟨tmp,s₁,hsel,htmp,htake⟩
      refine ⟨by rintro (⟨⟨⟩⟩ | ⟨⟨⟩⟩),fun _ => hiff.mp ?_,by rintro ⟨⟩⟩
      obtain ⟨⟨v,p,t⟩,halg,hret⟩ := bind_eq_ok hsel
      cases hret
      exact ⟨_,p,t,halg,htmp,htake.scfifo rfl⟩
    · intro hg
      obtain ⟨v,p,t,halg,hv,hends⟩ := hiff.mpr (hg.scfifo rfl)
      exact ⟨v,t.setPages p,by simp only [selectPageToRemove,halg]; rfl,hv,hfree _ _,fun _ => hends,by rintro ⟨⟩⟩
  | aq =>
    have hr : ReadsUser (fun va => getUserBit va s) s.proc.pages.va s.closedSlot s.openSlot :=
      ⟨fun i => (getUserBit_cases _ s).2.symm,fun i => (getUserBit_cases _ s).1.symm⟩
    have hiff := aqAlg_gives_iff (p := s.proc.pages) hr
    constructor
    · rintro ⟨tmp,s₁,hsel,htmp,htake⟩
      refine ⟨by rintro (⟨⟨⟩⟩ | ⟨⟨⟩⟩),by rintro ⟨⟩,fun _ => hiff.mp ?_⟩
      obtain ⟨⟨v,p⟩,halg,hret⟩ := bind_eq_ok hsel
      cases hret
      exact ⟨_,p,halg,htake.aq rfl⟩
    · intro hg
      obtain ⟨v,p,halg,hends⟩ := hiff.mpr (hg.aq rfl)
      have hv : s.proc.pages.va v ≠ none := by
        intro hnone
        have hu := (getUserBit_cases _ s).1.mp (aqAlg_userBit halg)
        rw [hnone] at hu
        exact Bool.false_ne_true (hq.user.symm.trans hu)
      exact ⟨v,s.setPages p,by simp only [selectPageToRemove,halg]; rfl,hv,hfree _ _,by rintro ⟨⟩,fun _ => hends⟩

theorem givesUp_congr (hp : t.proc = s.proc) (hpte : ∀ k, t.pte s.proc.pgdir k = s.pte s.proc.pgdir k) :
    GivesUp b t ↔ GivesUp b s := by
  have hkey : t.slotKey = s.slotKey := by
    funext i
    rw [Kernel.slotKey,Kernel.slotAddr,hp]
    rfl
  have hacc : t.accessed = s.accessed := by
    funext i
    rw [Kernel.accessed,hp,hkey,hpte]
    rfl
  have hopen : t.openSlot = s.openSlot := by
    funext i
    rw [Kernel.openSlot,hp,hkey,hpte]
    rfl
  have hclosed : t.closedSlot = s.closedSlot := by
    funext i
    rw [Kernel.closedSlot,hp,hkey,hpte]
    rfl
  constructor
  · rintro ⟨h1,h2,h3⟩
    rw [hp] at h1 h2 h3
    rw [hacc] at h2
    rw [hopen,hclosed] at h3
    exact ⟨h1,h2,h3⟩
  · rintro ⟨h1,h2,h3⟩
    refine ⟨?_,?_,?_⟩
    · rwa [hp]
    · rwa [hp,hacc]
    · rwa [hp,hopen,hclosed]

end Select

/-! ## When a page comes in -/

section Read
variable {b : Build} {p : ProcPages} {q : Proc} {s : Kernel} {a v : ℕ} {j : Slot}

theorem readi_ne_neg_one (ip : Inode) (dst : Page) (j : Slot) :
    (readi ip dst (j.val*pgSize) pgSize).1 ≠ -1 ↔ j.val*pgSize ≤ ip.size := by
  have hj := j.isLt
  unfold readi
  by_cases hs : ip.size < j.val*pgSize
  · rw [if_pos (Or.inl hs)]
    simp only [ne_eq,not_true_eq_false,false_iff]
    omega
  · rw [if_neg (by simp only [pgSize] at hs ⊢; omega)]
    dsimp only
    refine iff_of_true ?_ (by omega)
    split_ifs <;> omega

theorem readPageFromFile_iff (hb : b ≠ .none) (hj : FirstSlot q.pages a j) (buf : Page) :
    (∃ r, readPageFromFile b q a buf = .ok r) ↔
      (∃ ip, q.swapFile = some ip ∧ j.val*pgSize ≤ ip.size) ∧ TakesPage b q.pages := by
  have htake : (∃ r, updateMemory b (q.pages.unswap j) a = .ok r) ↔ TakesPage b q.pages :=
    (updateMemory_iff hb a).trans ⟨fun h => ⟨h.free,h.scfifo,h.aq⟩,fun h => ⟨h.free,h.scfifo,h.aq⟩⟩
  unfold readPageFromFile
  rw [find?_firstSlot.mpr hj]
  cases hf : q.swapFile with
  | none => simp [readFromSwapFile,hf,bind,Except.bind]
  | some ip =>
    have hread := readi_ne_neg_one ip buf j
    simp only [readFromSwapFile,hf,fileread,bind,Except.bind,Option.some.injEq,exists_eq_left']
    by_cases hs : j.val*pgSize ≤ ip.size
    · rw [if_neg (hread.mpr hs),← htake]
      unfold ProcPages.unswap
      cases updateMemory b _ a with
      | error e => simp
      | ok r => simp [hs,pure,Except.pure]
    · rw [if_pos (not_not.mp (mt hread.mp hs))]
      simp [hs]

theorem filewrite_returns (ip : Inode) {off n : ℕ} (addr : ℕ → Byte) (hw : off+n ≤ maxFile*bSize) :
    ∃ r, filewrite ip off addr n = .ok r := by
  by_cases h : off ≤ ip.size
  · exact ⟨_,filewrite_eq ip n off addr h hw⟩
  · unfold filewrite
    rw [filewriteLoop]
    cases n with
    | zero => exact ⟨_,if_neg (lt_irrefl 0)⟩
    | succ n =>
      refine ⟨(-1,ip),?_⟩
      rw [if_pos n.succ_pos]
      simp only [writei,if_pos (Or.inl (not_le.mp h))]
      exact if_pos (by decide)

theorem writePageToFile_returns (hv : UserPage v) (hP : has (s.pte s.proc.pgdir (vpn v)) pteP = true)
    (hfile : s.proc.swapFile ≠ none) : ∃ n s', writePageToFile v s = .ok (n,s') := by
  obtain ⟨ip,hip⟩ := Option.ne_none_iff_exists'.mp hfile
  unfold writePageToFile
  cases hi : firstFree s.proc.pages.diskVa with
  | none => exact ⟨_,_,rfl⟩
  | some i =>
    have hmax : pgSize*i.val+pgSize ≤ maxFile*bSize := by
      have hl := i.isLt
      simp only [pgSize,maxFile,bSize]
      omega
    obtain ⟨⟨n,ip'⟩,hr⟩ := filewrite_returns ip
      (fun k => s.page s.proc.pgdir (vpn v) (Fin.ofNat 4096 k)) hmax
    simp only [readUserPage_of_aligned hv.1 hv.lt hP,bind,Except.bind,pure,Except.pure,writeToSwapFile,hip,hr]
    split_ifs <;> exact ⟨_,_,rfl⟩

end Read

section Returns
variable {c : Config} {s s₁ : Kernel} {f : Frame} {a v fault : ℕ}

theorem Described.pageOut_returns (h : Described c s) (hv : UserPage v)
    (hP : has (s.pte s.proc.pgdir (vpn v)) pteP = true) (hfile : s.proc.swapFile ≠ none) :
    ∃ n s₁ s₂ s', writePageToFile v s = .ok (n,s₁) ∧ fixPagedOutPTE s₁.proc.pgdir v false s₁ = .ok s₂ ∧
      kfree c (pteAddr (s.pte s.proc.pgdir (vpn v))) s₂ = .ok s' := by
  obtain ⟨n,s₁,hwrite⟩ := writePageToFile_returns hv hP hfile
  obtain ⟨t,ht⟩ := table_of_has hP
  have ht₁ : s₁.table s₁.proc.pgdir (vpn v) = some t := by
    rw [(writePageToFile_run hwrite).1]
    exact ht
  exact ⟨n,s₁,_,_,hwrite,fixPagedOutPTE_eq ht₁ false,kfree_eq (h.wf.pteAddr_mem rfl hv.own hP)⟩

theorem Described.swap_returns {tmp : Slot} {r : ℤ × Page × Proc} (h : Described c s) (ha : UserPage a)
    (hin : s.inFile a = true) (hf : FreshFrame c {s.proc.pgdir} s f)
    (hsel : selectPageToRemove c.build s = .ok (tmp,s₁)) (hv : s.proc.pages.va tmp ≠ none)
    (hread : readPageFromFile c.build (s₁.setPages (s₁.proc.pages.vacate tmp)).proc a s₁.buff = .ok r)
    (hfile : s.proc.swapFile ≠ none) : ∃ s', getPageSwapping c a f s = .ok s' := by
  obtain ⟨n,pg,q⟩ := r
  obtain ⟨v,hv⟩ := Option.ne_none_iff_exists'.mp hv
  obtain ⟨s₂,hfix,hproc,hbuff,hent⟩ := h.entered ha hin hf hsel hread
  obtain ⟨-,-,-,-,-,-,-,hvas⟩ := h.selected hsel
  obtain ⟨hvu,-,-,hP⟩ := hent.leaving v hv
  obtain ⟨m,s₄,s₅,s',hwrite,hout,hkfree⟩ := hent.came.described.pageOut_returns hvu hP (hent.file ▸ hfile)
  have hg : getPagePAddr v q.pgdir {s₂ with buff := pg, proc := q} =
      some (pteAddr (({s₂ with buff := pg, proc := q}.store f pg).pte q.pgdir (vpn v))) := by
    have hpte := congrFun hent.pte (vpn v)
    have hP' := hP
    rw [← hpte] at hP'
    obtain ⟨t',ht'⟩ := table_of_has hP'
    exact (getPagePAddr_eq ht').trans (congrArg (some ∘ pteAddr) hpte)
  have hfix' : fixPagedInPTE a f (s₁.setPages (s₁.proc.pages.vacate tmp)).proc.pgdir
      (s₁.setPages (s₁.proc.pages.vacate tmp)) = .ok s₂ := hfix
  rw [← hproc,← hbuff] at hread
  refine ⟨s',?_⟩
  simp only [getPageSwapping,hsel,bind,Except.bind,hvas,hv,vaAddr,Option.getD_some,hfix',hread,hg,hwrite,hout]
  exact hkfree

/-- A swap returns exactly if the page can be read and memory gives up a page. -/
theorem Described.swapping_iff {j : Slot} (hb : c.build ≠ .none) (h : Described c s) (hq : QuietTop s) (ha : UserPage a)
    (hin : s.inFile a = true) (hf : FreshFrame c {s.proc.pgdir} s f) (hj : FirstSlot s.proc.pages a j) :
    (∃ s', getPageSwapping c a f s = .ok s') ↔
      (∃ ip, s.proc.swapFile = some ip ∧ j.val*pgSize ≤ ip.size) ∧ GivesUp c.build s := by
  have hread : ∀ tmp s₁, selectPageToRemove c.build s = .ok (tmp,s₁) →
      ((∃ r, readPageFromFile c.build (s₁.setPages (s₁.proc.pages.vacate tmp)).proc a s₁.buff = .ok r) ↔
        (∃ ip, s.proc.swapFile = some ip ∧ j.val*pgSize ≤ ip.size) ∧ TakesPage c.build (s₁.proc.pages.vacate tmp)) := by
    intro tmp s₁ hsel
    obtain ⟨r,hr,-,-,hc,-,hdisk,-⟩ := h.selected hsel
    have hfile : r.proc.swapFile = s.proc.swapFile := by rw [hc.only.proc]
    rw [← hr] at hdisk hfile
    rw [readPageFromFile_iff hb (by rwa [FirstSlot,hdisk]),hfile]
    rfl
  rw [← h.selects_iff hb hq]
  constructor
  · rintro ⟨s',hrun⟩
    obtain ⟨-,tmp,s₁,hsel,htmp,hr⟩ := h.swapped_in ha hin hf hrun
    obtain ⟨hip,htake⟩ := (hread tmp s₁ hsel).mp hr
    exact ⟨hip,tmp,s₁,hsel,htmp,htake⟩
  · rintro ⟨⟨ip,hip,hsize⟩,tmp,s₁,hsel,htmp,htake⟩
    obtain ⟨r,hr⟩ := (hread tmp s₁ hsel).mpr ⟨⟨ip,hip,hsize⟩,htake⟩
    exact h.swap_returns ha hin hf hsel htmp hr (by simp [hip])

/-- A free frame, a slot of the page within the swap file, and a place for the page. -/
structure Room (b : Build) (a : ℕ) (s : Kernel) : Prop where
  frame : s.freelist ≠ []
  slot : ∃ j ip, FirstSlot s.proc.pages a j ∧ s.proc.swapFile = some ip ∧ j.val*pgSize ≤ ip.size
  enter : s.proc.pages.pagesInMemoryCounter < maxPsycPages → TakesPage b s.proc.pages
  replace : (maxPsycPages : ℤ) ≤ s.proc.pages.pagesInMemoryCounter → GivesUp b s

/-- A listed page comes in exactly if there is room for it. -/
theorem Described.getPage_iff (hb : c.build ≠ .none) (h : Described c s) (hq : QuietTop s)
    (ha : UserPage (pgRoundDown fault)) (hin : s.inFile (pgRoundDown fault) = true) :
    ((∃ j, FirstSlot s.proc.pages (pgRoundDown fault) j) ∧ ∃ s', getPageFromFile c fault s = .ok s') ↔
      Room c.build (pgRoundDown fault) s := by
  unfold getPageFromFile
  cases hl : s.freelist with
  | nil =>
    simp only [kalloc_nil hl]
    refine iff_of_false ?_ fun hroom => hroom.frame hl
    rintro ⟨-,s',⟨⟩⟩
  | cons f l =>
    obtain ⟨r,hr,hproc,h₁,hf,hpte⟩ := h.clearFrame hl
    rw [kalloc_cons hl]
    dsimp only
    rw [hr]
    have hin₁ : r.inFile (pgRoundDown fault) = true := by
      rw [Kernel.inFile,hproc,hpte]
      exact hin
    have hq₁ : QuietTop r := by
      refine ⟨?_,?_⟩ <;> rw [hproc,hpte]
      · exact hq.access
      · exact hq.user
    have hne : s.freelist ≠ [] := hl ▸ List.cons_ne_nil f l
    by_cases hfull : (maxPsycPages : ℤ) ≤ r.proc.pages.pagesInMemoryCounter
    · rw [if_pos hfull]
      rw [hproc] at hfull
      constructor
      · rintro ⟨⟨j,hj⟩,hrun⟩
        obtain ⟨⟨ip,hip,hsize⟩,hgive⟩ := (h₁.swapping_iff hb hq₁ ha hin₁ hf (by rwa [hproc])).mp hrun
        rw [hproc] at hip
        exact ⟨hne,⟨j,ip,hj,hip,hsize⟩,fun hlt => absurd hfull (not_le.mpr hlt),
          fun _ => (givesUp_congr hproc hpte).mp hgive⟩
      · rintro ⟨-,⟨j,ip,hj,hip,hsize⟩,-,hgive⟩
        refine ⟨⟨j,hj⟩,(h₁.swapping_iff hb hq₁ ha hin₁ hf (j := j) (by rwa [hproc])).mpr ⟨⟨ip,?_,hsize⟩,?_⟩⟩
        · rwa [hproc]
        · exact (givesUp_congr hproc hpte).mpr (hgive hfull)
    · rw [if_neg hfull]
      rw [hproc] at hfull
      obtain ⟨s₁,-,heq⟩ := h₁.direct_eq (c := c) hin₁ f
      have hread : (∃ s', getPageDirectly c (pgRoundDown fault) f r = .ok s') ↔
          ∃ x, readPageFromFile c.build s.proc (pgRoundDown fault) (s₁.mem f) = .ok x := by
        rw [heq,hproc]
        constructor
        · rintro ⟨s',hrun⟩
          obtain ⟨x,hx,-⟩ := bind_eq_ok hrun
          exact ⟨x,hx⟩
        · rintro ⟨x,hx⟩
          rw [hx]
          exact ⟨_,rfl⟩
      rw [hread]
      constructor
      · rintro ⟨⟨j,hj⟩,hrun⟩
        obtain ⟨⟨ip,hip,hsize⟩,htake⟩ := (readPageFromFile_iff hb hj _).mp hrun
        exact ⟨hne,⟨j,ip,hj,hip,hsize⟩,fun _ => htake,fun hle => absurd hle hfull⟩
      · rintro ⟨-,⟨j,ip,hj,hip,hsize⟩,htake,-⟩
        exact ⟨⟨j,hj⟩,(readPageFromFile_iff hb hj _).mpr ⟨⟨ip,hip,hsize⟩,htake (not_le.mp hfull)⟩⟩

end Returns

/-! ## The page fault -/

section Trap
variable {c : Config} {s s' : Kernel} {t : Frame} {fault : ℕ}

theorem trapPgflt_missing (hb : c.build ≠ .none) (ht : s.table s.proc.pgdir (vpn fault) = none) :
    trapPgflt c fault s = .error .nullDeref := by
  rw [trapPgflt,if_neg hb,pageIsInFile_missing ht]
  rfl

theorem trapPgflt_kill (hb : c.build ≠ .none) (ht : s.table s.proc.pgdir (vpn fault) = some t)
    (hin : s.inFile fault = false) : trapPgflt c fault s = .ok s.kill := by
  unfold Kernel.inFile at hin
  rw [trapPgflt,if_neg hb,pageIsInFile_eq ht,hin]
  rfl

theorem trapPgflt_swapped (hb : c.build ≠ .none) (hin : s.inFile fault = true) :
    trapPgflt c fault s = getPageFromFile c fault s >>= fun s =>
      .ok (s.setPages {s.proc.pages with faultCounter := s.proc.pages.faultCounter+1}) := by
  obtain ⟨t,ht,-⟩ := fixPagedInPTE_inFile hin 0
  unfold Kernel.inFile at hin
  rw [trapPgflt,if_neg hb,pageIsInFile_eq ht,hin]
  rfl

theorem Kernel.inFile_roundDown (s : Kernel) (a : ℕ) : s.inFile (pgRoundDown a) = s.inFile a := by
  rw [Kernel.inFile,vpn_roundDown]
  rfl

theorem Described.lt_kernBase (h : Described c s) (hva : fault < 2^32) (hin : s.inFile fault = true) :
    fault < kernBase := by
  by_contra hk
  rw [h.kernel fault (not_lt.mp hk) hva] at hin
  cases hin

theorem Described.fault_came (hb : c.build ≠ .none) (h : Described c s) (hva : fault < 2^32) (hin : s.inFile fault = true)
    (hrun : trapPgflt c fault s = .ok s') :
    CameIn c (pgRoundDown fault) s s' ∧ (s.proc.pages.pagesInMemoryCounter < maxPsycPages →
      ∀ k ≠ vpn (pgRoundDown fault), s'.pte s.proc.pgdir k = s.pte s.proc.pgdir k) := by
  have hu : UserPage (pgRoundDown fault) := .roundDown (h.lt_kernBase hva hin)
  rw [trapPgflt_swapped hb hin] at hrun
  obtain ⟨s₁,hget,hret⟩ := bind_eq_ok hrun
  cases hret
  obtain ⟨⟨hdesc,hrights,hallow,hlisted⟩,hother⟩ := h.getPage_came hu (s.inFile_roundDown fault ▸ hin) hget
  exact ⟨⟨⟨hdesc.wf,hdesc.resident,hdesc.once,hdesc.clean,hdesc.kernel,hdesc.top⟩,
    ⟨hrights.pgdir,hrights.size,hrights.bits,hrights.mapped⟩,hallow,hlisted⟩,hother⟩

end Trap

section Sample
variable {c : Config} {perm : ℕ → Word} {d t : Frame} {free : List Frame}

theorem image_entries (hnd : (d :: t :: free).Nodup) (hv : ∀ f ∈ d :: t :: free, f ∈ c.frames)
    (hperm : ∀ n, pteAddr (perm n) = 0) {n : ℕ} (hn : n ≤ 1024) (hlen : n ≤ free.length) :
    (∀ k, (Kernel.image perm d t free n).pte d k = 0 ∨ has ((Kernel.image perm d t free n).pte d k) pteP = true) ∧
      (Kernel.image perm d t free n).pte d (vpn (2^32-1)) = 0 := by
  induction n with
  | zero => exact ⟨fun k => Or.inl (image_zero_pte hnd hv k),image_zero_pte hnd hv _⟩
  | succ n ih =>
    obtain ⟨hpresent,htop⟩ := ih (by omega) (by omega)
    have hb := built_image hnd hv hperm (n := n) (by omega) (by omega)
    obtain ⟨f,hf⟩ : ∃ f, free.drop n = f :: free.drop (n+1) := ⟨_,List.drop_eq_getElem_cons (by omega)⟩
    have hvpn : (vpn (n*pgSize)).1 = 0 := by
      refine Fin.ext ?_
      simp only [vpn,pdx_val,pgSize,Fin.val_zero]
      omega
    have hu : UserPage (n*pgSize) := ⟨Nat.dvd_mul_left _ _,by simp only [pgSize,kernBase]; omega⟩
    have hent : (Kernel.image perm d t free (n+1)).pte d =
        update ((Kernel.image perm d t free n).pte d) (vpn (n*pgSize))
          (frameAddr ((Kernel.image perm d t free n).freelist.headD 0) ||| perm n ||| pteP) :=
      (hb.space.wf.take (hb.freelist.trans hf)).1.setPte_entries (hb.table _ hvpn)
    rw [hent]
    refine ⟨fun k => ?_,?_⟩
    · by_cases hk : k = vpn (n*pgSize)
      · rw [hk,update_self]
        exact Or.inr (has_mapped _ _)
      · rw [update_of_ne hk]
        exact hpresent k
    · rw [update_of_ne (vpn_top_ne hu)]
      exact htop

theorem full_top (b : Build) (hperm : ∀ n, pteAddr (perm n) = 0) :
    (fullProcess b perm).pte (fullProcess b perm).proc.pgdir (vpn (2^32-1)) = 0 :=
  (image_entries sampleFrames_nodup (fun _ hf => sampleFrames_frames b hf) hperm (n := 16) (by decide) (by decide)).2

theorem full_described (b : Build) (hperm : ∀ n, pteAddr (perm n) = 0) :
    Described (sampleConfig b) (fullProcess b perm) := by
  have hp := full_paged b hperm
  obtain ⟨hpresent,-⟩ := image_entries sampleFrames_nodup (fun _ hf => sampleFrames_frames b hf) hperm (n := 16)
    (by decide) (by decide)
  have hnone : ∀ a, (fullProcess b perm).inFile a = false := by
    intro a
    change (has ((Kernel.image perm 0x200 0x201 sampleFrames 16).pte 0x200 (vpn a)) ptePG &&
      !has ((Kernel.image perm 0x200 0x201 sampleFrames 16).pte 0x200 (vpn a)) pteP) = false
    rcases hpresent (vpn a) with h0 | hP
    · rw [h0]
      rfl
    · rw [hP,Bool.not_true,Bool.and_false]
  refine ⟨hp.consistent.space.wf,fun i a hi => ?_,hp.consistent.once.va,fun a ha => ?_,fun a _ _ => hnone a,?_⟩
  · have hr : a ∈ (fullProcess b perm).proc.pages.residents ∪ ∅ := Or.inl ⟨i,hi⟩
    exact ⟨hp.consistent.space.user a hr,hp.consistent.space.present a hr⟩
  · rw [hnone] at ha
    cases ha
  · rw [full_top b hperm]
    rintro ⟨h1,-⟩
    have h0 : (0x80115000 : ℕ) ≤ kernBase := h1
    revert h0
    decide

end Sample

theorem setPte_freelist (s : Kernel) (d : Frame) (k : Index) (w : Word) : (s.setPte d k w).freelist = s.freelist := rfl

def seventeenPages (perm : ℕ → Word) (p : ProcPages) (byte : Byte) : Kernel :=
  {(fullProcess .nfua perm).setPte 0x200 (vpn (16*pgSize)) (pteW ||| pteU ||| ptePG) with
    proc := {(fullProcess .nfua perm).proc with
      sz := 17*pgSize
      swapFile := some ⟨pgSize,fun _ => byte⟩
      pages := {p with diskVa := update p.diskVa 0 (some (16*pgSize)), pagesInSwapfileCounter := 1}}}

section Seventeen
variable {perm : ℕ → Word} {p : ProcPages}

theorem seventeenPages_pte (hperm : ∀ n, pteAddr (perm n) = 0) (p : ProcPages) (byte : Byte) :
    (seventeenPages perm p byte).pte 0x200 = update ((fullProcess .nfua perm).pte 0x200) (vpn (16*pgSize))
      (pteW ||| pteU ||| ptePG) :=
  (full_described .nfua hperm).wf.setPte_entries ((built_full .nfua hperm).table _ (by decide))

theorem seventeenPages_described (hperm : ∀ n, pteAddr (perm n) = 0)
    (hp : ∀ i a, p.va i = some a → (fullPages .nfua).va i = some a) (byte : Byte) :
    Described (sampleConfig .nfua) (seventeenPages perm p byte) ∧ QuietTop (seventeenPages perm p byte) ∧
      (seventeenPages perm p byte).inFile (16*pgSize) = true := by
  have h := full_described .nfua hperm
  have hu : UserPage (16*pgSize) := ⟨Nat.dvd_mul_left _ _,by decide⟩
  have hpte := seventeenPages_pte hperm p byte
  have htop : (seventeenPages perm p byte).pte (seventeenPages perm p byte).proc.pgdir (vpn (2^32-1)) = 0 := by
    change (seventeenPages perm p byte).pte 0x200 (vpn (2^32-1)) = 0
    rw [hpte,update_of_ne (vpn_top_ne hu)]
    exact full_top .nfua hperm
  refine ⟨h.setEntry hu ?_ rfl hpte (fun _ _ => by decide) (fun i a hi => Or.inr ⟨?_,hp i a hi⟩)
    (fun i j a hi hj => h.once i j a (hp i a hi) (hp j a hj)),⟨?_,?_⟩,?_⟩
  · exact h.wf.setPte_flags rfl ((built_full .nfua hperm).table _ (by decide)) (Or.inl (by decide))
  · have hi' : i.val*pgSize = a := Option.some.inj (hp i a hi)
    have hlt := i.isLt
    simp only [pgSize] at hi' ⊢
    omega
  · rw [htop]
    decide
  · rw [htop]
    decide
  · rw [Kernel.inFile]
    change (has ((seventeenPages perm p byte).pte 0x200 _) ptePG && !has ((seventeenPages perm p byte).pte 0x200 _) pteP) =
      true
    rw [hpte,update_self]
    decide

theorem seventeenPages_room (hperm : ∀ n, pteAddr (perm n) = 0) (p : ProcPages) (byte : Byte)
    (henter : p.pagesInMemoryCounter < maxPsycPages → ∃ i, p.va i = none)
    (hreplace : (maxPsycPages : ℤ) ≤ p.pagesInMemoryCounter → ∃ i, p.va i ≠ none) :
    Room .nfua (16*pgSize) (seventeenPages perm p byte) := by
  refine ⟨?_,⟨0,⟨pgSize,fun _ => byte⟩,⟨rfl,fun i hi => absurd hi (Fin.not_lt_zero i)⟩,
    rfl,Nat.zero_le _⟩,fun hlt => ⟨henter hlt,by rintro ⟨⟩,by rintro ⟨⟩⟩,
    fun hle => ⟨fun _ => hreplace hle,by rintro ⟨⟩,by rintro ⟨⟩⟩⟩
  have hfull : (fullProcess .nfua perm).freelist = _ := (built_full .nfua hperm).freelist
  unfold seventeenPages
  dsimp only
  rw [setPte_freelist,hfull]
  decide

end Seventeen

end Xv6Paging
