import Xv6Paging.Kernel.Space
import Xv6Paging.Paging.Tables

/-! # Frames change hands

The four ways in which the kernel moves a frame: it takes one from the free list, links it
as a page table, maps it as a page, or unmaps a page and returns its frame. Each keeps the
address spaces disjoint and says which pages it changes.
-/
namespace Xv6Paging
open WordPage PageTree Function

variable {c : Config} {S : Set Frame} {A : Set (Frame × Index)} {s : Kernel} {d d' f t : Frame}
  {k k' : Index} {w : Word}

theorem Same.page {s' : Kernel} (h : Same S A s s') (hd : d ∈ S) (hk : (d,k) ∉ A)
    (ho : x86.own k = true) (hp : has (s.pte d k) pteP = true) : s'.page d k = s.page d k := by
  have he : s'.pte d k = s.pte d k := h.entry d hd k hk
  rw [Kernel.page,Kernel.page,he]
  exact h.leaf d hd k hk ho _ (link_eq_some.mpr ⟨hp,rfl⟩)

theorem Same.elsewhere {s' : Kernel} (h : Same S {(d,k)} s s') : Same (S \ {d}) ∅ s s' := by
  refine Keeps.others h (fun _ hq => hq.1) fun q hq hqd => hqd.2 ?_
  rw [hq]
  rfl

theorem zero_notMem_frames (c : Config) : (0 : Frame) ∉ c.frames := by
  intro h
  have h1 : c.endAddr ≤ kernBase+(0 : Frame).toNat*pgSize := h.1
  have h2 := c.kernLink_lt_data
  have h3 := c.data_le_end
  simp only [kernLink,extMem] at h2
  simp at h1
  omega

theorem Wf.pteAddr_mem (h : Wf c S s) (hd : d ∈ S) (ho : x86.own k = true)
    (hp : has (s.pte d k) pteP = true) : pteAddr (s.pte d k) ∈ c.frames := by
  refine h.valid (.leaf d k) _ hd ?_
  simp only [Use.frame,ho,if_true]
  exact link_eq_some.mpr ⟨hp,rfl⟩

section Kalloc

def Kernel.starve (s : Kernel) : Kernel := {s with pageCounter := s.pageCounter-1, kallocZero := true}

theorem kalloc_nil (h : s.freelist = []) : kalloc s = (none,s.starve) := by
  simp only [kalloc,h,Kernel.starve]

def Kernel.take (s : Kernel) : Kernel :=
  {s with freelist := s.freelist.tail, pageCounter := s.pageCounter-1}

theorem kalloc_cons {l : List Frame} (h : s.freelist = f :: l) : kalloc s = (some f,s.take) := by
  simp only [kalloc,h,Kernel.take,List.tail_cons]

theorem Wf.take {l : List Frame} (h : Wf c S s) (hl : s.freelist = f :: l) :
    Wf c S s.take ∧ FreshFrame c S s.take f := by
  have h' : Owned x86 c.frames S (f :: l) s.mem := hl ▸ h
  have ht : s.take.freelist = l := by simp only [Kernel.take,hl,List.tail_cons]
  have hr := h'.take
  rw [← ht] at hr
  exact hr

end Kalloc

section Store

theorem FreshFrame.store (hf : FreshFrame c S s f) (h : Wf c S s) (pg : Page) :
    Wf c S (s.store f pg) ∧ FreshFrame c S (s.store f pg) f ∧ Same S A s (s.store f pg) :=
  ⟨h.congr (frame_write hf.notTree pg),hf.congr (frame_write hf.notTree pg),hf.keeps_write pg A⟩

theorem store_table (hf : NotTree x86 S s.mem f) (hd : d ∈ S) (pg : Page) :
    (s.store f pg).table d k = s.table d k := table_write hf hd pg

theorem store_pte (hf : NotTree x86 S s.mem f) (hd : d ∈ S) (pg : Page) :
    (s.store f pg).pte d k = s.pte d k := entry_write hf hd pg

theorem Wf.store_page (h : Wf c S s) (hd : d ∈ S) (ho : x86.own k = true)
    (hp : has (s.pte d k) pteP = true) (pg : Page) :
    Wf c S (s.store (pteAddr (s.pte d k)) pg) ∧
    Same S {(d,k)} s (s.store (pteAddr (s.pte d k)) pg) ∧
    (s.store (pteAddr (s.pte d k)) pg).pte d k = s.pte d k ∧
    (s.store (pteAddr (s.pte d k)) pg).page d k = pg := by
  have hl : x86.link (x86.entry s.mem d k) = some (pteAddr (s.pte d k)) := link_eq_some.mpr ⟨hp,rfl⟩
  have hn : NotTree x86 S s.mem (pteAddr (s.pte d k)) := h.leaf_notTree hd ho hl
  have hpte : (s.store (pteAddr (s.pte d k)) pg).pte d k = s.pte d k := store_pte hn hd pg
  refine ⟨h.congr (frame_write hn pg),Keeps.write hn pg fun d' hd' k' ho' hl' => ?_,hpte,?_⟩
  · have hu : (Use.leaf d' k').frame x86 s.mem = some (pteAddr (s.pte d k)) := by
      simp only [Use.frame,ho',if_true,hl']
    have hv : (Use.leaf d k).frame x86 s.mem = some (pteAddr (s.pte d k)) := by
      simp only [Use.frame,ho,if_true,hl]
    cases h.inj (.leaf d' k') (.leaf d k) _ hd' hd hu hv
    rfl
  · rw [Kernel.page,hpte]
    exact update_self _ _ _

theorem FreshFrame.free (hf : FreshFrame c S s f) (h : Wf c S s) :
    Wf c S (s.free f) ∧ Same S A s (s.free f) := by
  obtain ⟨hw,hf',hs⟩ := hf.store (A := A) h fun _ => 1
  exact ⟨hw.give hf',hs⟩

theorem FreshFrame.free_of_ne (hf : FreshFrame c S s f) (ht : FreshFrame c S s t) (hne : t ≠ f) :
    FreshFrame c S (s.free f) t :=
  (ht.congr (frame_write hf.notTree _)).give hne

end Store

section SetPte

section
variable (h : Wf c S s) (hd : d ∈ S)
include h hd

theorem Wf.setPte_table (hd' : d' ∈ S) : (s.setPte d k w).table d' k' = s.table d' k' := h.table_setEntry hd hd'

theorem Wf.setPte_same (ht : s.table d k = some t) : (s.setPte d k w).pte d k = w := h.entry_setEntry_same hd ht

theorem Wf.same_setPte : Same S {(d,k)} s (s.setPte d k w) :=
  h.keeps_setEntry hd

theorem Wf.setPte_flags (ht : s.table d k = some t)
    (hl : x86.link w = none ∨ x86.link w = x86.link (s.pte d k)) : Wf c S (s.setPte d k w) := by
  refine h.setEntry hd ht fun _ f hf => Or.inl ?_
  rcases hl with hl | hl
  · rw [hl] at hf
    cases hf
  · rw [← hf,hl]
    rfl

theorem Wf.setPte_page (ht : s.table d k = some t) (ho : x86.own k = true)
    (hp : has (s.pte d k) pteP = true) (ha : pteAddr w = pteAddr (s.pte d k)) :
    (s.setPte d k w).page d k = s.page d k := by
  have hl : x86.link (x86.entry s.mem d k) = some (pteAddr (s.pte d k)) := link_eq_some.mpr ⟨hp,rfl⟩
  have hne : pteAddr (s.pte d k) ≠ t := fun he => (h.leaf_notTree hd ho hl).2 d hd k.1 (he ▸ ht)
  rw [Kernel.page,h.setPte_same hd ht,ha,Kernel.page]
  simp only [Kernel.setPte]
  rw [setEntry_eq ht]
  exact update_of_ne hne _ _

end

theorem FreshFrame.map (hf : FreshFrame c S s f) (h : Wf c S s) (hd : d ∈ S)
    (ht : s.table d k = some t) (ha : pteAddr w = f) :
    Wf c S (s.setPte d k w) ∧ (s.setPte d k w).page d k = s.mem f := by
  have hne : f ≠ t := fun he => hf.notTree.2 d hd k.1 (he ▸ ht)
  refine ⟨h.setEntry hd ht fun _ g hg => Or.inr ?_,?_⟩
  · obtain ⟨-,rfl⟩ := link_eq_some.mp hg
    rwa [ha]
  · rw [Kernel.page,h.setPte_same hd ht,ha]
    simp only [Kernel.setPte]
    rw [setEntry_eq ht]
    exact update_of_ne hne _ _

theorem Wf.unmap (h : Wf c S s) (hd : d ∈ S) (ho : x86.own k = true)
    (hp : has (s.pte d k) pteP = true) (hw : has w pteP = false) :
    Wf c S (s.setPte d k w) ∧ FreshFrame c S (s.setPte d k w) (pteAddr (s.pte d k)) := by
  obtain ⟨t,ht⟩ := table_of_has hp
  have hl : x86.link w = none := link_eq_none.mpr hw
  refine ⟨h.setPte_flags hd ht (Or.inl hl),h.fresh_released hd ht ho (link_eq_some.mpr ⟨hp,rfl⟩) ?_⟩
  rw [hl]
  simp

theorem free_setPte_comm (h : Wf c S s) (hd : d ∈ S) (ho : x86.own k = true)
    (hp : has (s.pte d k) pteP = true) (ht : s.table d k = some t) :
    (s.free (pteAddr (s.pte d k))).writePte (t,k.2) w =
      (s.setPte d k w).free (pteAddr (s.pte d k)) := by
  have hl : x86.link (x86.entry s.mem d k) = some (pteAddr (s.pte d k)) := link_eq_some.mpr ⟨hp,rfl⟩
  have hne : t ≠ pteAddr (s.pte d k) := fun he => (h.leaf_notTree hd ho hl).2 d hd k.1 (he ▸ ht)
  simp only [Kernel.free,Kernel.writePte,Kernel.setPte,Kernel.store,update_of_ne hne]
  rw [setEntry_eq ht,update_comm hne.symm]

end SetPte

section Walk

def tableWord (t : Frame) : Word := frameAddr t ||| pteP ||| pteW ||| pteU

theorem link_tableWord (t : Frame) : x86.link (tableWord t) = some t := by
  refine link_eq_some.mpr ⟨?_,?_⟩
  · simp only [tableWord,has_pteP,BitVec.getLsbD_or]
    simp [pteP]
  · simp [tableWord]

/-- The state after `walkpgdir` has made a page table of the first free frame. -/
def Kernel.grow (s : Kernel) (d : Frame) (k : Index) (t : Frame) : Kernel :=
  {s.take with mem := linkTable s.mem d k.1 t (tableWord t)}

theorem walkpgdir_nil {va : ℕ} (ht : s.table d (vpn va) = none) (hl : s.freelist = []) :
    walkpgdir d va true s = (none,s.starve) := by
  simp only [Kernel.table,Format.table,link_eq_none,vpn] at ht
  simp only [walkpgdir,Kernel.readPte,ht,kalloc_nil hl]
  rfl

theorem walkpgdir_cons {va : ℕ} {l : List Frame} (ht : s.table d (vpn va) = none)
    (hl : s.freelist = t :: l) :
    walkpgdir d va true s = (some (t,ptx va),s.grow d (vpn va) t) := by
  simp only [Kernel.table,Format.table,link_eq_none,vpn] at ht
  simp only [walkpgdir,Kernel.readPte,ht,kalloc_cons hl]
  rfl

variable {l : List Frame}

theorem Wf.grow (h : Wf c S s) (hd : d ∈ S) (ht : s.table d k = none) (hl : s.freelist = t :: l) :
    Wf c S (s.grow d k t) := by
  obtain ⟨hw,hf⟩ := h.take hl
  exact hw.addTable hf hd ht (link_tableWord t)

theorem Wf.same_grow (h : Wf c S s) (hd : d ∈ S) (ht : s.table d k = none) (hl : s.freelist = t :: l) :
    Same S A s (s.grow d k t) := by
  obtain ⟨hw,hf⟩ := h.take hl
  exact hw.keeps_linkTable hf hd ht (link_tableWord t) A

theorem Wf.grow_table_same (h : Wf c S s) (hd : d ∈ S) (hl : s.freelist = t :: l) :
    (s.grow d k t).table d k = some t := by
  obtain ⟨-,hf⟩ := h.take hl
  exact table_linkTable_same hf hd (link_tableWord t)

theorem Wf.grow_table_of_ne (h : Wf c S s) (hd : d ∈ S) (hd' : d' ∈ S) (hl : s.freelist = t :: l)
    (hne : (d',k'.1) ≠ (d,k.1)) : (s.grow d k t).table d' k' = s.table d' k' := by
  obtain ⟨-,hf⟩ := h.take hl
  exact table_linkTable_of_ne hf hd hd' hne

theorem FreshFrame.grow (hf : FreshFrame c S s f) (h : Wf c S s) (hd : d ∈ S) (ht : s.table d k = none)
    (hl : s.freelist = t :: l) : f ≠ t ∧ FreshFrame c S (s.grow d k t) f := by
  have hft : f ≠ t := by
    rintro rfl
    exact hf.not_free (by rw [hl]; exact List.mem_cons_self)
  obtain ⟨hwt,htfresh⟩ := h.take hl
  have htaken : FreshFrame c S s.take f :=
    ⟨hf.valid,fun hm => hf.not_free (List.mem_of_mem_tail hm),hf.unused⟩
  exact ⟨hft,htaken.addTable hwt htfresh hd ht (link_tableWord t) hft⟩

/-- The state `s₁` in which `walkpgdir` has found the page table `t` of an entry, or has made it of a free frame. -/
structure Opened (c : Config) (S : Set Frame) (d : Frame) (k : Index) (t : Frame) (s s₁ : Kernel) : Prop where
  table : s₁.table d k = some t
  wf : Wf c S s₁
  same : Same S ∅ s s₁
  tables : ∀ d' ∈ S, ∀ k', (d',k'.1) ≠ (d,k.1) → s₁.table d' k' = s.table d' k'
  fresh : ∀ f, FreshFrame c S s f → FreshFrame c S s₁ f ∧ s₁.mem f = s.mem f
  origin : s₁ = s ∨ s.table d k = none ∧ ∃ l, s.freelist = t :: l ∧ s₁ = s.grow d k t

theorem Wf.opens (h : Wf c S s) (hd : d ∈ S) (va : ℕ) :
    s.table d (vpn va) = none ∧ s.freelist = [] ∧ walkpgdir d va true s = (none,s.starve) ∨
    ∃ t s₁, Opened c S d (vpn va) t s s₁ ∧ walkpgdir d va true s = (some (t,ptx va),s₁) := by
  cases ht : s.table d (vpn va) with
  | some t =>
    exact Or.inr ⟨t,s,⟨ht,h,Keeps.refl _,fun _ _ _ _ => rfl,fun f hf => ⟨hf,rfl⟩,Or.inl rfl⟩,walkpgdir_of_table ht true⟩
  | none =>
    cases hl : s.freelist with
    | nil => exact Or.inl ⟨rfl,rfl,walkpgdir_nil ht hl⟩
    | cons t l =>
      refine Or.inr ⟨t,_,⟨h.grow_table_same hd hl,h.grow hd ht hl,h.same_grow hd ht hl,?_,fun f hf => ?_,
        Or.inr ⟨ht,l,hl,rfl⟩⟩,walkpgdir_cons ht hl⟩
      · exact fun d' hd' k' hne => h.grow_table_of_ne hd hd' hl hne
      · obtain ⟨hne,hfg⟩ := hf.grow h hd ht hl
        exact ⟨hfg,linkTable_of_ne (fun he => hf.notTree.1 (he ▸ hd)) hne⟩

section Opened
variable {s₁ : Kernel} (h : Opened c S d k t s s₁)
include h

theorem Opened.rest : s₁.proc = s.proc ∧ s₁.buff = s.buff ∧ s₁.kallocZero = s.kallocZero := by
  rcases h.origin with rfl | ⟨-,-,-,rfl⟩ <;> exact ⟨rfl,rfl,rfl⟩

theorem Opened.pte (hd' : d' ∈ S) (k' : Index) : s₁.pte d' k' = s.pte d' k' :=
  h.same.entry d' hd' k' (Set.notMem_empty _)

end Opened

end Walk

section Sample

def sampleConfig (b : Build) : Config where
  build := b
  dataAddr := 0x80108000
  endAddr := 0x80115000
  data_aligned := by decide
  kernLink_lt_data := by decide
  data_le_end := by decide
  end_lt := by decide

def Kernel.blank (pgdir : Frame) (free : List Frame) (pages : ProcPages) : Kernel where
  mem _ _ := 0
  freelist := free
  pageCounter := 0
  kallocZero := false
  buff _ := 0
  proc :=
    {sz := 0, pgdir := pgdir, pid := 4, parentPid := 3, killed := false, swapFile := none
     pages := pages, eip := 0, esp := 0}

theorem wf_blank {free : List Frame} {pgdir : Frame} {pages : ProcPages} (hnd : (d :: free).Nodup)
    (hv : ∀ f ∈ d :: free, f ∈ c.frames) : Wf c {d} (.blank pgdir free pages) := by
  have h0 : Owned x86 c.frames ∅ (d :: free) (Kernel.blank pgdir free pages).mem :=
    ⟨fun _ _ _ hu => hu.elim,fun _ _ hu => hu.elim,fun _ _ hu => hu.elim,hnd,hv⟩
  obtain ⟨hw,hf⟩ := h0.take
  have h1 := hw.insertDir hf rfl
  rwa [insert_empty_eq] at h1

theorem blank_table {free : List Frame} {pgdir : Frame} {pages : ProcPages} :
    (Kernel.blank pgdir free pages).table d k = none := by
  have h : readWord (fun _ => 0#8) k.1 = 0#32 := readWord_zero k.1
  exact (congrArg x86.link h).trans x86.link_zero

def Kernel.mapZero (s : Kernel) (d t f : Frame) : Kernel :=
  (s.grow d (vpn 0) t).take.setPte d (vpn 0) (frameAddr f ||| pteW ||| pteU ||| pteP)

theorem Wf.mapZero {l : List Frame} (h : Wf c S s) (hd : d ∈ S) (ht : s.table d (vpn 0) = none)
    (hl : s.freelist = t :: f :: l) : Wf c S (s.mapZero d t f) := by
  have hg := h.grow hd ht hl
  have hl' : (s.grow d (vpn 0) t).freelist = f :: l := by
    simp only [Kernel.grow,Kernel.take,hl,List.tail_cons]
  obtain ⟨hw,hf⟩ := hg.take hl'
  exact (hf.map hw hd (h.grow_table_same hd hl) (by simp)).1

end Sample

def pageOfWords (w : ℕ → Word) : Page := fun o => (w (o.val/4)).extractLsb' (8*(o.val%4)) 8

theorem readWord_pageOfWords (w : ℕ → Word) (i : Fin 1024) : readWord (pageOfWords w) i = w i.val := by
  have hbyte : ∀ k, pageOfWords w (byteIndex i k) = writeWord (fun _ => 0) i (w i.val) (byteIndex i k) := by
    intro k
    have hd : (4*i.val+k.val)/4 = i.val := by omega
    have hm : (4*i.val+k.val)%4 = k.val := by omega
    rw [writeWord_byteIndex]
    simp only [pageOfWords,byteIndex,hd,hm]
  rw [← readWord_writeWord_same (fun _ => 0) i (w i.val),readWord,readWord,hbyte,hbyte,hbyte,hbyte]

/-- The page directory `0x200` and the page table `0x201`, which maps the pages below `n` to cleared frames. -/
def Kernel.wired (n : ℕ) (perm : ℕ → Word) (free : List Frame) (pages : ProcPages) : Kernel where
  mem f :=
    if f = 0x200 then pageOfWords fun k => if k = 0 then frameAddr 0x201 ||| pteP ||| pteW ||| pteU else 0
    else if f = 0x201 then
      pageOfWords fun k => if k < n then frameAddr (BitVec.ofNat 20 (0x210+k)) ||| perm k ||| pteP else 0
    else fun _ => 0
  freelist := free
  pageCounter := free.length
  kallocZero := false
  buff _ := 0
  proc :=
    {sz := n*pgSize, pgdir := 0x200, pid := 4, parentPid := 3, killed := false
     swapFile := some ⟨0,fun _ => 0⟩, pages := pages, eip := 0, esp := 0}

end Xv6Paging
