import Xv6Paging.Paging.KernelMap

/-! # The frames of a failed growth

`allocuvm` in every build, with swapping on the way: whatever it returns, no frame drops out of the
address spaces and the free list, and when it returns 0 after running out of frames no new page is left.
-/
namespace Xv6Paging
open WordPage PageTree Function

variable {c : Config} {S : Set Frame} {d f t : Frame} {s s₀ s₁ s' : Kernel} {lo a b : ℕ} {w : Word} {k : Index}

def ProcPages.listsUser (p : ProcPages) : Prop := ∀ i a, p.va i = some a → a < kernBase

/-- The free list and the address spaces together hold `A`, and at most the pages of `d` in `N` are new. -/
structure Moved (c : Config) (S : Set Frame) (d : Frame) (N : Set Index) (A : Set Frame) (s₀ s : Kernel) : Prop where
  wf : Wf c S s
  accounted : s.accounted S = A
  leaves : ∀ d' ∈ S, ∀ k, x86.own k = true → ∀ f, x86.link (s.pte d' k) = some f →
    x86.link (s₀.pte d' k) = some f ∨ d' = d ∧ k ∈ N
  tables : ∀ d' ∈ S, d' ≠ d → ∀ k, s.table d' k = s₀.table d' k
  kernel : ∀ d' ∈ S, ∀ k, x86.own k = false → pteAddr (s.pte d' k) = pteAddr (s₀.pte d' k)
  pgdir : s.proc.pgdir = s₀.proc.pgdir
  lists : s.proc.pages.listsUser

namespace Moved
variable {N : Set Index} {A : Set Frame}

theorem refl (h : Wf c S s) (hl : s.proc.pages.listsUser) : Moved c S d ∅ (s.accounted S) s s :=
  ⟨h,rfl,fun _ _ _ _ _ hf => Or.inl hf,fun _ _ _ _ => rfl,fun _ _ _ _ => rfl,rfl,hl⟩

theorem step (h : Moved c S d N A s₀ s) (h' : Moved c S d ∅ (s.accounted S) s s₁) : Moved c S d N A s₀ s₁ := by
  refine ⟨h'.wf,h'.accounted.trans h.accounted,?_,?_,?_,h'.pgdir.trans h.pgdir,h'.lists⟩
  · intro d' hd' k ho f hf
    obtain hold | ⟨-,hk⟩ := h'.leaves d' hd' k ho f hf
    · exact h.leaves d' hd' k ho f hold
    · exact hk.elim
  · intro d' hd' hne k
    exact (h'.tables d' hd' hne k).trans (h.tables d' hd' hne k)
  · intro d' hd' k ho
    exact (h'.kernel d' hd' k ho).trans (h.kernel d' hd' k ho)

theorem keep {B : Set Frame} (h : Moved c S d N A s₀ s) (hw : Wf c S s₁) (hacc : s₁.accounted S = B)
    (hpte : ∀ d' ∈ S, ∀ k, s₁.pte d' k = s.pte d' k) (htable : ∀ d' ∈ S, ∀ k, s₁.table d' k = s.table d' k)
    (hp : s₁.proc.pgdir = s.proc.pgdir) (hl : s₁.proc.pages.listsUser) : Moved c S d N B s₀ s₁ := by
  refine ⟨hw,hacc,?_,?_,?_,hp.trans h.pgdir,hl⟩
  · intro d' hd' k ho f hlink
    rw [hpte d' hd'] at hlink
    exact h.leaves d' hd' k ho f hlink
  · intro d' hd' hne k
    rw [htable d' hd']
    exact h.tables d' hd' hne k
  · intro d' hd' k ho
    rw [hpte d' hd']
    exact h.kernel d' hd' k ho

theorem congr (h : Moved c S d N A s₀ s) (hm : s₁.mem = s.mem) (hf : s₁.freelist = s.freelist)
    (hp : s₁.proc.pgdir = s.proc.pgdir) (hl : s₁.proc.pages.listsUser) : Moved c S d N A s₀ s₁ := by
  refine h.keep ?_ ((accounted_congr hm hf).trans h.accounted) ?_ ?_ hp hl
  · rw [Wf,hm,hf]
    exact h.wf
  · intro d' _ k
    rw [Kernel.pte,Kernel.pte,hm]
  · intro d' _ k
    rw [Kernel.table,Kernel.table,hm]

end Moved

section Evict
variable {i tmp : Slot} {N : Set Index}

theorem Cleared.moved (h : Cleared c S s.proc.pgdir s s₁) (hl : s₁.proc.pages.listsUser) :
    Moved c S d ∅ (s.accounted S) s s₁ := by
  have hlink : ∀ d' ∈ S, ∀ k, x86.link (s₁.pte d' k) = x86.link (s.pte d' k) := by
    intro d' hd' k
    obtain he | ⟨-,he⟩ := h.pte d' hd' k
    · rw [he]
    · rw [he,link_and_not_pteA]
  refine ⟨h.wf,?_,?_,fun d' hd' _ => h.table d' hd',fun d' hd' k _ => h.pteAddr hd',by rw [h.only.proc],hl⟩
  · rw [accounted_eq,accounted_eq,Kernel.freeFrames,Kernel.freeFrames,h.freelist]
    exact congrArg (_ ∪ ·) (used_congr h.frame)
  · intro d' hd' k _ f hf
    rw [hlink d' hd' k] at hf
    exact Or.inl hf

theorem vpn_top_ne (hu : UserPage a) : vpn (2^32-1) ≠ vpn a := by
  intro he
  have hq := (vpn_inj (by decide) hu.lt).mp he
  obtain ⟨⟨q,rfl⟩,hlt⟩ := hu
  simp only [pgSize,kernBase] at hq hlt
  omega

theorem present_of_kernelAccess {va : ℕ} (h : kernelAccess va s = .ok f) :
    has (s.pte s.proc.pgdir (vpn va)) pteP = true := by
  rw [kernelAccess_eq] at h
  split_ifs at h with hp
  exact hp

theorem writeToSwapFile_proc {p q : Proc} {pg : Page} {place size : ℕ} {r : ℤ}
    (h : writeToSwapFile p pg place size = .ok (r,q)) : q = {p with swapFile := q.swapFile} := by
  unfold writeToSwapFile at h
  split at h
  · cases h
  · obtain ⟨⟨n,ip⟩,-,h⟩ := bind_eq_ok h
    cases h
    rfl

theorem Wf.moved_unmap (h : Wf c S s) {e : Frame} (he : e ∈ S) (ho : x86.own k = true)
    (hp : has (s.pte e k) pteP = true) (hw : has w pteP = false) (hl : s.proc.pages.listsUser) :
    Moved c S d ∅ (s.accounted S) s ((s.setPte e k w).free (pteAddr (s.pte e k))) := by
  obtain ⟨t,ht⟩ := table_of_has hp
  obtain ⟨hwf,hf⟩ := h.unmap he ho hp hw
  obtain ⟨hwf',-⟩ := hf.free (A := ∅) hwf
  have hpte : ∀ d' ∈ S, ∀ k', ((s.setPte e k w).free (pteAddr (s.pte e k))).pte d' k' = (s.setPte e k w).pte d' k' :=
    fun d' hd' k' => store_pte hf.notTree hd' _
  have hother : ∀ d' ∈ S, ∀ k', (d',k') ≠ (e,k) →
      ((s.setPte e k w).free (pteAddr (s.pte e k))).pte d' k' = s.pte d' k' := by
    intro d' hd' k' hne
    rw [hpte d' hd' k']
    exact (h.same_setPte he).entry d' hd' k' hne
  refine ⟨hwf',h.accounted_unmap he ho hp hw,?_,?_,?_,rfl,hl⟩
  · intro d' hd' k' _ f' hf'
    by_cases hne : (d',k') = (e,k)
    · obtain ⟨rfl,rfl⟩ := Prod.mk.inj hne
      rw [hpte d' hd' k',h.setPte_same he ht,link_eq_none.mpr hw] at hf'
      cases hf'
    · rw [hother d' hd' k' hne] at hf'
      exact Or.inl hf'
  · intro d' hd' _ k'
    exact (store_table hf.notTree hd' _).trans (h.setPte_table he hd')
  · intro d' hd' k' ho'
    rw [hother d' hd' k']
    intro hne
    rw [(Prod.mk.inj hne).2,ho] at ho'
    cases ho'

theorem kfree_ok (h : kfree c f s = .ok s') : f ∈ c.frames ∧ s' = s.free f := by
  unfold kfree at h
  split_ifs at h with hno
  cases h
  obtain ⟨h1,h2⟩ := not_or.mp hno
  exact ⟨⟨not_lt.mp h1,not_le.mp h2⟩,rfl⟩

theorem insertToDisk_run (htop : pteAddr (s.pte s.proc.pgdir (vpn (2^32-1))) ∉ c.frames)
    (hl : s.proc.pages.listsUser) (hrun : insertToDisk c i tmp s = .ok s') :
    ∃ (a : ℕ) (t : Frame) (q : Proc), s.proc.pages.va tmp = some a ∧ has (s.pte s.proc.pgdir (vpn a)) pteP = true ∧
      s.table s.proc.pgdir (vpn a) = some t ∧ s.proc.swapFile ≠ none ∧ q.pgdir = s.proc.pgdir ∧ q.sz = s.proc.sz ∧
      q.pages.va = s.proc.pages.va ∧ q.pages.diskVa = update s.proc.pages.diskVa i (some a) ∧
      s' = ({s with proc := {q with pages := q.pages.vacate tmp}}.free
        (pteAddr (s.pte s.proc.pgdir (vpn a)))).writePte (t,ptx a) (pteW ||| pteU ||| ptePG) := by
  unfold insertToDisk at hrun
  obtain ⟨page,hread,hrun⟩ := bind_eq_ok hrun
  obtain ⟨⟨r,q⟩,hwrite,hrun⟩ := bind_eq_ok hrun
  have hq := writeToSwapFile_proc hwrite
  have hqd : q.pgdir = s.proc.pgdir := by rw [hq]; rfl
  have hqp : q.pages = {s.proc.pages with
      diskVa := update s.proc.pages.diskVa i (s.proc.pages.va tmp)
      pagesInSwapfileCounter := s.proc.pages.pagesInSwapfileCounter+1
      pagedout := s.proc.pages.pagedout+1} := by rw [hq]; rfl
  obtain ⟨g,hfirst,-⟩ := bind_eq_ok hread
  have hfile : s.proc.swapFile ≠ none := by
    intro hnone
    have hfault : (Except.error .nullDeref : Except Fault (ℤ × Proc)) = .ok (r,q) := by
      rw [← hwrite]
      simp only [writeToSwapFile,Kernel.setPages,hnone]
    cases hfault
  have hlt : vaAddr (s.proc.pages.va tmp) < 2^32 := by
    cases hv : s.proc.pages.va tmp with
    | none => decide
    | some a => exact (hl tmp a hv).trans (by decide)
  have hp : has (s.pte s.proc.pgdir (vpn (vaAddr (s.proc.pages.va tmp)))) pteP = true := by
    have hacc := present_of_kernelAccess hfirst
    rw [vpn_roundDown] at hacc
    exact hacc
  obtain ⟨t,ht⟩ := table_of_has hp
  have hwalk : walkpgdir q.pgdir (vaAddr (s.proc.pages.va tmp)) false {s with proc := q} =
      (some (t,ptx (vaAddr (s.proc.pages.va tmp))),{s with proc := q}) := by
    rw [hqd]
    exact walkpgdir_of_table (s := {s with proc := q}) ht false
  have hpte : {s with proc := q}.readPte (t,ptx (vaAddr (s.proc.pages.va tmp))) =
      s.pte s.proc.pgdir (vpn (vaAddr (s.proc.pages.va tmp))) := readPte_eq (s := {s with proc := q}) ht
  dsimp only [Kernel.setPages] at hrun
  split_ifs at hrun
  rw [hwalk] at hrun
  simp only [hpte] at hrun
  split_ifs at hrun
  obtain ⟨s₂,hfree,hrun⟩ := bind_eq_ok hrun
  obtain ⟨hmem,rfl⟩ := kfree_ok hfree
  cases hrun
  obtain ⟨a,hv⟩ : ∃ a, s.proc.pages.va tmp = some a := by
    cases hv : s.proc.pages.va tmp with
    | some a => exact ⟨a,rfl⟩
    | none =>
      rw [hv,show vpn (vaAddr none) = vpn (2^32-1) by decide] at hmem
      exact (htop hmem).elim
  rw [hv] at hp ht ⊢
  refine ⟨a,t,q,rfl,hp,ht,hfile,hqd,by rw [hq]; rfl,?_,?_,rfl⟩
  · rw [hqp]
  · rw [hqp,← hv]

section
variable (hw : Wf c S s) (hd : s.proc.pgdir ∈ S) (htop : pteAddr (s.pte s.proc.pgdir (vpn (2^32-1))) ∉ c.frames)
include hw hd htop

theorem insertToDisk_moved (hl : s.proc.pages.listsUser)
    (hrun : insertToDisk c i tmp s = .ok s') : Moved c S d ∅ (s.accounted S) s s' := by
  obtain ⟨a,t,q,hv,hp,ht,-,hqd,-,hqv,-,rfl⟩ := insertToDisk_run htop hl hrun
  have ha : a < kernBase := hl tmp a hv
  have ho : x86.own (vpn a) = true := (own_iff (ha.trans (by decide))).mpr ha
  have hcomm := free_setPte_comm (w := pteW ||| pteU ||| ptePG) hw hd ho hp ht
  have hmoved := hw.moved_unmap (d := d) (w := pteW ||| pteU ||| ptePG) hd ho hp (by decide) hl
  rw [← hcomm] at hmoved
  refine hmoved.congr rfl rfl hqd ?_
  intro j b hj
  have hva : update q.pages.va tmp none j = some b := hj
  rw [hqv] at hva
  by_cases hjt : j = tmp
  · rw [hjt,update_self] at hva
    cases hva
  · rw [update_of_ne hjt] at hva
    exact hl j b hva

theorem moveramToDisk_moved (hl : s.proc.pages.listsUser)
    (hrun : moveramToDisk c s = .ok s') : Moved c S d ∅ (s.accounted S) s s' := by
  unfold moveramToDisk at hrun
  split at hrun
  · cases hrun
  · split_ifs at hrun
    obtain ⟨⟨tmp,s₁⟩,hsel,hrun⟩ := bind_eq_ok hrun
    obtain ⟨hclear,hlinks⟩ := (selectPageToRemove_keeps c.build hw hd).of_ok hsel
    have hl₁ : s₁.proc.pages.listsUser := by
      intro j a hj
      refine hl j a ?_
      rw [hlinks] at hj
      exact hj
    have hmoved := hclear.moved (d := d) hl₁
    have hd₁ : s₁.proc.pgdir ∈ S := by
      rw [hmoved.pgdir]
      exact hd
    refine hmoved.step (insertToDisk_moved hclear.wf hd₁ ?_ hl₁ hrun)
    rw [hmoved.pgdir,hmoved.kernel _ hd (vpn (2^32-1)) (by decide)]
    exact htop

end

theorem updateMemory_listsUser {build : Build} {p q : ProcPages} {j : Slot} (hl : p.listsUser) (ha : a < kernBase)
    (h : updateMemory build p a = .ok (j,q)) : q.listsUser := by
  have hva := (updateMemory_listedIn h).va
  intro i b hb
  rw [hva] at hb
  by_cases hij : i = j
  · rw [hij,update_self] at hb
    cases hb
    exact ha
  · rw [update_of_ne hij] at hb
    exact hl i b hb

/-- A call of `listPage` that returned has evicted a page first if memory was full. -/
theorem listPage_run (hrun : listPage c a s = .ok s') : ∃ s₁ j pages, updateMemory c.build s₁.proc.pages a = .ok (j,pages) ∧
    s' = s₁.setPages pages ∧ ((maxPsycPages : ℤ) ≤ s.proc.pages.pagesInMemoryCounter ∧ moveramToDisk c s = .ok s₁ ∨
      s.proc.pages.pagesInMemoryCounter < maxPsycPages ∧ s₁ = s) := by
  unfold listPage at hrun
  dsimp only at hrun
  split_ifs at hrun with hfull
  · cases hrun
  · obtain ⟨s₁,hmove,hrun⟩ := bind_eq_ok hrun
    obtain ⟨⟨j,pages⟩,hupdate,hrun⟩ := bind_eq_ok hrun
    cases hrun
    exact ⟨s₁,j,pages,hupdate,rfl,Or.inl ⟨hfull,hmove⟩⟩
  · obtain ⟨s₁,hs,hrun⟩ := bind_eq_ok hrun
    cases hs
    obtain ⟨⟨j,pages⟩,hupdate,hrun⟩ := bind_eq_ok hrun
    cases hrun
    exact ⟨s,j,pages,hupdate,rfl,Or.inr ⟨not_le.mp hfull,rfl⟩⟩

theorem listPage_moved (hw : Wf c S s) (hd : s.proc.pgdir ∈ S)
    (htop : pteAddr (s.pte s.proc.pgdir (vpn (2^32-1))) ∉ c.frames) (hl : s.proc.pages.listsUser) (ha : a < kernBase)
    (hrun : listPage c a s = .ok s') : Moved c S d ∅ (s.accounted S) s s' := by
  obtain ⟨s₁,j,pages,hupdate,rfl,hfirst⟩ := listPage_run hrun
  have hmoved : Moved c S d ∅ (s.accounted S) s s₁ := by
    obtain ⟨-,hmove⟩ | ⟨-,rfl⟩ := hfirst
    · exact moveramToDisk_moved hw hd htop hl hmove
    · exact .refl hw hl
  exact hmoved.congr rfl rfl rfl (updateMemory_listsUser hmoved.lists ha hupdate)

end Evict

section Alloc
variable {N : Set Index} {A : Set Frame} {oldsz newsz : ℕ}

theorem Drawn.accounted {o : Option Frame} {r : Kernel} (hw : Wf c S s) (h : Drawn c S s o r) :
    o.elim (r.accounted S) (insert · (r.accounted S)) = s.accounted S := by
  obtain ⟨rfl,rfl⟩ | ⟨f,l,rfl,hl,rfl⟩ := h.origin
  · rfl
  · obtain ⟨-,hf⟩ := hw.take hl
    rw [accounted_of_take hl,← accounted_store hf.notTree fun _ => 0]
    rfl

theorem accounted_giveBack {o : Option Frame} (hf : ∀ f ∈ o, FreshFrame c S s f) :
    (s.giveBack o).accounted S = o.elim (s.accounted S) (insert · (s.accounted S)) := by
  cases o with
  | none => rfl
  | some f => exact (hf f rfl).accounted_free

def pagesFrom (lo hi : ℕ) : Set Index := {k | ∃ b, lo ≤ b ∧ b < hi ∧ k = vpn b}

theorem deallocuvm_moved (h : Moved c S d N A s₀ s) (hd : d ∈ S) (hlt : oldsz < newsz) (hsz : newsz ≤ kernBase)
    (hN : N ⊆ pagesFrom (pgRoundUp oldsz) newsz) {n : ℕ} (hrun : deallocuvm c d newsz oldsz s = .ok (n,s')) :
    Moved c S d ∅ A s₀ s' ∧ ∀ f, FreshFrame c S s f → FreshFrame c S s' f := by
  have hspec : Outcome (deallocuvm c d newsz oldsz s) (fun r => r.1 = oldsz ∧ ∃ e, newsz ≤ e ∧
      Released c S d (pgRoundUp oldsz) newsz s e r.2 ∧ r.2.proc.pages.listsUser) (fun _ => True) := by
    refine deallocuvm_spec (M := fun _ p => p.listsUser) h.wf hd hsz hlt ?_ h.lists
    intro b p _ _ _ _ hp
    unfold checkFound
    split_ifs
    · exact .error trivial
    · exact .ok fun i a hi => hp i a (forgetPage_va i hi)
  obtain ⟨-,e,he,hrel,hlists⟩ := hspec.of_ok hrun
  have hcons := deallocuvm_conserved hd hsz h.wf hrun
  have hk : kernBase < 2^32 := by decide
  refine ⟨⟨hrel.wf,hcons.accounted.trans h.accounted,?_,?_,?_,?_,hlists⟩,hrel.fresh⟩
  · intro d' hd' k ho f hf
    by_cases hin : d' = d ∧ ∃ b, pgRoundUp oldsz ≤ b ∧ b < e ∧ b < newsz ∧ k = vpn b
    · obtain ⟨rfl,b,h1,h2,h3,rfl⟩ := hin
      rw [hrel.gone b h1 h2 h3,link_eq_none.mpr (has_erased c.build _)] at hf
      cases hf
    · have hsame : s'.pte d' k = s.pte d' k := hrel.same.entry d' hd' k hin
      rw [hsame] at hf
      obtain hold | ⟨rfl,hk'⟩ := h.leaves d' hd' k ho f hf
      · exact Or.inl hold
      · obtain ⟨b,h1,h2,rfl⟩ := hN hk'
        exact (hin ⟨rfl,b,h1,h2.trans_le he,h2,rfl⟩).elim
  · intro d' hd' hne k
    exact (hrel.tables d' hd' k).trans (h.tables d' hd' hne k)
  · intro d' hd' k ho
    have hsame : s'.pte d' k = s.pte d' k := by
      refine hrel.same.entry d' hd' k ?_
      rintro ⟨-,b,-,-,h3,hkb⟩
      dsimp only at hkb
      rw [hkb,(own_iff (by omega)).mpr (by omega)] at ho
      cases ho
    rw [hsame]
    exact h.kernel d' hd' k ho
  · rw [hrel.only.proc]
    exact h.pgdir

theorem allocPage_moved (h : Moved c S d (pagesFrom (pgRoundUp oldsz) a) A s₀ s) (hd : d ∈ S) (hu : UserPage a)
    (hlo : pgRoundUp oldsz ≤ a) (hold : oldsz ≤ pgRoundUp oldsz) (hlt : a < newsz) (hsz : newsz ≤ kernBase) {r : ℤ}
    (hrun : allocPage c d oldsz newsz a s = .ok (r,s')) :
    r = 0 ∧ Moved c S d ∅ A s₀ s' ∨ r = 1 ∧ Moved c S d (pagesFrom (pgRoundUp oldsz) (a+pgSize)) A s₀ s' := by
  have hN : pagesFrom (pgRoundUp oldsz) a ⊆ pagesFrom (pgRoundUp oldsz) newsz := by
    rintro k ⟨b,h1,h2,rfl⟩
    exact ⟨b,h1,h2.trans hlt,rfl⟩
  obtain ⟨o,q,hq,-,he⟩ | ⟨f,q,t,s₁,hq,ho,he⟩ := allocPage_cases oldsz newsz h.wf hd hu
  · rw [he] at hrun
    obtain ⟨⟨n,s₁⟩,hdealloc,hrun⟩ := bind_eq_ok hrun
    have hstart : Moved c S d (pagesFrom (pgRoundUp oldsz) a) (q.accounted S) s₀ q.starve :=
      h.keep hq.wf rfl (fun d' hd' k => hq.same.entry d' hd' k (Set.notMem_empty _)) hq.tables
        (congrArg Proc.pgdir hq.rest.1) (hq.rest.1 ▸ h.lists)
    obtain ⟨hmoved,hfresh⟩ := deallocuvm_moved hstart hd (by omega) hsz hN hdealloc
    have hback : ∀ f ∈ o, FreshFrame c S s₁ f := fun f hf => hfresh f (hq.fresh f hf).1
    rw [putBack_eq hback] at hrun
    cases hrun
    obtain ⟨hwf,hsame,htables⟩ := hmoved.wf.giveBack hback
    obtain ⟨hproc,-⟩ := giveBack_rest s₁ o
    refine Or.inl ⟨rfl,hmoved.keep hwf ?_ (fun d' hd' k => hsame.entry d' hd' k (Set.notMem_empty _)) htables
      (congrArg Proc.pgdir hproc) (hproc ▸ hmoved.lists)⟩
    rw [accounted_giveBack hback,hmoved.accounted,hq.accounted h.wf]
    exact h.accounted
  · rw [he] at hrun
    split_ifs at hrun with hp
    cases hrun
    obtain ⟨hwf,hproc,-,hother,htables⟩ := hq.entries ho hd rfl
    refine Or.inr ⟨rfl,hwf,?_,?_,?_,?_,(congrArg Proc.pgdir hproc).trans h.pgdir,hproc.symm ▸ h.lists⟩
    · have hold : s₁.pte d (vpn a) = s.pte d (vpn a) := (hq.same.trans ho.same).entry d hd _ (Set.notMem_empty _)
      rw [ho.wf.accounted_map hd ho.table hu.own (by simpa [hold] using hp)
        (link_eq_some.mpr ⟨has_mapped f userPerm,addr_mapped f⟩),ho.accounted hq.wf hd,← h.accounted]
      exact hq.accounted h.wf
    · intro d' hd' k hown g hg
      by_cases hne : (d',k) = (d,vpn a)
      · obtain ⟨rfl,rfl⟩ := Prod.mk.inj hne
        exact Or.inr ⟨rfl,a,hlo,by simp [pgSize],rfl⟩
      · rw [hother d' hd' k hne] at hg
        obtain hold | ⟨he,b,h1,h2,hb⟩ := h.leaves d' hd' k hown g hg
        · exact Or.inl hold
        · exact Or.inr ⟨he,b,h1,by omega,hb⟩
    · intro d' hd' hne k
      exact (htables d' hd' hne k).trans (h.tables d' hd' hne k)
    · intro d' hd' k hown
      rw [hother d' hd' k]
      · exact h.kernel d' hd' k hown
      · intro he
        rw [(Prod.mk.inj he).2,hu.own] at hown
        cases hown

/-- The loop of `allocuvm` and `oldallocuvm`, which differ in what they do with a new page. -/
def growLoop (c : Config) (listPage : ℕ → Kernel → Except Fault Kernel) (pgdir : Frame) (oldsz newsz : ℕ) :
    ℕ → ℕ → Kernel → Except Fault (ℕ × Kernel)
  | 0, _, _ => .error .diverges
  | fuel+1, a, s =>
    if a < newsz then do
      let (r,s) ← allocPage c pgdir oldsz newsz a s
      if r = 0 then return (0,s)
      else do
        let s ← listPage a s
        growLoop c listPage pgdir oldsz newsz fuel (a+pgSize) s
    else .ok (newsz,s)

theorem allocuvmLoop_eq_growLoop (c : Config) (pgdir : Frame) (oldsz newsz fuel a : ℕ) (s : Kernel) :
    allocuvmLoop c pgdir oldsz newsz fuel a s = growLoop c (listPage c) pgdir oldsz newsz fuel a s := by
  induction fuel generalizing a s with
  | zero => rfl
  | succ fuel ih => simp only [allocuvmLoop,growLoop,ih]

theorem oldallocuvmLoop_eq_growLoop (c : Config) (pgdir : Frame) (oldsz newsz fuel a : ℕ) (s : Kernel) :
    oldallocuvmLoop c pgdir oldsz newsz fuel a s = growLoop c (fun _ => .ok) pgdir oldsz newsz fuel a s := by
  induction fuel generalizing a s with
  | zero => rfl
  | succ fuel ih =>
    simp only [oldallocuvmLoop,growLoop,ih]
    rfl

/-- After a call that returned `n`, no new page is left if `n` is 0. -/
def Grown (c : Config) (S : Set Frame) (d : Frame) (A : Set Frame) (s₀ : Kernel) (n : ℕ) (s : Kernel) : Prop :=
  ∃ N, Moved c S d N A s₀ s ∧ (n = 0 → N = ∅)

variable (hd : d ∈ S) (hsz : newsz ≤ kernBase) (hold : oldsz ≤ pgRoundUp oldsz) (hal : pgSize ∣ a)
  (hlo : pgRoundUp oldsz ≤ a) (hzero : newsz = 0 → pagesFrom (pgRoundUp oldsz) a = ∅)
include hd hsz hold hal hlo hzero

theorem growLoop_moved {list : ℕ → Kernel → Except Fault Kernel} (hlist : ∀ N a s s', Moved c S d N A s₀ s →
      a < kernBase → list a s = .ok s' → Moved c S d N A s₀ s') (fuel : ℕ)
    (h : Moved c S d (pagesFrom (pgRoundUp oldsz) a) A s₀ s) {n : ℕ}
    (hrun : growLoop c list d oldsz newsz fuel a s = .ok (n,s')) : Grown c S d A s₀ n s' := by
  induction fuel generalizing a s with
  | zero => cases hrun
  | succ fuel ih =>
    rw [growLoop] at hrun
    split_ifs at hrun with hlt
    · obtain ⟨⟨r,s₁⟩,hpage,hrun⟩ := bind_eq_ok hrun
      obtain ⟨rfl,hgone⟩ | ⟨rfl,hmore⟩ := allocPage_moved h hd ⟨hal,by omega⟩ hlo hold hlt hsz hpage
      · cases hrun
        exact ⟨∅,hgone,fun _ => rfl⟩
      · obtain ⟨s₂,hl,hrun⟩ := bind_eq_ok hrun
        exact ih (Nat.dvd_add hal (Nat.dvd_refl _)) (by omega) (fun h0 => by omega) (hlist _ a s₁ s₂ hmore (by omega) hl)
          hrun
    · cases hrun
      exact ⟨_,h,hzero⟩

end Alloc

theorem allocuvm_moved {oldsz newsz : ℕ} (hd : d ∈ S) (hw : Wf c S s) (hp : s.proc.pgdir ∈ S)
    (htop : pteAddr (s.pte s.proc.pgdir (vpn (2^32-1))) ∉ c.frames) (hl : s.proc.pages.listsUser) {n : ℕ}
    (hrun : allocuvm c d oldsz newsz s = .ok (n,s')) : Grown c S d (s.accounted S) s n s' := by
  have hnothing : Grown c S d (s.accounted S) s n s := ⟨∅,.refl hw hl,fun _ => rfl⟩
  have hempty : pagesFrom (pgRoundUp oldsz) (pgRoundUp oldsz) = ∅ := by
    refine Set.eq_empty_of_forall_notMem ?_
    rintro k ⟨b,h1,h2,-⟩
    omega
  have hstart : Moved c S d (pagesFrom (pgRoundUp oldsz) (pgRoundUp oldsz)) (s.accounted S) s s := by
    rw [hempty]
    exact .refl hw hl
  have hal := pgSize_dvd_pgRoundUp oldsz
  simp only [allocuvm,oldallocuvm,oldallocuvmLoop_eq_growLoop,allocuvmLoop_eq_growLoop] at hrun
  split_ifs at hrun with _ hbig hless hbig hless
  · cases hrun
    exact hnothing
  · cases hrun
    exact hnothing
  · refine growLoop_moved hd (by omega) (le_pgRoundUp (by omega)).1 hal le_rfl (fun _ => hempty) ?_ _ hstart hrun
    intro N a s s' h _ he
    cases he
    exact h
  · cases hrun
    exact hnothing
  · cases hrun
    exact hnothing
  · cases hrun
    exact hnothing
  · refine growLoop_moved hd (by omega) (le_pgRoundUp (by omega)).1 hal le_rfl (fun _ => hempty) ?_ _ hstart hrun
    intro N a s₁ s₂ h ha hlist
    refine h.step (listPage_moved h.wf ?_ ?_ h.lists ha hlist)
    · rw [h.pgdir]
      exact hp
    · rw [h.pgdir,h.kernel _ hp _ (by decide)]
      exact htop

end Xv6Paging
