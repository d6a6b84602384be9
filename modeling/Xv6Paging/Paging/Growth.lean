import Mathlib.Data.Fintype.Sum
import Xv6Paging.Paging.Swapping

/-! # Growing and shrinking

What `allocuvm`, `oldallocuvm` and `deallocuvm` do to the pages of an address space.
Mapping one page is described once for all builds. A call of `kalloc` that returns 0 is
recorded in the state, and the specifications say what holds if there was none.
-/
namespace Xv6Paging
open WordPage PageTree Function

section Map
variable {c : Config} {S : Set Frame} {d f : Frame} {Z : Set ℕ} {μ : ℕ → Page} {α : ℕ → Bool → Bool}
  {s : Kernel} {a : ℕ} {perm : Word}

theorem mappages_page (hu : UserPage a) (pa : Word) :
    mappages d a pgSize pa perm s = mappagesLoop d perm 0 a pa s := by
  have hlast : pgRoundDown ((a+pgSize-1)%2^32) = a := by
    obtain ⟨⟨q,rfl⟩,hlt⟩ := hu
    simp only [pgRoundDown,pgSize,kernBase] at hlt ⊢
    omega
  simp only [mappages,hlast,pgRoundDown_of_dvd hu.1,Nat.sub_self,Nat.zero_div]

theorem Space.mapTo {t : Frame} {w : Word} (h : Space c S d Z μ α s) (ha : UserPage a)
    (ht : s.table d (vpn a) = some t) (hf : FreshFrame c S s f) (hw : has w pteP = true)
    (hwf : pteAddr w = f) (hμ : s.mem f = μ a)
    (hal : ∀ st, α a st = true → accessAllowed w st = true) :
    Space c S d (insert a Z) μ α (s.setPte d (vpn a) w) := by
  have h' := h.map ha ht hf hw hwf hal
  rwa [hμ,update_eq_self,update_eq_self] at h'

theorem has_mapped (f : Frame) (perm : Word) : has (frameAddr f ||| perm ||| pteP) pteP = true := by
  simp only [has_pteP,BitVec.getLsbD_or]
  simp [pteP]

theorem mappages_cases (hu : UserPage a) (h : Wf c S s) (hd : d ∈ S) (pa perm : Word) :
    s.table d (vpn a) = none ∧ s.freelist = [] ∧ mappages d a pgSize pa perm s = .ok (-1,s.starve) ∨
    ∃ t s₁, Opened c S d (vpn a) t s s₁ ∧ mappages d a pgSize pa perm s =
      if has (s.pte d (vpn a)) pteP then .error (.panic "remap")
      else .ok (0,s₁.setPte d (vpn a) (pa ||| perm ||| pteP)) := by
  rw [mappages_page hu,mappagesLoop]
  obtain ⟨ht,hl,hwalk⟩ | ⟨t,s₁,ho,hwalk⟩ := h.opens hd a
  · rw [hwalk]
    exact Or.inl ⟨ht,hl,rfl⟩
  · rw [hwalk]
    dsimp only
    rw [readPte_eq ho.table,ho.pte hd,writePte_eq ho.table]
    exact Or.inr ⟨t,s₁,ho,rfl⟩

end Map

section Release
variable {c : Config} {S : Set Frame} {d : Frame} {Z : Set ℕ} {μ : ℕ → Page} {α : ℕ → Bool → Bool}
  {s s' : Kernel} {oldsz newsz lo e : ℕ}

/-- The page arrays cannot make `deallocuvm` panic: they are not used, or list no page twice. -/
def Config.Forgets (c : Config) (p : ProcPages) : Prop := c.build = .none ∨ ListedOnce p

theorem Config.Forgets.step {p : ProcPages} (h : c.Forgets p) (own : Bool) (a : ℕ) (w : Word) :
    c.Forgets (forgetPage c.build own a w p).1 ∧ (forgetPage c.build own a w p).2 ≤ 1 := by
  rcases h with h | h
  · simp [forgetPage,h,Config.Forgets]
  · obtain ⟨h1,h2⟩ := @ListedOnce.forgetPage p c.build own a w h
    exact ⟨Or.inr h1,h2⟩

theorem deallocuvm_released (h : Wf c S s) (hd : d ∈ S) (hsz : oldsz ≤ kernBase) (hlt : newsz < oldsz)
    (hp : c.Forgets s.proc.pages) :
    ∃ s' e, deallocuvm c d oldsz newsz s = .ok (newsz,s') ∧ oldsz ≤ e ∧
      Released c S d (pgRoundUp newsz) oldsz s e s' ∧ c.Forgets s'.proc.pages := by
  have hspec : Outcome (deallocuvm c d oldsz newsz s) (fun r => r.1 = newsz ∧ ∃ e, oldsz ≤ e ∧
      Released c S d (pgRoundUp newsz) oldsz s e r.2 ∧ c.Forgets r.2.proc.pages) fun _ => False := by
    refine deallocuvm_spec (M := fun _ p => c.Forgets p) h hd hsz hlt (fun b p _ _ _ _ hm => ?_) hp
    obtain ⟨hm',hf⟩ := hm.step (s.proc.pgdir = d) b (s.pte d (vpn b))
    rw [checkFound,if_neg (not_lt.mpr hf)]
    exact .ok hm'
  obtain ⟨⟨r,s'⟩,hr,hrn,e,he,hrel,hm⟩ := Outcome.total_iff.mp hspec
  obtain rfl : r = newsz := hrn
  exact ⟨s',e,hr,he,hrel,hm⟩

theorem deallocuvm_total (newsz : ℕ) (h : Wf c S s) (hd : d ∈ S) (hsz : oldsz ≤ kernBase)
    (hp : c.Forgets s.proc.pages) :
    ∃ r s', deallocuvm c d oldsz newsz s = .ok (r,s') ∧ s'.kallocZero = s.kallocZero ∧
      ∀ f, FreshFrame c S s f → FreshFrame c S s' f := by
  by_cases hlt : newsz < oldsz
  · obtain ⟨s',e,hr,-,hrel,-⟩ := deallocuvm_released h hd hsz hlt hp
    exact ⟨newsz,s',hr,hrel.only.kallocZero,hrel.fresh⟩
  · refine ⟨oldsz,s,?_,rfl,fun _ hf => hf⟩
    rw [deallocuvm,if_pos (not_lt.mp hlt)]

theorem has_erased (b : Build) (w : Word) : has (erased b w) pteP = false := by
  unfold erased
  split
  · rfl
  · rename_i h
    simpa using fun hp => h (Or.inl hp)

theorem Released.pte_kept (h : Released c S d lo oldsz s e s') (hd : d ∈ S) (hlo : pgSize ∣ lo)
    (hsz : oldsz ≤ kernBase) {a : ℕ} (ha : UserPage a) (hout : a < lo ∨ oldsz ≤ a) :
    s'.pte d (vpn a) = s.pte d (vpn a) ∧
    (has (s.pte d (vpn a)) pteP = true → s'.page d (vpn a) = s.page d (vpn a)) := by
  have hnot : (d,vpn a) ∉ {q : Frame × Index | q.1 = d ∧ ∃ b, lo ≤ b ∧ b < e ∧ b < oldsz ∧
      q.2 = vpn b} := by
    rintro ⟨-,b,h1,-,h2,h3⟩
    have hk : kernBase < 2^32 := by decide
    have hq := (vpn_inj ha.lt (by omega)).mp h3
    obtain ⟨⟨q,rfl⟩,-⟩ := ha
    obtain ⟨r,rfl⟩ := hlo
    simp only [pgSize] at h1 hq hout
    omega
  exact ⟨h.same.entry d hd _ hnot,fun hp => h.same.page hd hnot ha.own hp⟩

theorem Space.release (h : Space c S d Z μ α s) (hr : Released c S d lo oldsz s e s')
    (he : oldsz ≤ e) (hlo : pgSize ∣ lo) (hsz : oldsz ≤ kernBase) :
    Space c S d {a ∈ Z | a < lo ∨ oldsz ≤ a} μ α s' := by
  refine ⟨h.dir,hr.wf,fun a ha => h.user a ha.1,fun a ha => ?_,fun a ha => ?_,fun a ha => ?_,
    fun a hu ha => ?_⟩
  · rw [(hr.pte_kept h.dir hlo hsz (h.user a ha.1) ha.2).1]
    exact h.present a ha.1
  · rw [(hr.pte_kept h.dir hlo hsz (h.user a ha.1) ha.2).2 (h.present a ha.1)]
    exact h.bytes a ha.1
  · rw [(hr.pte_kept h.dir hlo hsz (h.user a ha.1) ha.2).1]
    exact h.access a ha.1
  · by_cases hout : a < lo ∨ oldsz ≤ a
    · rw [(hr.pte_kept h.dir hlo hsz hu hout).1]
      exact h.absent a hu fun haZ => ha ⟨haZ,hout⟩
    · rw [hr.gone a (by omega) (by omega) (by omega)]
      exact has_erased _ _

end Release

section AllocPage
variable {c : Config} {S : Set Frame} {d : Frame} {Z : Set ℕ} {μ : ℕ → Page} {α : ℕ → Bool → Bool}
  {s : Kernel} {newsz a : ℕ}

theorem accessAllowed_userPerm (f : Frame) (st : Bool) :
    accessAllowed (frameAddr f ||| userPerm ||| pteP) st = true := by
  simp only [accessAllowed,has_pteP,has_pteU,has_pteW,BitVec.getLsbD_or]
  simp [userPerm,pteP,pteW,pteU]

/-- The state `r` in which `allocPage` has cleared the frame that `kalloc` gave it, if there was one. -/
structure Drawn (c : Config) (S : Set Frame) (s : Kernel) (o : Option Frame) (r : Kernel) : Prop where
  wf : Wf c S r
  same : Same S ∅ s r
  tables : ∀ d ∈ S, ∀ k, r.table d k = s.table d k
  fresh : ∀ f ∈ o, FreshFrame c S r f ∧ r.mem f = fun _ => 0
  origin : o = none ∧ r = s ∨ ∃ f l, o = some f ∧ s.freelist = f :: l ∧ r = s.take.store f fun _ => 0

def putBack (c : Config) : Option Frame → Kernel → Except Fault Kernel
  | none, s => .ok s
  | some f, s => kfree c f s

def Kernel.giveBack (s : Kernel) : Option Frame → Kernel
  | none => s
  | some f => s.free f

section Drawn
variable {o : Option Frame} {r s₁ : Kernel} {f t : Frame}

theorem Drawn.empty (h : Wf c S s) : Drawn c S s none s :=
  ⟨h,Keeps.refl _,fun _ _ _ => rfl,fun _ hf => (Option.not_mem_none _ hf).elim,Or.inl ⟨rfl,rfl⟩⟩

theorem Drawn.cleared {l : List Frame} (h : Wf c S s) (hl : s.freelist = f :: l) :
    Drawn c S s (some f) (s.take.store f fun _ => 0) := by
  obtain ⟨hw,hf⟩ := h.take hl
  obtain ⟨hw',hf',hs'⟩ := hf.store (A := ∅) hw fun _ => 0
  refine ⟨hw',hs',fun d hd k => store_table hf.notTree hd _,fun g hg => ?_,Or.inr ⟨f,l,rfl,hl,rfl⟩⟩
  obtain rfl := Option.mem_some_iff.mp hg
  exact ⟨hf',update_self _ _ _⟩

theorem Drawn.rest (h : Drawn c S s o r) : r.proc = s.proc ∧ r.buff = s.buff ∧ r.kallocZero = s.kallocZero := by
  obtain ⟨-,rfl⟩ | ⟨f,l,-,-,rfl⟩ := h.origin <;> exact ⟨rfl,rfl,rfl⟩

theorem giveBack_rest (s : Kernel) (o : Option Frame) : (s.giveBack o).proc = s.proc ∧
    (s.giveBack o).buff = s.buff ∧ (s.giveBack o).kallocZero = s.kallocZero := by
  cases o <;> exact ⟨rfl,rfl,rfl⟩

theorem putBack_eq (hf : ∀ f ∈ o, FreshFrame c S s f) : putBack c o s = .ok (s.giveBack o) := by
  cases o with
  | none => rfl
  | some f => exact kfree_eq (hf f rfl).valid

theorem putBack_bind (n : ℕ) (hf : ∀ f ∈ o, FreshFrame c S s f) :
    ((.ok (n,s) : Except Fault (ℕ × Kernel)) >>= fun x => putBack c o x.2 >>= fun s' => .ok ((0 : ℤ),s')) =
      .ok (0,s.giveBack o) := by
  change putBack c o s >>= _ = _
  rw [putBack_eq hf]
  rfl

theorem Wf.giveBack (h : Wf c S s) (hf : ∀ f ∈ o, FreshFrame c S s f) :
    Wf c S (s.giveBack o) ∧ Same S ∅ s (s.giveBack o) ∧ ∀ d ∈ S, ∀ k, (s.giveBack o).table d k = s.table d k := by
  cases o with
  | none => exact ⟨h,Keeps.refl _,fun _ _ _ => rfl⟩
  | some f =>
    obtain ⟨hw,hs⟩ := (hf f rfl).free (A := ∅) h
    exact ⟨hw,hs,fun d hd k => store_table (hf f rfl).notTree hd _⟩

theorem allocPage_cases (oldsz newsz : ℕ) (h : Wf c S s) (hd : d ∈ S) (hu : UserPage a) :
    (∃ o r, Drawn c S s o r ∧ s.freelist = o.toList ∧ allocPage c d oldsz newsz a s =
      deallocuvm c d newsz oldsz r.starve >>= fun x => putBack c o x.2 >>= fun s' => .ok (0,s')) ∨
    ∃ f r t s₁, Drawn c S s (some f) r ∧ Opened c S d (vpn a) t r s₁ ∧ allocPage c d oldsz newsz a s =
      if has (s.pte d (vpn a)) pteP then .error (.panic "remap")
      else .ok (1,s₁.setPte d (vpn a) (frameAddr f ||| userPerm ||| pteP)) := by
  cases hl : s.freelist with
  | nil =>
    refine Or.inl ⟨none,s,.empty h,rfl,?_⟩
    rw [allocPage,kalloc_nil hl]
    rfl
  | cons f l =>
    have hr := Drawn.cleared h hl
    obtain ⟨-,hnil,hm⟩ | ⟨t,s₁,ho,hm⟩ := mappages_cases hu hr.wf hd (frameAddr f) userPerm
    · refine Or.inl ⟨some f,_,hr,?_,?_⟩
      · have htail : s.freelist.tail = [] := hnil
        rw [hl] at htail
        exact congrArg (f :: ·) htail
      · simp only [allocPage,kalloc_cons hl,hm]
        rfl
    · refine Or.inr ⟨f,_,t,s₁,hr,ho,?_⟩
      have hpte : (s.take.store f fun _ => 0).pte d (vpn a) = s.pte d (vpn a) :=
        hr.same.entry d hd _ (Set.notMem_empty _)
      rw [hpte] at hm
      simp only [allocPage,kalloc_cons hl,hm]
      split_ifs <;> rfl

theorem addr_mapped (f : Frame) : pteAddr (frameAddr f ||| userPerm ||| pteP) = f := by
  simp [show pteAddr userPerm = 0 by decide]

theorem Drawn.entries (hr : Drawn c S s (some f) r) (ho : Opened c S d (vpn a) t r s₁) (hd : d ∈ S) {s' : Kernel}
    (he : s' = s₁.setPte d (vpn a) (frameAddr f ||| userPerm ||| pteP)) :
    Wf c S s' ∧ s'.proc = s.proc ∧ s'.pte d (vpn a) = frameAddr f ||| userPerm ||| pteP ∧
      (∀ d' ∈ S, ∀ k, (d',k) ≠ (d,vpn a) → s'.pte d' k = s.pte d' k) ∧
      ∀ d' ∈ S, d' ≠ d → ∀ k, s'.table d' k = s.table d' k := by
  subst he
  have hf := (ho.fresh f (hr.fresh f rfl).1).1
  have hsame : Same S {(d,vpn a)} s (s₁.setPte d (vpn a) (frameAddr f ||| userPerm ||| pteP)) :=
    ((hr.same.trans ho.same).mono (Set.empty_subset _)).trans (ho.wf.same_setPte hd)
  refine ⟨(hf.map ho.wf hd ho.table (addr_mapped f)).1,ho.rest.1.trans hr.rest.1,ho.wf.setPte_same hd ho.table,
    fun d' hd' k hne => hsame.entry d' hd' k hne,fun d' hd' hne k => ?_⟩
  rw [ho.wf.setPte_table hd hd',ho.tables d' hd' k fun he => hne (Prod.mk.inj he).1,hr.tables d' hd' k]

theorem Drawn.map (hr : Drawn c S s (some f) r) (ho : Opened c S d (vpn a) t r s₁) (h : Space c S d Z μ α s)
    (hu : UserPage a) (hμ : μ a = fun _ => 0) :
    Space c S d (insert a Z) μ α (s₁.setPte d (vpn a) (frameAddr f ||| userPerm ||| pteP)) ∧
      Same S {(d,vpn a)} s (s₁.setPte d (vpn a) (frameAddr f ||| userPerm ||| pteP)) ∧
      s₁.proc = s.proc ∧ s₁.buff = s.buff ∧ s₁.kallocZero = s.kallocZero := by
  obtain ⟨hf,hzero⟩ := hr.fresh f rfl
  obtain ⟨hf₁,hmem⟩ := ho.fresh f hf
  obtain ⟨h1,h2,h3⟩ := ho.rest
  obtain ⟨h1',h2',h3'⟩ := hr.rest
  have hsame : Same S ∅ s s₁ := hr.same.trans ho.same
  refine ⟨(h.same ho.wf hsame).mapTo hu ho.table hf₁ (has_mapped f userPerm) (addr_mapped f) ?_
    fun st _ => accessAllowed_userPerm f st,
    (hsame.mono (Set.empty_subset _)).trans (ho.wf.same_setPte h.dir),h1.trans h1',h2.trans h2',h3.trans h3'⟩
  rw [hmem,hzero,hμ]

end Drawn

/-- One page of `allocuvm` or `oldallocuvm`. -/
theorem allocPage_spec (oldsz : ℕ) (h : Space c S d Z μ α s) (hu : UserPage a) (haZ : a ∉ Z)
    (hμ : μ a = fun _ => 0) (hsz : newsz ≤ kernBase) (hp : c.Forgets s.proc.pages) :
    (∃ s', allocPage c d oldsz newsz a s = .ok (0,s') ∧ s'.kallocZero = true) ∨
    ∃ s', allocPage c d oldsz newsz a s = .ok (1,s') ∧ Space c S d (insert a Z) μ α s' ∧
      Same S {(d,vpn a)} s s' ∧ OnlyPages s s' ∧ s'.proc.pages = s.proc.pages := by
  obtain ⟨o,r,hr,-,he⟩ | ⟨f,r,t,s₁,hr,ho,he⟩ := allocPage_cases oldsz newsz h.wf h.dir hu
  · obtain ⟨hproc,-⟩ := hr.rest
    obtain ⟨n,s',hrun,hzero,hfresh⟩ := deallocuvm_total (s := r.starve) oldsz hr.wf h.dir hsz (hproc ▸ hp)
    have hback : ∀ f ∈ o, FreshFrame c S s' f := fun f hf => hfresh f (hr.fresh f hf).1
    obtain ⟨-,-,hzero'⟩ := giveBack_rest s' o
    exact Or.inl ⟨s'.giveBack o,by rw [he,hrun,putBack_bind n hback],hzero'.trans hzero⟩
  · rw [h.absent a hu haZ,if_neg Bool.false_ne_true] at he
    obtain ⟨hsp,hsame,hproc,hbuff,hzero⟩ := hr.map ho h hu hμ
    exact Or.inr ⟨_,he,hsp,hsame,⟨hbuff,hzero,by rw [← hproc]; rfl⟩,congrArg Proc.pages hproc⟩

theorem allocPage_eq {f t : Frame} {l : List Frame} (oldsz newsz : ℕ) (h : Space c S d Z μ α s)
    (hu : UserPage a) (haZ : a ∉ Z) (hl : s.freelist = f :: l) (ht : s.table d (vpn a) = some t) :
    allocPage c d oldsz newsz a s = .ok (1,(s.take.store f fun _ => 0).setPte d (vpn a)
      (frameAddr f ||| userPerm ||| pteP)) := by
  obtain ⟨hw,hf⟩ := h.wf.take hl
  obtain ⟨hw',-,hs'⟩ := hf.store (A := ∅) hw fun _ => 0
  have h' := h.same hw' hs'
  have ht' : (s.take.store f fun _ => 0).table d (vpn a) = some t :=
    (store_table hf.notTree h.dir _).trans ht
  have hmap : mappages d a pgSize (frameAddr f) userPerm (s.take.store f fun _ => 0) =
      .ok (0,(s.take.store f fun _ => 0).setPte d (vpn a) (frameAddr f ||| userPerm ||| pteP)) := by
    rw [mappages_page hu]
    simp only [mappagesLoop,walkpgdir_of_table ht',readPte_eq ht',h'.absent a hu haZ,writePte_eq ht']
    rfl
  simp only [allocPage,kalloc_cons hl,hmap,bind,Except.bind]
  rfl

end AllocPage

def pagesBelow (sz : ℕ) : Set ℕ := {a | pgSize ∣ a ∧ a < sz}

section PagesBelow
variable {a sz : ℕ}

theorem pagesBelow_succ (ha : pgSize ∣ a) : pagesBelow (a+pgSize) = insert a (pagesBelow a) := by
  ext b
  constructor
  · rintro ⟨hb,hlt⟩
    obtain ⟨q,rfl⟩ := ha
    obtain ⟨r,rfl⟩ := hb
    by_cases h : pgSize*r = pgSize*q
    · exact Or.inl h
    · refine Or.inr ⟨Nat.dvd_mul_right _ _,?_⟩
      simp only [pgSize] at hlt h ⊢
      omega
  · rintro (rfl | hb)
    · exact ⟨ha,Nat.lt_add_of_pos_right (by decide)⟩
    · exact ⟨hb.1,Nat.lt_add_right _ hb.2⟩

theorem pgRoundUp_eq (h : sz ≤ kernBase) : pgRoundUp sz = (sz+pgSize-1)/pgSize*pgSize := by
  simp only [pgRoundUp,pgSize,kernBase] at h ⊢
  omega

theorem le_pgRoundUp (h : sz ≤ kernBase) : sz ≤ pgRoundUp sz ∧ pgRoundUp sz < sz+pgSize := by
  rw [pgRoundUp_eq h]
  simp only [pgSize]
  omega

theorem pagesBelow_roundUp (h : sz ≤ kernBase) : pagesBelow (pgRoundUp sz) = pagesBelow sz := by
  ext b
  obtain ⟨h1,h2⟩ := le_pgRoundUp h
  obtain ⟨q,hq⟩ := pgSize_dvd_pgRoundUp sz
  refine ⟨fun hb => ⟨hb.1,?_⟩,fun hb => ⟨hb.1,hb.2.trans_le h1⟩⟩
  obtain ⟨⟨r,rfl⟩,hlt⟩ := hb
  rw [hq] at h2 hlt
  simp only [pgSize] at h2 hlt ⊢
  omega

theorem pagesBelow_of_le (ha : pgSize ∣ a) (h1 : sz ≤ a) (h2 : a < sz+pgSize) :
    pagesBelow a = pagesBelow sz := by
  ext b
  refine ⟨fun hb => ⟨hb.1,?_⟩,fun hb => ⟨hb.1,hb.2.trans_le h1⟩⟩
  obtain ⟨⟨r,rfl⟩,hlt⟩ := hb
  obtain ⟨q,rfl⟩ := ha
  simp only [pgSize] at h2 hlt ⊢
  omega

end PagesBelow

section Loops
variable {c : Config} {S : Set Frame} {d : Frame} {μ : ℕ → Page} {α : ℕ → Bool → Bool}
  {s : Kernel} {newsz a : ℕ}

theorem notMem_pagesBelow : a ∉ pagesBelow a := fun h => lt_irrefl _ h.2

theorem oldallocuvmLoop_spec (oldsz fuel : ℕ) (hsz : newsz ≤ kernBase) (hμ : ∀ b, a ≤ b → μ b = fun _ => 0)
    (ha : pgSize ∣ a) (hb : a < newsz+pgSize) (hf : newsz ≤ a+fuel*pgSize)
    (h : Space c S d (pagesBelow a) μ α s) (hp : c.Forgets s.proc.pages) :
    ∃ r s', oldallocuvmLoop c d oldsz newsz (fuel+1) a s = .ok (r,s') ∧
      (r = 0 ∧ s'.kallocZero = true ∨ r = newsz ∧ Space c S d (pagesBelow newsz) μ α s' ∧ OnlyPages s s' ∧
        ∀ b, UserPage b → b < a → s'.pte d (vpn b) = s.pte d (vpn b)) := by
  induction fuel generalizing a s with
  | zero =>
    rw [oldallocuvmLoop,if_neg (by omega)]
    rw [pagesBelow_of_le ha (by omega) hb] at h
    exact ⟨newsz,s,rfl,Or.inr ⟨rfl,h,.refl s,fun _ _ _ => rfl⟩⟩
  | succ fuel ih =>
    rw [oldallocuvmLoop]
    by_cases hlt : a < newsz
    · rw [if_pos hlt]
      rcases allocPage_spec oldsz h ⟨ha,hlt.trans_le hsz⟩ notMem_pagesBelow
        (hμ a le_rfl) hsz hp with ⟨s',hs',hst⟩ | ⟨s₁,hs₁,hsp,hsame,honly,hpages⟩
      · exact ⟨0,s',by rw [hs']; rfl,Or.inl ⟨rfl,hst⟩⟩
      · rw [← pagesBelow_succ ha] at hsp
        obtain ⟨r,s',hs',hres⟩ := ih (fun b hb => hμ b (by omega)) (Nat.dvd_add ha (Nat.dvd_refl _))
          (by omega) (by simp only [pgSize] at hf ⊢; omega) hsp (hpages ▸ hp)
        refine ⟨r,s',?_,?_⟩
        · rw [hs₁]
          exact hs'
        · rcases hres with hzero | ⟨hr,hsp',honly',hkept⟩
          · exact Or.inl hzero
          · refine Or.inr ⟨hr,hsp',honly.trans honly',fun b hb hba => ?_⟩
            rw [hkept b hb (by omega),
              hsame.pte_of_ne h.dir ⟨ha,hlt.trans_le hsz⟩ hb (Nat.ne_of_lt hba)]
    · rw [if_neg hlt]
      rw [pagesBelow_of_le ha (by omega) hb] at h
      exact ⟨newsz,s,rfl,Or.inr ⟨rfl,h,.refl s,fun _ _ _ => rfl⟩⟩

end Loops

section Paged
variable {c : Config} {μ : ℕ → Page} {α : ℕ → Bool → Bool} {s s₁ : Kernel} {oldsz newsz a : ℕ}

theorem Consistent.mapped (h : Consistent c ∅ μ α s)
    (hsp : Space c {s.proc.pgdir} s.proc.pgdir (insert a (s.proc.pages.residents ∪ ∅)) μ α s₁)
    (hsame : Same {s.proc.pgdir} {(s.proc.pgdir,vpn a)} s s₁) (honly : OnlyPages s s₁)
    (hpages : s₁.proc.pages = s.proc.pages) (hu : UserPage a) (ha : a ∉ s.proc.pages.listed) :
    Consistent c {a} μ α s₁ := by
  have hproc : s₁.proc = s.proc := by rw [honly.proc,hpages]
  obtain ⟨ip,hip⟩ := Option.ne_none_iff_exists'.mp h.file
  refine ⟨?_,?_,fun i b hi => ?_,?_,?_,?_,?_⟩
  · rw [hproc,Set.union_singleton]
    rwa [Set.union_empty] at hsp
  · rw [hproc]
    exact h.file
  · rw [hproc] at hi ⊢
    have hne : b ≠ a := by
      rintro rfl
      exact ha (Or.inr ⟨i,hi⟩)
    rw [hip]
    exact h.swapped_of_same hsame hu hip le_rfl rfl hi hne
  · rw [hproc]
    exact h.once
  · rw [hproc]
    rintro b rfl
    exact ⟨fun hr => ha (Or.inl hr),fun hr => ha (Or.inr hr)⟩
  · rw [hproc]
    exact h.residentCount
  · rw [hproc]
    exact h.swappedCount

theorem Consistent.free_slot {Y : Set ℕ} (h : Consistent c Y μ α s) (ha : pgSize ∣ a)
    (hlt : a < maxTotalPages*pgSize) (hl : s.proc.pages.listed ⊆ pagesBelow a) :
    occupied s.proc.pages.va < 16 ∨ occupied s.proc.pages.diskVa < 16 := by
  by_contra hn
  push Not at hn
  have hv := ne_none_of_occupied hn.1
  have hd := ne_none_of_occupied hn.2
  have hpage : ∀ x : Slot ⊕ Slot, ∃ b, Sum.elim s.proc.pages.va s.proc.pages.diskVa x = some b := by
    rintro (i | i)
    · exact Option.ne_none_iff_exists'.mp (hv i)
    · exact Option.ne_none_iff_exists'.mp (hd i)
  choose g hg using hpage
  have hmem : ∀ x, g x ∈ pagesBelow a := by
    rintro (i | i)
    · exact hl (Or.inl ⟨i,hg (.inl i)⟩)
    · exact hl (Or.inr ⟨i,hg (.inr i)⟩)
  have hinj : ∀ x y, g x = g y → x = y := by
    rintro (i | i) (j | j) he
    · rw [h.once.va i j (g (.inl i)) (hg (.inl i)) (he ▸ hg (.inl j))]
    · refine (h.not_resident (hg (.inr j)) (Or.inl ⟨i,?_⟩)).elim
      rw [← he]
      exact hg (.inl i)
    · refine (h.not_resident (hg (.inr i)) (Or.inl ⟨j,?_⟩)).elim
      rw [he]
      exact hg (.inl j)
    · rw [h.once.diskVa i j (g (.inr i)) (hg (.inr i)) (he ▸ hg (.inr j))]
  have hbound : ∀ x, g x/pgSize < 31 := by
    intro x
    obtain ⟨-,hx⟩ := hmem x
    obtain ⟨q,rfl⟩ := ha
    simp only [pgSize,maxTotalPages] at hlt hx ⊢
    omega
  have hcard := Fintype.card_le_of_injective (fun x => (⟨g x/pgSize,hbound x⟩ : Fin 31)) fun x y he => by
    refine hinj x y ?_
    rw [← Nat.div_mul_cancel (hmem x).1,← Nat.div_mul_cancel (hmem y).1]
    simp only [Fin.mk.injEq] at he
    rw [he]
  simp at hcard

theorem OnlyPages.onlySwap (h : OnlyPages s s₁) : OnlySwap s s₁ := ⟨h.kallocZero,by rw [h.proc]⟩

/-- The loop of `allocuvm` in the builds that select a page by its age. -/
theorem allocuvmLoop_spec (oldsz : ℕ) (hb : c.build.Aging) (fuel : ℕ) (hsz : newsz ≤ maxTotalPages*pgSize)
    (hμ : ∀ b, a ≤ b → μ b = fun _ => 0) (ha : pgSize ∣ a) (hlt : a < newsz+pgSize)
    (hf : newsz ≤ a+fuel*pgSize) (h : Consistent c ∅ μ α s)
    (hl : s.proc.pages.listed = pagesBelow a) :
    ∃ r s', allocuvmLoop c s.proc.pgdir oldsz newsz (fuel+1) a s = .ok (r,s') ∧
      (s'.kallocZero = true ∨ r = newsz ∧ Consistent c ∅ μ α s' ∧
        s'.proc.pages.listed = pagesBelow newsz ∧ OnlySwap s s') := by
  have hk : maxTotalPages*pgSize ≤ kernBase := by decide
  induction fuel generalizing a s with
  | zero =>
    rw [allocuvmLoop,if_neg (by omega)]
    rw [pagesBelow_of_le ha (by omega) hlt] at hl
    exact ⟨newsz,s,rfl,Or.inr ⟨rfl,h,hl,.refl s⟩⟩
  | succ fuel ih =>
    rw [allocuvmLoop]
    by_cases hlt' : a < newsz
    · rw [if_pos hlt']
      have hu : UserPage a := ⟨ha,by omega⟩
      have hnl : a ∉ s.proc.pages.listed := hl ▸ notMem_pagesBelow
      have hnr : a ∉ s.proc.pages.residents ∪ ∅ := by
        rw [Set.union_empty]
        exact fun hr => hnl (Or.inl hr)
      rcases allocPage_spec oldsz h.space hu hnr (hμ a le_rfl) (hsz.trans hk) (Or.inr h.once) with
        ⟨s',hs',hst⟩ | ⟨s₁,hs₁,hsp,hsame,honly,hpages⟩
      · exact ⟨0,s',by rw [hs']; rfl,Or.inl hst⟩
      · have hm := h.mapped hsp hsame honly hpages hu hnl
        have hroom := hm.free_slot ha (by omega) (by rw [hpages,hl])
        obtain ⟨s₂,hs₂,hc₂,ho₂,hl₂,-⟩ := listPage_spec hb hm (Set.mem_singleton a) hroom
        rw [sdiff_self] at hc₂
        rw [hpages,hl,← pagesBelow_succ ha] at hl₂
        have honly₂ := honly.onlySwap.trans ho₂
        have hdir : s₂.proc.pgdir = s.proc.pgdir := by rw [honly₂.proc]
        obtain ⟨r,s',hs',hres⟩ := ih (s := s₂) (fun b hb => hμ b (by omega))
          (Nat.dvd_add ha (Nat.dvd_refl _)) (by omega) (by simp only [pgSize] at hf ⊢; omega) hc₂ hl₂
        refine ⟨r,s',?_,?_⟩
        · rw [hs₁]
          rw [hdir] at hs'
          simp only [bind,Except.bind,hs₂]
          exact hs'
        · rcases hres with hz | ⟨hr,hc',hl',ho'⟩
          · exact Or.inl hz
          · exact Or.inr ⟨hr,hc',hl',honly₂.trans ho'⟩
    · rw [if_neg hlt']
      rw [pagesBelow_of_le ha (by omega) hlt] at hl
      exact ⟨newsz,s,rfl,Or.inr ⟨rfl,h,hl,.refl s⟩⟩

/-- The arrays list what `p₀` lists below `lo` and from `b` on, and the counters have lost as many
pages as the arrays. -/
structure ForgottenUpTo (p₀ : ProcPages) (lo b : ℕ) (p : ProcPages) : Prop where
  va : ∀ i a, p.va i = some a ↔ p₀.va i = some a ∧ (a < lo ∨ b ≤ a)
  diskVa : ∀ i a, p.diskVa i = some a ↔ p₀.diskVa i = some a ∧ (a < lo ∨ b ≤ a)
  residentCount : p.pagesInMemoryCounter-occupied p.va = p₀.pagesInMemoryCounter-occupied p₀.va
  swappedCount : p.pagesInSwapfileCounter-occupied p.diskVa = p₀.pagesInSwapfileCounter-occupied p₀.diskVa

theorem forgotten_update {v₀ v : Slot → Option ℕ} {lo b : ℕ} {i : Slot}
    (h : ∀ i a, v i = some a ↔ v₀ i = some a ∧ (a < lo ∨ b ≤ a)) (hi : v₀ i = some b) (hlo : lo ≤ b)
    (hdvd : ∀ j a, v₀ j = some a → pgSize ∣ a) (honce : ∀ j, v₀ j = some b → j = i) (j : Slot) (a : ℕ) :
    update v i none j = some a ↔ v₀ j = some a ∧ (a < lo ∨ b+pgSize ≤ a) := by
  have hb := hdvd i b hi
  by_cases hji : j = i
  · subst hji
    rw [update_self,hi]
    refine ⟨by rintro ⟨⟩,?_⟩
    rintro ⟨⟨⟩,h1⟩
    simp only [pgSize] at h1
    omega
  · rw [update_of_ne hji,h j a]
    refine and_congr_right fun ha => ?_
    have hne : a ≠ b := by
      rintro rfl
      exact hji (honce j ha)
    obtain ⟨q,rfl⟩ := hdvd j a ha
    obtain ⟨r,rfl⟩ := hb
    simp only [pgSize] at hne ⊢
    omega

theorem forgotten_skip {v₀ v : Slot → Option ℕ} {lo b : ℕ}
    (h : ∀ i a, v i = some a ↔ v₀ i = some a ∧ (a < lo ∨ b ≤ a)) (hb : pgSize ∣ b)
    (hdvd : ∀ j a, v₀ j = some a → pgSize ∣ a) (hnot : ∀ j, v₀ j ≠ some b) (j : Slot) (a : ℕ) :
    v j = some a ↔ v₀ j = some a ∧ (a < lo ∨ b+pgSize ≤ a) := by
  rw [h j a]
  refine and_congr_right fun ha => ?_
  have hne : a ≠ b := by
    rintro rfl
    exact hnot j ha
  obtain ⟨q,rfl⟩ := hdvd j a ha
  obtain ⟨r,rfl⟩ := hb
  simp only [pgSize] at hne ⊢
  omega

/-- The arrays list no page twice, and each page where the page table has it. The NONE build has no
arrays. -/
structure ArraysAgree (c : Config) (s : Kernel) : Prop where
  once : ListedOnce s.proc.pages
  resident : ∀ i a, s.proc.pages.va i = some a → UserPage a ∧ has (s.pte s.proc.pgdir (vpn a)) pteP = true
  swapped : ∀ i a, s.proc.pages.diskVa i = some a → UserPage a ∧
    has (s.pte s.proc.pgdir (vpn a)) pteP = false ∧ has (s.pte s.proc.pgdir (vpn a)) ptePG = true
  unused : c.build = .none → s.proc.pages.va = (fun _ => none) ∧ s.proc.pages.diskVa = fun _ => none

theorem Consistent.agree {Y : Set ℕ} (hb : c.build ≠ .none) (h : Consistent c Y μ α s) : ArraysAgree c s where
  once := h.once
  resident i a hi := ⟨h.space.user a (Or.inl ⟨i,hi⟩),h.space.present a (Or.inl ⟨i,hi⟩)⟩
  swapped i a hi := ⟨(h.swapped i a hi).user,(h.swapped i a hi).absent,(h.swapped i a hi).flag⟩
  unused hn := (hb hn).elim

theorem ForgottenUpTo.step (h : ArraysAgree c s) {lo b : ℕ} {p : ProcPages} (hdvd : pgSize ∣ b) (hlo : lo ≤ b)
    (hm : ForgottenUpTo s.proc.pages lo b p) :
    ForgottenUpTo s.proc.pages lo (b+pgSize)
      (forgetPage c.build true b (s.pte s.proc.pgdir (vpn b)) p).1 ∧
    (forgetPage c.build true b (s.pte s.proc.pgdir (vpn b)) p).2 ≤ 1 := by
  have hv : ∀ j a, s.proc.pages.va j = some a → pgSize ∣ a := fun j a hj => (h.resident j a hj).1.1
  have hd : ∀ j a, s.proc.pages.diskVa j = some a → pgSize ∣ a := fun j a hj => (h.swapped j a hj).1.1
  by_cases hr : ∃ i, s.proc.pages.va i = some b
  · obtain ⟨i,hi⟩ := hr
    have hb : c.build ≠ .none := by
      intro hn
      rw [(h.unused hn).1] at hi
      cases hi
    have hP := (h.resident i b hi).2
    have hpi : p.va i = some b := (hm.va i b).mpr ⟨hi,Or.inr le_rfl⟩
    have huniq : ∀ j, p.va j = some b → j = i := fun j hj =>
      h.once.va j i b ((hm.va j b).mp hj).1 hi
    have hns : ∀ j, s.proc.pages.diskVa j ≠ some b := by
      intro j hj
      have hnP := (h.swapped j b hj).2.1
      rw [hP] at hnP
      cases hnP
    simp only [forgetPage,if_neg hb,hP,if_true,forgetResident_of_unique hpi huniq]
    refine ⟨⟨?_,?_,?_,?_⟩,le_rfl⟩
    · rw [freeSlot_va]
      exact forgotten_update hm.va hi hlo hv fun j hj => h.once.va j i b hj hi
    · rw [freeSlot_diskVa]
      exact forgotten_skip hm.diskVa hdvd hd hns
    · rw [freeSlot_va,freeSlot_counter,if_pos rfl,← hm.residentCount]
      have ho := occupied_update_none hpi
      omega
    · rw [freeSlot_diskVa,freeSlot_swapCounter]
      exact hm.swappedCount
  · push Not at hr
    by_cases hs : ∃ i, s.proc.pages.diskVa i = some b
    · obtain ⟨i,hi⟩ := hs
      have hb : c.build ≠ .none := by
        intro hn
        rw [(h.unused hn).2] at hi
        cases hi
      obtain ⟨-,habs,hflag⟩ := h.swapped i b hi
      have hpi : p.diskVa i = some b := (hm.diskVa i b).mpr ⟨hi,Or.inr le_rfl⟩
      have huniq : ∀ j, p.diskVa j = some b → j = i := fun j hj =>
        h.once.diskVa j i b ((hm.diskVa j b).mp hj).1 hi
      simp only [forgetPage,if_neg hb,habs,hflag,if_true,Bool.false_eq_true,if_false,
        forgetSwapped_of_unique hpi huniq]
      refine ⟨⟨forgotten_skip hm.va hdvd hv hr,
        forgotten_update hm.diskVa hi hlo hd fun j hj => h.once.diskVa j i b hj hi,
        hm.residentCount,?_⟩,le_rfl⟩
      have ho := occupied_update_none hpi
      have hc := hm.swappedCount
      simp only [freeDiskSlot,if_true]
      omega
    · push Not at hs
      have hskip : forgetPage c.build true b (s.pte s.proc.pgdir (vpn b)) p = (p,0) :=
        forgetPage_of_unlisted (fun _ i hi => hr i ((hm.va i b).mp hi).1)
          fun _ _ i hi => hs i ((hm.diskVa i b).mp hi).1
      rw [hskip]
      exact ⟨⟨forgotten_skip hm.va hdvd hv hr,forgotten_skip hm.diskVa hdvd hd hs,hm.residentCount,
        hm.swappedCount⟩,Nat.zero_le _⟩

theorem deallocuvm_forgotten (h : ArraysAgree c s) (hw : Wf c {s.proc.pgdir} s) (hsz : oldsz ≤ kernBase)
    (hlt : newsz < oldsz) :
    ∃ s' e, deallocuvm c s.proc.pgdir oldsz newsz s = .ok (newsz,s') ∧ oldsz ≤ e ∧
      Released c {s.proc.pgdir} s.proc.pgdir (pgRoundUp newsz) oldsz s e s' ∧
      ForgottenUpTo s.proc.pages (pgRoundUp newsz) e s'.proc.pages := by
  have hspec : Outcome (deallocuvm c s.proc.pgdir oldsz newsz s) (fun r => r.1 = newsz ∧ ∃ e, oldsz ≤ e ∧
      Released c {s.proc.pgdir} s.proc.pgdir (pgRoundUp newsz) oldsz s e r.2 ∧
      ForgottenUpTo s.proc.pages (pgRoundUp newsz) e r.2.proc.pages) fun _ => False := by
    refine deallocuvm_spec hw rfl hsz hlt (fun b p hdvd hlo _ _ hm => ?_) ?_
    · obtain ⟨h1,h2⟩ := hm.step h hdvd hlo
      simp only [decide_true]
      rw [checkFound,if_neg (not_lt.mpr h2)]
      exact .ok h1
    · exact ⟨fun i a => ⟨fun hi => ⟨hi,Nat.lt_or_ge _ _⟩,fun hi => hi.1⟩,
        fun i a => ⟨fun hi => ⟨hi,Nat.lt_or_ge _ _⟩,fun hi => hi.1⟩,rfl,rfl⟩
  obtain ⟨⟨r,s'⟩,hr,hrn,e,he,hrel,hf⟩ := Outcome.total_iff.mp hspec
  obtain rfl : r = newsz := hrn
  exact ⟨s',e,hr,he,hrel,hf⟩

theorem deallocuvm_paged (hb : c.build ≠ .none) (h : Consistent c ∅ μ α s)
    (hl : s.proc.pages.listed = pagesBelow oldsz) (hsz : oldsz ≤ kernBase) (hlt : newsz < oldsz) :
    ∃ s', deallocuvm c s.proc.pgdir oldsz newsz s = .ok (newsz,s') ∧ Consistent c ∅ μ α s' ∧
      s'.proc.pages.listed = pagesBelow newsz ∧ OnlyPages s s' := by
  have hnew : newsz ≤ kernBase := hlt.le.trans hsz
  obtain ⟨s',e,hr,he,hrel,hf⟩ := deallocuvm_forgotten (h.agree hb) h.space.wf hsz hlt
  have hproc := hrel.only.proc
  have hround := pagesBelow_roundUp hnew
  have hlisted : ∀ a, a ∈ s.proc.pages.listed → pgSize ∣ a ∧ a < oldsz := by
    intro a ha
    rwa [hl] at ha
  have hva : ∀ i a, s'.proc.pages.va i = some a ↔
      s.proc.pages.va i = some a ∧ a < pgRoundUp newsz := by
    intro i a
    rw [hf.va i a]
    refine and_congr_right fun hi => ?_
    have := (hlisted a (Or.inl ⟨i,hi⟩)).2
    omega
  have hdisk : ∀ i a, s'.proc.pages.diskVa i = some a ↔
      s.proc.pages.diskVa i = some a ∧ a < pgRoundUp newsz := by
    intro i a
    rw [hf.diskVa i a]
    refine and_congr_right fun hi => ?_
    have := (hlisted a (Or.inr ⟨i,hi⟩)).2
    omega
  have hres : s'.proc.pages.residents = {a ∈ s.proc.pages.residents | a < pgRoundUp newsz} := by
    ext a
    simp only [ProcPages.residents,Set.mem_ofPred_eq,hva,exists_and_right]
  have hdir : s'.proc.pgdir = s.proc.pgdir := by rw [hproc]
  have hswf : s'.proc.swapFile = s.proc.swapFile := by rw [hproc]
  refine ⟨s',hr,⟨?_,?_,fun i a hi => ?_,⟨fun i j a hi hj => ?_,fun i j a hi hj => ?_⟩,?_,
    ?_,?_⟩,?_,hrel.only⟩
  · have hsp := h.space.release hrel he (pgSize_dvd_pgRoundUp newsz) hsz
    have hZ : {a ∈ s.proc.pages.residents ∪ ∅ | a < pgRoundUp newsz ∨ oldsz ≤ a} =
        s'.proc.pages.residents ∪ ∅ := by
      rw [Set.union_empty,Set.union_empty,hres]
      ext a
      refine and_congr_right fun ha => ?_
      have := (hlisted a (Or.inl ha)).2
      omega
    rw [hZ] at hsp
    rw [hdir]
    exact hsp
  · rw [hswf]
    exact h.file
  · obtain ⟨hi',hlo⟩ := (hdisk i a).mp hi
    have hsw := h.swapped i a hi'
    rw [hdir,hswf,(hrel.pte_kept rfl (pgSize_dvd_pgRoundUp newsz) hsz hsw.user (Or.inl hlo)).1]
    exact hsw
  · exact h.once.va i j a ((hva i a).mp hi).1 ((hva j a).mp hj).1
  · exact h.once.diskVa i j a ((hdisk i a).mp hi).1 ((hdisk j a).mp hj).1
  · rintro a ⟨⟩
  · have h1 := hf.residentCount
    have h2 := h.residentCount
    omega
  · have h1 := hf.swappedCount
    have h2 := h.swappedCount
    omega
  · rw [← hround]
    ext a
    have hmem : a ∈ s'.proc.pages.listed ↔ a ∈ s.proc.pages.listed ∧ a < pgRoundUp newsz := by
      simp only [ProcPages.listed,ProcPages.residents,ProcPages.swapped,Set.mem_union,Set.mem_ofPred_eq,
        hva,hdisk,exists_and_right,or_and_right]
    have hle := (le_pgRoundUp hnew)
    rw [hmem,hl]
    constructor
    · rintro ⟨h1,h2⟩
      exact ⟨h1.1,h2⟩
    · rintro ⟨h1,h2⟩
      refine ⟨⟨h1,?_⟩,h2⟩
      have h3 : a ∈ pagesBelow newsz := by
        rw [← hround]
        exact ⟨h1,h2⟩
      exact h3.2.trans hlt

end Paged

end Xv6Paging
