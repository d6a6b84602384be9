import Xv6Paging.Kernel.Process
import Xv6Paging.Paging.Growth

/-! # The memory that a process sees

`UserMemory` is what an address space is for: a size, the bytes of the pages below it and
the accesses that user code may make. Its steps know nothing of frames, page tables and
swap files. In the builds that select pages by age, a paged process refines it: every step
that the memory allows has the same result in the kernel, whatever pages are swapped out.
-/
namespace Xv6Paging
open WordPage PageTree Function

structure UserMemory where
  sz : ℕ
  bytes : ℕ → Page
  allowed : ℕ → Bool → Bool

namespace UserMemory

def May (m : UserMemory) (va : ℕ) (st : Bool) : Prop :=
  pgRoundDown va ∈ pagesBelow m.sz ∧ m.allowed (pgRoundDown va) st = true

def put (m : UserMemory) (va : ℕ) (b : Byte) : UserMemory :=
  {m with
    bytes := update m.bytes (pgRoundDown va)
      (update (m.bytes (pgRoundDown va)) (pageOffset va) b)}

def resize (m : UserMemory) (n : ℤ) : UserMemory where
  sz := (m.sz+n).toNat
  bytes a := if a < pgRoundUp m.sz then m.bytes a else fun _ => 0
  allowed a st := if a < pgRoundUp m.sz then m.allowed a st else true

def Allows (m : UserMemory) : UserOp → Prop
  | .load va => m.May va false
  | .store va _ => m.May va true
  | .sbrk n => (0 < n → m.sz+n ≤ maxTotalPages*pgSize) ∧ (n < 0 → -(m.sz : ℤ) < n)
  | .tick => True

def step (m : UserMemory) : UserOp → Seen × UserMemory
  | .load va => (.byte (m.bytes (pgRoundDown va) (pageOffset va)),m)
  | .store va b => (.stored,m.put va b)
  | .sbrk n => (.result m.sz,m.resize n)
  | .tick => (.nothing,m)

end UserMemory

structure Paged (c : Config) (m : UserMemory) (s : Kernel) : Prop where
  consistent : Consistent c ∅ m.bytes m.allowed s
  listed : s.proc.pages.listed = pagesBelow m.sz
  sz : s.proc.sz = m.sz
  alive : s.proc.killed = false
  paged : s.proc.unpaged = false

section Updates
variable {c : Config} {Y : Set ℕ} {μ μ' : ℕ → Page} {α α' : ℕ → Bool → Bool} {s s' : Kernel} {a : ℕ}
  {p : ProcPages} {w : Word}

theorem Consistent.repaged (h : Consistent c Y μ α s) (hva : p.va = s.proc.pages.va)
    (hdisk : p.diskVa = s.proc.pages.diskVa)
    (hc : p.pagesInMemoryCounter = s.proc.pages.pagesInMemoryCounter)
    (hs : p.pagesInSwapfileCounter = s.proc.pages.pagesInSwapfileCounter) :
    Consistent c Y μ α (s.setPages p) ∧ p.listed = s.proc.pages.listed := by
  have hr : p.residents = s.proc.pages.residents := by simp only [ProcPages.residents,hva]
  have hsw : p.swapped = s.proc.pages.swapped := by simp only [ProcPages.swapped,hdisk]
  refine ⟨⟨?_,h.file,fun i b hi => ?_,⟨fun i j b hi hj => ?_,fun i j b hi hj => ?_⟩,?_,?_,?_⟩,
    by rw [ProcPages.listed,hr,hsw]; rfl⟩
  · have hsp := h.space
    rw [← hr] at hsp
    exact hsp.congr rfl rfl
  · exact h.swapped i b (hdisk ▸ hi)
  · exact h.once.va i j b (hva ▸ hi) (hva ▸ hj)
  · exact h.once.diskVa i j b (hdisk ▸ hi) (hdisk ▸ hj)
  · have ht := h.transit
    rw [← hr,← hsw] at ht
    exact ht
  · change p.pagesInMemoryCounter = (occupied p.va : ℤ)
    rw [hva,hc]
    exact h.residentCount
  · change p.pagesInSwapfileCounter = (occupied p.diskVa : ℤ)
    rw [hdisk,hs]
    exact h.swappedCount

theorem Consistent.change (h : Consistent c Y μ α s) (ha : a ∈ s.proc.pages.residents ∪ Y)
    (hsp : Space c {s.proc.pgdir} s.proc.pgdir (s.proc.pages.residents ∪ Y) μ' α s')
    (hs : Same {s.proc.pgdir} {(s.proc.pgdir,vpn a)} s s') (hp : s'.proc = s.proc)
    (hμ : ∀ b, b ≠ a → μ' b = μ b) : Consistent c Y μ' α s' := by
  obtain ⟨ip,hip⟩ := Option.ne_none_iff_exists'.mp h.file
  refine ⟨by rw [hp]; exact hsp,by rw [hp]; exact h.file,fun i b hi => ?_,by rw [hp]; exact h.once,
    by rw [hp]; exact h.transit,by rw [hp]; exact h.residentCount,by rw [hp]; exact h.swappedCount⟩
  rw [hp] at hi ⊢
  have hne : b ≠ a := by
    rintro rfl
    exact h.not_resident hi ha
  rw [hμ b hne,hip]
  exact h.swapped_of_same hs (h.space.user a ha) hip le_rfl rfl hi hne

theorem Consistent.mono (h : Consistent c Y μ α s)
    (hμ : ∀ a ∈ s.proc.pages.listed ∪ Y, μ' a = μ a)
    (hα : ∀ a ∈ s.proc.pages.residents ∪ Y, ∀ st, α' a st = true → α a st = true) :
    Consistent c Y μ' α' s := by
  have hsub : ∀ a ∈ s.proc.pages.residents ∪ Y, a ∈ s.proc.pages.listed ∪ Y := by
    rintro a (ha | ha)
    · exact Or.inl (Or.inl ha)
    · exact Or.inr ha
  refine ⟨h.space.mono (fun a ha => hμ a (hsub a ha)) hα,h.file,fun i a hi => ?_,h.once,h.transit,
    h.residentCount,h.swappedCount⟩
  rw [hμ a (Or.inl (Or.inr ⟨i,hi⟩))]
  exact h.swapped i a hi

theorem Consistent.cleared (h : Consistent c Y μ α s)
    (hc : Cleared c {s.proc.pgdir} s.proc.pgdir s s') (hp : s'.proc = s.proc) :
    Consistent c Y μ α s' := by
  refine ⟨by rw [hp]; exact h.space.cleared hc,by rw [hp]; exact h.file,fun i b hi => ?_,
    by rw [hp]; exact h.once,by rw [hp]; exact h.transit,by rw [hp]; exact h.residentCount,
    by rw [hp]; exact h.swappedCount⟩
  rw [hp] at hi ⊢
  obtain ⟨hu,h1,h2,h3,h4⟩ := h.swapped i b hi
  refine ⟨hu,?_,?_,?_,h4⟩
  · rw [has_pteP] at h1 ⊢
    rw [hc.bit rfl (by decide) (by decide)]
    exact h1
  · rw [has_ptePG] at h2 ⊢
    rw [hc.bit rfl (by decide) (by decide)]
    exact h2
  · rw [hc.pteAddr rfl]
    exact h3

end Updates

section Access
variable {c : Config} {m : UserMemory} {s s' : Kernel} {va : ℕ} {st : Bool}

theorem Paged.sz_le (h : Paged c m s) : m.sz ≤ kernBase := by
  by_contra hlt
  have hmem : kernBase ∈ s.proc.pages.listed := by
    rw [h.listed]
    exact ⟨by decide,by omega⟩
  rcases hmem with hr | ⟨i,hi⟩
  · exact absurd (h.consistent.space.user _ (Or.inl hr)).2 (lt_irrefl _)
  · exact absurd (h.consistent.swapped i _ hi).user.2 (lt_irrefl _)

def touched (w : Word) (st : Bool) : Word := w ||| (if st then pteA ||| pteD else pteA)

theorem link_touched (w : Word) (st : Bool) : x86.link (touched w st) = x86.link w := by
  have h0 : (touched w st).getLsbD 0 = w.getLsbD 0 := by cases st <;> simp [touched,pteA,pteD]
  have ha : pteAddr (touched w st) = pteAddr w := by cases st <;> simp [touched]
  simp only [x86,has_pteP,h0,ha]

theorem accessAllowed_touched (w : Word) (st st' : Bool) :
    accessAllowed (touched w st) st' = accessAllowed w st' := by
  have hb : ∀ i, i < 3 → (touched w st).getLsbD i = w.getLsbD i := by
    intro i hi
    have hA : ∀ i, i < 3 → pteA.getLsbD i = false := by decide
    have hD : ∀ i, i < 3 → pteD.getLsbD i = false := by decide
    cases st <;> simp [touched,hA i hi,hD i hi]
  simp only [accessAllowed,has_pteP,has_pteU,has_pteW,hb 0 (by decide),hb 1 (by decide),
    hb 2 (by decide)]

theorem userAccess_allowed {t : Frame} {fuel : ℕ} (ht : s.table s.proc.pgdir (vpn va) = some t)
    (hal : accessAllowed (s.pte s.proc.pgdir (vpn va)) st = true) :
    userAccess c va st (fuel+1) s = .ok (some (pteAddr (s.pte s.proc.pgdir (vpn va))),
      s.setPte s.proc.pgdir (vpn va) (touched (s.pte s.proc.pgdir (vpn va)) st)) := by
  rw [userAccess]
  simp only [walkpgdir_of_table ht,readPte_eq ht,hal,if_true,writePte_eq ht]
  rfl

theorem Space.access_present {Z : Set ℕ} {μ : ℕ → Page} {α : ℕ → Bool → Bool}
    (h : Space c {s.proc.pgdir} s.proc.pgdir Z μ α s) (ha : pgRoundDown va ∈ Z)
    (hal : α (pgRoundDown va) st = true) (fuel : ℕ) :
    ∃ s', userAccess c va st (fuel+1) s =
        .ok (some (pteAddr (s'.pte s'.proc.pgdir (vpn va))),s') ∧
      s'.proc = s.proc ∧ s'.kallocZero = s.kallocZero ∧
      Space c {s.proc.pgdir} s.proc.pgdir Z μ α s' ∧
      Same {s.proc.pgdir} {(s.proc.pgdir,vpn (pgRoundDown va))} s s' ∧
      s'.pte s.proc.pgdir (vpn va) = touched (s.pte s.proc.pgdir (vpn va)) st := by
  have hv := vpn_roundDown va
  have hacc := h.access _ ha st hal
  obtain ⟨t,ht⟩ := h.table ha
  have hlink := link_touched (s.pte s.proc.pgdir (vpn (pgRoundDown va))) st
  have hflags := h.flags ha hlink fun st' hst' => by
    rw [accessAllowed_touched]
    exact h.access _ ha st' hst'
  have hpte := h.wf.setPte_same rfl ht (w := touched (s.pte s.proc.pgdir (vpn (pgRoundDown va))) st)
  have haddr : pteAddr (touched (s.pte s.proc.pgdir (vpn (pgRoundDown va))) st) =
      pteAddr (s.pte s.proc.pgdir (vpn (pgRoundDown va))) := by
    have hp : x86.link (touched (s.pte s.proc.pgdir (vpn (pgRoundDown va))) st) =
        some (pteAddr (s.pte s.proc.pgdir (vpn (pgRoundDown va)))) :=
      hlink.trans (link_eq_some.mpr ⟨h.present _ ha,rfl⟩)
    exact (link_eq_some.mp hp).2
  have hsame := h.wf.same_setPte rfl (k := vpn (pgRoundDown va))
    (w := touched (s.pte s.proc.pgdir (vpn (pgRoundDown va))) st)
  rw [hv] at ht hacc hpte haddr hflags hsame
  refine ⟨s.setPte s.proc.pgdir (vpn va) (touched (s.pte s.proc.pgdir (vpn va)) st),?_,rfl,rfl,hflags,
    hv.symm ▸ hsame,hpte⟩
  rw [userAccess_allowed ht hacc]
  exact congrArg (fun f => Except.ok (some f,_)) (haddr.symm.trans (congrArg pteAddr hpte.symm))

theorem Space.frame_bytes {Z : Set ℕ} {μ : ℕ → Page} {α : ℕ → Bool → Bool} {d : Frame} {S : Set Frame}
    (h : Space c S d Z μ α s) (ha : pgRoundDown va ∈ Z) :
    s.mem (pteAddr (s.pte d (vpn va))) = μ (pgRoundDown va) := by
  have hb := h.bytes _ ha
  rw [Kernel.page,vpn_roundDown va] at hb
  exact hb

theorem Paged.next (h : Paged c m s) (hc : Consistent c ∅ m.bytes m.allowed s')
    (hl : s'.proc.pages.listed = s.proc.pages.listed) (ho : OnlySwap s s') : Paged c m s' := by
  have hproc := ho.proc
  refine ⟨hc,hl.trans h.listed,?_,?_,?_⟩
  · rw [hproc]
    exact h.sz
  · rw [hproc]
    exact h.alive
  · rw [hproc]
    exact h.paged

theorem Paged.open_swapped (h : Paged c m s) {a : ℕ} {j : Slot} (hj : s.proc.pages.diskVa j = some a) :
    Paged c {m with allowed := update m.allowed a fun _ => true} s := by
  refine ⟨h.consistent.mono (fun _ _ => rfl) fun b hb st hst => ?_,h.listed,h.sz,h.alive,h.paged⟩
  have hne : b ≠ a := fun he => h.consistent.not_resident hj (he ▸ hb)
  dsimp only at hst
  rwa [update_of_ne hne] at hst

structure Accessed (c : Config) (m : UserMemory) (va : ℕ) (s s' : Kernel) : Prop where
  paged : Paged c m s'
  resident : pgRoundDown va ∈ s'.proc.pages.residents
  kallocZero : s'.kallocZero = s.kallocZero

theorem Paged.access_resident (h : Paged c m s) (hm : m.May va st)
    (hr : pgRoundDown va ∈ s.proc.pages.residents) (fuel : ℕ) :
    ∃ s', userAccess c va st (fuel+1) s =
      .ok (some (pteAddr (s'.pte s'.proc.pgdir (vpn va))),s') ∧ Accessed c m va s s' := by
  have hZ : pgRoundDown va ∈ s.proc.pages.residents ∪ ∅ := Or.inl hr
  obtain ⟨s',hs',hproc,hk,hsp,hsame,-⟩ := h.consistent.space.access_present hZ hm.2 fuel
  have hc := h.consistent.change hZ hsp hsame hproc fun _ _ => rfl
  refine ⟨s',hs',h.next hc (by rw [hproc]) ⟨hk,by rw [hproc]⟩,?_,hk⟩
  rw [hproc]
  exact hr

theorem Paged.access (hb : c.build.Aging) (h : Paged c m s) (hm : m.May va st) :
    Outcome (userAccess c va st 2 s) (fun r => ∃ s', r =
      (some (pteAddr (s'.pte s'.proc.pgdir (vpn va))),s') ∧ Accessed c m va s s')
      fun e => e = .kallocNull ∧ s.freelist = [] := by
  have hmem : pgRoundDown va ∈ s.proc.pages.listed := by
    rw [h.listed]
    exact hm.1
  rcases hmem with hr | hsw
  · obtain ⟨s',hs',hacc⟩ := h.access_resident hm hr 1
    rw [hs']
    exact .ok ⟨s',rfl,hacc⟩
  · obtain ⟨j,hj⟩ := hsw
    have hout := h.consistent.swapped j _ hj
    have hv := vpn_roundDown va
    have habs := hout.absent
    have hflag := hout.flag
    rw [hv] at habs hflag
    obtain ⟨t,ht⟩ := table_of_has hflag
    have hden : accessAllowed (s.pte s.proc.pgdir (vpn va)) st = false := by
      simp only [accessAllowed,habs,Bool.false_and]
    have hbn : c.build ≠ .none := by rcases hb with h1 | h1 <;> rw [h1] <;> decide
    rw [userAccess]
    simp only [walkpgdir_of_table ht,readPte_eq ht,hden,Bool.false_eq_true,if_false,trapPgflt,
      if_neg hbn,pageIsInFile_eq ht,hflag,habs,Bool.not_false,Bool.and_self,bind,Except.bind,if_true]
    cases hl : s.freelist with
    | nil =>
      simp only [getPageFromFile,kalloc_nil hl]
      exact .error ⟨rfl,trivial⟩
    | cons f l =>
      obtain ⟨s₁,hs₁,hc₁,ho₁,hr₁,hl₁⟩ := getPageFromFile_spec hb h.consistent ⟨j,hj⟩ hl
      obtain ⟨hc₂,hl₂⟩ := hc₁.repaged (p := {s₁.proc.pages with
        faultCounter := s₁.proc.pages.faultCounter+1}) rfl rfl rfl rfl
      have hp₂ := h.next hc₂ (hl₂.trans hl₁) (ho₁.trans ⟨rfl,rfl⟩)
      obtain ⟨s',hs',hacc⟩ := hp₂.access_resident hm hr₁ 0
      simp only [hs₁,pure,Except.pure,hp₂.alive,Bool.false_eq_true,if_false,hs']
      exact .ok ⟨s',rfl,hacc.paged,hacc.resident,hacc.kallocZero.trans ho₁.kallocZero⟩

end Access

section Steps
variable {c : Config} {m : UserMemory} {s s' : Kernel} {va : ℕ} {b : Byte} {n : ℤ}

/-- The specification of a step: unless `kalloc` fails, it is the step of the memory. -/
def Refines (c : Config) (R : UserMemory → Kernel → Prop) (m : UserMemory) (op : UserOp) (s : Kernel) :
    Prop :=
  Outcome (userStep c op s)
    (fun r => r.2.kallocZero = false → r.1 = (m.step op).1 ∧ R (m.step op).2 r.2)
    fun e => e = .kallocNull ∧ s.freelist = []

theorem Paged.userLoad (hb : c.build.Aging) (h : Paged c m s) (hm : m.May va false) :
    Outcome (userLoad c va s) (fun r => r.1 = some (m.bytes (pgRoundDown va) (pageOffset va)) ∧
      Paged c m r.2 ∧ r.2.kallocZero = s.kallocZero) fun e => e = .kallocNull ∧ s.freelist = [] := by
  refine (h.access hb hm).bind ?_
  rintro _ ⟨s',rfl,ha⟩
  refine .ok ⟨?_,ha.paged,ha.kallocZero⟩
  dsimp only
  rw [ha.paged.consistent.space.frame_bytes (Or.inl ha.resident)]

theorem Paged.load (hb : c.build.Aging) (h : Paged c m s) (hm : m.May va false) :
    Refines c (Paged c) m (.load va) s := by
  refine (h.userLoad hb hm).bind ?_
  rintro ⟨r,s'⟩ ⟨hr,hp,-⟩
  dsimp only at hr hp
  subst hr
  exact .ok fun _ => ⟨rfl,hp⟩

theorem Paged.store (hb : c.build.Aging) (h : Paged c m s) (hm : m.May va true) :
    Refines c (Paged c) m (.store va b) s := by
  have hacc : Outcome (userStore c va b s) (fun r => r.1 = true ∧ Paged c (m.put va b) r.2)
      fun e => e = .kallocNull ∧ s.freelist = [] := by
    refine (h.access hb hm).bind ?_
    rintro _ ⟨s',rfl,ha⟩
    have hZ : pgRoundDown va ∈ s'.proc.pages.residents ∪ ∅ := Or.inl ha.resident
    have hbytes := ha.paged.consistent.space.frame_bytes hZ
    have hv := vpn_roundDown va
    obtain ⟨hsp,hsame,-⟩ := ha.paged.consistent.space.store hZ
      (update (m.bytes (pgRoundDown va)) (pageOffset va) b)
    have hc := ha.paged.consistent.change hZ hsp hsame rfl fun e he => update_of_ne he _ _
    rw [hv] at hc
    refine .ok ⟨rfl,?_⟩
    dsimp only
    rw [hbytes]
    exact ⟨hc,ha.paged.listed,ha.paged.sz,ha.paged.alive,ha.paged.paged⟩
  refine Outcome.bind hacc ?_
  rintro ⟨r,s'⟩ ⟨hr,hp⟩
  dsimp only at hr hp
  subst hr
  exact .ok fun _ => ⟨rfl,hp⟩

theorem Paged.aging_pass (h : Paged c m s) :
    Outcome (agePass updateAccessBitProc s.proc.pages s) (fun r =>
      Cleared c {s.proc.pgdir} s.proc.pgdir s r.2 ∧ r.2.proc = s.proc ∧
      r.1 = {s.proc.pages with age := r.1.age}) fun _ => False := by
  have hsp := h.consistent.space
  refine Outcome.foldlM (I := fun r : ProcPages × Kernel =>
    Cleared c {s.proc.pgdir} s.proc.pgdir s r.2 ∧ r.2.proc = s.proc ∧
      r.1 = {s.proc.pages with age := r.1.age}) (fun i _ r hr => ?_) ⟨.refl hsp.wf,rfl,rfl⟩
  obtain ⟨p,t⟩ := r
  obtain ⟨hcl,hproc,hp⟩ := hr
  dsimp only at hcl hproc hp ⊢
  cases hva : p.va i with
  | none => exact .ok ⟨hcl,hproc,hp⟩
  | some a =>
    have hva' : s.proc.pages.va i = some a := by
      rw [hp] at hva
      exact hva
    have hP : has (t.pte s.proc.pgdir (vpn a)) pteP = true := by
      rw [has_pteP,hcl.bit rfl (by decide) (by decide),← has_pteP]
      exact hsp.present a (Or.inl ⟨i,hva'⟩)
    obtain ⟨tb,htb⟩ := table_of_has hP
    have hne : t.pte s.proc.pgdir (vpn a) ≠ 0 := by
      intro h0
      rw [h0] at hP
      cases hP
    have hacc : updateAccessBitProc a t = .ok (has (t.pte s.proc.pgdir (vpn a)) pteA,
        t.setPte s.proc.pgdir (vpn a) (t.pte s.proc.pgdir (vpn a) &&& ~~~pteA)) := by
      simp only [updateAccessBitProc,hproc,walkpgdir_of_table htb,readPte_eq htb,writePte_eq htb,
        if_neg hne]
    simp only [hacc]
    refine .ok ⟨hcl.trans (hcl.wf.clear rfl htb),hproc,?_⟩
    rw [hp]

theorem Paged.tick (hb : c.build.Aging) (h : Paged c m s) : Refines c (Paged c) m .tick s := by
  have hpass : Outcome (schedulerPass c s) (fun s' => Paged c m s') fun e => e = .kallocNull ∧ s.freelist = [] := by
    have hage : Outcome (agePass updateAccessBitProc s.proc.pages s >>= fun r =>
        pure (r.2.setPages r.1)) (fun s' => Paged c m s') fun e => e = .kallocNull ∧ s.freelist = [] := by
      refine (h.aging_pass.mono (fun _ hr => hr) fun _ hf => hf.elim).bind ?_
      rintro ⟨p,t⟩ ⟨hcl,hproc,hp⟩
      dsimp only at hcl hproc hp ⊢
      have hc := h.consistent.cleared hcl hproc
      obtain ⟨hc',hl'⟩ := hc.repaged (p := p) (by rw [hp,hproc]) (by rw [hp,hproc]) (by rw [hp,hproc])
        (by rw [hp,hproc])
      rw [hproc] at hl'
      refine .ok (h.next hc' hl' ⟨hcl.only.kallocZero,?_⟩)
      rw [← hproc]
      rfl
    unfold schedulerPass
    rw [h.paged]
    rcases hb with hb | hb
    · simp only [hb]
      exact hage
    · simp only [hb]
      exact hage
  exact hpass.bind fun s' hs' => .ok fun _ => ⟨rfl,hs'⟩

theorem UserMemory.resize_agree (hsz : m.sz ≤ kernBase) (n : ℤ) {a : ℕ} (ha : a ∈ pagesBelow m.sz) :
    (m.resize n).bytes a = m.bytes a ∧ ∀ st, (m.resize n).allowed a st = m.allowed a st := by
  have hlt : a < pgRoundUp m.sz := ha.2.trans_le (le_pgRoundUp hsz).1
  simp only [UserMemory.resize,if_pos hlt,implies_true,and_self]

theorem Paged.resize_consistent (h : Paged c m s) (n : ℤ) :
    Consistent c ∅ (m.resize n).bytes (m.resize n).allowed s := by
  have hag : ∀ a ∈ s.proc.pages.listed ∪ ∅, (m.resize n).bytes a = m.bytes a ∧
      ∀ st, (m.resize n).allowed a st = m.allowed a st := by
    intro a ha
    rw [Set.union_empty,h.listed] at ha
    exact UserMemory.resize_agree h.sz_le n ha
  refine h.consistent.mono (fun a ha => (hag a ha).1) fun a ha st hst => ?_
  rw [Set.union_empty] at ha
  rw [← (hag a (Or.inl (Or.inl ha))).2 st]
  exact hst

theorem UserMemory.resize_sz (m : UserMemory) (n : ℤ) (h0 : 0 ≤ (m.sz : ℤ)+n) (h1 : (m.sz : ℤ)+n < 2^32) :
    (m.sz : ℤ)+n = (m.resize n).sz ∧ (((m.resize n).sz : ℤ)%2^32).toNat = (m.resize n).sz := by
  have hz : (m.sz : ℤ)+n = (m.resize n).sz := (Int.toNat_of_nonneg h0).symm
  rw [hz] at h1
  exact ⟨hz,by rw [Int.emod_eq_of_lt (Int.natCast_nonneg _) h1,Int.toNat_natCast]⟩

def Kernel.setSz (s : Kernel) (sz : ℕ) : Kernel := {s with proc := {s.proc with sz := sz}}

theorem growproc_of_alloc {z r : ℕ} (hn : 0 < n) (hz : (((s.proc.sz : ℤ)+n)%2^32).toNat = z)
    (halloc : allocuvm c s.proc.pgdir s.proc.sz z s = .ok (r,s')) (hr : r ≠ 0) :
    growproc c n s = .ok (0,s'.setSz r) := by
  simp only [growproc,if_pos hn,hz,halloc,bind,Except.bind,if_neg hr]
  rfl

theorem Paged.resized (h : Paged c m s) (ho : OnlySwap s s')
    (hc : Consistent c ∅ (m.resize n).bytes (m.resize n).allowed s')
    (hl : s'.proc.pages.listed = pagesBelow (m.resize n).sz) :
    Paged c (m.resize n) (s'.setSz (m.resize n).sz) := by
  have hproc := ho.proc
  refine ⟨⟨hc.space.congr rfl rfl,hc.file,hc.swapped,hc.once,hc.transit,hc.residentCount,
    hc.swappedCount⟩,hl,rfl,?_,?_⟩
  · change s'.proc.killed = false
    rw [hproc]
    exact h.alive
  · change s'.proc.unpaged = false
    rw [hproc]
    exact h.paged

theorem Paged.growproc_pos (hb : c.build.Aging) (h : Paged c m s) (hn : 0 < n)
    (hmax : m.sz+n ≤ maxTotalPages*pgSize) :
    Outcome (growproc c n s) (fun r => r.2.kallocZero = false → r.1 = 0 ∧ Paged c (m.resize n) r.2)
      fun _ => False := by
  have hbn : ¬ (c.build = .none ∨ s.proc.unpaged = true) := by
    rw [h.paged]
    rcases hb with h1 | h1 <;> rw [h1] <;> simp
  have hsz := h.sz_le
  have hmax' : (maxTotalPages*pgSize : ℤ) = 131072 := by decide
  have hk : kernBase = 2147483648 := rfl
  obtain ⟨hz,hnew⟩ := m.resize_sz n (by omega) (by omega)
  have hz32 : (m.resize n).sz ≤ maxTotalPages*pgSize := by
    simp only [maxTotalPages,pgSize]
    omega
  have hzk : (m.resize n).sz ≤ kernBase := by omega
  obtain ⟨h1,h2⟩ := le_pgRoundUp hsz
  have hf : (m.resize n).sz ≤ pgRoundUp m.sz+((m.resize n).sz/pgSize+1)*pgSize := by
    simp only [pgSize]
    omega
  have hl : s.proc.pages.listed = pagesBelow (pgRoundUp m.sz) := by
    rw [h.listed,pagesBelow_roundUp hsz]
  obtain ⟨r,s',hr,hres⟩ := allocuvmLoop_spec m.sz hb ((m.resize n).sz/pgSize+1) hz32
    (fun b hb => by simp only [UserMemory.resize,if_neg (not_lt.mpr hb)])
    (pgSize_dvd_pgRoundUp m.sz) (by omega) hf (h.resize_consistent n) hl
  have halloc : allocuvm c s.proc.pgdir m.sz (m.resize n).sz s = .ok (r,s') := by
    have h32 : ¬ maxTotalPages < pgRoundUp (m.resize n).sz/pgSize := by
      rw [pgRoundUp_eq hzk,Nat.mul_div_cancel _ (by decide)]
      simp only [maxTotalPages,pgSize] at hz32 ⊢
      omega
    rw [allocuvm,if_neg hbn,if_neg (by omega),if_neg (by omega),if_neg h32]
    exact hr
  simp only [growproc,if_pos hn,h.sz,hz,hnew,halloc,bind,Except.bind]
  rcases hres with hzero | ⟨rfl,hc,hlist,ho⟩
  · split <;> exact .ok fun hf => by simp_all
  · rw [if_neg (by omega)]
    exact .ok fun _ => ⟨rfl,h.resized ho hc hlist⟩

theorem Paged.growproc_neg (hb : c.build.Aging) (h : Paged c m s) (hn : n < 0)
    (hmin : -(m.sz : ℤ) < n) :
    Outcome (growproc c n s) (fun r => r.1 = 0 ∧ Paged c (m.resize n) r.2) fun _ => False := by
  have hbn : c.build ≠ .none := by rcases hb with h1 | h1 <;> rw [h1] <;> decide
  have hsz := h.sz_le
  have hk : kernBase = 2147483648 := rfl
  obtain ⟨hz,hnew⟩ := m.resize_sz n (by omega) (by omega)
  obtain ⟨s',hs',hc,hl,ho⟩ := deallocuvm_paged hbn (h.resize_consistent n) h.listed hsz
    (show (m.resize n).sz < m.sz by omega)
  simp only [growproc,if_neg (not_lt.mpr hn.le),if_pos hn,h.sz,hz,hnew,hs',bind,Except.bind]
  rw [if_neg (by omega)]
  exact .ok ⟨rfl,h.resized ho.onlySwap hc hl⟩

theorem refines_sbrk {R : UserMemory → Kernel → Prop} (hsz : s.proc.sz = m.sz)
    (hgrow : Outcome (growproc c n s)
      (fun r => r.2.kallocZero = false → r.1 = 0 ∧ R (m.resize n) r.2) fun _ => False) :
    Refines c R m (.sbrk n) s := by
  have hsbrk : Outcome (sysSbrk c n s)
      (fun r => r.2.kallocZero = false → r.1 = m.sz ∧ R (m.resize n) r.2)
      fun e => e = .kallocNull ∧ s.freelist = [] := by
    refine (hgrow.mono (fun _ hr => hr) fun _ hf => hf.elim).bind ?_
    rintro ⟨r,s'⟩ hr
    dsimp only at hr ⊢
    split
    · rename_i hlt
      refine .ok fun hz => ?_
      obtain ⟨rfl,-⟩ := hr hz
      exact absurd hlt (lt_irrefl _)
    · rw [hsz]
      exact .ok fun hz => ⟨rfl,(hr hz).2⟩
  refine hsbrk.bind ?_
  rintro ⟨r,s'⟩ hr
  refine .ok fun hz => ?_
  obtain ⟨h1,h2⟩ := hr hz
  dsimp only at h1 h2
  subst h1
  exact ⟨rfl,h2⟩

theorem Paged.sbrk (hb : c.build.Aging) (h : Paged c m s)
    (hn : (0 < n → m.sz+n ≤ maxTotalPages*pgSize) ∧ (n < 0 → -(m.sz : ℤ) < n)) :
    Refines c (Paged c) m (.sbrk n) s := by
  refine refines_sbrk h.sz ?_
  rcases lt_trichotomy n 0 with hneg | rfl | hpos
  · exact (h.growproc_neg hb hneg (hn.2 hneg)).post fun _ hr _ => hr
  · have hc := h.resize_consistent 0
    have hs : (m.resize 0).sz = m.sz := by simp [UserMemory.resize]
    refine .ok fun _ => ⟨rfl,hc,?_,?_,h.alive,h.paged⟩
    · rw [hs]
      exact h.listed
    · rw [hs]
      exact h.sz
  · exact h.growproc_pos hb hpos (hn.1 hpos)

/-- A paged process refines the memory it has. -/
theorem Paged.step (hb : c.build.Aging) (h : Paged c m s) {op : UserOp} (hop : m.Allows op) :
    Refines c (Paged c) m op s := by
  cases op with
  | load va => exact h.load hb hop
  | store va b => exact h.store hb hop
  | sbrk n => exact h.sbrk hb hop
  | tick => exact h.tick hb

end Steps

def Kernel.addPage (s : Kernel) (d : Frame) (a : ℕ) (perm : Word) : Kernel :=
  s.take.setPte d (vpn a) (frameAddr (s.freelist.headD 0) ||| perm ||| pteP)

def Kernel.image (perm : ℕ → Word) (d t : Frame) (free : List Frame) : ℕ → Kernel
  | 0 => (Kernel.blank d (t :: free) (ProcPages.init .none)).grow d (vpn 0) t
  | n+1 => (image perm d t free n).addPage d (n*pgSize) (perm n)

def permAccess (perm : ℕ → Word) (a : ℕ) (st : Bool) : Bool :=
  accessAllowed (perm (a/pgSize) ||| pteP) st

section Image
variable {c : Config} {perm : ℕ → Word} {d t : Frame} {free : List Frame}

theorem accessAllowed_frameAddr (f : Frame) (w : Word) (st : Bool) :
    accessAllowed (frameAddr f ||| w ||| pteP) st = accessAllowed (w ||| pteP) st := by
  simp only [accessAllowed,has_pteP,has_pteU,has_pteW,BitVec.getLsbD_or,
    frameAddr_getLsbD f (show 0 < 12 by decide),frameAddr_getLsbD f (show 1 < 12 by decide),
    frameAddr_getLsbD f (show 2 < 12 by decide),Bool.false_or]

structure Built (c : Config) (perm : ℕ → Word) (d t : Frame) (free : List Frame) (n : ℕ) (s : Kernel) :
    Prop where
  space : Space c {d} d (pagesBelow (n*pgSize)) (fun _ _ => 0) (permAccess perm) s
  entry : ∀ a ∈ pagesBelow (n*pgSize), ∃ f, s.pte d (vpn a) = frameAddr f ||| perm (a/pgSize) ||| pteP
  freelist : s.freelist = free.drop n
  table : ∀ k : Index, k.1 = 0 → s.table d k = some t
  clear : ∀ f ∈ free.drop n, s.mem f = fun _ => 0
  kallocZero : s.kallocZero = false

theorem Built.exact {n : ℕ} {s : Kernel} (h : Built c perm d t free n s) {a : ℕ} (ha : a ∈ pagesBelow (n*pgSize))
    (st : Bool) : accessAllowed (s.pte d (vpn a)) st = permAccess perm a st := by
  obtain ⟨f,hf⟩ := h.entry a ha
  rw [hf,accessAllowed_frameAddr,permAccess]

theorem image_zero_pte (hnd : (d :: t :: free).Nodup) (hv : ∀ f ∈ d :: t :: free, f ∈ c.frames) (k : Index) :
    (Kernel.image perm d t free 0).pte d k = 0 := by
  have hw : Wf c {d} (Kernel.blank d (t :: free) (ProcPages.init .none)) := wf_blank hnd hv
  have h0 : (Kernel.blank d (t :: free) (ProcPages.init .none)).pte d k = 0 := entry_of_no_table blank_table
  rw [← h0]
  exact (hw.same_grow (A := ∅) rfl blank_table rfl).entry d rfl k (Set.notMem_empty _)

theorem built_zero (hnd : (d :: t :: free).Nodup) (hv : ∀ f ∈ d :: t :: free, f ∈ c.frames) :
    Built c perm d t free 0 (Kernel.image perm d t free 0) := by
  have hw : Wf c {d} (Kernel.blank d (t :: free) (ProcPages.init .none)) := wf_blank hnd hv
  have hdt : d ≠ t := by
    rintro rfl
    simp at hnd
  have ht : (Kernel.blank d (t :: free) (ProcPages.init .none)).table d (vpn 0) = none := blank_table
  have hnone : ∀ a, a ∉ pagesBelow (0*pgSize) := by
    rintro a ⟨-,ha⟩
    rw [Nat.zero_mul] at ha
    exact Nat.not_lt_zero a ha
  refine ⟨⟨rfl,hw.grow rfl ht rfl,fun a ha => (hnone a ha).elim,fun a ha => (hnone a ha).elim,
    fun a ha => (hnone a ha).elim,fun a ha => (hnone a ha).elim,fun a _ _ => ?_⟩,
    fun a ha => (hnone a ha).elim,rfl,fun k hk => ?_,fun f hf => ?_,rfl⟩
  · rw [image_zero_pte hnd hv]
    rfl
  · have hg := hw.grow_table_same (k := vpn 0) rfl rfl
    have hk' : k.1 = (vpn 0).1 := hk
    rw [Kernel.table,hk']
    exact hg
  · have hfd : f ≠ d := by
      rintro rfl
      simp_all
    have hft : f ≠ t := by
      rintro rfl
      simp_all
    exact linkTable_of_ne hfd hft

theorem Built.succ {n : ℕ} {s : Kernel} (h : Built c perm d t free n s) (hn : n < 1024)
    (hlen : n < free.length) (hperm : pteAddr (perm n) = 0) :
    Built c perm d t free (n+1) (s.addPage d (n*pgSize) (perm n)) := by
  obtain ⟨f,hf⟩ : ∃ f, free.drop n = f :: free.drop (n+1) := ⟨_,List.drop_eq_getElem_cons hlen⟩
  have hl : s.freelist = f :: free.drop (n+1) := h.freelist.trans hf
  have hhead : s.freelist.headD 0 = f := by rw [hl]; rfl
  have hu : UserPage (n*pgSize) := by
    refine ⟨Nat.dvd_mul_left _ _,?_⟩
    simp only [pgSize,kernBase]
    omega
  have hvpn : (vpn (n*pgSize)).1 = 0 := by
    refine Fin.ext ?_
    simp only [vpn,pdx_val,pgSize,Fin.val_zero]
    omega
  obtain ⟨hw,hfr⟩ := h.space.wf.take hl
  have ht : s.take.table d (vpn (n*pgSize)) = some t := h.table _ hvpn
  have hsp := h.space.same hw (Keeps.refl _)
  have hz : s.take.mem f = fun _ => 0 := h.clear f (hf ▸ List.mem_cons_self)
  have hdiv : n*pgSize/pgSize = n := Nat.mul_div_cancel _ (by decide)
  have hacc : ∀ st, accessAllowed (frameAddr f ||| perm n ||| pteP) st = permAccess perm (n*pgSize) st := by
    intro st
    rw [permAccess,accessAllowed_frameAddr,hdiv]
  have hmap := hsp.mapTo hu ht hfr (has_mapped f (perm n)) (by simp [hperm]) hz
    fun st hst => (hacc st).trans hst
  have hpages : pagesBelow ((n+1)*pgSize) = insert (n*pgSize) (pagesBelow (n*pgSize)) := by
    rw [Nat.add_mul,Nat.one_mul]
    exact pagesBelow_succ hu.1
  have hsame := hw.same_setPte (d := d) rfl (k := vpn (n*pgSize))
    (w := frameAddr f ||| perm n ||| pteP)
  rw [← hpages] at hmap
  simp only [Kernel.addPage,hhead]
  refine ⟨hmap,fun a ha => ?_,?_,fun k hk => ?_,fun g hg => ?_,h.kallocZero⟩
  · rw [hpages] at ha
    rcases ha with rfl | ha
    · exact ⟨f,by rw [hw.setPte_same rfl ht,hdiv]⟩
    · have hne : a ≠ n*pgSize := fun he => lt_irrefl _ (he ▸ ha.2)
      rw [hsame.pte_of_ne rfl hu (h.space.user a ha) hne]
      exact h.entry a ha
  · simp only [Kernel.setPte,Kernel.take,hl,List.tail_cons]
  · rw [hw.setPte_table rfl rfl]
    exact h.table k hk
  · have hgt : g ≠ t := by
      have hgf : g ∈ s.take.freelist := by
        simp only [Kernel.take,hl,List.tail_cons]
        exact hg
      rintro rfl
      exact (hw.free_notTree hgf).2 d rfl _ ht
    simp only [Kernel.setPte]
    rw [setEntry_eq ht]
    refine (update_of_ne hgt _ _).trans (h.clear g ?_)
    rw [hf]
    exact List.mem_cons_of_mem _ hg

theorem built_image (hnd : (d :: t :: free).Nodup) (hv : ∀ f ∈ d :: t :: free, f ∈ c.frames)
    (hperm : ∀ n, pteAddr (perm n) = 0) {n : ℕ} (hn : n ≤ 1024) (hlen : n ≤ free.length) :
    Built c perm d t free n (Kernel.image perm d t free n) := by
  induction n with
  | zero => exact built_zero hnd hv
  | succ n ih => exact (ih (by omega) (by omega)).succ (by omega) (by omega) (hperm n)

end Image

def sampleFrames : List Frame := (List.range 20).map fun i => BitVec.ofNat 20 (0x210+i)

def fullPages (b : Build) : ProcPages :=
  {ProcPages.init b with
    va := fun i => some (i.val*pgSize)
    pagesInMemoryCounter := 16}

def fullProcess (b : Build) (perm : ℕ → Word) : Kernel :=
  {Kernel.image perm 0x200 0x201 sampleFrames 16 with
    proc :=
      {sz := 16*pgSize, pgdir := 0x200, pid := 4, parentPid := 3, killed := false
       swapFile := some ⟨0,fun _ => 0⟩, pages := fullPages b, eip := 0, esp := 0}}

def fullMemory (perm : ℕ → Word) : UserMemory :=
  {sz := 16*pgSize, bytes := fun _ _ => 0, allowed := permAccess perm}

section Full
variable {b : Build} {perm : ℕ → Word}

theorem sampleFrames_toNat {f : Frame} (h : f ∈ (0x200 : Frame) :: 0x201 :: sampleFrames) :
    0x200 ≤ f.toNat ∧ f.toNat < 0x230 := by
  simp only [sampleFrames,List.mem_cons,List.mem_map,List.mem_range] at h
  rcases h with rfl | rfl | ⟨i,hi,rfl⟩
  · decide
  · decide
  · rw [BitVec.toNat_ofNat]
    omega

theorem sampleFrames_nodup : ((0x200 : Frame) :: 0x201 :: sampleFrames).Nodup := by decide +kernel

theorem sampleFrames_frames (b : Build) {f : Frame} (hf : f ∈ (0x200 : Frame) :: 0x201 :: sampleFrames) :
    f ∈ (sampleConfig b).frames := by
  obtain ⟨h1,h2⟩ := sampleFrames_toNat hf
  have hv : 0x80115000 ≤ 0x80000000+f.toNat*4096 ∧ f.toNat*4096 < 0xE000000 := by omega
  exact hv

theorem built_full (b : Build) (hperm : ∀ n, pteAddr (perm n) = 0) :
    Built (sampleConfig b) perm 0x200 0x201 sampleFrames 16
      (Kernel.image perm 0x200 0x201 sampleFrames 16) :=
  built_image sampleFrames_nodup (fun _ hf => sampleFrames_frames b hf) hperm (by decide) (by decide)

theorem fullPages_residents : (fullPages b).residents = pagesBelow (16*pgSize) := by
  ext a
  constructor
  · rintro ⟨i,hi⟩
    obtain rfl : i.val*pgSize = a := Option.some.inj hi
    refine ⟨Nat.dvd_mul_left _ _,?_⟩
    have := i.isLt
    simp only [pgSize]
    omega
  · rintro ⟨⟨q,rfl⟩,hlt⟩
    have hq : q < 16 := by
      simp only [pgSize] at hlt
      omega
    exact ⟨⟨q,hq⟩,congrArg some (Nat.mul_comm _ _)⟩

theorem fullPages_swapped : (fullPages b).swapped = ∅ := by
  ext a
  simp [ProcPages.swapped,fullPages,ProcPages.init]

theorem full_paged (b : Build) (hperm : ∀ n, pteAddr (perm n) = 0) :
    Paged (sampleConfig b) (fullMemory perm) (fullProcess b perm) := by
  have hb := built_full b hperm
  have hinj : ∀ i j : Slot, ∀ a, (fullPages b).va i = some a → (fullPages b).va j = some a → i = j := by
    intro i j a hi hj
    have hi' : i.val*pgSize = a := Option.some.inj hi
    have hj' : j.val*pgSize = a := Option.some.inj hj
    refine Fin.ext ?_
    simp only [pgSize] at hi' hj'
    omega
  refine ⟨⟨?_,Option.some_ne_none _,by rintro _ _ ⟨⟩,⟨hinj,by rintro _ _ _ ⟨⟩⟩,by rintro _ ⟨⟩,?_,?_⟩,?_,rfl,rfl,rfl⟩
  · have hsp := hb.space
    rw [← fullPages_residents (b := b),← Set.union_empty (fullPages b).residents] at hsp
    exact hsp.congr rfl rfl
  · rfl
  · rfl
  · change (fullPages b).residents ∪ (fullPages b).swapped = _
    rw [fullPages_residents,fullPages_swapped,Set.union_empty]
    rfl

theorem full_entry (b : Build) (hperm : ∀ n, pteAddr (perm n) = 0) {n : ℕ} (hn : n < 16) :
    ∃ f, (fullProcess b perm).pte 0x200 (vpn (n*pgSize)) = frameAddr f ||| perm n ||| pteP := by
  obtain ⟨f,hf⟩ := (built_full b hperm).entry (n*pgSize)
    ⟨Nat.dvd_mul_left _ _,Nat.mul_lt_mul_of_pos_right hn (by decide)⟩
  rw [Nat.mul_div_cancel _ (by decide)] at hf
  exact ⟨f,hf⟩

theorem nfuAlg_fullPages : nfuAlg (fullPages .nfua) = .ok 0 := by decide +kernel

theorem full_grow (hperm : ∀ n, pteAddr (perm n) = 0) :
    ∃ s', growproc (sampleConfig .nfua) 4096 (fullProcess .nfua perm) = .ok (0,s') ∧
      Paged (sampleConfig .nfua) ((fullMemory perm).resize 4096) s' ∧
      0 ∈ s'.proc.pages.swapped ∧ s'.freelist ≠ [] ∧ s'.kallocZero = false := by
  have hp := full_paged .nfua hperm
  have hb := built_full .nfua hperm
  have hc := hp.resize_consistent 4096
  have hu : UserPage (16*pgSize) := ⟨Nat.dvd_mul_left _ _,by decide⟩
  have hnl : 16*pgSize ∉ (fullProcess .nfua perm).proc.pages.listed := by
    rw [hp.listed]
    exact notMem_pagesBelow
  have hnr : 16*pgSize ∉ (fullProcess .nfua perm).proc.pages.residents ∪ ∅ := by
    rw [Set.union_empty]
    exact fun hr => hnl (Or.inl hr)
  have htab : (fullProcess .nfua perm).table 0x200 (vpn (16*pgSize)) = some 0x201 :=
    hb.table _ (by decide)
  obtain ⟨f,l,hfl⟩ : ∃ f l, (fullProcess .nfua perm).freelist = f :: l :=
    ⟨0x220,_,hb.freelist.trans rfl⟩
  have halloc := allocPage_eq (16*pgSize) (17*pgSize) hc.space hu hnr hfl htab
  have hzero : ((fullMemory perm).resize 4096).bytes (16*pgSize) = fun _ => 0 := by
    simp only [UserMemory.resize,fullMemory]
    exact if_neg (by decide)
  have hsz : 17*pgSize ≤ kernBase := by decide
  rcases allocPage_spec (16*pgSize) hc.space hu hnr hzero hsz (Or.inr hc.once) with
    ⟨s₁,hs₁,-⟩ | ⟨s₁,hs₁,hsp,hsame,honly,hpages⟩
  · rw [halloc] at hs₁
    cases hs₁
  · have hm := hc.mapped hsp hsame honly hpages hu hnl
    have hdisk : occupied s₁.proc.pages.diskVa < 16 := by
      rw [hpages]
      change occupied (fullPages .nfua).diskVa < 16
      decide
    have hfull : 16 ≤ occupied s₁.proc.pages.va := by
      rw [hpages]
      change 16 ≤ occupied (fullPages .nfua).va
      decide
    obtain ⟨s₂,hs₂,hc₂,ho₂,hl₂,hev⟩ := listPage_spec (Or.inl rfl) hm (Set.mem_singleton _)
      (Or.inr hdisk)
    obtain ⟨tmp,v,hsel,htmp,hsw,hfree⟩ := hev hfull
    have hv : v = 0 := by
      have hn : nfuAlg s₁.proc.pages = .ok 0 := by
        rw [hpages]
        exact nfuAlg_fullPages
      simp only [selectPageToRemove,sampleConfig,hn,bind,Except.bind,pure,Except.pure,
        Except.ok.injEq,Prod.mk.injEq,and_true] at hsel
      rw [← hsel,hpages] at htmp
      exact (Option.some.inj htmp).symm
    have honly₂ := honly.onlySwap.trans ho₂
    rw [sdiff_self] at hc₂
    rw [hpages,hp.listed] at hl₂
    refine ⟨s₂.setSz (17*pgSize),?_,?_,?_,hfree,honly₂.kallocZero.trans hb.kallocZero⟩
    · have hloop : allocuvm (sampleConfig .nfua) (fullProcess .nfua perm).proc.pgdir (16*pgSize)
          (17*pgSize) (fullProcess .nfua perm) = .ok (17*pgSize,s₂) := by
        have hun : ¬ ((sampleConfig .nfua).build = .none ∨
            (fullProcess .nfua perm).proc.unpaged = true) := by
          rintro (h | h) <;> cases h
        rw [allocuvm,if_neg hun,if_neg (by decide),if_neg (by decide),if_neg (by decide),
          show 17*pgSize/pgSize+2 = 17+1+1 by decide,show pgRoundUp (16*pgSize) = 16*pgSize by decide,
          allocuvmLoop,if_pos (by decide),hs₁]
        simp only [bind,Except.bind,hs₂]
        rw [if_neg (by decide),allocuvmLoop,if_neg (by decide)]
      have hnew : ((((16*pgSize : ℕ) : ℤ)+4096)%2^32).toNat = 17*pgSize := by
        simp only [pgSize]
        omega
      exact growproc_of_alloc (by decide) hnew hloop (by decide)
    · have hsz' : ((fullMemory perm).resize 4096).sz = 17*pgSize := by
        simp [UserMemory.resize,fullMemory,pgSize]
      have hsucc : 17*pgSize = 16*pgSize+pgSize := by simp [pgSize]
      rw [← hsz']
      refine hp.resized honly₂ hc₂ ?_
      rw [hl₂,hsz',hsucc,pagesBelow_succ hu.1]
      rfl
    · rw [hv] at hsw
      change 0 ∈ s₂.proc.pages.swapped
      rw [hsw]
      exact Or.inl rfl

end Full

end Xv6Paging
