import Xv6Paging.Paging.UserMemory

/-! # Paging is transparent

The same process in a build that pages and in the NONE build. Both refine the memory that
the process has, so they agree step by step as long as every access is one that the page
table of the NONE build allows. The condition is needed: a page that comes back from the
swap file is mapped with `PTE_U` and `PTE_W`, whatever its flags were before.
-/
namespace Xv6Paging.Transparency
open WordPage PageTree

structure Flat (c : Config) (m : UserMemory) (s : Kernel) : Prop where
  space : Space c {s.proc.pgdir} s.proc.pgdir (pagesBelow m.sz) m.bytes m.allowed s
  denied : ∀ a ∈ pagesBelow m.sz, ∀ st, accessAllowed (s.pte s.proc.pgdir (vpn a)) st = true →
    m.allowed a st = true
  sz : s.proc.sz = m.sz

section Flat
variable {c : Config} {m : UserMemory} {s s' : Kernel} {va : ℕ} {st : Bool} {b : Byte} {n : ℤ}

theorem Flat.sz_le (h : Flat c m s) : m.sz ≤ kernBase := by
  by_contra hlt
  have hmem : kernBase ∈ pagesBelow m.sz := ⟨by decide,by omega⟩
  exact absurd (h.space.user _ hmem).2 (lt_irrefl _)

theorem Flat.access (h : Flat c m s) (hm : m.May va st) :
    ∃ s', userAccess c va st 2 s = .ok (some (pteAddr (s'.pte s'.proc.pgdir (vpn va))),s') ∧
      Flat c m s' ∧ s'.kallocZero = s.kallocZero := by
  obtain ⟨s',hs',hproc,hk,hsp,hsame,hpte⟩ := h.space.access_present hm.1 hm.2 1
  have hu := h.space.user _ hm.1
  refine ⟨s',hs',⟨by rw [hproc]; exact hsp,fun a ha st' hal => ?_,by rw [hproc]; exact h.sz⟩,hk⟩
  rw [hproc] at hal
  by_cases hne : a = pgRoundDown va
  · rw [hne,vpn_roundDown va,hpte,accessAllowed_touched,
      ← vpn_roundDown va] at hal
    rw [hne]
    exact h.denied _ hm.1 st' hal
  · rw [hsame.pte_of_ne rfl hu (h.space.user a ha) hne] at hal
    exact h.denied a ha st' hal

theorem Flat.load_byte (h : Flat c m s) (hm : m.May va false) :
    ∃ s', userStep c (.load va) s = .ok (.byte (m.bytes (pgRoundDown va) (pageOffset va)),s') ∧
      Flat c m s' ∧ s'.kallocZero = s.kallocZero := by
  obtain ⟨s',hs',hf,hk⟩ := h.access hm
  refine ⟨s',?_,hf,hk⟩
  simp only [userStep,userLoad,hs',bind,Except.bind]
  rw [hf.space.frame_bytes hm.1]
  rfl

theorem Flat.load (h : Flat c m s) (hm : m.May va false) : Refines c (Flat c) m (.load va) s := by
  obtain ⟨s',hs',hf,-⟩ := h.load_byte hm
  rw [Refines,hs']
  exact .ok fun _ => ⟨rfl,hf⟩

theorem Flat.store (h : Flat c m s) (hm : m.May va true) : Refines c (Flat c) m (.store va b) s := by
  obtain ⟨s',hs',hf,-⟩ := h.access hm
  have hv := vpn_roundDown va
  obtain ⟨hsp,-,hpte⟩ := hf.space.store hm.1
    (Function.update (m.bytes (pgRoundDown va)) (pageOffset va) b)
  simp only [Refines,userStep,userStore,hs',bind,Except.bind]
  rw [hf.space.frame_bytes hm.1]
  rw [hv] at hsp hpte
  refine .ok fun _ => ⟨rfl,hsp,fun a ha st hal => hf.denied a ha st ?_,hf.sz⟩
  rw [← hpte]
  exact hal

theorem Flat.tick (hb : c.build = .none) (h : Flat c m s) : Refines c (Flat c) m .tick s := by
  have hpass : schedulerPass c s = .ok s := by simp only [schedulerPass,hb,ite_self]
  simp only [Refines,userStep,hpass,bind,Except.bind]
  exact .ok fun _ => ⟨rfl,h⟩

theorem Flat.resize_space (h : Flat c m s) (n : ℤ) :
    Space c {s.proc.pgdir} s.proc.pgdir (pagesBelow m.sz) (m.resize n).bytes (m.resize n).allowed s :=
  h.space.mono (fun _ ha => (UserMemory.resize_agree h.sz_le n ha).1) fun a ha st hst => by
    rw [← (UserMemory.resize_agree h.sz_le n ha).2 st]
    exact hst

theorem Flat.resized (h : Flat c m s) (hdir : s'.proc.pgdir = s.proc.pgdir)
    (hsp : Space c {s.proc.pgdir} s.proc.pgdir (pagesBelow (m.resize n).sz) (m.resize n).bytes
      (m.resize n).allowed s')
    (hkept : ∀ a ∈ pagesBelow m.sz, a ∈ pagesBelow (m.resize n).sz →
      s'.pte s.proc.pgdir (vpn a) = s.pte s.proc.pgdir (vpn a)) :
    Flat c (m.resize n) (s'.setSz (m.resize n).sz) := by
  refine ⟨?_,fun a ha st hal => ?_,rfl⟩
  · rw [← hdir] at hsp
    exact hsp.congr rfl rfl
  · change accessAllowed (s'.pte s'.proc.pgdir (vpn a)) st = true at hal
    by_cases hold : a < pgRoundUp m.sz
    · have hmem : a ∈ pagesBelow m.sz := by
        rw [← pagesBelow_roundUp h.sz_le]
        exact ⟨ha.1,hold⟩
      rw [hdir,hkept a hmem ha] at hal
      rw [(UserMemory.resize_agree h.sz_le n hmem).2 st]
      exact h.denied a hmem st hal
    · simp only [UserMemory.resize,if_neg hold]

section
variable (hb : c.build = .none) (h : Flat c m s)
include hb h

theorem Flat.growproc_pos (hn : 0 < n) (hmax : m.sz+n ≤ maxTotalPages*pgSize) :
    Outcome (growproc c n s) (fun r => r.2.kallocZero = false → r.1 = 0 ∧ Flat c (m.resize n) r.2)
      fun _ => False := by
  have hsz := h.sz_le
  have hmax' : (maxTotalPages*pgSize : ℤ) = 131072 := by decide
  have hk : kernBase = 2147483648 := rfl
  obtain ⟨hz,hnew⟩ := m.resize_sz n (by omega) (by omega)
  obtain ⟨h1,h2⟩ := le_pgRoundUp hsz
  have hf : (m.resize n).sz ≤ pgRoundUp m.sz+((m.resize n).sz/pgSize+1)*pgSize := by
    simp only [pgSize]
    omega
  have hsp := h.resize_space n
  rw [← pagesBelow_roundUp hsz] at hsp
  obtain ⟨r,s',hr,hres⟩ := oldallocuvmLoop_spec m.sz ((m.resize n).sz/pgSize+1) (by omega)
    (fun b hb => by simp only [UserMemory.resize,if_neg (not_lt.mpr hb)])
    (pgSize_dvd_pgRoundUp m.sz) (by omega) hf hsp (Or.inl hb)
  have halloc : allocuvm c s.proc.pgdir m.sz (m.resize n).sz s = .ok (r,s') := by
    rw [allocuvm,if_pos (Or.inl hb),oldallocuvm,if_neg (by omega),if_neg (by omega)]
    exact hr
  simp only [growproc,if_pos hn,h.sz,hz,hnew,halloc,bind,Except.bind]
  rcases hres with ⟨rfl,hst⟩ | ⟨rfl,hsp',ho,hkept⟩
  · refine .ok fun hf => ?_
    rw [hst] at hf
    cases hf
  · rw [if_neg (by omega)]
    refine .ok fun _ => ⟨rfl,h.resized (by rw [ho.proc]) hsp' fun a ha _ => ?_⟩
    exact hkept a (h.space.user a ha) (ha.2.trans_le h1)

theorem Flat.growproc_neg (hn : n < 0) (hmin : -(m.sz : ℤ) < n) :
    Outcome (growproc c n s) (fun r => r.1 = 0 ∧ Flat c (m.resize n) r.2) fun _ => False := by
  have hsz := h.sz_le
  have hk : kernBase = 2147483648 := rfl
  obtain ⟨hz,hnew⟩ := m.resize_sz n (by omega) (by omega)
  have hlt : (m.resize n).sz < m.sz := by omega
  obtain ⟨s',e,hs',he,hrel,-⟩ := deallocuvm_released h.space.wf rfl hsz hlt (Or.inl hb)
  have hsp := (h.resize_space n).release hrel he (pgSize_dvd_pgRoundUp _) hsz
  have hround := pagesBelow_roundUp (hlt.le.trans hsz)
  have hZ : {a ∈ pagesBelow m.sz | a < pgRoundUp (m.resize n).sz ∨ m.sz ≤ a} =
      pagesBelow (m.resize n).sz := by
    rw [← hround]
    ext a
    constructor
    · rintro ⟨ha,h1 | h1⟩
      · exact ⟨ha.1,h1⟩
      · exact absurd ha.2 (not_lt.mpr h1)
    · intro ha
      have ha' : a ∈ pagesBelow (m.resize n).sz := hround ▸ ha
      exact ⟨⟨ha.1,ha'.2.trans hlt⟩,Or.inl ha.2⟩
  rw [hZ] at hsp
  simp only [growproc,if_neg (not_lt.mpr hn.le),if_pos hn,h.sz,hz,hnew,hs',bind,Except.bind]
  rw [if_neg (by omega)]
  refine .ok ⟨rfl,h.resized (by rw [hrel.only.proc]) hsp fun a ha ha' => ?_⟩
  rw [← hround] at ha'
  exact (hrel.pte_kept rfl (pgSize_dvd_pgRoundUp _) hsz (h.space.user a ha) (Or.inl ha'.2)).1

theorem Flat.sbrk (hn : (0 < n → m.sz+n ≤ maxTotalPages*pgSize) ∧ (n < 0 → -(m.sz : ℤ) < n)) :
    Refines c (Flat c) m (.sbrk n) s := by
  refine refines_sbrk h.sz ?_
  rcases lt_trichotomy n 0 with hneg | rfl | hpos
  · exact (h.growproc_neg hb hneg (hn.2 hneg)).post fun _ hr _ => hr
  · have hs : (m.resize 0).sz = m.sz := by simp [UserMemory.resize]
    have hsp := h.resize_space 0
    rw [← hs] at hsp
    refine .ok fun _ => ⟨rfl,hsp,fun a ha st hal => ?_,hs ▸ h.sz⟩
    rw [hs] at ha
    rw [(UserMemory.resize_agree h.sz_le 0 ha).2 st]
    exact h.denied a ha st hal
  · exact h.growproc_pos hb hpos (hn.1 hpos)

/-- A process of the NONE build refines the memory it has. -/
theorem Flat.step {op : UserOp} (hop : m.Allows op) : Refines c (Flat c) m op s := by
  cases op with
  | load va => exact h.load hop
  | store va b => exact h.store hop
  | sbrk n => exact h.sbrk hb hop
  | tick => exact h.tick hb

end

end Flat

/-- The running process of the paging build `c` and that of the NONE build `c₀` have the same
memory. -/
def Mirrors (c c₀ : Config) (s s₀ : Kernel) : Prop := ∃ m, Paged c m s ∧ Flat c₀ m s₀

def InRange (s : Kernel) : UserOp → Prop
  | .sbrk n => (0 < n → s.proc.sz+n ≤ maxTotalPages*pgSize) ∧ (n < 0 → -(s.proc.sz : ℤ) < n)
  | _ => True

/-- An access goes to a page of the process, and the page table allows it. -/
def Permits (s : Kernel) : UserOp → Prop
  | .load va => pgRoundDown va ∈ pagesBelow s.proc.sz ∧
      accessAllowed (s.pte s.proc.pgdir (vpn va)) false = true
  | .store va _ => pgRoundDown va ∈ pagesBelow s.proc.sz ∧
      accessAllowed (s.pte s.proc.pgdir (vpn va)) true = true
  | _ => True

def Along (c : Config) (P : Kernel → UserOp → Prop) : List UserOp → Kernel → Prop
  | [], _ => True
  | op :: ops, s => P s op ∧ ∀ o s', userStep c op s = .ok (o,s') → Along c P ops s'

def Fed (c : Config) : List UserOp → Kernel → Prop
  | [], _ => True
  | op :: ops, s => userStep c op s ≠ .error .kallocNull ∧
      ∀ o s', userStep c op s = .ok (o,s') → s'.kallocZero = false ∧ Fed c ops s'

/-- The two runs do not panic, the processes see the same at every step, and they have the same
memory before and after every step. -/
def Agree (c c₀ : Config) : List UserOp → Kernel → Kernel → Prop
  | [], s, s₀ => Mirrors c c₀ s s₀
  | op :: ops, s, s₀ => Mirrors c c₀ s s₀ ∧ ∃ o s' s₀', userStep c op s = .ok (o,s') ∧
      userStep c₀ op s₀ = .ok (o,s₀') ∧ Agree c c₀ ops s' s₀'

section Simulation
variable {c c₀ : Config} {m : UserMemory} {s s₀ : Kernel} {op : UserOp}

theorem Flat.allows (h : Flat c₀ m s₀) (hr : InRange s₀ op) (hp : Permits s₀ op) : m.Allows op := by
  have hmay : ∀ va st, pgRoundDown va ∈ pagesBelow s₀.proc.sz →
      accessAllowed (s₀.pte s₀.proc.pgdir (vpn va)) st = true → m.May va st := by
    intro va st hmem hal
    rw [h.sz] at hmem
    refine ⟨hmem,h.denied _ hmem st ?_⟩
    rw [vpn_roundDown va]
    exact hal
  cases op with
  | load va => exact hmay va false hp.1 hp.2
  | store va b => exact hmay va true hp.1 hp.2
  | sbrk n =>
    rw [InRange,h.sz] at hr
    exact hr
  | tick => trivial

theorem refines_returns {R : UserMemory → Kernel → Prop} (h : Refines c R m op s)
    (hne : userStep c op s ≠ .error .kallocNull)
    (hz : ∀ o s', userStep c op s = .ok (o,s') → s'.kallocZero = false) :
    ∃ s', userStep c op s = .ok ((m.step op).1,s') ∧ R (m.step op).2 s' := by
  cases hs : userStep c op s with
  | error e => exact (hne (hs.trans (congrArg _ (h.of_error hs).1))).elim
  | ok r =>
    obtain ⟨o,s'⟩ := r
    obtain ⟨h1,h2⟩ := h.of_ok hs (hz o s' hs)
    dsimp only at h1 h2
    exact ⟨s',by rw [h1],h2⟩

/-- Loads, stores, `sbrk` calls and scheduler passes have the same results with and without paging, if the
NONE build allows each access. -/
theorem paging_transparent (hb : c.build = .nfua ∨ c.build = .lapa) (hb₀ : c₀.build = .none)
    (ops : List UserOp) (h : Mirrors c c₀ s s₀) (hr : Along c₀ InRange ops s₀)
    (hp : Along c₀ Permits ops s₀) (hf : Fed c ops s) (hf₀ : Fed c₀ ops s₀) :
    Agree c c₀ ops s s₀ := by
  induction ops generalizing s s₀ with
  | nil => exact h
  | cons op ops ih =>
    refine ⟨h,?_⟩
    obtain ⟨m,hpaged,hflat⟩ := h
    have hop := hflat.allows hr.1 hp.1
    obtain ⟨s',hs',hpaged'⟩ := refines_returns (hpaged.step hb hop) hf.1 fun o t ht => (hf.2 o t ht).1
    obtain ⟨s₀',hs₀',hflat'⟩ := refines_returns (hflat.step hb₀ hop) hf₀.1
      fun o t ht => (hf₀.2 o t ht).1
    exact ⟨_,s',s₀',hs',hs₀',ih ⟨_,hpaged',hflat'⟩ (hr.2 _ _ hs₀') (hp.2 _ _ hs₀') (hf.2 _ _ hs').2
      (hf₀.2 _ _ hs₀').2⟩

end Simulation

section GuardPage

def guardPerm (n : ℕ) : Word := if n = 0 then pteW else userPerm

theorem guardPerm_addr (n : ℕ) : pteAddr (guardPerm n) = 0 := by
  unfold guardPerm
  split <;> decide

theorem full_flat {perm : ℕ → Word} (hperm : ∀ n, pteAddr (perm n) = 0) :
    Flat (sampleConfig .none) (fullMemory perm) (fullProcess .none perm) := by
  have hb := built_full .none hperm
  exact ⟨hb.space.congr rfl rfl,fun a ha st hal => (hb.exact ha st).symm.trans hal,rfl⟩

theorem Flat.grow_page {c : Config} {m : UserMemory} {s : Kernel} (hb : c.build = .none)
    (h : Flat c m s) (hd : pgSize ∣ m.sz) (hmax : m.sz+pgSize ≤ maxTotalPages*pgSize) {f t : Frame}
    {l : List Frame} (hl : s.freelist = f :: l) (ht : s.table s.proc.pgdir (vpn m.sz) = some t)
    (hk : s.kallocZero = false) :
    ∃ s', growproc c pgSize s = .ok (0,s') ∧ Flat c (m.resize pgSize) s' ∧ s'.kallocZero = false := by
  have hmax' : maxTotalPages*pgSize = 131072 := by decide
  have hp : pgSize = 4096 := rfl
  have hk' : kernBase = 2147483648 := rfl
  have hu : UserPage m.sz := ⟨hd,by omega⟩
  obtain ⟨s₁,halloc,hk₁⟩ : ∃ s₁, allocPage c s.proc.pgdir m.sz (m.sz+pgSize) m.sz s = .ok (1,s₁) ∧
      s₁.kallocZero = s.kallocZero :=
    ⟨_,allocPage_eq m.sz (m.sz+pgSize) h.space hu notMem_pagesBelow hl ht,rfl⟩
  have hloop : allocuvm c s.proc.pgdir m.sz (m.sz+pgSize) s = .ok (m.sz+pgSize,s₁) := by
    have hround : pgRoundUp m.sz = m.sz := by
      obtain ⟨q,hq⟩ := hd
      rw [pgRoundUp_eq (by omega)]
      simp only [pgSize] at hq ⊢
      omega
    obtain ⟨k,hfuel⟩ : ∃ k, (m.sz+pgSize)/pgSize+2 = k+1+1 := ⟨_,rfl⟩
    rw [allocuvm,if_pos (Or.inl hb),oldallocuvm,if_neg (by omega),if_neg (by omega),hround,hfuel,
      oldallocuvmLoop,if_pos (by omega),halloc]
    simp only [bind,Except.bind]
    rw [if_neg (by decide),oldallocuvmLoop,if_neg (by omega)]
  have hnew : (((m.sz : ℤ)+(pgSize : ℤ))%2^32).toNat = m.sz+pgSize := by omega
  have hgrow : growproc c pgSize s = .ok (0,s₁.setSz (m.sz+pgSize)) :=
    growproc_of_alloc (by decide) (h.sz ▸ hnew) (h.sz.symm ▸ hloop) (by omega)
  have hz : (s₁.setSz (m.sz+pgSize)).kallocZero = false := hk₁.trans hk
  have hspec := (h.growproc_pos hb (by decide) (by exact_mod_cast hmax)).of_ok hgrow
  exact ⟨_,hgrow,(hspec hz).2,hz⟩

theorem full_grow_none {perm : ℕ → Word} (hperm : ∀ n, pteAddr (perm n) = 0) :
    ∃ s', growproc (sampleConfig .none) 4096 (fullProcess .none perm) = .ok (0,s') ∧
      Flat (sampleConfig .none) ((fullMemory perm).resize 4096) s' ∧ s'.kallocZero = false := by
  have hb := built_full .none hperm
  have hmax : 16*pgSize+pgSize ≤ maxTotalPages*pgSize := by decide
  have hv : (vpn (16*pgSize)).1 = 0 := by decide
  exact (full_flat hperm).grow_page rfl (Nat.dvd_mul_left _ _) hmax (f := 0x220)
    (hb.freelist.trans rfl) (hb.table _ hv) hb.kallocZero

theorem load_denied {c : Config} {m : UserMemory} {s : Kernel} (hb : c.build = .none) (h : Flat c m s)
    {a : ℕ} (ha : a ∈ pagesBelow m.sz) (hden : m.allowed a false = false) :
    userStep c (.load a) s = .ok (.killed,s.kill) := by
  obtain ⟨t,ht⟩ := h.space.table ha
  have hacc : accessAllowed (s.pte s.proc.pgdir (vpn a)) false = false := by
    cases hal : accessAllowed (s.pte s.proc.pgdir (vpn a)) false with
    | false => rfl
    | true => exact (h.denied a ha false hal).symm.trans hden
  have hload : userAccess c a false 2 s = .ok (none,s.kill) := by
    rw [userAccess]
    simp only [walkpgdir_of_table ht,readPte_eq ht,hacc,Bool.false_eq_true,if_false,trapPgflt,
      if_pos hb,bind,Except.bind]
    rfl
  simp only [userStep,userLoad,hload,bind,Except.bind]
  rfl

theorem load_swapped {c : Config} {m : UserMemory} {s : Kernel} (hb : c.build.Aging) (h : Paged c m s)
    {a : ℕ} (ha : a ∈ s.proc.pages.swapped) (hl : s.freelist ≠ []) :
    ∃ s', userStep c (.load a) s = .ok (.byte (m.bytes a (pageOffset a)),s') ∧
      s'.kallocZero = s.kallocZero := by
  obtain ⟨j,hj⟩ := ha
  have hu := (h.consistent.swapped j a hj).user
  have hround : pgRoundDown a = a := pgRoundDown_of_dvd hu.1
  have hmem : a ∈ pagesBelow m.sz := by
    rw [← h.listed]
    exact Or.inr ⟨j,hj⟩
  have hp := h.open_swapped hj
  have hmay : UserMemory.May {m with allowed := Function.update m.allowed a fun _ => true} a false :=
    ⟨hround.symm ▸ hmem,by rw [hround]; simp⟩
  have hload := hp.userLoad hb hmay
  cases hs : userLoad c a s with
  | error e => exact (hl (hload.of_error hs).2).elim
  | ok r =>
    obtain ⟨r,s'⟩ := r
    obtain ⟨h1,-,h2⟩ := hload.of_ok hs
    dsimp only at h1 h2
    rw [hround] at h1
    refine ⟨s',?_,h2⟩
    simp only [userStep,hs,h1,bind,Except.bind]
    rfl

theorem sbrk_of_growproc {c : Config} {n : ℤ} {s s' : Kernel} (h : growproc c n s = .ok (0,s')) :
    userStep c (.sbrk n) s = .ok (.result s.proc.sz,s') := by
  simp only [userStep,sysSbrk,h,bind,Except.bind]
  rfl

theorem fed_pair {c : Config} {s t u : Kernel} {op op' : UserOp} {o o' : Seen}
    (h : userStep c op s = .ok (o,t)) (h' : userStep c op' t = .ok (o',u)) (ht : t.kallocZero = false)
    (hu : u.kallocZero = false) : Fed c [op,op'] s := by
  refine ⟨by simp [h],fun o t hs => ?_⟩
  rw [h] at hs
  cases hs
  refine ⟨ht,by simp [h'],fun o u hs => ?_⟩
  rw [h'] at hs
  cases hs
  exact ⟨hu,trivial⟩

theorem grown_bytes (perm : ℕ → Word) : ((fullMemory perm).resize 4096).bytes = fun _ _ => 0 :=
  funext fun _ => ite_self _

theorem full_run {perm : ℕ → Word} (hperm : ∀ n, pteAddr (perm n) = 0) :
    ∃ s s', userStep (sampleConfig .nfua) (.sbrk 4096) (fullProcess .nfua perm) =
        .ok (.result (16*pgSize),s) ∧
      userStep (sampleConfig .nfua) (.load 0) s = .ok (.byte 0,s') ∧
      s.kallocZero = false ∧ s'.kallocZero = false := by
  obtain ⟨s,hs,hp,hsw,hfree,hk⟩ := full_grow hperm
  obtain ⟨s',hs',hk'⟩ := load_swapped (Or.inl rfl) hp hsw hfree
  rw [grown_bytes] at hs'
  exact ⟨s,s',sbrk_of_growproc hs,hs',hk,hk'.trans hk⟩

theorem zero_mem_grown (perm : ℕ → Word) : 0 ∈ pagesBelow ((fullMemory perm).resize 4096).sz := by
  refine ⟨Nat.dvd_zero _,?_⟩
  simp [UserMemory.resize,fullMemory,pgSize]

theorem inRange_grow (perm : ℕ → Word) :
    Along (sampleConfig .none) InRange [.sbrk 4096,.load 0] (fullProcess .none perm) :=
  ⟨⟨fun _ => show (16*pgSize : ℤ)+4096 ≤ maxTotalPages*pgSize by decide,fun h => absurd h (by decide)⟩,
    fun _ _ _ => ⟨trivial,fun _ _ _ => trivial⟩⟩

/-- Reading back the page at 0 after it was swapped out. -/
theorem paging_transparent_full :
    Agree (sampleConfig .nfua) (sampleConfig .none) [.sbrk 4096,.load 0]
      (fullProcess .nfua fun _ => userPerm) (fullProcess .none fun _ => userPerm) := by
  have hperm : ∀ n, pteAddr ((fun _ : ℕ => userPerm) n) = 0 :=
    fun _ => show pteAddr userPerm = 0 by decide
  obtain ⟨s,s',hs,hs',hk,hk'⟩ := full_run hperm
  obtain ⟨s₀,hs₀,hf,hk₀⟩ := full_grow_none hperm
  have h0 := zero_mem_grown fun _ => userPerm
  have hmay : ((fullMemory fun _ => userPerm).resize 4096).May 0 false := ⟨h0,by decide +kernel⟩
  obtain ⟨s₀',hs₀',hk₀'⟩ : ∃ s₀', userStep (sampleConfig .none) (.load 0) s₀ = .ok (.byte 0,s₀') ∧
      s₀'.kallocZero = false := by
    obtain ⟨s₀',hs₀',-,hk₀'⟩ := hf.load_byte hmay
    rw [grown_bytes] at hs₀'
    exact ⟨s₀',hs₀',hk₀'.trans hk₀⟩
  refine paging_transparent (Or.inl rfl) rfl _ ⟨_,full_paged .nfua hperm,full_flat hperm⟩
    (inRange_grow _) ⟨trivial,fun o t ht => ⟨?_,fun _ _ _ => trivial⟩⟩ (fed_pair hs hs' hk hk')
    (fed_pair (sbrk_of_growproc hs₀) hs₀' hk₀ hk₀')
  rw [sbrk_of_growproc hs₀] at ht
  cases ht
  exact ⟨hf.sz ▸ h0,hf.space.access 0 h0 false hmay.2⟩

/-- The guard page of a full process is evicted when the process grows. A load from it then returns a byte,
although the NONE build kills the process. -/
theorem evicted_guard_page_is_readable :
    Mirrors (sampleConfig .nfua) (sampleConfig .none) (fullProcess .nfua guardPerm)
      (fullProcess .none guardPerm) ∧
    Along (sampleConfig .none) InRange [.sbrk 4096,.load 0] (fullProcess .none guardPerm) ∧
    Fed (sampleConfig .nfua) [.sbrk 4096,.load 0] (fullProcess .nfua guardPerm) ∧
    Fed (sampleConfig .none) [.sbrk 4096,.load 0] (fullProcess .none guardPerm) ∧
    ¬ Agree (sampleConfig .nfua) (sampleConfig .none) [.sbrk 4096,.load 0]
      (fullProcess .nfua guardPerm) (fullProcess .none guardPerm) := by
  obtain ⟨s,s',hs,hs',hk,hk'⟩ := full_run guardPerm_addr
  obtain ⟨s₀,hs₀,hf,hk₀⟩ := full_grow_none guardPerm_addr
  have hden : ((fullMemory guardPerm).resize 4096).allowed 0 false = false := by decide +kernel
  have hs₀' := load_denied rfl hf (zero_mem_grown _) hden
  refine ⟨⟨_,full_paged .nfua guardPerm_addr,full_flat guardPerm_addr⟩,inRange_grow _,
    fed_pair hs hs' hk hk',fed_pair (sbrk_of_growproc hs₀) hs₀' hk₀ hk₀,?_⟩
  rintro ⟨-,o,t,t₀,ht,ht₀,-,o',t',t₀',ht',ht₀',-⟩
  rw [hs] at ht
  rw [sbrk_of_growproc hs₀] at ht₀
  cases ht
  cases ht₀
  rw [hs'] at ht'
  rw [hs₀'] at ht₀'
  cases ht'
  cases ht₀'

end GuardPage

end Xv6Paging.Transparency
