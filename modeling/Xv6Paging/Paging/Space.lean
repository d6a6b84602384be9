import Xv6Paging.Kernel.Trap
import Xv6Paging.Paging.Selection

/-! # The pages of an address space

`Space c S d Z μ α s` says what user code finds in the address space of the directory `d`:
exactly the pages in `Z` are present, the page at `a` holds the bytes `μ a`, and the
hardware allows at least the accesses `α a`. Builds with and without paging are both
described by it. Each change of a page table moves one page in or out of `Z`, changes its
bytes or its flags, and keeps the rest.
-/
namespace Xv6Paging
open WordPage PageTree Function

def UserPage (a : ℕ) : Prop := pgSize ∣ a ∧ a < kernBase

structure Space (c : Config) (S : Set Frame) (d : Frame) (Z : Set ℕ) (μ : ℕ → Page)
    (α : ℕ → Bool → Bool) (s : Kernel) : Prop where
  dir : d ∈ S
  wf : Wf c S s
  user : ∀ a ∈ Z, UserPage a
  present : ∀ a ∈ Z, has (s.pte d (vpn a)) pteP = true
  bytes : ∀ a ∈ Z, s.page d (vpn a) = μ a
  access : ∀ a ∈ Z, ∀ st, α a st = true → accessAllowed (s.pte d (vpn a)) st = true
  absent : ∀ a, UserPage a → a ∉ Z → has (s.pte d (vpn a)) pteP = false

section UserPage
variable {a b : ℕ} {S : Set Frame} {d : Frame} {s s' : Kernel}

theorem UserPage.lt (h : UserPage a) : a < 2^32 := h.2.trans (by decide)

theorem UserPage.own (h : UserPage a) : x86.own (vpn a) = true := (own_iff h.lt).mpr h.2

theorem UserPage.vpn_ne (ha : UserPage a) (hb : UserPage b) (hne : b ≠ a) : vpn b ≠ vpn a :=
  fun h => hne ((vpn_eq_iff hb.1 ha.1 hb.2 ha.2).mp h)

theorem UserPage.roundDown (h : a < kernBase) : UserPage (pgRoundDown a) :=
  ⟨Nat.dvd_mul_left _ _,(Nat.div_mul_le_self _ _).trans_lt h⟩

theorem Same.pte_of_ne (h : Same S {(d,vpn a)} s s') (hd : d ∈ S) (ha : UserPage a) (hb : UserPage b)
    (hne : b ≠ a) : s'.pte d (vpn b) = s.pte d (vpn b) :=
  h.entry d hd _ fun hm => ha.vpn_ne hb hne (Prod.ext_iff.mp hm).2

end UserPage

section Moves
variable {c : Config} {S : Set Frame} {d : Frame} {Z Z' : Set ℕ} {μ μ' : ℕ → Page}
  {α α' : ℕ → Bool → Bool} {s s' : Kernel} {a : ℕ} {w : Word} {f t : Frame}

section
variable (h : Space c S d Z μ α s)
include h

theorem Space.congr (hm : s'.mem = s.mem) (hf : s'.freelist = s.freelist) : Space c S d Z μ α s' := by
  obtain ⟨m,fl,pc,kz,bf,p⟩ := s
  obtain ⟨m',fl',pc',kz',bf',p'⟩ := s'
  cases hm
  cases hf
  exact ⟨h.dir,h.wf,h.user,h.present,h.bytes,h.access,h.absent⟩

theorem Space.mono (hμ : ∀ a ∈ Z, μ' a = μ a)
    (hα : ∀ a ∈ Z, ∀ st, α' a st = true → α a st = true) : Space c S d Z μ' α' s :=
  ⟨h.dir,h.wf,h.user,h.present,fun a ha => (h.bytes a ha).trans (hμ a ha).symm,
    fun a ha st hst => h.access a ha st (hα a ha st hst),h.absent⟩

theorem Space.same (hwf : Wf c S s') (hs : Same S ∅ s s') : Space c S d Z μ α s' := by
  have hpte : ∀ k, s'.pte d k = s.pte d k := fun k => hs.entry d h.dir k (Set.notMem_empty _)
  refine ⟨h.dir,hwf,h.user,fun a ha => ?_,fun a ha => ?_,fun a ha => ?_,fun a hu ha => ?_⟩
  · rw [hpte]
    exact h.present a ha
  · rw [hs.page h.dir (Set.notMem_empty _) (h.user a ha).own (h.present a ha)]
    exact h.bytes a ha
  · rw [hpte]
    exact h.access a ha
  · rw [hpte]
    exact h.absent a hu ha

theorem Space.change (hwf : Wf c S s') (hs : Same S {(d,vpn a)} s s')
    (ha : UserPage a) (hZ : ∀ b, b ≠ a → (b ∈ Z' ↔ b ∈ Z)) (hμ : ∀ b, b ≠ a → μ' b = μ b)
    (hα : ∀ b, b ≠ a → α' b = α b)
    (hin : a ∈ Z' → has (s'.pte d (vpn a)) pteP = true ∧ s'.page d (vpn a) = μ' a ∧
      ∀ st, α' a st = true → accessAllowed (s'.pte d (vpn a)) st = true)
    (hout : a ∉ Z' → has (s'.pte d (vpn a)) pteP = false) : Space c S d Z' μ' α' s' := by
  have hpte : ∀ b, UserPage b → b ≠ a → s'.pte d (vpn b) = s.pte d (vpn b) :=
    fun b hb hne => hs.pte_of_ne h.dir ha hb hne
  have huser : ∀ b ∈ Z', UserPage b := by
    intro b hb
    by_cases hba : b = a
    · exact hba ▸ ha
    · exact h.user b ((hZ b hba).mp hb)
  refine ⟨h.dir,hwf,huser,fun b hb => ?_,fun b hb => ?_,fun b hb => ?_,fun b hu hb => ?_⟩
  · by_cases hba : b = a
    · subst hba
      exact (hin hb).1
    · rw [hpte b (huser b hb) hba]
      exact h.present b ((hZ b hba).mp hb)
  · by_cases hba : b = a
    · subst hba
      exact (hin hb).2.1
    · have hbZ := (hZ b hba).mp hb
      have hnot : (d,vpn b) ∉ ({(d,vpn a)} : Set (Frame × Index)) :=
        fun hm => ha.vpn_ne (huser b hb) hba (Prod.ext_iff.mp hm).2
      rw [hs.page h.dir hnot (huser b hb).own (h.present b hbZ),h.bytes b hbZ,hμ b hba]
  · by_cases hba : b = a
    · subst hba
      exact (hin hb).2.2
    · rw [hpte b (huser b hb) hba,hα b hba]
      exact h.access b ((hZ b hba).mp hb)
  · by_cases hba : b = a
    · subst hba
      exact hout hb
    · rw [hpte b hu hba]
      exact h.absent b hu fun hbZ => hb ((hZ b hba).mpr hbZ)

theorem Space.table (ha : a ∈ Z) : ∃ t, s.table d (vpn a) = some t :=
  table_of_has (h.present a ha)

theorem Space.map (ha : UserPage a) (ht : s.table d (vpn a) = some t)
    (hf : FreshFrame c S s f) (hw : has w pteP = true) (hwf : pteAddr w = f) {al : Bool → Bool}
    (hal : ∀ st, al st = true → accessAllowed w st = true) :
    Space c S d (insert a Z) (update μ a (s.mem f)) (update α a al)
      (s.setPte d (vpn a) w) := by
  obtain ⟨hwf',hpage⟩ := hf.map h.wf h.dir ht hwf
  have hpte := h.wf.setPte_same h.dir ht (w := w)
  refine h.change hwf' (h.wf.same_setPte h.dir) ha (fun b hb => by simp [hb])
    (fun b hb => update_of_ne hb _ _) (fun b hb => update_of_ne hb _ _)
    (fun _ => ?_) (fun hn => (hn (Set.mem_insert a Z)).elim)
  rw [hpte,hpage,update_self,update_self]
  exact ⟨hw,rfl,hal⟩

theorem Space.unmap (ha : a ∈ Z) (hw : has w pteP = false) :
    Space c S d (Z \ {a}) μ α ((s.setPte d (vpn a) w).free (pteAddr (s.pte d (vpn a)))) ∧
    Same S {(d,vpn a)} s ((s.setPte d (vpn a) w).free (pteAddr (s.pte d (vpn a)))) ∧
    ((s.setPte d (vpn a) w).free (pteAddr (s.pte d (vpn a)))).pte d (vpn a) = w := by
  have hu := h.user a ha
  obtain ⟨t,ht⟩ := h.table ha
  obtain ⟨hw1,hf1⟩ := h.wf.unmap h.dir hu.own (h.present a ha) hw
  obtain ⟨hw2,hs2⟩ := hf1.free (A := {(d,vpn a)}) hw1
  have hs := (h.wf.same_setPte h.dir (k := vpn a) (w := w)).trans hs2
  have hpte : ((s.setPte d (vpn a) w).free (pteAddr (s.pte d (vpn a)))).pte d (vpn a) = w :=
    (store_pte hf1.notTree h.dir _).trans (h.wf.setPte_same h.dir ht)
  refine ⟨h.change hw2 hs hu (fun b hb => by simp [hb]) (fun _ _ => rfl) (fun _ _ => rfl)
    (fun hm => (hm.2 rfl).elim) (fun _ => ?_),hs,hpte⟩
  rw [hpte]
  exact hw

theorem Space.flags (ha : a ∈ Z) (hw : x86.link w = x86.link (s.pte d (vpn a)))
    (hal : ∀ st, α a st = true → accessAllowed w st = true) :
    Space c S d Z μ α (s.setPte d (vpn a) w) := by
  obtain ⟨t,ht⟩ := h.table ha
  have hp := h.present a ha
  have hlink : x86.link w = some (pteAddr (s.pte d (vpn a))) := hw.trans (link_eq_some.mpr ⟨hp,rfl⟩)
  have hpte := h.wf.setPte_same h.dir ht (w := w)
  have hwf' := h.wf.setPte_flags h.dir ht (Or.inr hw)
  refine h.change hwf' (h.wf.same_setPte h.dir) (h.user a ha) (fun _ _ => Iff.rfl) (fun _ _ => rfl)
    (fun _ _ => rfl) (fun _ => ?_) (fun hn => (hn ha).elim)
  rw [h.wf.setPte_page h.dir ht (h.user a ha).own hp (link_eq_some.mp hlink).2,hpte]
  exact ⟨(link_eq_some.mp hlink).1,h.bytes a ha,hal⟩

theorem Space.store (ha : a ∈ Z) (pg : Page) :
    Space c S d Z (update μ a pg) α (s.store (pteAddr (s.pte d (vpn a))) pg) ∧
    Same S {(d,vpn a)} s (s.store (pteAddr (s.pte d (vpn a))) pg) ∧
    ∀ k, (s.store (pteAddr (s.pte d (vpn a))) pg).pte d k = s.pte d k := by
  have hu := h.user a ha
  obtain ⟨hw,hs,hpte,hpage⟩ := h.wf.store_page h.dir hu.own (h.present a ha) pg
  refine ⟨h.change hw hs hu (fun _ _ => Iff.rfl) (fun b hb => update_of_ne hb _ _)
    (fun _ _ => rfl) (fun _ => ?_) (fun hn => (hn ha).elim),hs,fun k => ?_⟩
  · rw [hpte,hpage,update_self]
    exact ⟨h.present a ha,rfl,h.access a ha⟩
  · exact store_pte (h.wf.leaf_notTree h.dir hu.own (link_eq_some.mpr ⟨h.present a ha,rfl⟩)) h.dir pg

end

theorem accessAllowed_cleared {d' : Frame} (h : Cleared c S d' s s') (hd : d ∈ S) (k : Index) (st : Bool) :
    accessAllowed (s'.pte d k) st = accessAllowed (s.pte d k) st := by
  simp only [accessAllowed,has_pteP,has_pteU,has_pteW,
    h.bit hd (k := k) (show 0 < 32 by decide) (by decide),
    h.bit hd (k := k) (show 1 < 32 by decide) (by decide),
    h.bit hd (k := k) (show 2 < 32 by decide) (by decide)]

theorem Space.cleared {d' : Frame} (h : Space c S d Z μ α s) (hc : Cleared c S d' s s') :
    Space c S d Z μ α s' := by
  have hP : ∀ k, has (s'.pte d k) pteP = has (s.pte d k) pteP := by
    intro k
    rw [has_pteP,has_pteP]
    exact hc.bit h.dir (by decide) (by decide)
  refine ⟨h.dir,hc.wf,h.user,fun a ha => ?_,fun a ha => ?_,fun a ha st => ?_,fun a hu ha => ?_⟩
  · rw [hP]
    exact h.present a ha
  · rw [hc.page h.wf h.dir (h.user a ha).own (h.present a ha)]
    exact h.bytes a ha
  · rw [accessAllowed_cleared hc h.dir]
    exact h.access a ha st
  · rw [hP]
    exact h.absent a hu ha

end Moves

end Xv6Paging
