import Xv6Paging.Kernel.Process
import Xv6Paging.Paging.Consistency

/-! # Sampling access bits

`updateAccessBit` and `updateAccessBit_proc` return the access bit of a page and clear it. Sampling the pages of some
slots one after the other finds the bits as they were at the start and clears them, and changes nothing else.
-/
namespace Xv6Paging
open WordPage PageTree

def Kernel.slotAddr (s : Kernel) (i : Slot) : ℕ := vaAddr (s.proc.pages.va i)

def Kernel.slotKey (s : Kernel) (i : Slot) : Index := vpn (s.slotAddr i)

def Kernel.accessed (s : Kernel) (i : Slot) : Bool := has (s.pte s.proc.pgdir (s.slotKey i)) pteA

structure ListsPages (s : Kernel) (l : List Slot) : Prop where
  entry : ∀ i ∈ l, s.pte s.proc.pgdir (s.slotKey i) ≠ 0
  inj : ∀ i ∈ l, ∀ j ∈ l, s.slotKey i = s.slotKey j → i = j

def Kernel.clearBit (s : Kernel) (k : Index) : Kernel :=
  s.setPte s.proc.pgdir k (s.pte s.proc.pgdir k &&& ~~~pteA)

def Kernel.clearBits (s : Kernel) (ks : List Index) : Kernel := ks.foldl Kernel.clearBit s

section Clearing
variable {c : Config} {s : Kernel} {k : Index}

theorem has_pteA_cleared (w : Word) : has (w &&& ~~~pteA) pteA = false := by
  have hzero : w &&& ~~~pteA &&& pteA = 0#32 := by
    rw [BitVec.and_assoc,show ~~~pteA &&& pteA = 0#32 by decide,BitVec.and_zero]
  rw [has,hzero]
  rfl

theorem clearBit_spec (hw : Wf c {s.proc.pgdir} s) (hk : s.pte s.proc.pgdir k ≠ 0) :
    Wf c {s.proc.pgdir} (s.clearBit k) ∧ (s.clearBit k).pte s.proc.pgdir k = s.pte s.proc.pgdir k &&& ~~~pteA ∧
      ∀ k', k' ≠ k → (s.clearBit k).pte s.proc.pgdir k' = s.pte s.proc.pgdir k' := by
  obtain ⟨t,ht⟩ := table_of_pte_ne hk
  refine ⟨(hw.clear rfl ht).wf,hw.setPte_same rfl ht,fun k' hk' => ?_⟩
  exact (hw.same_setPte rfl).entry _ rfl k' (by simpa using hk')

/-- Clearing access bits changes the entries of those pages, and only their access bits. -/
theorem clearBits_spec {ks : List Index} (hw : Wf c {s.proc.pgdir} s) (hks : ∀ k ∈ ks, s.pte s.proc.pgdir k ≠ 0)
    (hnd : ks.Nodup) :
    Wf c {s.proc.pgdir} (s.clearBits ks) ∧ (s.clearBits ks).proc = s.proc ∧
      ∀ k, (s.clearBits ks).pte s.proc.pgdir k =
        if k ∈ ks then s.pte s.proc.pgdir k &&& ~~~pteA else s.pte s.proc.pgdir k := by
  induction ks generalizing s with
  | nil => exact ⟨hw,rfl,fun k => rfl⟩
  | cons k₀ ks ih =>
    obtain ⟨hw₁,hself,hother⟩ := clearBit_spec hw (hks k₀ List.mem_cons_self)
    obtain ⟨hk₀,hnd'⟩ := List.nodup_cons.mp hnd
    have hks' : ∀ k ∈ ks, (s.clearBit k₀).pte s.proc.pgdir k ≠ 0 := by
      intro k hk
      rw [hother k (ne_of_mem_of_not_mem hk hk₀)]
      exact hks k (List.mem_cons_of_mem _ hk)
    obtain ⟨hw',hproc,hpte⟩ := ih (s := s.clearBit k₀) hw₁ hks' hnd'
    refine ⟨hw',hproc,fun k => (hpte k).trans ?_⟩
    change (if k ∈ ks then (s.clearBit k₀).pte s.proc.pgdir k &&& ~~~pteA
      else (s.clearBit k₀).pte s.proc.pgdir k) = _
    by_cases hk : k = k₀
    · rw [hk,if_neg hk₀,hself,if_pos List.mem_cons_self]
    · rw [hother k hk]
      simp [hk]

theorem updateAccessBitProc_eq {va : ℕ} (h : s.pte s.proc.pgdir (vpn va) ≠ 0) :
    updateAccessBitProc va s = .ok (has (s.pte s.proc.pgdir (vpn va)) pteA,s.clearBit (vpn va)) := by
  obtain ⟨t,ht⟩ := table_of_pte_ne h
  simp only [updateAccessBitProc,walkpgdir_of_table ht,readPte_eq ht,writePte_eq ht]
  exact if_neg h

theorem ListsPages.sample {l done post : List Slot} {i : Slot} {bit : ℕ → Kernel → Except Fault (Bool × Kernel)}
    (hbit : ∀ {t : Kernel} {va : ℕ}, t.pte t.proc.pgdir (vpn va) ≠ 0 →
      bit va t = .ok (has (t.pte t.proc.pgdir (vpn va)) pteA,t.clearBit (vpn va)))
    (hw : Wf c {s.proc.pgdir} s) (hl : ListsPages s l) (hnd : l.Nodup) (heq : l = done ++ i :: post) :
    bit (s.slotAddr i) (s.clearBits (done.map s.slotKey)) =
      .ok (s.accessed i,s.clearBits ((done ++ [i]).map s.slotKey)) := by
  subst heq
  have hmem : ∀ {j}, j ∈ done → j ∈ done ++ i :: post := fun hj => List.mem_append_left _ hj
  have hi : i ∈ done ++ i :: post := by simp
  have hks : ∀ k ∈ done.map s.slotKey, s.pte s.proc.pgdir k ≠ 0 := by
    intro k hk
    obtain ⟨j,hj,rfl⟩ := List.mem_map.mp hk
    exact hl.entry j (hmem hj)
  have hnd' : (done.map s.slotKey).Nodup :=
    List.Nodup.map_on (fun j hj k hk => hl.inj j (hmem hj) k (hmem hk)) (List.nodup_append.mp hnd).1
  obtain ⟨-,hproc,hpte⟩ := clearBits_spec hw hks hnd'
  have hnot : s.slotKey i ∉ done.map s.slotKey := by
    intro hm
    obtain ⟨j,hj,heq⟩ := List.mem_map.mp hm
    obtain rfl := hl.inj j (hmem hj) i hi heq
    exact (List.nodup_append.mp hnd).2.2 j hj j List.mem_cons_self rfl
  have hkeep := hpte (s.slotKey i)
  rw [if_neg hnot,← hproc] at hkeep
  have hne : (s.clearBits (done.map s.slotKey)).pte (s.clearBits (done.map s.slotKey)).proc.pgdir
      (vpn (s.slotAddr i)) ≠ 0 := by
    rw [← Kernel.slotKey,hkeep,hproc]
    exact hl.entry i hi
  rw [hbit hne,← Kernel.slotKey,hkeep,hproc,Kernel.accessed,List.map_append,Kernel.clearBits,Kernel.clearBits,
    List.foldl_append]
  rfl

theorem listsPages_of_residents {l : List Slot}
    (hres : ∀ i a, s.proc.pages.va i = some a → UserPage a ∧ has (s.pte s.proc.pgdir (vpn a)) pteP = true)
    (honce : ∀ i j a, s.proc.pages.va i = some a → s.proc.pages.va j = some a → i = j)
    (hl : ∀ i ∈ l, s.proc.pages.va i ≠ none) : ListsPages s l := by
  have haddr : ∀ i ∈ l, s.proc.pages.va i = some (s.slotAddr i) := by
    intro i hi
    obtain ⟨a,ha⟩ := Option.ne_none_iff_exists'.mp (hl i hi)
    rw [Kernel.slotAddr,ha]
    rfl
  refine ⟨fun i hi h0 => ?_,fun i hi j hj heq => ?_⟩
  · have hp := (hres i _ (haddr i hi)).2
    rw [← Kernel.slotKey,h0] at hp
    cases hp
  · have hsame : s.slotAddr j = s.slotAddr i := by
      by_contra hne
      exact (hres i _ (haddr i hi)).1.vpn_ne (hres j _ (haddr j hj)).1 hne heq.symm
    exact honce i j _ (haddr i hi) (hsame ▸ haddr j hj)

theorem Consistent.listsPages {Y : Set ℕ} {μ : ℕ → Page} {α : ℕ → Bool → Bool} {l : List Slot}
    (h : Consistent c Y μ α s) (hl : ∀ i ∈ l, s.proc.pages.va i ≠ none) : ListsPages s l :=
  listsPages_of_residents (fun i a hi => ⟨h.space.user a (Or.inl ⟨i,hi⟩),h.space.present a (Or.inl ⟨i,hi⟩)⟩) h.once.va hl

end Clearing

end Xv6Paging
