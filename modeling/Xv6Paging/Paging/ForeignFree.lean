import Xv6Paging.Paging.Release

/-! # Freeing a foreign address space

`freevm` takes a page directory, but the `deallocuvm` it calls looks addresses up in the page
arrays of the running process. It leaves those arrays alone only if the two address spaces
share no listed address.
-/
namespace Xv6Paging.ForeignFree
open WordPage PageTree

/-- The paging metadata of a process: both arrays, the queue's ends and the two counters. -/
structure SameMetadata (p p' : ProcPages) : Prop where
  va : p'.va = p.va
  age : p'.age = p.age
  next : p'.next = p.next
  prev : p'.prev = p.prev
  diskVa : p'.diskVa = p.diskVa
  diskLocation : p'.diskLocation = p.diskLocation
  head : p'.head = p.head
  tail : p'.tail = p.tail
  pagesInMemoryCounter : p'.pagesInMemoryCounter = p.pagesInMemoryCounter
  pagesInSwapfileCounter : p'.pagesInSwapfileCounter = p.pagesInSwapfileCounter

/-- The caller lists no page that is present, or swapped out, in `d`. -/
def Unshared (s : Kernel) (d : Frame) : Prop :=
  ∀ a, pgSize ∣ a → a < kernBase →
    (has (s.pte d (vpn a)) pteP = true → ∀ i, s.proc.pages.va i ≠ some a) ∧
    (has (s.pte d (vpn a)) pteP = false → has (s.pte d (vpn a)) ptePG = true →
      ∀ i, s.proc.pages.diskVa i ≠ some a)

variable {c : Config} {s : Kernel} {d : Frame}

theorem forgetPage_unshared (h : Unshared s d) {own : Bool} {b : Build} {a : ℕ} (ha : pgSize ∣ a)
    (hlt : a < kernBase ∨ s.table d (vpn a) = none) :
    forgetPage b own a (s.pte d (vpn a)) s.proc.pages = (s.proc.pages,0) := by
  rcases hlt with hlt | hnone
  · exact forgetPage_of_unlisted (h a ha hlt).1 (h a ha hlt).2
  · rw [pte_of_no_table hnone]
    simp [forgetPage,has]

theorem freevm_of_unshared (hw : Wf c {d} s) (h : Unshared s d) :
    ∃ s', freevm c d s = .ok s' ∧ s'.proc.pages = s.proc.pages := by
  have hspec := freevm_spec (M := fun _ p => p = s.proc.pages) (E := fun _ => False) hw rfl
    (fun b p hb _ hlt hp => ?_) rfl
  · obtain ⟨s',hs,-,-,-,-,-,hp⟩ := Outcome.total_iff.mp hspec
    exact ⟨s',hs,hp⟩
  · subst hp
    rw [forgetPage_unshared h hb hlt]
    exact .ok rfl

theorem freevm_forgotten (hb : c.build ≠ .none) (hw : Wf c {d} s) {s' : Kernel}
    (hs : freevm c d s = .ok s') :
    ∃ e, kernBase ≤ e ∧ Forgotten s d s.proc.pages e s'.proc.pages := by
  have hspec := freevm_spec (M := Forgotten s d s.proc.pages) (E := fun _ => True) hw rfl
    (fun b p hdvd _ _ hp => ?_) (.refl_zero s d s.proc.pages)
  · exact (hspec.of_ok hs).2.2.2
  · by_cases hf : 1 < (forgetPage c.build (s.proc.pgdir = d) b (s.pte d (vpn b)) p).2
    · rw [checkFound,if_pos hf]
      exact .error trivial
    · rw [checkFound,if_neg hf]
      exact .ok (hp.step hb hdvd)

/-- Freeing an address space leaves the caller's paging metadata alone exactly when the caller lists no
address that is present, or swapped out, in the freed one. -/
theorem freevm_keeps_metadata_iff (c : Config) (hb : c.build ≠ .none) (s : Kernel) (d : Frame)
    (hw : Wf c {d} s) :
    (∃ s', freevm c d s = .ok s' ∧ SameMetadata s.proc.pages s'.proc.pages) ↔ Unshared s d := by
  constructor
  · rintro ⟨s',hs,hm⟩ a ha hlt
    obtain ⟨e,he,hf⟩ := freevm_forgotten hb hw hs
    refine ⟨fun hp i hi => ?_,fun hp hg i hi => ?_⟩
    · exact hf.resident a ha (by omega) hlt hp i (by rw [hm.va,hi])
    · exact hf.swapped a ha (by omega) hlt hp hg i (by rw [hm.diskVa,hi])
  · intro h
    obtain ⟨s',hs,hp⟩ := freevm_of_unshared hw h
    refine ⟨s',hs,?_⟩
    rw [hp]
    exact ⟨rfl,rfl,rfl,rfl,rfl,rfl,rfl,rfl,rfl,rfl⟩

def sampleFree (a : ℕ) : Kernel :=
  (Kernel.blank 0x3ff [0x401,0x402]
    {ProcPages.init .nfua with va := fun i => if i = 0 then some a else none}).mapZero 0x400 0x401 0x402

theorem wf_mapZero_blank (pgdir : Frame) (pages : ProcPages) :
    Wf (sampleConfig .nfua) {0x400} ((Kernel.blank pgdir [0x401,0x402] pages).mapZero 0x400 0x401 0x402) := by
  refine (wf_blank (by decide) ?_).mapZero rfl blank_table rfl
  intro f hf
  simp only [List.mem_cons,List.not_mem_nil,or_false] at hf
  rcases hf with rfl | rfl | rfl <;> exact ⟨by decide,by decide⟩

theorem wf_sampleFree (a : ℕ) : Wf (sampleConfig .nfua) {0x400} (sampleFree a) := wf_mapZero_blank _ _

theorem listedOnce_sampleFree (a : ℕ) : ListedOnce (sampleFree a).proc.pages := by
  refine ⟨fun i j b hi hj => ?_,fun i j b hi => by cases hi⟩
  change (if i = 0 then some a else none) = some b at hi
  change (if j = 0 then some a else none) = some b at hj
  split at hi
  · split at hj
    · simp_all
    · cases hj
  · cases hi

/-- The caller lists the page at 4096 only. -/
theorem freevm_keeps_metadata_unshared :
    ∃ s', freevm (sampleConfig .nfua) 0x400 (sampleFree 4096) = .ok s' ∧
      SameMetadata (sampleFree 4096).proc.pages s'.proc.pages := by
  refine (freevm_keeps_metadata_iff (sampleConfig .nfua) (by decide) (sampleFree 4096) 0x400
    (wf_sampleFree 4096)).mpr fun a _ _ => ⟨fun hp i hi => ?_,fun _ _ i hi => by cases hi⟩
  have ha : a = 4096 := by
    simp only [sampleFree] at hi
    change (if i = 0 then some 4096 else none) = some a at hi
    split at hi
    · exact (Option.some.inj hi).symm
    · cases hi
  subst ha
  exact absurd hp (by decide)

/-- The page at 0 is taken from `memory_pg_arr` although the caller still has it. -/
theorem freevm_forgets_callers_page :
    ∃ s', freevm (sampleConfig .nfua) 0x400 (sampleFree 0) = .ok s' ∧
      (sampleFree 0).proc.pgdir ≠ 0x400 ∧ (sampleFree 0).proc.pages.va 0 = some 0 ∧
      s'.proc.pages.va 0 = none := by
  have hl := listedOnce_sampleFree 0
  obtain ⟨s',hs,-,-,-,e,he,-,hf⟩ := freevm_of_listedOnce (by decide) (wf_sampleFree 0) rfl hl
  refine ⟨s',hs,by decide,rfl,?_⟩
  cases hv : s'.proc.pages.va 0 with
  | none => rfl
  | some a =>
    have h0 := hf.va 0 a hv
    obtain rfl : 0 = a := Option.some.inj h0
    have hk : 0 < kernBase := by decide
    exact (hf.resident 0 (by decide) (hk.trans_le he) hk (by decide) 0 hv).elim

end Xv6Paging.ForeignFree
