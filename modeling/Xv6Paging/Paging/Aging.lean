import Xv6Paging.Library.BitHistory
import Xv6Paging.Paging.AccessBits
import Xv6Paging.Paging.UserMemory

/-! # Aging

In the NFUA and LAPA builds every pass of the scheduler shifts the access bits of the resident pages into their ages.
An age is therefore the history of the page's samples since it was inserted, the most recent one at the top, and the
two selection algorithms choose a page by its history.
-/
namespace Xv6Paging.Aging
open WordPage PageTree BitHistory Function

/-! ## Passes of the scheduler -/

section Pass
variable {c : Config} {s : Kernel}

def shifted (age : Word) (b : Bool) : Word := (age >>> 1) ||| (if b then 1#32 <<< 31 else 0#32)

/-- The arrays after the slots of `done` have been sampled. -/
def agedPages (s : Kernel) (done : List Slot) : ProcPages :=
  {s.proc.pages with age := fun i =>
    if i ∈ done.filter (fun i => (s.proc.pages.va i).isSome) then shifted (s.proc.pages.age i) (s.accessed i)
    else s.proc.pages.age i}

def keysOf (s : Kernel) (l : List Slot) : List Index :=
  (l.filter fun i => (s.proc.pages.va i).isSome).map s.slotKey

/-- The process is paged, and the slots in use list different pages with an entry in the page table. -/
structure Sampled (c : Config) (s : Kernel) : Prop where
  paged : s.proc.unpaged = false
  wf : Wf c {s.proc.pgdir} s
  lists : ListsPages s (occupiedSlots s.proc.pages)

theorem agedPages_age_step {done : List Slot} {i : Slot} (hi : i ∉ done) (hv : s.proc.pages.va i ≠ none) :
    update (agedPages s done).age i (shifted ((agedPages s done).age i) (s.accessed i)) =
      (agedPages s (done ++ [i])).age := by
  have hsome : (s.proc.pages.va i).isSome = true := Option.isSome_iff_ne_none.mpr hv
  funext j
  by_cases hj : j = i
  · subst hj
    simp [agedPages,hi,hsome]
  · simp [agedPages,hj]

theorem agePass_eq (h : Sampled c s) : agePass updateAccessBitProc s.proc.pages s =
    .ok (agedPages s (List.finRange 16),s.clearBits (keysOf s (List.finRange 16))) := by
  have hstart : s.proc.pages = agedPages s [] := by simp [agedPages]
  unfold agePass
  nth_rewrite 1 [hstart]
  refine foldlM_eq_ok (fun done => (agedPages s done,s.clearBits (keysOf s done))) fun done i todo hall => ?_
  have hnd : (done ++ i :: todo).Nodup := hall ▸ List.nodup_finRange 16
  have hi : i ∉ done := fun hm => (List.nodup_append.mp hnd).2.2 i hm i List.mem_cons_self rfl
  have hva : (agedPages s done).va i = s.proc.pages.va i := rfl
  dsimp only
  rw [hva]
  cases hv : s.proc.pages.va i with
  | none =>
    have hfilter : (done ++ [i]).filter (fun i => (s.proc.pages.va i).isSome) =
        done.filter fun i => (s.proc.pages.va i).isSome := by simp [hv]
    rw [agedPages,keysOf,agedPages,keysOf,hfilter]
  | some a =>
    have hne : s.proc.pages.va i ≠ none := by simp [hv]
    have hsplit : occupiedSlots s.proc.pages = done.filter (fun i => (s.proc.pages.va i).isSome) ++
        i :: todo.filter fun i => (s.proc.pages.va i).isSome := by
      rw [occupiedSlots,hall]
      simp [hv]
    have hbit := h.lists.sample updateAccessBitProc_eq h.wf occupiedSlots_nodup hsplit
    have haddr : s.slotAddr i = a := by
      rw [Kernel.slotAddr,hv]
      rfl
    have hkeys : (done ++ [i]).filter (fun i => (s.proc.pages.va i).isSome) =
        done.filter (fun i => (s.proc.pages.va i).isSome) ++ [i] := by simp [hv]
    rw [haddr] at hbit
    have hage := agedPages_age_step hi hne
    have hshift : shifted ((agedPages s done).age i) (s.accessed i) =
        if s.accessed i then (agedPages s done).age i >>> 1 ||| 1#32 <<< 31 else (agedPages s done).age i >>> 1 := by
      cases s.accessed i <;> simp [shifted]
    simp only [keysOf,hbit,hkeys]
    rw [← hshift,hage]
    rfl

theorem schedulerPass_eq (hb : c.build.Aging) (h : Sampled c s) :
    schedulerPass c s = .ok ((s.clearBits (keysOf s (List.finRange 16))).setPages (agedPages s (List.finRange 16))) := by
  unfold schedulerPass
  rw [if_neg (by rw [h.paged]; decide)]
  obtain hb | hb := hb
  · simp only [hb,agePass_eq h]
    rfl
  · simp only [hb,agePass_eq h]
    rfl

end Pass

/-! ## Runs -/

/-- The samples of the page in every slot since it was inserted, the most recent one first. -/
abbrev Hist := Slot → List Bool

/-- What happens to the pages of a process. Between these steps everything but the slots and their ages may change. -/
inductive Step (c : Config) : Kernel × Hist → Kernel × Hist → Prop
  | insert {s : Kernel} {h : Hist} {a : ℕ} {i : Slot} {p : ProcPages} :
      updateMemory c.build s.proc.pages a = .ok (i,p) → Step c (s,h) (s.setPages p,update h i [])
  | evict {s s' : Kernel} {h : Hist} {tmp : Slot} : selectPageToRemove c.build s = .ok (tmp,s') →
      Step c (s,h) (s'.setPages (s'.proc.pages.vacate tmp),h)
  | dealloc {s : Kernel} {h : Hist} (own : Bool) (a : ℕ) :
      Step c (s,h) (s.setPages (forgetResident (defaultAge c.build) own a s.proc.pages).1,h)
  | world {s s' : Kernel} {h : Hist} : s'.proc.pages.va = s.proc.pages.va → s'.proc.pages.age = s.proc.pages.age →
      Step c (s,h) (s',h)
  | pass {s s' : Kernel} {h : Hist} : Sampled c s → schedulerPass c s = .ok s' →
      Step c (s,h) (s',fun i => if s.proc.pages.va i ≠ none then s.accessed i :: h i else h i)

def freshBit : Build → Bool
  | .lapa => true
  | _ => false

/-- The ages of the pages are their histories. -/
def Remembers (b : Build) (p : ProcPages) (h : Hist) : Prop :=
  ∀ i, p.va i ≠ none → Holds (p.age i) (freshBit b) (h i)

section Runs
variable {c : Config} {s s' : Kernel} {h h' : Hist} {b : Build} {p p' : ProcPages}

theorem holds_defaultAge (hb : b.Aging) : Holds (defaultAge b) (freshBit b) [] := by
  obtain rfl | rfl := hb
  · intro j _
    simp [defaultAge,freshBit]
  · have hbits : ∀ j < 32, (0xffffffff#32).getLsbD (32-1-j) = true := by decide
    exact hbits

theorem Remembers.of_le (hr : Remembers b p h)
    (hle : ∀ i, p'.va i ≠ none → p.va i ≠ none ∧ p'.age i = p.age i) : Remembers b p' h := by
  intro i hi
  obtain ⟨hi',hage⟩ := hle i hi
  rw [hage]
  exact hr i hi'

theorem Remembers.insert (hb : b.Aging) (hr : Remembers b p h) {a : ℕ} {i : Slot}
    (hu : updateMemory b p a = .ok (i,p')) : Remembers b p' (update h i []) := by
  have harray {msg : String} (hu' : updateMemoryArray msg (defaultAge b) p a = .ok (i,p')) :
      Remembers b p' (update h i []) := by
    unfold updateMemoryArray at hu'
    cases hf : firstFree p.va with
    | none => simp [hf] at hu'
    | some k =>
      simp only [hf,Except.ok.injEq,Prod.mk.injEq] at hu'
      obtain ⟨rfl,rfl⟩ := hu'
      intro j hj
      by_cases hjk : j = k
      · subst hjk
        simp only [ProcPages.occupy,update_self]
        exact holds_defaultAge hb
      · simp only [ProcPages.occupy,update_of_ne hjk] at hj ⊢
        exact hr j hj
  obtain rfl | rfl := hb
  · exact harray hu
  · exact harray hu

theorem forgetResident_age {age : Word} {own : Bool} {a : ℕ} {i : Slot}
    (hi : (forgetResident age own a p).1.va i ≠ none) :
    p.va i ≠ none ∧ (forgetResident age own a p).1.age i = p.age i := by
  have hgen (l : List Slot) (q : ProcPages × ℕ) :
      (ArrayScan.scan ProcPages.va (freeSlot age own) (some a) l q).1.va i ≠ none →
      q.1.va i ≠ none ∧ (ArrayScan.scan ProcPages.va (freeSlot age own) (some a) l q).1.age i = q.1.age i := by
    induction l generalizing q with
    | nil => exact fun hq => ⟨hq,rfl⟩
    | cons j l ih =>
      rw [ArrayScan.scan_cons]
      intro hq
      by_cases hj : q.1.va j = some a
      · rw [if_pos hj] at hq ⊢
        obtain ⟨hva,hage⟩ := ih _ hq
        have hne : i ≠ j := by
          rintro rfl
          exact hva (freeSlot_va_self age own q.1 i)
        rw [freeSlot_va_of_ne age own q.1 j i hne] at hva
        refine ⟨hva,hage.trans ?_⟩
        simp only [freeSlot,unlinkFreed_eq,update_of_ne hne]
      · rw [if_neg hj] at hq ⊢
        exact ih _ hq
  exact hgen _ (p,0) hi

theorem Remembers.pass (hr : Remembers b s.proc.pages h) :
    Remembers b (agedPages s (List.finRange 16))
      (fun i => if s.proc.pages.va i ≠ none then s.accessed i :: h i else h i) := by
  intro i hi
  have hi' : s.proc.pages.va i ≠ none := hi
  have hmem : i ∈ (List.finRange 16).filter fun i => (s.proc.pages.va i).isSome := mem_occupiedSlots.mpr hi'
  simp only [agedPages,if_pos hmem,if_pos hi']
  exact (hr i hi').shift (s.accessed i)

theorem selectPageToRemove_same (hb : b.Aging) {tmp : Slot} (hsel : selectPageToRemove b s = .ok (tmp,s')) : s' = s := by
  obtain rfl | rfl := hb
  · obtain ⟨i,-,hi⟩ := bind_eq_ok hsel
    cases hi
    rfl
  · obtain ⟨i,-,hi⟩ := bind_eq_ok hsel
    cases hi
    rfl

theorem step_remembers (hb : c.build.Aging) (hs : Step c (s,h) (s',h'))
    (hr : Remembers c.build s.proc.pages h) : Remembers c.build s'.proc.pages h' := by
  cases hs with
  | insert hu => exact hr.insert hb hu
  | @evict _ s₁ _ tmp hsel =>
    obtain rfl := selectPageToRemove_same hb hsel
    refine hr.of_le fun i hi => ?_
    have hi' : update s₁.proc.pages.va tmp none i ≠ none := hi
    have hne : i ≠ tmp := by
      rintro rfl
      exact hi' (update_self _ _ _)
    rw [update_of_ne hne] at hi'
    exact ⟨hi',rfl⟩
  | dealloc own a => exact hr.of_le fun i hi => forgetResident_age hi
  | world hva hage => exact hr.of_le fun i hi => ⟨hva ▸ hi,by rw [hage]⟩
  | pass hsam hpass =>
    rw [schedulerPass_eq hb hsam] at hpass
    cases hpass
    exact hr.pass

theorem run_remembers (hb : c.build.Aging) {s₀ : Kernel} (h₀ : s₀.proc.pages = ProcPages.init c.build)
    (hrun : Relation.ReflTransGen (Step c) (s₀,fun _ => []) (s,h)) : Remembers c.build s.proc.pages h := by
  have hgen {x : Kernel × Hist} (hx : Relation.ReflTransGen (Step c) (s₀,fun _ => []) x) :
      Remembers c.build x.1.proc.pages x.2 := by
    induction hx with
    | refl =>
      intro i hi
      rw [h₀] at hi
      exact (hi rfl).elim
    | tail _ hstep ih => exact step_remembers hb hstep ih
  exact hgen hrun

theorem pass_clears (hb : c.build.Aging) (hs : Sampled c s) :
    ∃ s', schedulerPass c s = .ok s' ∧
      ∀ i, s.proc.pages.va i ≠ none → has (s'.pte s.proc.pgdir (s.slotKey i)) pteA = false := by
  refine ⟨_,schedulerPass_eq hb hs,fun i hi => ?_⟩
  have hkeys : ∀ k ∈ keysOf s (List.finRange 16), s.pte s.proc.pgdir k ≠ 0 := by
    intro k hk
    obtain ⟨j,hj,rfl⟩ := List.mem_map.mp hk
    exact hs.lists.entry j hj
  have hnd : (keysOf s (List.finRange 16)).Nodup :=
    List.Nodup.map_on hs.lists.inj (occupiedSlots_nodup (p := s.proc.pages))
  have hpte := (clearBits_spec hs.wf hkeys hnd).2.2 (s.slotKey i)
  have hmem : s.slotKey i ∈ keysOf s (List.finRange 16) := List.mem_map_of_mem (mem_occupiedSlots.mpr hi)
  rw [if_pos hmem] at hpte
  exact (congrArg (has · pteA) hpte).trans (has_pteA_cleared _)

end Runs

/-! ## The two builds -/

section Builds
variable {c : Config} {s₀ s : Kernel} {h : Hist}

/-- NFUA: a pass clears what it samples, and `nfu_alg` returns the first of the pages whose latest 32
samples are lexicographically least, read from the most recent one on. -/
theorem nfua_evicts_by_history (hb : c.build = .nfua) (h₀ : s₀.proc.pages = ProcPages.init .nfua)
    (hrun : Relation.ReflTransGen (Step c) (s₀,fun _ => []) (s,h)) :
    (∀ i, s.proc.pages.va i ≠ none → ∀ j < 32, (s.proc.pages.age i).getLsbD (31-j) = (h i).getD j false) ∧
    (Sampled c s → ∃ s', schedulerPass c s = .ok s' ∧
      ∀ i, s.proc.pages.va i ≠ none → has (s'.pte s.proc.pgdir (s.slotKey i)) pteA = false) ∧
    ((∃ i, s.proc.pages.va i ≠ none) →
      ∃ i, nfuAlg s.proc.pages = .ok i ∧ FirstMin s.proc.pages (fun i => recent false 32 (h i)) i) := by
  have haging : c.build.Aging := Or.inl hb
  have hr := run_remembers haging (hb ▸ h₀) hrun
  rw [hb] at hr
  refine ⟨hr,pass_clears haging,fun hex => ?_⟩
  obtain ⟨i,hi,hmin⟩ := nfuAlg_firstMin hex
  refine ⟨i,hi,hmin.used,fun j hj => ?_,fun j hlt hj => ?_⟩
  · exact ((hr i hmin.used).le_iff (hr j hj)).mp (hmin.least j hj)
  · exact ((hr i hmin.used).lt_iff (hr j hj)).mp (hmin.first j hlt hj)

theorem has_bit (x : Word) {i : ℕ} (hi : i < 32) : has (1#32 <<< i) x = x.getLsbD i := by
  rw [has,BitVec.and_comm,← BitVec.twoPow_eq,BitVec.and_twoPow]
  cases hx : x.getLsbD i with
  | false => simp
  | true =>
    have hne : BitVec.twoPow 32 i ≠ 0#32 := by
      intro h0
      have hb := congrArg (BitVec.getLsbD · i) h0
      simp [hi] at hb
    simpa using hne

theorem countOnes_eq (x : Word) : countOnes x = ((List.range 32).filter x.getLsbD).length := by
  have hgen (l : List ℕ) (n : ℕ) (hl : ∀ i ∈ l, i < 32) :
      l.foldl (fun res i => if has (1#32 <<< i) x then res+1 else res) n = n+(l.filter x.getLsbD).length := by
    induction l generalizing n with
    | nil => rfl
    | cons i l ih =>
      rw [List.foldl_cons,has_bit x (hl i List.mem_cons_self),ih _ fun j hj => hl j (List.mem_cons_of_mem _ hj)]
      cases hx : x.getLsbD i with
      | false => simp [hx]
      | true =>
        simp [hx]
        omega
  rw [countOnes,hgen _ 0 fun i hi => List.mem_range.mp hi,Nat.zero_add]

/-- LAPA: the first of the pages with the least history among those with the fewest set samples in the
latest 32, where what lies before the insertion of a page counts as set. -/
theorem lapa_evicts_least_accessed (hb : c.build = .lapa) (h₀ : s₀.proc.pages = ProcPages.init .lapa)
    (hrun : Relation.ReflTransGen (Step c) (s₀,fun _ => []) (s,h)) (hex : ∃ i, s.proc.pages.va i ≠ none) :
    ∃ i, lapaAlg s.proc.pages = .ok i ∧ FirstMin s.proc.pages
      (fun i => toLex ((recent true 32 (h i)).count true,value (recent true 32 (h i)))) i := by
  have hr := run_remembers (Or.inr hb) (hb ▸ h₀) hrun
  rw [hb] at hr
  obtain ⟨i,hi,hmin⟩ := lapaAlg_firstMin hex
  have hkey : ∀ j, s.proc.pages.va j ≠ none →
      toLex ((recent true 32 (h j)).count true,value (recent true 32 (h j))) =
        toLex (countOnes (s.proc.pages.age j),(s.proc.pages.age j).toNat) := by
    intro j hj
    rw [countOnes_eq,(hr j hj).count_eq,(hr j hj).toNat_eq]
    rfl
  refine ⟨i,hi,hmin.used,fun j hj => ?_,fun j hlt hj => ?_⟩
  · rw [hkey i hmin.used,hkey j hj]
    exact hmin.least j hj
  · rw [hkey i hmin.used,hkey j hj]
    exact hmin.first j hlt hj

end Builds

/-! ## A sampled process -/

section Sample
variable {c : Config} {s : Kernel} {b : Build}

theorem Consistent.sampled {Y : Set ℕ} {μ : ℕ → Page} {α : ℕ → Bool → Bool} (h : Consistent c Y μ α s)
    (hpaged : s.proc.unpaged = false) {q : ProcPages} (hq : ∀ i, q.va i ≠ none → q.va i = s.proc.pages.va i) :
    Sampled c (s.setPages q) := by
  have hkey : ∀ i ∈ occupiedSlots q, (s.setPages q).slotKey i = s.slotKey i :=
    fun i hi => congrArg (fun o => vpn (vaAddr o)) (hq i (mem_occupiedSlots.mp hi))
  have hl : ListsPages s (occupiedSlots q) := h.listsPages fun i hi => by
    have hne := mem_occupiedSlots.mp hi
    exact hq i hne ▸ hne
  refine ⟨hpaged,h.space.wf,fun i hi => ?_,fun i hi j hj heq => ?_⟩
  · rw [hkey i hi]
    exact hl.entry i hi
  · rw [hkey i hi,hkey j hj] at heq
    exact hl.inj i hi j hj heq

theorem updateMemory_twice (hb : b.Aging) : ∃ p q, updateMemory b (ProcPages.init b) 0 = .ok (0,p) ∧
    updateMemory b p 4096 = .ok (1,q) ∧ ∀ i, q.va i = if i = 0 then some 0 else if i = 1 then some 4096 else none := by
  have hva : ∀ i : Slot, update (update (fun _ => none) 0 (some 0)) 1 (some 4096) i =
      if i = 0 then some 0 else if i = 1 then some 4096 else none := by decide
  rcases hb with rfl | rfl
  · exact ⟨_,_,rfl,rfl,hva⟩
  · exact ⟨_,_,rfl,rfl,hva⟩

theorem insert_twice (hb : b.Aging) (s : Kernel) : ∃ q : ProcPages,
    (∀ i, q.va i = if i = 0 then some 0 else if i = 1 then some 4096 else none) ∧
    ∀ c : Config, c.build = b →
      Relation.ReflTransGen (Step c) (s.setPages (ProcPages.init b),fun _ => []) (s.setPages q,fun _ => []) := by
  obtain ⟨p,q,hp,hq,hva⟩ := updateMemory_twice hb
  refine ⟨q,hva,fun c hc => ?_⟩
  subst hc
  have h₁ : Step c (s.setPages (ProcPages.init c.build),fun _ => [])
      (s.setPages p,update (fun _ => []) 0 []) := .insert hp
  have h₂ : Step c (s.setPages p,fun _ => []) (s.setPages q,update (fun _ => []) 1 []) := .insert hq
  rw [update_eq_self_iff.mpr rfl] at h₁ h₂
  exact (Relation.ReflTransGen.single h₁).tail h₂

def accessedSecond (n : ℕ) : Word := if n = 1 then userPerm ||| pteA else userPerm

theorem accessedSecond_addr (n : ℕ) : pteAddr (accessedSecond n) = 0 := by
  rw [accessedSecond]
  split <;> decide

def sampledProcess (b : Build) : Kernel := (fullProcess b accessedSecond).setPages (ProcPages.init b)

theorem accessed_full (b : Build) (i : Slot) : (fullProcess b accessedSecond).accessed i = decide (i.val = 1) := by
  obtain ⟨f,hf⟩ := full_entry b accessedSecond_addr i.isLt
  have hA : (frameAddr f).getLsbD 5 = false := frameAddr_getLsbD f (by decide)
  have hkey : (fullProcess b accessedSecond).slotKey i = vpn (i.val*pgSize) := rfl
  have hdir : (fullProcess b accessedSecond).proc.pgdir = 0x200 := rfl
  rw [Kernel.accessed,hkey,hdir,hf,has_pteA,BitVec.getLsbD_or,BitVec.getLsbD_or,hA,accessedSecond]
  by_cases h1 : i.val = 1
  · rw [if_pos h1,decide_eq_true h1]
    decide
  · rw [if_neg h1,decide_eq_false h1]
    decide

theorem accessed_setPages {q : ProcPages} {i : Slot} (h : q.va i = s.proc.pages.va i) :
    (s.setPages q).accessed i = s.accessed i :=
  congrArg (fun o => has (s.pte s.proc.pgdir (vpn (vaAddr o))) pteA) h

theorem exists_sampledPages (hb : b.Aging) : ∃ s s' h,
    Relation.ReflTransGen (Step (sampleConfig b)) (sampledProcess b,fun _ => []) (s,fun _ => []) ∧
      Sampled (sampleConfig b) s ∧
      Relation.ReflTransGen (Step (sampleConfig b)) (sampledProcess b,fun _ => []) (s',h) ∧
      h 0 = [false] ∧ h 1 = [true] ∧ s'.proc.pages.va 0 ≠ none := by
  obtain ⟨q,hva,hins⟩ := insert_twice hb (fullProcess b accessedSecond)
  have hlisted : ∀ i, q.va i ≠ none → q.va i = (fullPages b).va i := by
    intro i hi
    rw [hva] at hi ⊢
    by_cases h0 : i = 0
    · rw [if_pos h0,h0]
      rfl
    · by_cases h1 : i = 1
      · rw [if_neg h0,if_pos h1,h1]
        rfl
      · rw [if_neg h0,if_neg h1] at hi
        exact absurd rfl hi
  have hs : Sampled (sampleConfig b) ((fullProcess b accessedSecond).setPages q) :=
    Consistent.sampled (full_paged b accessedSecond_addr).consistent rfl hlisted
  have hbit : ∀ i : Slot, q.va i ≠ none →
      ((fullProcess b accessedSecond).setPages q).accessed i = decide (i.val = 1) :=
    fun i hi => (accessed_setPages (hlisted i hi)).trans (accessed_full b i)
  have h0 : q.va 0 ≠ none := by
    rw [hva]
    exact Option.some_ne_none 0
  have h1 : q.va 1 ≠ none := by
    rw [hva]
    exact Option.some_ne_none 4096
  have hins := hins (sampleConfig b) rfl
  refine ⟨_,_,_,hins,hs,hins.tail (.pass hs (schedulerPass_eq hb hs)),?_,?_,h0⟩
  · exact (if_pos h0).trans (congrArg (fun x => [x]) (hbit 0 h0))
  · exact (if_pos h1).trans (congrArg (fun x => [x]) (hbit 1 h1))

end Sample

theorem nfua_evicts_by_history_sampled : ∃ s s' h, Sampled (sampleConfig .nfua) s ∧
    (∃ s₁, schedulerPass (sampleConfig .nfua) s = .ok s₁ ∧
      ∀ i, s.proc.pages.va i ≠ none → has (s₁.pte s.proc.pgdir (s.slotKey i)) pteA = false) ∧
    Relation.ReflTransGen (Step (sampleConfig .nfua)) (sampledProcess .nfua,fun _ => []) (s',h) ∧
    h 0 = [false] ∧ h 1 = [true] ∧ (s'.proc.pages.age 0).getLsbD (31-0) = (h 0).getD 0 false ∧
      ∃ i, nfuAlg s'.proc.pages = .ok i ∧ FirstMin s'.proc.pages (fun i => recent false 32 (h i)) i := by
  obtain ⟨s,s',h,hins,hs,hrun,h0,h1,hva⟩ := exists_sampledPages (b := .nfua) (Or.inl rfl)
  obtain ⟨hage,-,hmin⟩ := nfua_evicts_by_history rfl rfl hrun
  exact ⟨s,s',h,hs,(nfua_evicts_by_history rfl rfl hins).2.1 hs,hrun,h0,h1,hage 0 hva 0 (by decide),hmin ⟨0,hva⟩⟩

theorem lapa_evicts_least_accessed_sampled : ∃ s h,
    Relation.ReflTransGen (Step (sampleConfig .lapa)) (sampledProcess .lapa,fun _ => []) (s,h) ∧
    h 0 = [false] ∧ h 1 = [true] ∧
      ∃ i, lapaAlg s.proc.pages = .ok i ∧ FirstMin s.proc.pages
        (fun i => toLex ((recent true 32 (h i)).count true,value (recent true 32 (h i)))) i := by
  obtain ⟨-,s,h,-,-,hrun,h0,h1,hva⟩ := exists_sampledPages (b := .lapa) (Or.inr rfl)
  exact ⟨s,h,hrun,h0,h1,lapa_evicts_least_accessed rfl rfl hrun ⟨0,hva⟩⟩

end Xv6Paging.Aging
