import Mathlib.Algebra.Order.Ring.Int
import Xv6Paging.Kernel.Config
import Xv6Paging.Library.LinkedCells
import Xv6Paging.Library.Runs

/-! # The frame allocator

All of `kalloc.c`, with the free list as it is stored: a pointer to the first free page, and in
the first word of each free page a pointer to the next one. Pointers are the virtual
addresses of pages. The counters are C `int`s that are never meant to overflow and are
integers here. The history of the system is the pages handed out and not freed since.
-/
namespace Xv6Paging.Kalloc
open LinkedCells

structure Kmem where
  freelist : Option ℕ
  next : ℕ → Option ℕ
  useLock : Bool
  pageCounter : ℤ
  totalFreePages : ℤ

def getfreepages (m : Kmem) : ℤ := m.pageCounter

def getTotalfreePages (m : Kmem) : ℤ := m.totalFreePages

def Freeable (c : Config) (v : ℕ) : Prop := pgSize ∣ v ∧ c.endAddr ≤ v ∧ v < kernBase+phystop

instance freeableDecidable (c : Config) (v : ℕ) : Decidable (Freeable c v) :=
  inferInstanceAs (Decidable (_ ∧ _ ∧ _))

/-- The critical section of `kfree`. -/
def Kmem.push (m : Kmem) (v : ℕ) : Kmem :=
  {m with freelist := some v, next := Function.update m.next v m.freelist, pageCounter := m.pageCounter+1}

def kfree (c : Config) (v : ℕ) (m : Kmem) : Except Fault Kmem :=
  if Freeable c v then .ok (m.push v) else .error (.panic "kfree")

/-- `page_counter` is decremented before the list is tested. -/
def kalloc (m : Kmem) : Option ℕ × Kmem :=
  match m.freelist with
  | none => (none,{m with pageCounter := m.pageCounter-1})
  | some r => (some r,{m with freelist := m.next r, pageCounter := m.pageCounter-1})

/-- The loop of `freerange` from the page at `p`. -/
def freeFrom (c : Config) (vend p : ℕ) (m : Kmem) : Except Fault Kmem :=
  if p+pgSize ≤ vend then
    match kfree c p m with
    | .error e => .error e
    | .ok m => freeFrom c vend (p+pgSize) m
  else .ok m
termination_by vend-p
decreasing_by simp only [pgSize] at *; omega

def freerange (c : Config) (vstart vend : ℕ) (m : Kmem) : Except Fault Kmem :=
  freeFrom c vend (pgRoundUp vstart) m

def rangePages (vstart vend : ℕ) : ℕ := (pgRoundDown vend+2^32-pgRoundUp vstart)%2^32/pgSize

def kinit1 (c : Config) (vstart vend : ℕ) (m : Kmem) : Except Fault Kmem :=
  (freerange c vstart vend {m with useLock := false}).map fun m =>
    {m with totalFreePages := m.totalFreePages+rangePages vstart vend}

def kinit2 (c : Config) (vstart vend : ℕ) (m : Kmem) : Except Fault Kmem :=
  (freerange c vstart vend m).map fun m =>
    {m with useLock := true, totalFreePages := m.totalFreePages+rangePages vstart vend}

structure System where
  kmem : Kmem
  out : List ℕ
  ranges : List (ℕ × ℕ)

def boot : System := ⟨⟨none,fun _ => none,false,0,0⟩,[],[]⟩

inductive Action
  | kinit1 (vstart vend : ℕ)
  | kinit2 (vstart vend : ℕ)
  | kalloc
  | kfree (v : ℕ)
  | write (v : ℕ) (w : Option ℕ)
  deriving DecidableEq

/-- A range of physical memory above the kernel that has not been given before. -/
def Fresh (c : Config) (s : System) (vstart vend : ℕ) : Prop :=
  c.endAddr ≤ vstart ∧ vstart ≤ kernBase+phystop ∧ vend ≤ kernBase+phystop ∧
    ∀ r ∈ s.ranges, vend ≤ r.1 ∨ r.2 ≤ vstart

instance freshDecidable (c : Config) (s : System) (vstart vend : ℕ) : Decidable (Fresh c s vstart vend) :=
  inferInstanceAs (Decidable (_ ∧ _ ∧ _ ∧ _))

/-- A page that is handed out may be freed or written by its owner. -/
def step (c : Config) (s : System) : Action → Option System
  | .kinit1 vstart vend =>
    if Fresh c s vstart vend then
      (kinit1 c vstart vend s.kmem).toOption.map fun m => {s with kmem := m, ranges := (vstart,vend) :: s.ranges}
    else none
  | .kinit2 vstart vend =>
    if Fresh c s vstart vend then
      (kinit2 c vstart vend s.kmem).toOption.map fun m => {s with kmem := m, ranges := (vstart,vend) :: s.ranges}
    else none
  | .kalloc => some {s with kmem := (kalloc s.kmem).2, out := (kalloc s.kmem).1.toList ++ s.out}
  | .kfree v =>
    if v ∈ s.out then (kfree c v s.kmem).toOption.map fun m => {s with kmem := m, out := s.out.erase v}
    else none
  | .write v w =>
    if v ∈ s.out then some {s with kmem := {s.kmem with next := Function.update s.kmem.next v w}}
    else none

/-- The accounting of the allocator: the list has no page twice and none that is handed out, and
`getfreepages` is its length. -/
def Accounted (s : System) : Prop :=
  ∃ l, Follows s.kmem.next s.kmem.freelist l ∧ l.Nodup ∧ s.out.Nodup ∧ (∀ v ∈ l, v ∉ s.out) ∧
    getfreepages s.kmem = l.length ∧ 0 ≤ getfreepages s.kmem ∧
    getfreepages s.kmem ≤ getTotalfreePages s.kmem

def Stocked (s : System) (a : Action) : Prop := a = .kalloc → s.kmem.freelist ≠ none

instance stockedDecidable : ∀ s a, Decidable (Stocked s a) :=
  fun _ _ => inferInstanceAs (Decidable (_ → _))

structure Inv (c : Config) (s : System) (l : List ℕ) : Prop where
  follows : Follows s.kmem.next s.kmem.freelist l
  nodup : (l ++ s.out).Nodup
  freeable : ∀ v ∈ l ++ s.out, Freeable c v
  within : ∀ v ∈ l ++ s.out, ∃ r ∈ s.ranges, r.1 ≤ v ∧ v+pgSize ≤ r.2
  counter : s.kmem.pageCounter = l.length
  total : ((l ++ s.out).length : ℤ) ≤ s.kmem.totalFreePages

variable {c : Config} {s t : System} {l : List ℕ} {m : Kmem}

theorem Inv.accounted (h : Inv c s l) : Accounted s := by
  obtain ⟨hl,hout,hdis⟩ := List.nodup_append.mp h.nodup
  have htotal := h.total
  rw [List.length_append] at htotal
  refine ⟨l,h.follows,hl,hout,?_,h.counter,?_,?_⟩
  · intro v hv hv'
    exact hdis v hv v hv' rfl
  · rw [getfreepages,h.counter]
    omega
  · rw [getfreepages,h.counter,getTotalfreePages]
    omega

theorem inv_boot : Inv c boot [] where
  follows := .null
  nodup := List.nodup_nil
  freeable := by simp [boot]
  within := by simp [boot]
  counter := rfl
  total := le_refl _

theorem kfree_eq {v : ℕ} (hv : Freeable c v) : kfree c v m = .ok (m.push v) := if_pos hv

theorem follows_push (hf : Follows m.next m.freelist l) {v : ℕ} (hv : v ∉ l) :
    Follows (m.push v).next (m.push v).freelist (v :: l) := hf.push hv

theorem Inv.kalloc_some (h : Inv c s l) {r : ℕ} (hr : s.kmem.freelist = some r) :
    ∃ rest, l = r :: rest ∧ Follows s.kmem.next (s.kmem.next r) rest := by
  have hf := h.follows
  rw [hr] at hf
  cases hf with
  | cell hrest => exact ⟨_,rfl,hrest⟩

theorem Inv.kalloc (h : Inv c s l) (hne : s.kmem.freelist ≠ none) (hstep : step c s .kalloc = some t) :
    ∃ l, Inv c t l := by
  obtain ⟨r,hr⟩ := Option.ne_none_iff_exists'.mp hne
  obtain ⟨rest,rfl,hrest⟩ := h.kalloc_some hr
  have hk : Kalloc.kalloc s.kmem = (some r,{s.kmem with
      freelist := s.kmem.next r, pageCounter := s.kmem.pageCounter-1}) := by
    rw [Kalloc.kalloc,hr]
  rw [step,hk] at hstep
  cases hstep
  have hperm : (rest ++ r :: s.out).Perm (r :: rest ++ s.out) := List.perm_middle
  have hcounter := h.counter
  have htotal := h.total
  refine ⟨rest,hrest,hperm.nodup_iff.mpr h.nodup,?_,?_,?_,?_⟩
  · intro v hv
    exact h.freeable v (hperm.subset hv)
  · intro v hv
    exact h.within v (hperm.subset hv)
  · change s.kmem.pageCounter-1 = _
    rw [hcounter,List.length_cons]
    omega
  · change ((rest ++ r :: s.out).length : ℤ) ≤ _
    rw [hperm.length_eq]
    exact htotal

theorem Inv.kfree (h : Inv c s l) {v : ℕ} (hstep : step c s (.kfree v) = some t) : ∃ l, Inv c t l := by
  rw [step] at hstep
  split at hstep
  · next hv =>
    have hfree := h.freeable v (List.mem_append_right l hv)
    rw [kfree_eq hfree] at hstep
    cases hstep
    have hvl : v ∉ l := by
      intro hvl
      exact (List.nodup_append.mp h.nodup).2.2 v hvl v hv rfl
    have hperm : (v :: l ++ s.out.erase v).Perm (l ++ s.out) :=
      List.perm_middle.symm.trans ((List.perm_cons_erase hv).symm.append_left l)
    refine ⟨v :: l,follows_push h.follows hvl,hperm.nodup_iff.mpr h.nodup,?_,?_,?_,?_⟩
    · intro w hw
      exact h.freeable w (hperm.subset hw)
    · intro w hw
      exact h.within w (hperm.subset hw)
    · change s.kmem.pageCounter+1 = _
      rw [h.counter,List.length_cons]
      omega
    · change ((v :: l ++ s.out.erase v).length : ℤ) ≤ _
      rw [hperm.length_eq]
      exact h.total
  · cases hstep

theorem Inv.write (h : Inv c s l) {v : ℕ} {w : Option ℕ} (hstep : step c s (.write v w) = some t) :
    ∃ l, Inv c t l := by
  rw [step] at hstep
  split at hstep
  · next hv =>
    cases hstep
    refine ⟨l,?_,h.nodup,h.freeable,h.within,h.counter,h.total⟩
    refine h.follows.congr fun i hi => Function.update_of_ne ?_ _ _
    rintro rfl
    exact (List.nodup_append.mp h.nodup).2.2 i hi i hv rfl
  · cases hstep

/-- The loop of `freerange` frees the pages from `p` on that end at or before `vend`. -/
theorem freeFrom_spec {vend : ℕ} (hvend : vend ≤ kernBase+phystop) (p : ℕ) (hf : Follows m.next m.freelist l)
    (halign : pgSize ∣ p) (hend : c.endAddr ≤ p) (hnew : ∀ v ∈ l, v < p ∨ vend < v+pgSize) :
    ∃ ps m', freeFrom c vend p m = .ok m' ∧ Follows m'.next m'.freelist (ps ++ l) ∧ ps.Nodup ∧
      (∀ v ∈ ps, Freeable c v ∧ p ≤ v ∧ v+pgSize ≤ vend) ∧ ps.length = (vend-p)/pgSize ∧
      m'.pageCounter = m.pageCounter+ps.length ∧ m'.totalFreePages = m.totalFreePages := by
  have hsize : pgSize = 4096 := rfl
  induction hk : vend-p using Nat.strong_induction_on generalizing p m l with
  | _ k ih =>
    rw [freeFrom]
    by_cases hle : p+pgSize ≤ vend
    · rw [if_pos hle]
      have hfree : Freeable c p := ⟨halign,hend,by omega⟩
      have hpl : p ∉ l := by
        intro hpl
        have hcase := hnew p hpl
        omega
      rw [kfree_eq hfree]
      have hnew' : ∀ v ∈ p :: l, v < p+pgSize ∨ vend < v+pgSize := by
        intro v hv
        rcases List.mem_cons.mp hv with rfl | hv
        · left
          omega
        · have hcase := hnew v hv
          omega
      obtain ⟨ps,m',hok,hfol,hnd,hps,hlen,hcount,htotal⟩ := ih (vend-(p+pgSize)) (by omega) (p+pgSize)
        (follows_push hf hpl) ((Nat.dvd_add_right halign).mpr (Nat.dvd_refl _)) (by omega) hnew' rfl
      refine ⟨ps ++ [p],m',hok,?_,?_,?_,?_,?_,htotal⟩
      · rw [List.append_assoc]
        exact hfol
      · rw [List.nodup_append]
        refine ⟨hnd,List.nodup_singleton p,?_⟩
        intro v hv w hw
        have hv' := (hps v hv).2.1
        rw [List.mem_singleton] at hw
        omega
      · intro v hv
        rcases List.mem_append.mp hv with hv | hv
        · obtain ⟨hvf,hpv,hvv⟩ := hps v hv
          exact ⟨hvf,by omega,hvv⟩
        · rw [List.mem_singleton] at hv
          subst hv
          exact ⟨hfree,le_refl _,hle⟩
      · rw [List.length_append,hlen,List.length_singleton,← hk]
        rw [hsize] at hle ⊢
        omega
      · rw [hcount,List.length_append,List.length_singleton]
        change m.pageCounter+1+_ = _
        push_cast
        omega
    · rw [if_neg hle]
      refine ⟨[],m,rfl,hf,List.nodup_nil,?_,?_,?_,rfl⟩
      · intro v hv
        cases hv
      · rw [List.length_nil,← hk]
        rw [hsize] at hle ⊢
        omega
      · rw [List.length_nil]
        omega

theorem le_pgRoundUp {v : ℕ} (hv : v ≤ kernBase+phystop) : v ≤ pgRoundUp v := by
  have hk : kernBase+phystop = 0x8E000000 := rfl
  simp only [pgRoundUp,pgSize]
  omega

theorem pages_le_rangePages {vstart vend : ℕ} (hvstart : vstart ≤ kernBase+phystop) (hvend : vend ≤ kernBase+phystop) :
    (vend-pgRoundUp vstart)/pgSize ≤ rangePages vstart vend := by
  have hk : kernBase+phystop = 0x8E000000 := rfl
  simp only [pgRoundUp,pgSize,rangePages,pgRoundDown]
  omega

theorem Inv.freerange (h : Inv c s l) {vstart vend : ℕ} (hfresh : Fresh c s vstart vend) :
    ∃ m ps, Kalloc.freerange c vstart vend s.kmem = .ok m ∧
      Inv c ⟨{m with totalFreePages := m.totalFreePages+rangePages vstart vend},s.out,(vstart,vend) :: s.ranges⟩
        (ps ++ l) := by
  obtain ⟨hend,hvstart,hvend,hdis⟩ := hfresh
  have hup := le_pgRoundUp hvstart
  have hnew : ∀ v ∈ l ++ s.out, v < vstart ∨ vend < v+pgSize := by
    intro v hv
    obtain ⟨r,hr,h1,h2⟩ := h.within v hv
    have hsize : pgSize = 4096 := rfl
    have hcase := hdis r hr
    omega
  obtain ⟨ps,m,hok,hfol,hnd,hps,hlen,hcount,htotal⟩ := freeFrom_spec (c := c) hvend (pgRoundUp vstart) h.follows
    (Dvd.intro_left _ rfl) (by omega) (by
      intro v hv
      have hcase := hnew v (List.mem_append_left _ hv)
      omega)
  have hroom := pages_le_rangePages hvstart hvend
  have hold := h.total
  refine ⟨m,ps,hok,hfol,?_,?_,?_,?_,?_⟩
  · rw [List.append_assoc,List.nodup_append]
    refine ⟨hnd,h.nodup,?_⟩
    intro v hv w hw
    have hvr := (hps v hv).2
    have hcase := hnew w hw
    omega
  · intro v hv
    rw [List.append_assoc] at hv
    rcases List.mem_append.mp hv with hv | hv
    · exact (hps v hv).1
    · exact h.freeable v hv
  · intro v hv
    rw [List.append_assoc] at hv
    rcases List.mem_append.mp hv with hv | hv
    · exact ⟨(vstart,vend),List.mem_cons_self,by have := (hps v hv).2; omega,(hps v hv).2.2⟩
    · obtain ⟨r,hr,hvr⟩ := h.within v hv
      exact ⟨r,List.mem_cons_of_mem _ hr,hvr⟩
  · change m.pageCounter = _
    rw [hcount,h.counter,List.length_append]
    push_cast
    omega
  · change _ ≤ m.totalFreePages+(rangePages vstart vend : ℤ)
    rw [htotal,List.append_assoc,List.length_append,hlen]
    push_cast
    omega

theorem Inv.kinit1 (h : Inv c s l) {vstart vend : ℕ} (hstep : step c s (.kinit1 vstart vend) = some t) :
    ∃ l, Inv c t l := by
  rw [step] at hstep
  split at hstep
  · next hfresh =>
    have hunlocked : Inv c {s with kmem := {s.kmem with useLock := false}} l := ⟨h.1,h.2,h.3,h.4,h.5,h.6⟩
    obtain ⟨m,ps,hok,hinv⟩ := hunlocked.freerange hfresh
    rw [Kalloc.kinit1,hok] at hstep
    cases hstep
    exact ⟨_,hinv⟩
  · cases hstep

theorem Inv.kinit2 (h : Inv c s l) {vstart vend : ℕ} (hstep : step c s (.kinit2 vstart vend) = some t) :
    ∃ l, Inv c t l := by
  rw [step] at hstep
  split at hstep
  · next hfresh =>
    obtain ⟨m,ps,hok,hinv⟩ := h.freerange hfresh
    rw [Kalloc.kinit2,hok] at hstep
    cases hstep
    exact ⟨_,⟨hinv.1,hinv.2,hinv.3,hinv.4,hinv.5,hinv.6⟩⟩
  · cases hstep

theorem Inv.step (h : Inv c s l) {a : Action} (hstocked : Stocked s a) (hstep : Kalloc.step c s a = some t) :
    ∃ l, Inv c t l := by
  cases a with
  | kinit1 vstart vend => exact h.kinit1 hstep
  | kinit2 vstart vend => exact h.kinit2 hstep
  | kalloc => exact h.kalloc (hstocked rfl) hstep
  | kfree v => exact h.kfree hstep
  | write v w => exact h.write hstep

theorem exists_inv (h : Runs.Reaches (step c) Stocked boot s) : ∃ l, Inv c s l := by
  refine Runs.Reaches.invariant (I := fun s => ∃ l, Inv c s l) h ⟨[],inv_boot⟩ ?_
  rintro s a t ⟨l,hl⟩ hstocked hstep
  exact hl.step hstocked hstep

theorem Inv.exhausted (h : Inv c s l) (hnone : s.kmem.freelist = none) (hstep : Kalloc.step c s .kalloc = some t) :
    ¬ Accounted t := by
  have hl : l = [] := by
    have hf := h.follows
    rw [hnone] at hf
    cases hf
    rfl
  have hk : Kalloc.kalloc s.kmem = (none,{s.kmem with pageCounter := s.kmem.pageCounter-1}) := by
    simp only [Kalloc.kalloc,hnone]
  have hcounter := h.counter
  rw [Kalloc.step,hk] at hstep
  cases hstep
  rintro ⟨l',_,_,_,_,_,hnonneg,_⟩
  change 0 ≤ s.kmem.pageCounter-1 at hnonneg
  rw [hcounter,hl,List.length_nil] at hnonneg
  omega

/-- As long as no `kalloc` meets an empty free list the allocator is accounted for, and the first such
call ends that. -/
theorem frames_accounted_iff (h : Runs.Reaches (step c) Stocked boot s) :
    Accounted s ∧ ∀ a t, step c s a = some t → (Accounted t ↔ Stocked s a) := by
  obtain ⟨l,hl⟩ := exists_inv h
  refine ⟨hl.accounted,?_⟩
  intro a t hstep
  constructor
  · rintro hacc rfl hnone
    exact hl.exhausted hnone hstep hacc
  · intro hstocked
    obtain ⟨l',hl'⟩ := hl.step hstocked hstep
    exact hl'.accounted

def smallConfig : Config where
  build := .nfua
  dataAddr := 0x80102000
  endAddr := 0x803FF000
  data_aligned := by decide
  kernLink_lt_data := by decide
  data_le_end := by decide
  end_lt := by decide

def onePage : List Action := [.kinit1 0x803FF000 0x80400000,.kalloc]

/-- After the only free page is handed out, another `kalloc` makes `getfreepages` negative. -/
theorem kalloc_empty_negative : ∃ s, Runs.Reaches (step smallConfig) (fun _ _ => True) boot s ∧
    getfreepages s.kmem = -1 ∧ ¬ Accounted s := by
  have hrun : (Runs.exec (step smallConfig) (fun _ _ => True) (onePage ++ [.kalloc]) boot).map
      (fun s => decide (getfreepages s.kmem = -1)) = some true := by decide +kernel
  obtain ⟨s,hs,hf⟩ := Runs.exists_reaches hrun
  have hcounter : getfreepages s.kmem = -1 := of_decide_eq_true hf
  refine ⟨s,hs,hcounter,?_⟩
  rintro ⟨l,_,_,_,_,_,hnonneg,_⟩
  rw [hcounter] at hnonneg
  omega

theorem frames_accounted_one : ∃ s, Runs.Reaches (step smallConfig) Stocked boot s ∧
    s.out = [0x803FF000] ∧ Accounted s := by
  have hrun : (Runs.exec (step smallConfig) Stocked onePage boot).map
      (fun s => decide (s.out = [0x803FF000])) = some true := by decide +kernel
  obtain ⟨s,hs,hf⟩ := Runs.exists_reaches hrun
  exact ⟨s,hs,of_decide_eq_true hf,(frames_accounted_iff hs).1⟩

end Xv6Paging.Kalloc
