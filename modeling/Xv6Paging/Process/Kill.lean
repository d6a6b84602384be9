import Xv6Paging.Process.Reaping

/-! # Who is killed

`kill` sets a flag in the first slot that holds the number, whatever the state of the slot, `allocproc`
does not clear the flag, and a failed `fork` leaves number and flag behind. What a step
does to the flag of a slot is said once; the invariants follow from it.
-/
namespace Xv6Paging.Process
open Function
variable {s t u : Table} {p q : ProcSlot}

/-- What a step does to a slot, as far as its flag is concerned. -/
inductive Fate (s : Table) (a : Action) (t : Table) (q : ProcSlot) : Prop
  | same (hkilled : t.killed q = s.killed q) (hhit : t.hit q = s.hit q)
      (hused : t.state q = .unused ↔ s.state q = .unused)
  | created (hkilled : t.killed q = s.killed q) (hhit : t.hit q = false) (hold : s.state q = .unused)
      (hnew : t.state q = .embryo)
  | failed (p : ProcSlot) (ha : a = .forkFail p) (hpos : s.pos p = .forking q) (hkilled : t.killed q = s.killed q)
      (hnew : t.state q = .unused)
  | reaped (hkilled : t.killed q = false) (hnew : t.state q = .unused)
  | targeted (p : ProcSlot) (n : ℤ) (ha : a = .kill p n) (htarget : s.target n = some q) (hkilled : t.killed q = true)
      (hhit : t.hit q = (s.hit q || decide (s.state q ≠ .unused))) (hused : t.state q = .unused ↔ s.state q = .unused)
  | faulted (hhit : t.hit q = true) (hnew : t.state q ≠ .unused)

structure Keeps (s t : Table) : Prop where
  killed : t.killed = s.killed
  hit : t.hit = s.hit
  used : ∀ x, t.state x = .unused ↔ s.state x = .unused

theorem fate_of_keeps {a : Action} (h : Keeps s t) : Fate s a t q :=
  .same (by rw [h.killed]) (by rw [h.hit]) (h.used q)

theorem Keeps.trans (h : Keeps s t) (h' : Keeps t u) : Keeps s u :=
  ⟨h'.killed.trans h.killed,h'.hit.trans h.hit,fun x => (h'.used x).trans (h.used x)⟩

theorem keeps_refl (s : Table) : Keeps s s := ⟨rfl,rfl,fun _ => Iff.rfl⟩

theorem keeps_wakeup1 (c : Option ProcSlot) : Keeps s (s.wakeup1 c) := by
  refine ⟨rfl,rfl,?_⟩
  intro x
  by_cases hx : s.state x = .sleeping ∧ s.chan x = c
  · have hnew : (s.wakeup1 c).state x = .runnable := if_pos hx
    rw [hnew,hx.1]
    constructor <;> rintro ⟨⟩
  · have hold : (s.wakeup1 c).state x = s.state x := if_neg hx
    rw [hold]

theorem keeps_adopt (p q : ProcSlot) : Keeps s (s.adopt p q) := by
  rw [Table.adopt]
  split
  · dsimp only
    split
    · obtain ⟨hkilled,hhit,hused⟩ : Keeps s (s.wakeup1 (some initproc)) := keeps_wakeup1 _
      exact ⟨hkilled,hhit,hused⟩
    · exact ⟨rfl,rfl,fun _ => Iff.rfl⟩
  · exact keeps_refl s

theorem keeps_fold (p : ProcSlot) (l : List ProcSlot) : Keeps s (l.foldl (fun s q => s.adopt p q) s) := by
  induction l generalizing s with
  | nil => exact keeps_refl s
  | cons q l ih => exact (keeps_adopt p q).trans ih

theorem keeps_state (hold : s.state p ≠ .unused) {r : ProcState} (hnew : r ≠ .unused) (x : ProcSlot) :
    update s.state p r x = .unused ↔ s.state x = .unused := by
  by_cases he : x = p
  · subst he
    rw [update_self]
    exact ⟨fun h => absurd h hnew,fun h => absurd h hold⟩
  · rw [update_of_ne he]

theorem used_of_running (h : s.state p = .running) : s.state p ≠ .unused := by
  rw [h]
  rintro ⟨⟩

theorem keeps_exitDone (hrun : s.state p = .running) : Keeps s (s.exitDone p) := by
  rw [Table.exitDone]
  generalize List.finRange 64 = l
  have hfold : Keeps s (l.foldl (fun s q => s.adopt p q) (s.wakeup1 (s.parent p))) :=
    (keeps_wakeup1 _).trans (keeps_fold p l)
  have hused : (l.foldl (fun s q => s.adopt p q) (s.wakeup1 (s.parent p))).state p ≠ .unused :=
    mt (hfold.used p).mp (used_of_running hrun)
  refine hfold.trans ⟨rfl,rfl,?_⟩
  exact keeps_state hused (by rintro ⟨⟩)

theorem used_of_active (h : (s.state q).active = true) : s.state q ≠ .unused := by
  intro hunused
  rw [hunused] at h
  cases h

theorem fate_of_ne {a : Action} {r : ProcState} {x : ProcSlot} (hx : x ≠ q) (hkilled : t.killed x = s.killed x)
    (hhit : t.hit x = s.hit x) (hstate : t.state = update s.state q r) : Fate s a t x := by
  refine .same hkilled hhit ?_
  rw [hstate,update_of_ne hx]

theorem step_fate (htree : Tree s) {a : Action} (hstep : s.step a = some t) (x : ProcSlot) : Fate s a t x := by
  cases step_taken hstep with
  | full p | missed p n => exact fate_of_keeps (keeps_refl s)
  | @made p q hrun hpos hq =>
    by_cases he : x = q
    · subst he
      exact .created rfl (update_self _ _ _) hq (update_self _ _ _)
    · exact fate_of_ne he rfl (update_of_ne he _ _) rfl
  | @failed p q hrun hpos =>
    by_cases he : x = q
    · subst he
      exact .failed p rfl hpos rfl (update_self _ _ _)
    · exact fate_of_ne he rfl rfl rfl
  | @forked p q hrun hpos =>
    have hused : s.state q ≠ .unused := by
      rw [(htree.forked p q hpos).1]
      rintro ⟨⟩
    exact fate_of_keeps ⟨rfl,rfl,keeps_state hused (by rintro ⟨⟩)⟩
  | copied hrun hpos | leaving hrun hpos hp | childless hpos hrun => exact fate_of_keeps ⟨rfl,rfl,fun _ => Iff.rfl⟩
  | exited hrun hpos => exact fate_of_keeps (keeps_exitDone hrun)
  | @reaped p q hpos hrun hpar hz =>
    by_cases he : x = q
    · subst he
      exact .reaped (update_self _ _ _) (update_self _ _ _)
    · exact fate_of_ne he (update_of_ne he _ _) rfl rfl
  | asleep hpos hrun hz => exact fate_of_keeps ⟨rfl,rfl,keeps_state (used_of_running hrun) (by rintro ⟨⟩)⟩
  | @killed p q n hq =>
    by_cases he : x = q
    · subst he
      refine .targeted p n rfl hq (update_self _ _ _) (update_self _ _ _) ?_
      dsimp only
      rw [update_self]
      split
      · next hs =>
        rw [hs]
        constructor <;> rintro ⟨⟩
      · exact Iff.rfl
    · exact fate_of_ne he (update_of_ne he _ _) (update_of_ne he _ _) rfl
  | @faulted p hrun =>
    by_cases he : x = p
    · subst he
      exact .faulted (update_self _ _ _) (used_of_running hrun)
    · exact .same (update_of_ne he _ _) (update_of_ne he _ _) Iff.rfl
  | switch ha hold hnew =>
    refine fate_of_keeps ⟨rfl,rfl,keeps_state (used_of_active hold) ?_⟩
    rintro rfl
    cases hnew

/-- The slot that a `kill` finds holds a live process, and the slot that a failed `fork` gives back is not marked. -/
def Aimed (s : Table) : Action → Prop
  | .kill _ n => ∀ q, s.target n = some q → (s.state q).active = true
  | .forkFail p => ∀ q, s.pos p = .forking q → s.killed q = false
  | _ => True

instance aimedDecidable : ∀ s a, Decidable (Aimed s a)
  | s, .kill _ n => Nat.decidableForallFin fun q => s.target n = some q → (s.state q).active = true
  | s, .forkFail p => Nat.decidableForallFin fun q => s.pos p = .forking q → s.killed q = false
  | _, .allocproc _ | _, .forkCopy _ | _, .forkDone _ | _, .exit _ | _, .exitDone _ | _, .wait _
  | _, .fault _ | _, .schedule _ | _, .yield _ | _, .block _ | _, .unblock _ => inferInstanceAs (Decidable True)

def Deserved (s : Table) : Prop := ∀ q, s.state q ≠ .unused → s.killed q = true → s.hit q = true

/-- A `kill` that returns 0 has found the number of a live process. -/
def Answered (s : Table) : Action → Prop
  | .kill _ n => s.target n ≠ none → ∃ q, (s.pid q : ℤ) = n ∧ (s.state q).active = true
  | _ => True

def Clean (s : Table) : Prop := ∀ q, s.state q = .unused → s.killed q = false

theorem Deserved.step (h : Deserved s) (hclean : Clean s) {a : Action} (hfate : ∀ x, Fate s a t x) : Deserved t := by
  intro q hq hk
  cases hfate q with
  | same hkilled hhit hused =>
    rw [hhit]
    exact h q (mt hused.mpr hq) (hkilled ▸ hk)
  | created hkilled hhit hold hnew =>
    rw [hkilled,hclean q hold] at hk
    cases hk
  | failed p ha hpos hkilled hnew => exact absurd hnew hq
  | reaped hkilled hnew => exact absurd hnew hq
  | targeted p n ha htarget hkilled hhit hused =>
    rw [hhit,decide_eq_true (mt hused.mpr hq),Bool.or_true]
  | faulted hhit hnew => exact hhit

theorem Clean.step (h : Clean s) {a : Action} (ha : Aimed s a) (hfate : ∀ x, Fate s a t x) : Clean t := by
  intro q hq
  cases hfate q with
  | same hkilled hhit hused =>
    rw [hkilled]
    exact h q (hused.mp hq)
  | created hkilled hhit hold hnew =>
    rw [hnew] at hq
    cases hq
  | failed p he hpos hkilled hnew =>
    subst he
    rw [hkilled]
    exact ha q hpos
  | reaped hkilled hnew => exact hkilled
  | targeted p n he htarget hkilled hhit hused =>
    subst he
    have hlive := ha q htarget
    rw [hused.mp hq] at hlive
    cases hlive
  | faulted hhit hnew => exact absurd hq hnew

theorem deserved_userinit : Deserved userinit := by
  rintro q _ ⟨⟩

theorem clean_userinit : Clean userinit := by
  intro q _
  rfl

theorem answered_of_aimed {a : Action} (h : Aimed s a) : Answered s a := by
  cases a with
  | kill p n =>
    intro hn
    obtain ⟨q,hq⟩ := Option.ne_none_iff_exists'.mp hn
    exact ⟨q,of_decide_eq_true (first_some hq),h q hq⟩
  | _ => trivial

theorem aimed_of_clean (hnum : Numbered s) {a : Action} (hstep : s.step a = some t) (h : Clean t) (hans : Answered s a) :
    Aimed s a := by
  cases a with
  | kill p n =>
    intro q hq
    have hpid : (s.pid q : ℤ) = n := of_decide_eq_true (first_some hq)
    obtain ⟨x,hx,hlive⟩ := hans (by rw [hq]; rintro ⟨⟩)
    have hused : s.state q ≠ .unused := by
      intro hunused
      rw [Table.step] at hstep
      split at hstep
      · cases hstep
        have hk : (s.kill n).killed q = true ∧ (s.kill n).state q = .unused := by
          rw [Table.kill,hq]
          dsimp only
          rw [update_self,update_self,hunused]
          exact ⟨rfl,rfl⟩
        have hfalse := h q hk.2
        rw [hk.1] at hfalse
        cases hfalse
      · cases hstep
    -- a number is that of one process only
    rw [hnum.inj q x hused (used_of_active hlive) (by omega)]
    exact hlive
  | forkFail p =>
    intro q hpos
    rw [Table.step,hpos] at hstep
    dsimp only at hstep
    split at hstep
    · cases hstep
      exact h q (update_self _ _ _)
    · cases hstep
  | allocproc | forkCopy | forkDone | exit | exitDone | wait | fault | schedule | yield | block | unblock =>
    trivial

/-- If `kill`s find live processes and failed `fork`s give back unmarked slots, only a process that was hit
by a `kill` of its number or faulted is marked, no new process is, and `kill` returns 0 only for a live one.
The condition is exact at each step. -/
theorem kill_hits_target_iff (h : Runs.Reaches Table.step Aimed userinit s) :
    Deserved s ∧
    (∀ p q t, s.step (.allocproc p) = some t → t.pos p = .forking q → t.killed q = false) ∧
    (∀ p n, Aimed s (.kill p n) → s.target n ≠ none → ∃ q, (s.pid q : ℤ) = n ∧ (s.state q).active = true) ∧
    ∀ a t, s.step a = some t → (Clean t ∧ Answered s a ↔ Aimed s a) := by
  obtain ⟨htree,hnum⟩ := reaches_spec h
  have hinv : Deserved s ∧ Clean s := by
    have hall : (Tree s ∧ Numbered s) ∧ Deserved s ∧ Clean s := by
      refine Runs.Reaches.invariant (I := fun s => (Tree s ∧ Numbered s) ∧ Deserved s ∧ Clean s) h
        ⟨⟨tree_userinit,numbered_userinit⟩,deserved_userinit,clean_userinit⟩ ?_
      rintro s a t ⟨⟨htree,hnum⟩,hdes,hclean⟩ ha hstep
      have hfate := step_fate htree hstep
      exact ⟨step_spec htree hnum hstep,hdes.step hclean hfate,hclean.step ha hfate⟩
    exact hall.2
  obtain ⟨hdes,hclean⟩ := hinv
  refine ⟨hdes,?_,?_,?_⟩
  · intro p q t hstep hpos
    rw [Table.step] at hstep
    split at hstep
    · next hp =>
      cases hstep
      rw [Table.allocproc] at hpos ⊢
      split at hpos
      · rw [hp.2] at hpos
        cases hpos
      · next x hx =>
        have hxq : Position.forking x = .forking q := (update_self _ _ _).symm.trans hpos
        cases hxq
        exact hclean q (of_decide_eq_true (first_some hx))
    · cases hstep
  · intro p n ha
    exact answered_of_aimed ha
  · intro a t hstep
    exact ⟨fun ht => aimed_of_clean hnum hstep ht.1 ht.2,fun ha =>
      ⟨hclean.step ha (step_fate htree hstep),answered_of_aimed ha⟩⟩

def killChild : List Action :=
  [.schedule initproc,.allocproc initproc,.forkCopy initproc,.forkDone initproc,.kill initproc 2]

theorem kill_hits_target_child : ∃ s, Runs.Reaches Table.step Aimed userinit s ∧
    s.killed slot1 = true ∧ s.hit slot1 = true := by
  have hrun : (Runs.exec Table.step Aimed killChild userinit).map
      (fun s => decide (s.killed slot1 = true ∧ s.state slot1 = .runnable)) = some true := by
    decide +kernel
  obtain ⟨s,hs,hf⟩ := Runs.exists_reaches hrun
  obtain ⟨hkilled,hstate⟩ := of_decide_eq_true hf
  refine ⟨s,hs,hkilled,(kill_hits_target_iff hs).1 _ ?_ hkilled⟩
  rw [hstate]
  rintro ⟨⟩

/-- Init kills number 0, which is the number of the unused slots, and then forks. -/
def killZero : List Action := [.schedule initproc,.kill initproc 0,.allocproc initproc]

/-- The new process starts marked although nobody has killed it. -/
theorem kill_zero_marks_next : ∃ s, Runs.Reaches Table.step (fun _ _ => True) userinit s ∧
    s.state slot1 = .embryo ∧ s.killed slot1 = true ∧ s.hit slot1 = false ∧ ¬ Deserved s := by
  have hrun : (Runs.exec Table.step (fun _ _ => True) killZero userinit).map
      (fun s => decide (s.state slot1 = .embryo ∧ s.killed slot1 = true ∧
        s.hit slot1 = false)) = some true := by decide +kernel
  obtain ⟨s,hs,hf⟩ := Runs.exists_reaches hrun
  obtain ⟨hstate,hkilled,hhit⟩ := of_decide_eq_true hf
  refine ⟨s,hs,hstate,hkilled,hhit,?_⟩
  intro hdes
  have hwas := hdes _ (by rw [hstate]; rintro ⟨⟩) hkilled
  rw [hhit] at hwas
  cases hwas

end Xv6Paging.Process
