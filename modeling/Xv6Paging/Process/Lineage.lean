import Xv6Paging.Process.Reaping

/-! # Who forked whom

A process is armed from the end of a `fork` by a process other than init to the beginning of its
`exit`. Only these two steps change which processes are armed.
-/
namespace Xv6Paging.Process
open Function

/-- The `fork` of the process has been completed by a process other than init, and the process has not
begun to exit. -/
def Armed (s : Table) (q : ProcSlot) : Prop := s.parent q ≠ none ∧ s.pos q ≠ .exiting ∧ s.creator q ≠ 1

/-- Who forked whom. -/
structure Lineage (s : Table) : Prop where
  init : s.pid initproc = 1
  forker : ∀ p q, s.pos p = .forking q → s.creator q = s.pid p
  ofInit : ∀ q x, s.parent q = some x → s.creator q = 1 → x = initproc
  zombie : ∀ q, s.state q = .zombie → s.pos q = .exiting
  embryo : ∀ q, s.state q = .embryo → s.pos q ≠ .exiting

theorem lineage_userinit : Lineage userinit where
  init := rfl
  forker := by rintro p q ⟨⟩
  ofInit := by rintro q x ⟨⟩
  zombie := by
    intro q hq
    by_cases hne : q = initproc
    · subst hne
      cases hq
    · have hunused : userinit.state q = .unused := if_neg hne
      rw [hunused] at hq
      cases hq
  embryo := by rintro q _ ⟨⟩

variable {s t u : Table} {p q : ProcSlot}

/-- The steps that do not create, complete, begin to end or reap a process. -/
structure Same (s t : Table) : Prop where
  pid : t.pid = s.pid
  creator : t.creator = s.creator
  exiting : ∀ q, t.pos q = .exiting ↔ s.pos q = .exiting
  parent : ∀ q, t.parent q = s.parent q ∨ s.parent q ≠ none ∧ t.parent q = some initproc
  zombie : ∀ q, t.state q = .zombie → s.state q = .zombie ∨ s.pos q = .exiting
  embryo : ∀ q, t.state q = .embryo → s.state q = .embryo
  forking : ∀ p q, t.pos p = .forking q → s.pos p = .forking q

theorem Same.trans (h : Same s t) (h' : Same t u) : Same s u where
  pid := h'.pid.trans h.pid
  creator := h'.creator.trans h.creator
  exiting q := (h'.exiting q).trans (h.exiting q)
  parent q := by
    rcases h'.parent q with hq | ⟨hne,hq⟩
    · rcases h.parent q with hs | ⟨hne,hs⟩
      · exact .inl (hq.trans hs)
      · exact .inr ⟨hne,hq.trans hs⟩
    · refine .inr ⟨?_,hq⟩
      rcases h.parent q with hs | ⟨hne',-⟩
      · exact hs ▸ hne
      · exact hne'
  zombie q hq := by
    rcases h'.zombie q hq with hz | hz
    · exact h.zombie q hz
    · exact .inr ((h.exiting q).mp hz)
  embryo q hq := h.embryo q (h'.embryo q hq)
  forking p q hp := h.forking p q (h'.forking p q hp)

theorem Same.lineage (h : Same s t) (hl : Lineage s) : Lineage t where
  init := by rw [h.pid]; exact hl.init
  forker p q hp := by
    rw [h.creator,h.pid]
    exact hl.forker p q (h.forking p q hp)
  ofInit q x hx hc := by
    rw [h.creator] at hc
    rcases h.parent q with hq | ⟨-,hq⟩
    · exact hl.ofInit q x (hq ▸ hx) hc
    · rw [hq] at hx
      exact (Option.some.inj hx).symm
  zombie q hq := by
    rw [h.exiting]
    rcases h.zombie q hq with hz | hz
    · exact hl.zombie q hz
    · exact hz
  embryo q hq := by
    rw [ne_eq,h.exiting]
    exact hl.embryo q (h.embryo q hq)

theorem Same.armed (h : Same s t) (q : ProcSlot) : Armed t q ↔ Armed s q := by
  have hparent : t.parent q ≠ none ↔ s.parent q ≠ none := by
    rcases h.parent q with hq | ⟨hne,hq⟩
    · rw [hq]
    · rw [hq]
      exact ⟨fun _ => hne,fun _ => by simp⟩
  have hpos : t.pos q ≠ .exiting ↔ s.pos q ≠ .exiting := not_congr (h.exiting q)
  rw [Armed,Armed,hparent,h.creator,hpos]

theorem same_refl (s : Table) : Same s s where
  pid := rfl
  creator := rfl
  exiting _ := Iff.rfl
  parent _ := .inl rfl
  zombie _ := .inl
  embryo _ := id
  forking _ _ := id

theorem same_state {state : ProcSlot → ProcState}
    (hz : ∀ q, state q = .zombie → s.state q = .zombie ∨ s.pos q = .exiting)
    (he : ∀ q, state q = .embryo → s.state q = .embryo) (chan : ProcSlot → Option ProcSlot)
    (killed hit : ProcSlot → Bool) (exits : List ℕ) :
    Same s {s with state := state, chan := chan, killed := killed, hit := hit, exits := exits} where
  pid := rfl
  creator := rfl
  exiting _ := Iff.rfl
  parent _ := .inl rfl
  zombie := hz
  embryo := he
  forking _ _ := id

theorem same_pos (hold : s.pos p ≠ .exiting) {o : Position} (hexit : o ≠ .exiting) (hfork : ∀ q, o ≠ .forking q) :
    Same s {s with pos := update s.pos p o} where
  pid := rfl
  creator := rfl
  exiting q := by
    by_cases hq : q = p
    · subst hq
      dsimp only
      rw [update_self]
      exact ⟨fun h => absurd h hexit,fun h => absurd h hold⟩
    · dsimp only
      rw [update_of_ne hq]
  parent _ := .inl rfl
  zombie _ := .inl
  embryo _ := id
  forking x q hx := by
    by_cases hq : x = p
    · subst hq
      exact absurd ((update_self _ _ _).symm.trans hx) (hfork q)
    · exact (update_of_ne hq _ _).symm.trans hx

theorem Same.setPos (h : Same s t) (hold : t.pos p ≠ .exiting) {o : Position} (hexit : o ≠ .exiting)
    (hfork : ∀ q, o ≠ .forking q) : Same s {t with pos := update t.pos p o} :=
  h.trans (same_pos hold hexit hfork)

theorem same_wakeup1 (c : Option ProcSlot) : Same s (s.wakeup1 c) := by
  refine same_state (s := s) ?_ ?_ s.chan s.killed s.hit s.exits
  · intro q hq
    split at hq
    · cases hq
    · exact .inl hq
  · intro q hq
    split at hq
    · cases hq
    · exact hq

theorem same_adopt (p q : ProcSlot) : Same s (s.adopt p q) := by
  have hparent : s.parent q = some p → Same s {s with parent := update s.parent q (some initproc)} := by
    intro hq
    refine ⟨rfl,rfl,fun _ => Iff.rfl,?_,fun _ => .inl,fun _ => id,fun _ _ => id⟩
    intro x
    by_cases hx : x = q
    · subst hx
      exact .inr ⟨by rw [hq]; simp,update_self _ _ _⟩
    · exact .inl (update_of_ne hx _ _)
  rw [Table.adopt]
  split
  · next hq =>
    dsimp only
    split
    · exact (hparent hq).trans (same_wakeup1 _)
    · exact hparent hq
  · exact same_refl s

theorem same_fold (p : ProcSlot) (l : List ProcSlot) : Same s (l.foldl (fun s q => s.adopt p q) s) := by
  induction l generalizing s with
  | nil => exact same_refl s
  | cons q l ih => exact (same_adopt p q).trans ih

theorem same_exitDone (hpos : s.pos p = .exiting) : Same s (s.exitDone p) := by
  rw [Table.exitDone]
  generalize List.finRange 64 = l
  have hfold : Same s (l.foldl (fun s q => s.adopt p q) (s.wakeup1 (s.parent p))) :=
    (same_wakeup1 _).trans (same_fold p l)
  refine hfold.trans (same_state ?_ ?_ _ _ _ _)
  · intro q hq
    by_cases hqp : q = p
    · subst hqp
      exact .inr ((hfold.exiting q).mpr hpos)
    · exact .inl ((update_of_ne hqp _ _).symm.trans hq)
  · intro q hq
    by_cases hqp : q = p
    · subst hqp
      rw [update_self] at hq
      cases hq
    · exact (update_of_ne hqp _ _).symm.trans hq

theorem same_setState {r : ProcState} (hz : r ≠ .zombie) (he : r ≠ .embryo) (chan : ProcSlot → Option ProcSlot) :
    Same s {s with state := update s.state p r, chan := chan} := by
  refine same_state ?_ ?_ chan s.killed s.hit s.exits
  · intro q hq
    by_cases hqp : q = p
    · subst hqp
      exact absurd ((update_self _ _ _).symm.trans hq) hz
    · exact .inl ((update_of_ne hqp _ _).symm.trans hq)
  · intro q hq
    by_cases hqp : q = p
    · subst hqp
      exact absurd ((update_self _ _ _).symm.trans hq) he
    · exact (update_of_ne hqp _ _).symm.trans hq

theorem same_kill (q : ProcSlot) (killed hit : ProcSlot → Bool) : Same s {s with
    killed := killed
    state := update s.state q (if s.state q = .sleeping then .runnable else s.state q)
    hit := hit} := by
  refine same_state ?_ ?_ s.chan _ _ s.exits
  · grind [update_apply]
  · grind [update_apply]

structure Calm (s t : Table) : Prop where
  lineage : Lineage t
  armed : ∀ x, Armed t x ↔ Armed s x
  pid : ∀ x, Armed s x → t.pid x = s.pid x

theorem Same.calm (h : Same s t) (hl : Lineage s) : Calm s t :=
  ⟨h.lineage hl,h.armed,fun x _ => by rw [h.pid]⟩

theorem calm_allocproc (htree : Tree s) (hl : Lineage s) (hrun : s.state p = .running) (hpos : s.pos p = .user)
    (hunused : s.state q = .unused) (nextpid : ℕ) (hit : ProcSlot → Bool) : Calm s {s with
      state := update s.state q .embryo
      pid := update s.pid q s.nextpid
      nextpid := nextpid
      pos := update (update s.pos q .user) p (.forking q)
      creator := update s.creator q (s.pid p)
      hit := hit} := by
  have hnone := htree.unused q hunused
  have hqi := htree.ne_init (q := q) (by rw [hunused]; rfl)
  have hqp : q ≠ p := by
    rintro rfl
    rw [hunused] at hrun
    cases hrun
  have hchild : ∀ x y, s.pos x = .forking y → x ≠ q ∧ y ≠ q := by
    intro x y hx
    constructor
    · rintro rfl
      have hb := htree.busy x y (by rw [hx]; rfl)
      rw [hunused] at hb
      cases hb
    · rintro rfl
      rw [(htree.forking x y hx).1] at hunused
      cases hunused
  constructor
  · constructor
    · exact (update_of_ne hqi.symm _ _).trans hl.init
    · intro x y hx
      have hold := hl.forker x y
      have hne := hchild x y
      grind [update_apply]
    · intro x y hx
      have hold := hl.ofInit x y hx
      grind [update_apply]
    · intro x hx
      have hold := hl.zombie x
      grind [update_apply]
    · intro x hx
      have hold := hl.embryo x
      grind [update_apply]
  · intro x
    rw [Armed,Armed]
    by_cases hx : x = q
    · subst hx
      exact ⟨fun h => absurd hnone h.1,fun h => absurd hnone h.1⟩
    · grind [update_apply]
  · intro x hx
    refine update_of_ne ?_ _ _
    rintro rfl
    exact hx.1 hnone

theorem calm_reap (htree : Tree s) (hl : Lineage s) (hz : s.state q = .zombie)
    (hpos : s.pos p = .user ∨ s.pos p = .waiting) (chan : ProcSlot → Option ProcSlot) (killed : ProcSlot → Bool)
    (reaps : List ℕ) : Calm s {s with
      chan := chan
      pid := update s.pid q 0
      parent := update s.parent q none
      killed := killed
      state := update s.state q .unused
      pos := update s.pos p .user
      reaps := reaps} := by
  have hqexit := hl.zombie q hz
  have hnot : ¬ Armed s q := fun h => h.2.1 hqexit
  have hqi := htree.ne_init (q := q) (by rw [hz]; rfl)
  constructor
  · constructor
    · exact (update_of_ne hqi.symm _ _).trans hl.init
    · intro x y hx
      have hold := hl.forker x y
      grind [update_apply]
    · intro x y hx
      have hold := hl.ofInit x y
      grind [update_apply]
    · intro x hx
      have hold := hl.zombie x
      grind [update_apply]
    · intro x hx
      have hold := hl.embryo x
      grind [update_apply]
  · intro x
    by_cases hx : x = q
    · subst hx
      exact ⟨fun h => absurd (update_self _ _ _) h.1,fun h => absurd h hnot⟩
    · rw [Armed,Armed]
      grind [update_apply]
  · intro x hx
    refine update_of_ne ?_ _ _
    rintro rfl
    exact hnot hx

theorem pos_ne_exiting (hpos : s.pos p = .user ∨ s.pos p = .waiting) : s.pos p ≠ .exiting := by
  rcases hpos with hpos | hpos
  · rw [hpos]
    rintro ⟨⟩
  · rw [hpos]
    rintro ⟨⟩

theorem step_calm (htree : Tree s) (hl : Lineage s) {a : Action} (hstep : s.step a = some t)
    (hcopy : ∀ p, a ≠ .forkCopy p) (hexit : ∀ p, a ≠ .exit p) : Calm s t := by
  cases step_taken hstep with
  | full p | missed p n => exact (same_refl s).calm hl
  | made hrun hpos hq => exact calm_allocproc htree hl hrun hpos hq _ _
  | @copied p q hrun hpos => exact absurd rfl (hcopy p)
  | @leaving p hrun hpos hp => exact absurd rfl (hexit p)
  | exited hrun hpos => exact (same_exitDone hpos).calm hl
  | reaped hpos hrun hpar hz => exact calm_reap htree hl hz hpos _ _ _
  | @killed p q n hq => exact (same_kill q _ _).calm hl
  | faulted hrun => exact (same_state (fun _ => .inl) (fun _ => id) s.chan _ _ s.exits).calm hl
  | @childless p hpos hrun =>
    have hsame : Same s {s with chan := update s.chan p none} :=
      same_state (fun _ => .inl) (fun _ => id) _ s.killed s.hit s.exits
    exact Same.calm (hsame.setPos (pos_ne_exiting hpos) (by rintro ⟨⟩) (by rintro x ⟨⟩)) hl
  | asleep hpos hrun hz =>
    exact Same.calm ((same_setState (by rintro ⟨⟩) (by rintro ⟨⟩) _).setPos (pos_ne_exiting hpos) (by rintro ⟨⟩)
      (by rintro x ⟨⟩)) hl
  | @failed p q hrun hpos | @forked p q hrun hpos =>
    refine Same.calm ((same_setState (by rintro ⟨⟩) (by rintro ⟨⟩) s.chan).setPos ?_ (by rintro ⟨⟩) (by rintro x ⟨⟩)) hl
    dsimp only
    rw [hpos]
    rintro ⟨⟩
  | switch ha hold hnew =>
    refine (same_setState ?_ ?_ _).calm hl
    · rintro rfl
      cases hnew
    · rintro rfl
      cases hnew

theorem lineage_exit (hl : Lineage s) (hrun : s.state p = .running) :
    Lineage {s with pos := update s.pos p .exiting} := by
  constructor
  · exact hl.init
  · intro x y hx
    have hold := hl.forker x y
    grind [update_apply]
  · exact hl.ofInit
  · intro x hx
    have hold := hl.zombie x
    grind [update_apply]
  · intro x hx
    have hold := hl.embryo x
    grind [update_apply]

theorem armed_exit (p x : ProcSlot) :
    Armed {s with pos := update s.pos p .exiting} x ↔ x ≠ p ∧ Armed s x := by
  rw [Armed,Armed]
  grind [update_apply]

theorem lineage_forkCopy (hnum : Numbered s) (htree : Tree s) (hl : Lineage s) (hrun : s.state p = .running)
    (hpos : s.pos p = .forking q) :
    Lineage {s with parent := update s.parent q (some p), pos := update s.pos p (.forked q)} := by
  have hforker := hl.forker p q hpos
  have hinit : s.pid p = 1 → p = initproc := by
    intro hpid
    refine hnum.inj p initproc ?_ ?_ (hpid.trans hl.init.symm)
    · rw [hrun]
      rintro ⟨⟩
    · intro hu
      have hactive := htree.init.1
      rw [hu] at hactive
      cases hactive
  constructor
  · exact hl.init
  · intro x y hx
    have hold := hl.forker x y
    grind [update_apply]
  · intro x y hx hc
    have hold := hl.ofInit x y
    grind [update_apply]
  · intro x hx
    have hold := hl.zombie x hx
    grind [update_apply]
  · intro x hx
    have hold := hl.embryo x hx
    grind [update_apply]

theorem armed_forkCopy (htree : Tree s) (hl : Lineage s) (hpos : s.pos p = .forking q) (x : ProcSlot) :
    Armed {s with parent := update s.parent q (some p), pos := update s.pos p (.forked q)} x ↔
      x = q ∧ s.pid p ≠ 1 ∨ Armed s x := by
  obtain ⟨hembryo,hnone⟩ := htree.forking p q hpos
  have hout := hl.embryo q hembryo
  have hforker := hl.forker p q hpos
  rw [Armed,Armed]
  grind [update_apply]

end Xv6Paging.Process
