import Xv6Paging.Process.Tree

/-! # Exit and wait

The critical sections of `exit` and `wait` keep the process tree, and so does every run of the process
table.
-/
namespace Xv6Paging.Process
open Function
variable {s t : Table} {p q : ProcSlot}

structure Leaving (p : ProcSlot) (s : Table) : Prop where
  tree : Tree s
  numbered : Numbered s
  pos : s.pos p = .exiting
  running : s.state p = .running
  awake : ∀ y, s.parent p = some y → s.pos y = .waiting → s.state y ≠ .sleeping

theorem Leaving.ne_init (h : Leaving p s) : p ≠ initproc := by
  rintro rfl
  exact h.tree.init.2.2 h.pos

theorem Leaving.wakeup1 (h : Leaving p s) (c : Option ProcSlot) : Leaving p (s.wakeup1 c) where
  tree := h.tree.wakeup1 c
  numbered := h.numbered.wakeup1 c
  pos := h.pos
  running := by
    have hne : ¬ (s.state p = .sleeping ∧ s.chan p = c) := by
      rw [h.running]
      rintro ⟨⟨⟩,-⟩
    exact (if_neg hne).trans h.running
  awake y hy hpos hs := h.awake y hy hpos (wakeup1_sleeping hs)

theorem Leaving.reparent (h : Leaving p s) (hq : s.parent q = some p)
    (hz : s.state initproc = .sleeping → s.pos initproc = .waiting → s.state q ≠ .zombie) :
    Leaving p {s with parent := update s.parent q (some initproc)} where
  tree := h.tree.reparent (by rw [h.pos]; rfl) hq hz
  numbered := h.numbered.reparent _
  pos := h.pos
  running := h.running
  awake y hy := by
    have hne : p ≠ q := by
      rintro rfl
      exact h.tree.proper p hq
    exact h.awake y ((update_of_ne hne _ _).symm.trans hy)

theorem Leaving.adopt (h : Leaving p s) (q : ProcSlot) : Leaving p (s.adopt p q) := by
  rw [Table.adopt]
  split
  · next hq =>
    dsimp only
    split
    · -- the wakeup and the change of the parent are independent, so that init may be woken first
      refine (h.wakeup1 (some initproc)).reparent hq ?_
      intro hs hpos
      have hold := wakeup1_sleeping hs
      exact absurd hs (wakeup1_awake (h.tree.waiting initproc hold hpos).1)
    · next hz => exact h.reparent hq (fun _ _ => hz)
  · exact h

theorem Leaving.fold (h : Leaving p s) (l : List ProcSlot) : Leaving p (l.foldl (fun s q => s.adopt p q) s) := by
  induction l generalizing s with
  | nil => exact h
  | cons q l ih => exact ih (h.adopt q)

theorem adopt_parent (hp : p ≠ initproc) {x : ProcSlot} (hx : (s.adopt p q).parent x = some p) :
    s.parent x = some p ∧ x ≠ q := by
  rw [Table.adopt] at hx
  by_cases hq : s.parent q = some p
  · rw [if_pos hq] at hx
    have hx' : update s.parent q (some initproc) x = some p := by
      dsimp only at hx
      split at hx
      · exact hx
      · exact hx
    have hne : x ≠ q := by
      rintro rfl
      rw [update_self] at hx'
      exact hp (Option.some.inj hx').symm
    rw [update_of_ne hne] at hx'
    exact ⟨hx',hne⟩
  · rw [if_neg hq] at hx
    refine ⟨hx,?_⟩
    rintro rfl
    exact hq hx

theorem fold_parent (hp : p ≠ initproc) {l : List ProcSlot} {x : ProcSlot}
    (hx : (l.foldl (fun s q => s.adopt p q) s).parent x = some p) : x ∉ l := by
  have hboth : ∀ u : Table, (l.foldl (fun s q => s.adopt p q) u).parent x = some p → u.parent x = some p ∧ x ∉ l := by
    clear hx
    induction l with
    | nil =>
      intro u hu
      exact ⟨hu,List.not_mem_nil⟩
    | cons q l ih =>
      intro u hu
      obtain ⟨hq,hl⟩ := ih (u.adopt p q) hu
      obtain ⟨hpar,hne⟩ := adopt_parent hp hq
      exact ⟨hpar,by simp [hne,hl]⟩
  exact (hboth s hx).2

theorem Leaving.zombie (h : Leaving p s) (hkids : ∀ x, s.parent x ≠ some p) (exits : List ℕ) :
    Tree {s with state := update s.state p .zombie, exits := exits} := by
  have hpi := h.ne_init
  have htree := h.tree
  have hrun := h.running
  have hpos := h.pos
  constructor
  · grind [update_apply,htree.init]
  · intro x y hx
    have hy := htree.live x y hx
    have hne := hkids x
    grind [update_apply]
  · exact htree.proper
  · intro x hx
    have hold := htree.unused x
    grind [update_apply]
  · intro x hx hne
    have hold := htree.adopted x
    grind [update_apply]
  · intro y x hy
    have hold := htree.forking y x hy
    grind [update_apply]
  · intro y x hy
    have hold := htree.forked y x hy
    grind [update_apply]
  · intro y x hy
    have hold := htree.busy y x hy
    grind [update_apply,Position.child]
  · exact htree.unique
  · intro x hx hw
    have hxp : x ≠ p := by
      rintro rfl
      rw [hpos] at hw
      cases hw
    have hx' : s.state x = .sleeping := (update_of_ne hxp _ _).symm.trans hx
    obtain ⟨hc,hz⟩ := htree.waiting x hx' hw
    refine ⟨hc,?_⟩
    intro y hy
    by_cases he : y = p
    · subst he
      exact absurd hx' (h.awake x hy hw)
    · intro hzombie
      exact hz y hy ((update_of_ne he _ _).symm.trans hzombie)

theorem Leaving.exits (h : Leaving p s) :
    Numbered {s with state := update s.state p .zombie, exits := s.pid p :: s.exits} := by
  have hrun := h.running
  have hnum := h.numbered
  constructor
  · intro x hx
    have hold := hnum.bound x
    grind [update_apply]
  · intro x x' hx hx'
    have hold := hnum.inj x x'
    grind [update_apply]
  · intro x hx
    by_cases he : x = p
    · subst he
      exact List.mem_cons_self
    · exact List.mem_cons_of_mem _ (hnum.exited x ((update_of_ne he _ _).symm.trans hx))
  · intro n hn
    obtain ⟨hlt,hex,hfree⟩ := hnum.reaped n hn
    refine ⟨hlt,List.mem_cons_of_mem _ hex,?_⟩
    intro x hx
    have hold := hfree x
    grind [update_apply]
  · exact hnum.nodup

theorem exitDone_spec (htree : Tree s) (hnum : Numbered s) (hrun : s.state p = .running)
    (hpos : s.pos p = .exiting) : Tree (s.exitDone p) ∧ Numbered (s.exitDone p) := by
  have hleaving : Leaving p (s.wakeup1 (s.parent p)) := by
    refine ⟨htree.wakeup1 _,hnum.wakeup1 _,hpos,?_,?_⟩
    · have hne : ¬ (s.state p = .sleeping ∧ s.chan p = s.parent p) := by
        rw [hrun]
        rintro ⟨⟨⟩,-⟩
      exact (if_neg hne).trans hrun
    · intro y hy hw hs
      have hold := wakeup1_sleeping hs
      exact absurd hs (wakeup1_awake ((htree.waiting y hold hw).1.trans hy.symm))
  have hall : ∀ x : ProcSlot, x ∈ List.finRange 64 := List.mem_finRange
  rw [Table.exitDone]
  generalize List.finRange 64 = l at hall
  have hfold := hleaving.fold l
  refine ⟨hfold.zombie ?_ _,hfold.exits⟩
  intro x hx
  exact fold_parent hfold.ne_init hx (hall x)

theorem Numbered.reap (h : Numbered s) (hz : s.state q = .zombie) (parent chan : ProcSlot → Option ProcSlot)
    (pos : ProcSlot → Position) (killed : ProcSlot → Bool) : Numbered {s with
      chan := chan
      pid := update s.pid q 0
      parent := parent
      killed := killed
      state := update s.state q .unused
      pos := pos
      reaps := s.pid q :: s.reaps} := by
  have hused : s.state q ≠ .unused := by
    rw [hz]
    rintro ⟨⟩
  constructor
  · intro x hx
    have hold := h.bound x
    grind [update_apply]
  · intro x x' hx hx'
    have hold := h.inj x x'
    grind [update_apply]
  · intro x hx
    have hold := h.exited x
    grind [update_apply]
  · intro n hn
    rcases List.mem_cons.mp hn with rfl | hn
    · refine ⟨h.bound q hused,h.exited q hz,?_⟩
      intro x hx
      have hold := h.inj x q
      grind [update_apply]
    · obtain ⟨hlt,hex,hfree⟩ := h.reaped n hn
      refine ⟨hlt,hex,?_⟩
      intro x hx
      have hold := hfree x
      grind [update_apply]
  · refine List.nodup_cons.mpr ⟨?_,h.nodup⟩
    intro hmem
    exact (h.reaped _ hmem).2.2 q hused rfl

theorem no_child_of_pos (hpos : s.pos p = .user ∨ s.pos p = .waiting) : (s.pos p).child = none := by
  rcases hpos with hpos | hpos
  · rw [hpos]
    rfl
  · rw [hpos]
    rfl

theorem Tree.step (h : Tree s) (hnum : Numbered s) {a : Action} (hstep : Taken s a t) : Tree t := by
  cases hstep with
  | full p | missed p n => exact h
  | made hrun hpos hq => exact h.allocproc hrun hpos hq _ _ _ _
  | @failed p q hrun hpos =>
    refine h.forkChild hrun (q := q) (by rw [hpos]; rfl) (fun _ hx => update_of_ne hx _ _) (fun _ _ => rfl)
      (fun _ hx => update_of_ne hx _ _) ?_
    rw [update_self,update_self,(h.forking p q hpos).2]
    exact .free
  | @copied p q hrun hpos =>
    refine h.forkChild hrun (q := q) (by rw [hpos]; rfl) (fun _ _ => rfl) (fun _ hx => update_of_ne hx _ _)
      (fun _ hx => update_of_ne hx _ _) ?_
    rw [update_self,update_self,(h.forking p q hpos).1]
    exact .copied
  | @forked p q hrun hpos =>
    refine h.forkChild hrun (q := q) (by rw [hpos]; rfl) (fun _ hx => update_of_ne hx _ _) (fun _ _ => rfl)
      (fun _ hx => update_of_ne hx _ _) ?_
    rw [update_self,update_self,(h.forked p q hpos).2]
    exact .done
  | leaving hrun hpos hp => exact h.setPos (by rw [hpos]; rfl) rfl (fun _ => hp) (by rintro ⟨⟩)
  | exited hrun hpos => exact (exitDone_spec h hnum hrun hpos).1
  | reaped hpos hrun hpar hz => exact h.reap hrun (no_child_of_pos hpos) hz _ _ _
  | childless hpos hrun => exact h.back hrun (no_child_of_pos hpos)
  | asleep hpos hrun hz => exact h.sleep hrun (no_child_of_pos hpos) hz
  | @killed p q n hq => exact h.shuffle (shuffle_kill q) _ _ (fun _ hx _ => kill_sleeping hx) (fun _ _ => rfl)
  | faulted hrun => exact h.shuffle (shuffle_refl s) _ _ (fun _ hx _ => hx) (fun _ _ => rfl)
  | @switch a p r chan ha hold hnew hsleep hchan =>
    refine h.shuffle (shuffle_update p hold hnew) s.killed s.hit ?_ hchan
    intro x hx hpos
    by_cases he : x = p
    · subst he
      exact absurd hpos (hsleep ((update_self _ _ _).symm.trans hx))
    · exact (update_of_ne he _ _).symm.trans hx

theorem Numbered.step (h : Numbered s) (htree : Tree s) {a : Action} (hstep : Taken s a t) : Numbered t := by
  cases hstep with
  | full p | missed p n => exact h
  | @made p q hrun hpos hq => exact h.allocproc q _ _ _
  | @failed p q hrun hpos =>
    refine h.restate ?_ ?_ s.parent s.chan _ s.killed s.hit
    · grind [update_apply]
    · grind [update_apply]
  | copied hrun hpos => exact h.restate (fun _ => id) (fun _ => id) _ s.chan _ s.killed s.hit
  | @forked p q hrun hpos =>
    have hembryo := (htree.forked p q hpos).1
    refine h.restate ?_ ?_ s.parent s.chan _ s.killed s.hit
    · grind [update_apply]
    · grind [update_apply]
  | leaving hrun hpos hp => exact h.restate (fun _ => id) (fun _ => id) s.parent s.chan _ s.killed s.hit
  | exited hrun hpos => exact (exitDone_spec htree h hrun hpos).2
  | reaped hpos hrun hpar hz => exact h.reap hz _ _ _ _
  | childless hpos hrun => exact h.restate (fun _ => id) (fun _ => id) s.parent _ _ s.killed s.hit
  | @asleep p hpos hrun hz =>
    refine h.restate ?_ ?_ s.parent _ _ s.killed s.hit
    · grind [update_apply]
    · grind [update_apply]
  | @killed p q n hq => exact h.shuffle (shuffle_kill q) s.chan _ _
  | faulted hrun => exact h.shuffle (shuffle_refl s) s.chan _ _
  | @switch a p r chan ha hold hnew => exact h.shuffle (shuffle_update p hold hnew) chan s.killed s.hit

theorem step_spec (htree : Tree s) (hnum : Numbered s) {a : Action} (hstep : s.step a = some t) :
    Tree t ∧ Numbered t :=
  ⟨htree.step hnum (step_taken hstep),hnum.step htree (step_taken hstep)⟩

/-- The invariants of every run, whatever the condition on its steps. -/
theorem reaches_spec {P : Table → Action → Prop} (h : Runs.Reaches Table.step P userinit s) :
    Tree s ∧ Numbered s := by
  refine Runs.Reaches.invariant (I := fun s => Tree s ∧ Numbered s) h ⟨tree_userinit,numbered_userinit⟩ ?_
  rintro s a t ⟨htree,hnum⟩ _ hstep
  exact step_spec htree hnum hstep

theorem fold_reaps (l : List ProcSlot) : (l.foldl (fun s q => s.adopt p q) s).reaps = s.reaps := by
  induction l generalizing s with
  | nil => rfl
  | cons q l ih =>
    rw [List.foldl_cons,ih,Table.adopt]
    split
    · dsimp only
      split <;> rfl
    · rfl

theorem Taken.reaps {a : Action} (hstep : Taken s a t) : t.reaps = s.reaps ∨
    ∃ p q, a = .wait p ∧ s.parent q = some p ∧ s.state q = .zombie ∧ t.reaps = s.pid q :: s.reaps := by
  cases hstep with
  | @reaped p q hpos hrun hpar hz => exact .inr ⟨p,q,rfl,hpar,hz,rfl⟩
  | @exited p hrun hpos =>
    left
    rw [Table.exitDone]
    generalize List.finRange 64 = l
    exact fold_reaps l
  | _ => exact .inl rfl

/-- A process has a live parent unless it is init or its `fork` has not set it yet, one that sleeps in
`wait` has no zombie child, a number is returned by one `wait` at most, and only to the parent of a process
that has exited. -/
theorem process_tree (h : Runs.Reaches Table.step (fun _ _ => True) userinit s) :
    (∀ q, s.state q ≠ .unused → q ≠ initproc →
      (∃ p, s.parent q = some p ∧ s.state p ≠ .unused ∧ s.state p ≠ .zombie) ∨ ∃ p, s.pos p = .forking q) ∧
    (∀ p q, s.state p = .sleeping → s.pos p = .waiting → s.parent q = some p → s.state q ≠ .zombie) ∧
    s.reaps.Nodup ∧
    ∀ a t n, s.step a = some t → t.reaps = n :: s.reaps →
      ∃ p q, a = .wait p ∧ s.pid q = n ∧ s.parent q = some p ∧ s.state q = .zombie ∧ n ∈ s.exits := by
  obtain ⟨htree,hnum⟩ := reaches_spec h
  refine ⟨?_,?_,hnum.nodup,?_⟩
  · intro q hq hne
    rcases htree.adopted q hq hne with ⟨p,hp⟩ | hpos
    · have hlive := htree.live q p hp
      refine .inl ⟨p,hp,?_,?_⟩
      · intro hs
        rw [hs] at hlive
        cases hlive
      · intro hs
        rw [hs] at hlive
        cases hlive
    · exact .inr hpos
  · intro p q hs hw hpar
    exact (htree.waiting p hs hw).2 q hpar
  · intro a t n hstep hreap
    rcases (step_taken hstep).reaps with hsame | ⟨p,q,ha,hpar,hz,hnew⟩
    · rw [hsame] at hreap
      exact absurd (congrArg List.length hreap) (by simp)
    · have hpid : s.pid q = n := (List.cons.inj (hnew.symm.trans hreap)).1
      exact ⟨p,q,ha,hpid,hpar,hz,hpid ▸ hnum.exited q hz⟩

def forkExitWait : List Action :=
  [.schedule initproc,.allocproc initproc,.forkCopy initproc,.forkDone initproc,.wait initproc,
    .schedule slot1,.exit slot1,.exitDone slot1,.schedule initproc,.wait initproc]

theorem process_tree_reaped : ∃ s, Runs.Reaches Table.step (fun _ _ => True) userinit s ∧ s.reaps = [2] ∧
    s.reaps.Nodup := by
  have hrun : (Runs.exec Table.step (fun _ _ => True) forkExitWait userinit).map
      (fun s => decide (s.reaps = [2])) = some true := by decide +kernel
  obtain ⟨s,hs,hf⟩ := Runs.exists_reaches hrun
  exact ⟨s,hs,of_decide_eq_true hf,(process_tree hs).2.2.1⟩

end Xv6Paging.Process
