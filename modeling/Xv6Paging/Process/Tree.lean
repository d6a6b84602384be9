import Xv6Paging.Process.Table

/-! # The process tree

The invariants of the process table: every process that is not unused has a parent that lives, a
process that sleeps in `wait` has no zombie child, and the number of a process is not
used again. Each kind of write keeps them.
-/
namespace Xv6Paging.Process
open Function

def Position.child : Position → Option ProcSlot
  | .forking q | .forked q => some q
  | _ => none

structure Tree (s : Table) : Prop where
  init : (s.state initproc).active = true ∧ s.parent initproc = none ∧ s.pos initproc ≠ .exiting
  live : ∀ q p, s.parent q = some p → (s.state p).active = true
  proper : ∀ q, s.parent q ≠ some q
  unused : ∀ q, s.state q = .unused → s.parent q = none
  adopted : ∀ q, s.state q ≠ .unused → q ≠ initproc → (∃ p, s.parent q = some p) ∨ ∃ p, s.pos p = .forking q
  forking : ∀ p q, s.pos p = .forking q → s.state q = .embryo ∧ s.parent q = none
  forked : ∀ p q, s.pos p = .forked q → s.state q = .embryo ∧ s.parent q = some p
  busy : ∀ p q, (s.pos p).child = some q → (s.state p).active = true
  unique : ∀ p p' q, (s.pos p).child = some q → (s.pos p').child = some q → p = p'
  waiting : ∀ p, s.state p = .sleeping → s.pos p = .waiting →
    s.chan p = some p ∧ ∀ q, s.parent q = some p → s.state q ≠ .zombie

structure Numbered (s : Table) : Prop where
  bound : ∀ q, s.state q ≠ .unused → s.pid q < s.nextpid
  inj : ∀ q q', s.state q ≠ .unused → s.state q' ≠ .unused → s.pid q = s.pid q' → q = q'
  exited : ∀ q, s.state q = .zombie → s.pid q ∈ s.exits
  reaped : ∀ n ∈ s.reaps, n < s.nextpid ∧ n ∈ s.exits ∧ ∀ q, s.state q ≠ .unused → s.pid q ≠ n
  nodup : s.reaps.Nodup

variable {s t : Table} {p q : ProcSlot}

theorem tree_userinit : Tree userinit where
  init := by decide
  live := by rintro q p ⟨⟩
  proper := by rintro q ⟨⟩
  unused := by
    intro q _
    rfl
  adopted := by
    intro q hq hne
    exact absurd (if_neg hne) hq
  forking := by rintro p q ⟨⟩
  forked := by rintro p q ⟨⟩
  busy := by rintro p q ⟨⟩
  unique := by rintro p p' q ⟨⟩
  waiting := by rintro p _ ⟨⟩

theorem numbered_userinit : Numbered userinit where
  bound := by
    intro q hq
    by_cases hne : q = initproc
    · subst hne
      decide
    · exact absurd (if_neg hne) hq
  inj := by
    intro q q' hq hq' _
    have hinit : ∀ x, userinit.state x ≠ .unused → x = initproc := by
      intro x hx
      by_contra hne
      exact hx (if_neg hne)
    rw [hinit q hq,hinit q' hq']
  exited := by
    intro q hq
    by_cases hne : q = initproc
    · subst hne
      cases hq
    · have hunused : userinit.state q = .unused := if_neg hne
      rw [hunused] at hq
      cases hq
  reaped := by
    intro n hn
    cases hn
  nodup := List.nodup_nil

/-- States that change among those of active processes. -/
def Shuffle (s : Table) (state : ProcSlot → ProcState) : Prop :=
  ∀ x, state x ≠ s.state x → (s.state x).active = true ∧ (state x).active = true

section Shuffle
variable {state : ProcSlot → ProcState}

theorem Shuffle.eq_of_inactive (h : Shuffle s state) {x : ProcSlot} (hx : (state x).active = false) :
    state x = s.state x := by
  by_contra hne
  rw [(h x hne).2] at hx
  cases hx

theorem Shuffle.eq_of_inactive_before (h : Shuffle s state) {x : ProcSlot} (hx : (s.state x).active = false) :
    state x = s.state x := by
  by_contra hne
  rw [(h x hne).1] at hx
  cases hx

theorem Shuffle.active_of (h : Shuffle s state) {x : ProcSlot} (hx : (s.state x).active = true) :
    (state x).active = true := by
  by_cases he : state x = s.state x
  · rw [he]
    exact hx
  · exact (h x he).2

theorem Shuffle.ne_unused (h : Shuffle s state) {x : ProcSlot} (hx : state x ≠ .unused) : s.state x ≠ .unused := by
  intro hu
  apply hx
  rw [h.eq_of_inactive_before (by rw [hu]; rfl),hu]

theorem Tree.restate (h : Tree s) (hs : Shuffle s state) {chan : ProcSlot → Option ProcSlot} (killed hit : ProcSlot → Bool)
    (hwait : ∀ x, state x = .sleeping → s.pos x = .waiting →
      chan x = some x ∧ ∀ q, s.parent q = some x → s.state q ≠ .zombie) :
    Tree {s with state := state, chan := chan, killed := killed, hit := hit} where
  init := ⟨hs.active_of h.init.1,h.init.2⟩
  live q p hq := hs.active_of (h.live q p hq)
  proper := h.proper
  unused q hq := h.unused q ((hs.eq_of_inactive (by rw [show state q = _ from hq]; rfl)).symm.trans hq)
  adopted q hq := h.adopted q (hs.ne_unused hq)
  forking p q hp := by
    obtain ⟨hq,hnone⟩ := h.forking p q hp
    exact ⟨(hs.eq_of_inactive_before (by rw [hq]; rfl)).trans hq,hnone⟩
  forked p q hp := by
    obtain ⟨hq,hsome⟩ := h.forked p q hp
    exact ⟨(hs.eq_of_inactive_before (by rw [hq]; rfl)).trans hq,hsome⟩
  busy p q hp := hs.active_of (h.busy p q hp)
  unique := h.unique
  waiting p hp hpos := by
    obtain ⟨hc,hz⟩ := hwait p hp hpos
    refine ⟨hc,?_⟩
    intro q hq hzombie
    exact hz q hq ((hs.eq_of_inactive (by rw [show state q = _ from hzombie]; rfl)).symm.trans hzombie)

theorem Tree.shuffle (h : Tree s) (hs : Shuffle s state) {chan : ProcSlot → Option ProcSlot} (killed hit : ProcSlot → Bool)
    (hsleep : ∀ x, state x = .sleeping → s.pos x = .waiting → s.state x = .sleeping)
    (hchan : ∀ x, s.pos x = .waiting → chan x = s.chan x) :
    Tree {s with state := state, chan := chan, killed := killed, hit := hit} := by
  refine h.restate hs killed hit fun x hx hpos => ?_
  rw [hchan x hpos]
  exact h.waiting x (hsleep x hx hpos) hpos

theorem Numbered.restate (h : Numbered s) (hused : ∀ x, state x ≠ .unused → s.state x ≠ .unused)
    (hzombie : ∀ x, state x = .zombie → s.state x = .zombie) (parent chan : ProcSlot → Option ProcSlot)
    (pos : ProcSlot → Position) (killed hit : ProcSlot → Bool) :
    Numbered {s with state := state, parent := parent, chan := chan, pos := pos, killed := killed, hit := hit} where
  bound q hq := h.bound q (hused q hq)
  inj q q' hq hq' := h.inj q q' (hused q hq) (hused q' hq')
  exited q hq := h.exited q (hzombie q hq)
  reaped n hn := by
    obtain ⟨hlt,hex,hfree⟩ := h.reaped n hn
    exact ⟨hlt,hex,fun q hq => hfree q (hused q hq)⟩
  nodup := h.nodup

theorem Numbered.shuffle (h : Numbered s) (hs : Shuffle s state) (chan : ProcSlot → Option ProcSlot)
    (killed hit : ProcSlot → Bool) : Numbered {s with state := state, chan := chan, killed := killed, hit := hit} := by
  refine h.restate (fun x => hs.ne_unused) ?_ s.parent chan s.pos killed hit
  intro x hx
  exact (hs.eq_of_inactive (by rw [hx]; rfl)).symm.trans hx

theorem shuffle_refl (s : Table) : Shuffle s s.state := fun _ hx => absurd rfl hx

theorem shuffle_update (p : ProcSlot) {r : ProcState} (hp : (s.state p).active = true) (hr : r.active = true) :
    Shuffle s (update s.state p r) := by
  intro x hx
  by_cases he : x = p
  · subst he
    rw [update_self]
    exact ⟨hp,hr⟩
  · rw [update_of_ne he] at hx
    exact absurd rfl hx

theorem wakeup1_sleeping {c : Option ProcSlot} {x : ProcSlot} (hx : (s.wakeup1 c).state x = .sleeping) :
    s.state x = .sleeping := by
  by_cases he : s.state x = .sleeping ∧ s.chan x = c
  · exact he.1
  · exact (if_neg he).symm.trans hx

theorem shuffle_wakeup1 (c : Option ProcSlot) : Shuffle s (s.wakeup1 c).state := by
  intro x hx
  by_cases he : s.state x = .sleeping ∧ s.chan x = c
  · have hnew : (s.wakeup1 c).state x = .runnable := if_pos he
    rw [hnew,he.1]
    exact ⟨rfl,rfl⟩
  · exact absurd (if_neg he) hx

end Shuffle

theorem wakeup1_awake {c : Option ProcSlot} {x : ProcSlot} (hx : s.chan x = c) : (s.wakeup1 c).state x ≠ .sleeping := by
  intro hs
  by_cases he : s.state x = .sleeping ∧ s.chan x = c
  · have hnew : (s.wakeup1 c).state x = .runnable := if_pos he
    rw [hnew] at hs
    cases hs
  · have hold : (s.wakeup1 c).state x = s.state x := if_neg he
    rw [hold] at hs
    exact he ⟨hs,hx⟩

theorem Tree.wakeup1 (h : Tree s) (c : Option ProcSlot) : Tree (s.wakeup1 c) :=
  h.shuffle (shuffle_wakeup1 c) s.killed s.hit (fun _ hx _ => wakeup1_sleeping hx) (fun _ _ => rfl)

theorem Numbered.wakeup1 (h : Numbered s) (c : Option ProcSlot) : Numbered (s.wakeup1 c) :=
  h.shuffle (shuffle_wakeup1 c) s.chan s.killed s.hit

theorem child_cases {o : Position} (h : o.child = some q) : o = .forking q ∨ o = .forked q := by
  cases o with
  | forking x =>
    cases h
    exact .inl rfl
  | forked x =>
    cases h
    exact .inr rfl
  | user | exiting | waiting => cases h

theorem Tree.child_embryo (h : Tree s) (hc : (s.pos p).child = some q) : s.state q = .embryo := by
  rcases child_cases hc with hpos | hpos
  · exact (h.forking p q hpos).1
  · exact (h.forked p q hpos).1

theorem Tree.ne_init (h : Tree s) (hq : (s.state q).active = false) : q ≠ initproc := by
  rintro rfl
  rw [h.init.1] at hq
  cases hq

theorem Tree.no_children (h : Tree s) (hq : (s.state q).active = false) (x : ProcSlot) : s.parent x ≠ some q := by
  intro hx
  rw [h.live x q hx] at hq
  cases hq

theorem Tree.no_child (h : Tree s) (hq : (s.state q).active = false) : (s.pos q).child = none := by
  cases hc : (s.pos q).child with
  | none => rfl
  | some x =>
    rw [h.busy q x hc] at hq
    cases hq

theorem Tree.setPos (h : Tree s) (hold : (s.pos p).child = none) {o : Position} (hnew : o.child = none)
    (hexit : o = .exiting → p ≠ initproc) (hwait : o = .waiting → s.state p ≠ .sleeping) :
    Tree {s with pos := update s.pos p o} := by
  have hfork : ∀ x, o ≠ .forking x ∧ o ≠ .forked x := by
    intro x
    constructor
    · rintro rfl
      cases hnew
    · rintro rfl
      cases hnew
  constructor
  · grind [update_apply,h.init]
  · exact h.live
  · exact h.proper
  · exact h.unused
  · intro x hx hne
    rcases h.adopted x hx hne with hpar | ⟨y,hy⟩
    · exact .inl hpar
    · right
      refine ⟨y,?_⟩
      grind [update_apply,Position.child]
  · intro y x hy
    have hy' := h.forking y x
    grind [update_apply]
  · intro y x hy
    have hy' := h.forked y x
    grind [update_apply]
  · intro y x hy
    have hy' := h.busy y x
    grind [update_apply]
  · intro y y' x hy hy'
    have hu := h.unique y y' x
    grind [update_apply]
  · intro x hx hw
    have hx' := h.waiting x hx
    grind [update_apply]

/-- The stages of a `fork` by `p` with the slot `q`: the slot is free, taken, a copy has been made, the child can run. -/
inductive Stage (p q : ProcSlot) : ProcState → Option ProcSlot → Position → Prop
  | free : Stage p q .unused none .user
  | made : Stage p q .embryo none (.forking q)
  | copied : Stage p q .embryo (some p) (.forked q)
  | done : Stage p q .runnable (some p) .user

theorem Tree.forkStep (h : Tree s) (hrun : s.state p = .running) (hq : (s.state q).active = false)
    (hpos : ∀ x, (s.pos p).child = some x → x = q) (hmine : ∀ x, (s.pos x).child = some q → x = p)
    {state : ProcSlot → ProcState} {parent : ProcSlot → Option ProcSlot} {pos : ProcSlot → Position}
    (hstate : ∀ x ≠ q, state x = s.state x) (hparent : ∀ x ≠ q, parent x = s.parent x)
    (hplace : ∀ x ≠ p, pos x = s.pos x) (hstage : Stage p q (state q) (parent q) (pos p)) (pid creator : ProcSlot → ℕ)
    (nextpid : ℕ) (hit : ProcSlot → Bool) : Tree {s with
      state := state, parent := parent, pos := pos, pid := pid, creator := creator, nextpid := nextpid, hit := hit} := by
  have hqi := h.ne_init hq
  have hkids := h.no_children hq
  have hidle := h.no_child hq
  have hpq : p ≠ q := by
    rintro rfl
    rw [hrun] at hq
    cases hq
  have hactive := active_of_running hrun
  constructor
  · have hold := h.init
    grind [Stage]
  · intro x y hx
    have hold := h.live x y
    grind [Stage]
  · intro x
    have hold := h.proper x
    grind [Stage]
  · intro x hx
    have hold := h.unused x
    grind [Stage]
  · intro x hx hne
    by_cases he : x = q
    · grind [Stage]
    · rcases h.adopted x (hstate x he ▸ hx) hne with ⟨y,hy⟩ | ⟨y,hy⟩
      · exact .inl ⟨y,(hparent x he).trans hy⟩
      · have hyp : y ≠ p := by
          rintro rfl
          exact he (hpos x (by rw [hy]; rfl))
        exact .inr ⟨y,(hplace y hyp).trans hy⟩
  · intro y x hy
    have hold := h.forking y x
    have hx := hmine y
    grind [Stage,Position.child]
  · intro y x hy
    have hold := h.forked y x
    have hx := hmine y
    grind [Stage,Position.child]
  · intro y x hy
    have hold := h.busy y x
    grind [Stage]
  · intro y y' x hy hy'
    have hold := h.unique y y' x
    have hx := hmine y
    have hx' := hmine y'
    grind [Stage,Position.child]
  · intro x hx hw
    have hold := h.waiting x
    grind [Stage]

theorem Tree.forkChild (h : Tree s) (hrun : s.state p = .running) (hchild : (s.pos p).child = some q)
    {state : ProcSlot → ProcState} {parent : ProcSlot → Option ProcSlot} {pos : ProcSlot → Position}
    (hstate : ∀ x ≠ q, state x = s.state x) (hparent : ∀ x ≠ q, parent x = s.parent x)
    (hplace : ∀ x ≠ p, pos x = s.pos x) (hstage : Stage p q (state q) (parent q) (pos p)) :
    Tree {s with state := state, parent := parent, pos := pos} :=
  h.forkStep hrun (by rw [h.child_embryo hchild]; rfl) (fun _ hx => Option.some.inj (hx.symm.trans hchild))
    (fun x hx => h.unique x p q hx hchild) hstate hparent hplace hstage s.pid s.creator s.nextpid s.hit

theorem Tree.allocproc (h : Tree s) (hrun : s.state p = .running) (hpos : s.pos p = .user) (hq : s.state q = .unused)
    (pid creator : ProcSlot → ℕ) (nextpid : ℕ) (hit : ProcSlot → Bool) : Tree {s with
      state := update s.state q .embryo
      pos := update (update s.pos q .user) p (.forking q)
      pid := pid, creator := creator, nextpid := nextpid, hit := hit} := by
  have hfree : (s.state q).active = false := by
    rw [hq]
    rfl
  have hqp : p ≠ q := by
    rintro rfl
    rw [hrun] at hq
    cases hq
  have hplace := h.setPos (h.no_child hfree) (o := .user) rfl (by rintro ⟨⟩) (by rintro ⟨⟩)
  refine hplace.forkStep hrun hfree ?_ ?_ (fun _ hx => update_of_ne hx _ _) (fun _ _ => rfl)
    (fun _ hx => update_of_ne hx _ _) ?_ pid creator nextpid hit
  · intro x hx
    dsimp only at hx
    rw [update_of_ne hqp,hpos] at hx
    cases hx
  · intro x hx
    have hembryo : s.state q = .embryo := hplace.child_embryo hx
    rw [hq] at hembryo
    cases hembryo
  · rw [update_self,update_self,h.unused q hq]
    exact .made

theorem Tree.setParent (h : Tree s) (hqi : q ≠ initproc) (hfree : ∀ y, (s.pos y).child ≠ some q) {r : ProcState}
    {w : Option ProcSlot} (hw : s.state q = .zombie ∧ r = .unused ∧ w = none ∨
      s.state q ≠ .unused ∧ r = s.state q ∧ w = some initproc ∧
        (s.state initproc = .sleeping → s.pos initproc = .waiting → s.state q ≠ .zombie))
    (pid : ProcSlot → ℕ) (killed : ProcSlot → Bool) (reaps : List ℕ) :
    Tree {s with
      pid := pid, parent := update s.parent q w, killed := killed
      state := update s.state q r, reaps := reaps} := by
  have hinit := h.init
  have hkids := fun hq => h.no_children (q := q) hq
  constructor
  · grind [update_apply]
  · intro x y hx
    have hold := h.live x y
    grind [update_apply,ProcState.active]
  · intro x
    have hold := h.proper x
    grind [update_apply]
  · intro x hx
    have hold := h.unused x
    grind [update_apply]
  · intro x hx hne
    have hold := h.adopted x
    grind [update_apply]
  · intro y x hy
    have hold := h.forking y x hy
    have hne := hfree y
    grind [update_apply,Position.child]
  · intro y x hy
    have hold := h.forked y x hy
    have hne := hfree y
    grind [update_apply,Position.child]
  · intro y x hy
    have hold := h.busy y x hy
    grind [update_apply,ProcState.active]
  · exact h.unique
  · intro x hx hw
    have hold := h.waiting x
    grind [update_apply]

theorem Tree.reparent (h : Tree s) (hchild : (s.pos p).child = none) (hq : s.parent q = some p)
    (hz : s.state initproc = .sleeping → s.pos initproc = .waiting → s.state q ≠ .zombie) :
    Tree {s with parent := update s.parent q (some initproc)} := by
  have hqi : q ≠ initproc := by
    rintro rfl
    rw [h.init.2.1] at hq
    cases hq
  have hused : s.state q ≠ .unused := by
    intro hu
    rw [h.unused q hu] at hq
    cases hq
  have hfree : ∀ y, (s.pos y).child ≠ some q := by
    intro y hy
    rcases child_cases hy with hpos | hpos
    · rw [(h.forking y q hpos).2] at hq
      cases hq
    · rw [(h.forked y q hpos).2] at hq
      cases hq
      rw [hy] at hchild
      cases hchild
  have hnew := h.setParent hqi hfree (.inr ⟨hused,rfl,rfl,hz⟩) s.pid s.killed s.reaps
  rwa [update_eq_self] at hnew

theorem Numbered.reparent (h : Numbered s) (parent : ProcSlot → Option ProcSlot) : Numbered {s with parent := parent} :=
  h.restate (fun _ => id) (fun _ => id) parent s.chan s.pos s.killed s.hit

theorem Tree.setChan (h : Tree s) (hp : s.state p ≠ .sleeping) (o : Option ProcSlot) :
    Tree {s with chan := update s.chan p o} := by
  refine ⟨h.init,h.live,h.proper,h.unused,h.adopted,h.forking,h.forked,h.busy,h.unique,?_⟩
  intro x hx hw
  have hold := h.waiting x hx hw
  have hne : x ≠ p := by
    rintro rfl
    exact hp hx
  exact ⟨(update_of_ne hne _ _).trans hold.1,hold.2⟩

section
variable (h : Tree s) (hrun : s.state p = .running) (hchild : (s.pos p).child = none)
include h hrun hchild

theorem Tree.back : Tree {s with chan := update s.chan p none, pos := update s.pos p .user} :=
  (h.setChan (by rw [hrun]; rintro ⟨⟩) none).setPos hchild rfl (by rintro ⟨⟩) (by rintro ⟨⟩)

theorem Tree.reap (hz : s.state q = .zombie)
    (pid : ProcSlot → ℕ) (killed : ProcSlot → Bool) (reaps : List ℕ) : Tree {s with
      chan := update s.chan p none, pid := pid, parent := update s.parent q none, killed := killed
      state := update s.state q .unused, pos := update s.pos p .user, reaps := reaps} := by
  have hback := h.back hrun hchild
  refine hback.setParent (h.ne_init (by rw [hz]; rfl)) ?_ (.inl ⟨hz,rfl,rfl⟩) pid killed reaps
  intro y hy
  have hembryo : s.state q = .embryo := hback.child_embryo hy
  rw [hz] at hembryo
  cases hembryo

theorem Tree.sleep (hz : ∀ q, s.parent q = some p → s.state q ≠ .zombie) : Tree {s with
      state := update s.state p .sleeping
      chan := update (update s.chan p none) p (some p)
      pos := update s.pos p .waiting} := by
  have hplace := h.setPos hchild (o := .waiting) rfl (by rintro ⟨⟩) (by rw [hrun]; rintro - ⟨⟩)
  refine hplace.restate (shuffle_update p (active_of_running hrun) rfl) s.killed s.hit ?_
  intro x hx hw
  by_cases he : x = p
  · subst he
    exact ⟨update_self _ _ _,hz⟩
  · rw [update_of_ne he,update_of_ne he]
    exact hplace.waiting x ((update_of_ne he _ _).symm.trans hx) hw

end

theorem Numbered.allocproc (h : Numbered s) (q : ProcSlot) (pos : ProcSlot → Position) (creator : ProcSlot → ℕ)
    (hit : ProcSlot → Bool) : Numbered {s with
      state := update s.state q .embryo
      pid := update s.pid q s.nextpid
      nextpid := s.nextpid+1
      pos := pos, creator := creator, hit := hit} := by
  have hbelow : ∀ x, s.state x ≠ .unused → s.pid x ≠ s.nextpid := by
    intro x hx he
    exact absurd (h.bound x hx) (by omega)
  constructor
  · intro x hx
    have hold := h.bound x
    grind [update_apply]
  · intro x x' hx hx'
    have hold := h.inj x x'
    have hb := hbelow x
    have hb' := hbelow x'
    grind [update_apply]
  · intro x hx
    have hold := h.exited x
    grind [update_apply]
  · intro n hn
    obtain ⟨hlt,hex,hfree⟩ := h.reaped n hn
    refine ⟨Nat.lt_succ_of_lt hlt,hex,?_⟩
    intro x hx
    have hold := hfree x
    grind [update_apply]
  · exact h.nodup

theorem shuffle_kill (q : ProcSlot) :
    Shuffle s (update s.state q (if s.state q = .sleeping then .runnable else s.state q)) := by
  split
  · next hs => exact shuffle_update q (by rw [hs]; rfl) rfl
  · rw [update_eq_self]
    exact shuffle_refl s

theorem kill_sleeping {x : ProcSlot}
    (hx : update s.state q (if s.state q = .sleeping then .runnable else s.state q) x = .sleeping) :
    s.state x = .sleeping := by
  grind [update_apply]

end Xv6Paging.Process
