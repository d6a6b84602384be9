import Mathlib.Algebra.Order.Ring.Nat
import Mathlib.Data.Fin.Basic
import Xv6Paging.Library.Runs

/-! # Sleep and wakeup

`sleep`, `wakeup1`, `wakeup`, `sched` and `yield` of `proc.c`, cut at every operation on a lock, at the
writes of a process's state and channel, and at the turns of `wakeup1`'s loop. A channel
`c` goes with the lock `lk c` that protects its condition; `none` is `ptable.lock`. A
process tests the condition under that lock and calls `sleep` if it does not hold, or it
changes the condition and calls `wakeup`, and it does not give the lock up between making
the condition true and the wakeup. `ptable.lock` passes from a process that calls `sched`
to the scheduler and from there to the process that runs next.
-/
namespace Xv6Paging.SleepWakeup
open Function

inductive RunState
  | running
  | runnable
  | sleeping
  deriving DecidableEq

inductive Owner (N : ℕ)
  | proc (p : Fin N)
  | scheduler
  deriving DecidableEq

/-- `locked c`: the process holds `lk c`. In `sleep`: before the acquire of `ptable.lock`, the release of
`lk`, the mark, the switch, switched away, before it clears `chan`, before the release, before the acquire
of `lk`. Then `wakeup` and `yield`; the argument of the latter says where the process was interrupted. -/
inductive Pc
  | idle
  | locked (c : ℕ)
  | entering (c : ℕ)
  | leaving (c : ℕ)
  | marking (c : ℕ)
  | switching (c : ℕ)
  | asleep (c : ℕ)
  | resumed (c : ℕ)
  | dropping (c : ℕ)
  | reacquiring (c : ℕ)
  | waking (c : ℕ)
  | scanning (c n : ℕ)
  | woken (c : ℕ)
  | yielding (back : Option ℕ)
  | yieldSwitching (back : Option ℕ)
  | descheduled (back : Option ℕ)
  | yieldResumed (back : Option ℕ)
  deriving DecidableEq

/-- The history says which channels a wakeup has completed on since a process last tested their condition,
and which conditions have been made true with the wakeup still to come. -/
structure System (N : ℕ) where
  pc : Fin N → Pc
  state : Fin N → RunState
  chan : Fin N → Option ℕ
  held : Option ℕ → Option (Owner N)
  cond : ℕ → Bool
  owed : ℕ → Bool
  missed : Fin N → ℕ → Bool

inductive Action (N : ℕ)
  | acquire (p : Fin N) (c : ℕ)
  | turn (p : Fin N) (c : ℕ)
  | set (p : Fin N) (b : Bool)
  | test (p : Fin N)
  | wakeup (p : Fin N)
  | kill (p q : Fin N)
  | release (p : Fin N)
  | yield (p : Fin N)
  | next (p : Fin N)
  | schedAcquire
  | schedRelease
  | dispatch (p : Fin N)

variable {N : ℕ}

namespace System

def goto (s : System N) (p : Fin N) (q : Pc) : System N := {s with pc := update s.pc p q}

def move (s : System N) (p : Fin N) (q : Pc) (l : Option ℕ) (o : Option (Owner N)) : System N :=
  {s with pc := update s.pc p q, held := update s.held l o}

def setState (s : System N) (p : Fin N) (r : RunState) : System N :=
  {s with state := update s.state p r}

def setChan (s : System N) (p : Fin N) (o : Option ℕ) : System N := {s with chan := update s.chan p o}

/-- One turn of the loop of `wakeup1`. -/
def rouse (s : System N) (p : Fin N) (c : ℕ) : System N :=
  if s.state p = .sleeping ∧ s.chan p = some c then s.setState p .runnable else s

/-- The end of the loop of `wakeup1`. -/
def complete (s : System N) (c : ℕ) : System N :=
  {s with owed := update s.owed c false, missed := fun p => update (s.missed p) c true}

def back : Option ℕ → Pc
  | none => .idle
  | some c => .reacquiring c

def next (lk : ℕ → Option ℕ) (s : System N) (p : Fin N) : Option (System N) :=
  match s.pc p with
  | .entering c => if s.held none = none then some (s.move p (.leaving c) none (some (.proc p))) else none
  | .leaving c => some (s.move p (.marking c) (lk c) none)
  | .marking c => some (((s.setChan p (some c)).setState p .sleeping).goto p (.switching c))
  | .switching c => some (s.move p (.asleep c) none (some .scheduler))
  | .resumed c => some ((s.setChan p none).goto p (if lk c = none then .locked c else .dropping c))
  | .dropping c => some (s.move p (.reacquiring c) none none)
  | .reacquiring c => if s.held (lk c) = none then some (s.move p (.locked c) (lk c) (some (.proc p))) else none
  | .waking c => if s.held none = none then some (s.move p (.scanning c 0) none (some (.proc p))) else none
  | .scanning c n =>
    if hn : n < N then some ((s.rouse ⟨n,hn⟩ c).goto p (.scanning c (n+1)))
    else some ((s.complete c).goto p (if lk c = none then .locked c else .woken c))
  | .woken c => some (s.move p (.locked c) none none)
  | .yielding b => some ((s.setState p .runnable).goto p (.yieldSwitching b))
  | .yieldSwitching b => some (s.move p (.descheduled b) none (some .scheduler))
  | .yieldResumed b => some (s.move p (back b) none none)
  | _ => none

/-- The condition holds and the process keeps the lock, or it calls `sleep`. -/
def test (lk : ℕ → Option ℕ) (s : System N) (p : Fin N) (c : ℕ) : System N :=
  let s := {s with missed := update s.missed p (update (s.missed p) c false)}
  if s.cond c then s
  else s.goto p (if lk c = none then .marking c else .entering c)

/-- The result `none` says that the step is not possible or has to wait. -/
def step (lk : ℕ → Option ℕ) (s : System N) : Action N → Option (System N)
  | .acquire p c =>
    if s.pc p = .idle ∧ s.held (lk c) = none then some (s.move p (.locked c) (lk c) (some (.proc p))) else none
  | .turn p c' =>
    match s.pc p with
    | .locked c => if lk c' = lk c ∧ s.owed c = false then some (s.goto p (.locked c')) else none
    | _ => none
  | .set p b =>
    match s.pc p with
    | .locked c => some {s with cond := update s.cond c b, owed := update s.owed c b}
    | _ => none
  | .test p =>
    match s.pc p with
    | .locked c => some (s.test lk p c)
    | _ => none
  | .wakeup p =>
    match s.pc p with
    | .locked c => some (s.goto p (if lk c = none then .scanning c 0 else .waking c))
    | _ => none
  | .kill p q =>
    match s.pc p with
    | .locked c =>
      if lk c = none then some (if s.state q = .sleeping then s.setState q .runnable else s) else none
    | _ => none
  | .release p =>
    match s.pc p with
    | .locked c => if s.owed c = false then some (s.move p .idle (lk c) none) else none
    | _ => none
  | .yield p =>
    match s.pc p with
    | .idle => if s.held none = none then some (s.move p (.yielding none) none (some (.proc p))) else none
    | .reacquiring c =>
      if s.held none = none then some (s.move p (.yielding (some c)) none (some (.proc p))) else none
    | _ => none
  | .next p => s.next lk p
  | .schedAcquire =>
    if s.held none = none then some {s with held := update s.held none (some .scheduler)} else none
  | .schedRelease =>
    if s.held none = some .scheduler then some {s with held := update s.held none none} else none
  | .dispatch p =>
    if s.held none = some .scheduler ∧ s.state p = .runnable then
      match s.pc p with
      | .asleep c => some ((s.setState p .running).move p (.resumed c) none (some (.proc p)))
      | .descheduled b => some ((s.setState p .running).move p (.yieldResumed b) none (some (.proc p)))
      | _ => none
    else none

def start (N : ℕ) (cond : ℕ → Bool) : System N where
  pc := fun _ => .descheduled none
  state := fun _ => .runnable
  chan := fun _ => none
  held := fun _ => none
  cond := cond
  owed := fun _ => false
  missed := fun _ _ => false

end System

namespace Pc

def Holds (lk : ℕ → Option ℕ) : Pc → Option ℕ → Prop
  | .locked c, l | .entering c, l | .waking c, l => l = lk c
  | .leaving c, l | .scanning c _, l | .woken c, l => l = lk c ∨ l = none
  | .marking _, l | .switching _, l | .resumed _, l | .dropping _, l => l = none
  | .yielding _, l | .yieldSwitching _, l | .yieldResumed _, l => l = none
  | .idle, _ | .asleep _, _ | .reacquiring _, _ | .descheduled _, _ => False

def Bound (c : ℕ) : Pc → Prop
  | .entering d | .leaving d | .marking d => d = c
  | _ => False

def Waker (c : ℕ) : Pc → Prop
  | .locked d | .waking d | .scanning d _ => d = c
  | _ => False

def Far (c : ℕ) : Pc → Prop
  | .entering d | .leaving d | .woken d => d = c
  | _ => False

def quiet : Pc → Bool
  | .switching _ | .asleep _ | .locked _ | .waking _ | .scanning _ _ => false
  | _ => true

def plain : Pc → Bool
  | .entering _ | .leaving _ | .marking _ | .scanning _ _ | .woken _ => false
  | _ => true

end Pc

/-- A process that has decided to sleep on a channel, up to the wakeup. -/
def Waits (s : System N) (p : Fin N) (c : ℕ) : Prop :=
  (s.pc p).Bound c ∨ s.state p = .sleeping ∧ s.chan p = some c

structure Inv (lk : ℕ → Option ℕ) (s : System N) : Prop where
  owns : ∀ p l, (s.pc p).Holds lk l → s.held l = some (.proc p)
  sleeping : ∀ p, s.state p = .sleeping → ∃ c, s.chan p = some c ∧ (s.pc p = .switching c ∨ s.pc p = .asleep c)
  fresh : ∀ p c, Waits s p c → s.missed p c = false ∧ (s.cond c = true → s.owed c = true)
  scan : ∀ q c n, s.pc q = .scanning c n → ∀ p : Fin N, p.val < n → ¬ (s.state p = .sleeping ∧ s.chan p = some c)
  owed : ∀ c, s.owed c = true → s.cond c = true ∧ ∃ q, (s.pc q).Waker c
  far : ∀ p c, (s.pc p).Far c → lk c ≠ none

variable {lk : ℕ → Option ℕ} {s t : System N}

theorem System.setState_state (p : Fin N) (r : RunState) :
    (s.setState p r).state = update s.state p r := rfl

theorem inv_start (cond : ℕ → Bool) : Inv lk (System.start N cond) where
  owns := by
    intro p l h
    exact h.elim
  sleeping := by
    intro p h
    cases h
  fresh := by
    rintro p c (h | ⟨h,-⟩)
    · exact h.elim
    · cases h
  scan := by
    intro q c n h
    cases h
  owed := by
    intro c h
    cases h
  far := by
    intro p c h
    exact h.elim

structure Turn (lk : ℕ → Option ℕ) (s : System N) (p : Fin N) (q : Pc) : Prop where
  awake : s.state p = .sleeping → ∃ c, s.chan p = some c ∧ (q = .switching c ∨ q = .asleep c)
  bound : ∀ c, q.Bound c → s.missed p c = false ∧ (s.cond c = true → s.owed c = true)
  scan : ∀ c n, q = .scanning c n → ∀ x : Fin N, x.val < n → ¬ (s.state x = .sleeping ∧ s.chan x = some c)
  waker : ∀ c, (s.pc p).Waker c → q.Waker c ∨ s.owed c = false
  far : ∀ c, q.Far c → lk c ≠ none

section
variable (h : Inv lk s)
include h

theorem Inv.turn {p : Fin N} {q : Pc} {held : Option ℕ → Option (Owner N)}
    (hturn : Turn lk s p q) (hown : ∀ l, q.Holds lk l → held l = some (.proc p))
    (hkeep : ∀ l r, r ≠ p → s.held l = some (.proc r) → held l = some (.proc r)) :
    Inv lk {s with pc := update s.pc p q, held := held} where
  owns := by
    intro r l hr
    by_cases he : r = p
    · subst he
      exact hown l (by simpa using hr)
    · refine hkeep l r he (h.owns r l ?_)
      simpa [update_of_ne he] using hr
  sleeping := by
    intro r hr
    by_cases he : r = p
    · subst he
      simpa using hturn.awake hr
    · simpa [update_of_ne he] using h.sleeping r hr
  fresh := by
    rintro r c (hr | hr)
    · by_cases he : r = p
      · subst he
        exact hturn.bound c (by simpa using hr)
      · exact h.fresh r c (.inl (by simpa [update_of_ne he] using hr))
    · exact h.fresh r c (.inr hr)
  scan := by
    intro r c n hr
    by_cases he : r = p
    · subst he
      exact hturn.scan c n (by simpa using hr)
    · exact h.scan r c n (by simpa [update_of_ne he] using hr)
  owed := by
    intro c hc
    obtain ⟨hcond,r,hr⟩ := h.owed c hc
    refine ⟨hcond,r,?_⟩
    by_cases he : r = p
    · subst he
      rcases hturn.waker c hr with hw | hw
      · simpa using hw
      · rw [hw] at hc
        cases hc
    · simpa [update_of_ne he] using hr
  far := by
    intro r c hr
    by_cases he : r = p
    · subst he
      exact hturn.far c (by simpa using hr)
    · exact h.far r c (by simpa [update_of_ne he] using hr)

theorem Inv.goto {p : Fin N} {q : Pc} (hturn : Turn lk s p q)
    (hown : ∀ l, q.Holds lk l → (s.pc p).Holds lk l) : Inv lk (s.goto p q) :=
  h.turn hturn (by
    intro l hl
    exact h.owns p l (hown l hl)) (by
    intro l r _ hr
    exact hr)

theorem Inv.move {p : Fin N} {q : Pc} {l : Option ℕ} {o : Option (Owner N)}
    (hturn : Turn lk s p q) (hl : ∀ r, s.held l = some (.proc r) → r = p)
    (hown : ∀ k, q.Holds lk k → k = l ∧ o = some (.proc p) ∨ k ≠ l ∧ (s.pc p).Holds lk k) :
    Inv lk (s.move p q l o) := by
  refine h.turn hturn ?_ ?_
  · intro k hk
    rcases hown k hk with ⟨rfl,rfl⟩ | ⟨hne,hk⟩
    · rw [update_self]
    · rw [update_of_ne hne]
      exact h.owns p k hk
  · intro k r hr hk
    have hne : k ≠ l := by
      rintro rfl
      exact hr (hl r hk)
    rw [update_of_ne hne]
    exact hk

theorem Inv.awake {p : Fin N} (hpc : ∀ c, s.pc p ≠ .switching c ∧ s.pc p ≠ .asleep c) :
    s.state p ≠ .sleeping := by
  intro hs
  obtain ⟨c,-,hc | hc⟩ := h.sleeping p hs
  · exact (hpc c).1 hc
  · exact (hpc c).2 hc

theorem Inv.setState (p : Fin N) {r : RunState} (hr : r ≠ .sleeping) : Inv lk (s.setState p r) := by
  have hback : ∀ x, (s.setState p r).state x = .sleeping → s.state x = .sleeping := by
    intro x hx
    by_cases he : x = p
    · subst he
      rw [System.setState_state,update_self] at hx
      exact absurd hx hr
    · rwa [System.setState_state,update_of_ne he] at hx
  refine ⟨h.owns,?_,?_,?_,h.owed,h.far⟩
  · intro x hx
    exact h.sleeping x (hback x hx)
  · rintro x c (hx | ⟨hx,hc⟩)
    · exact h.fresh x c (.inl hx)
    · exact h.fresh x c (.inr ⟨hback x hx,hc⟩)
  · rintro q c n hq x hx ⟨hs,hc⟩
    exact h.scan q c n hq x hx ⟨hback x hs,hc⟩

theorem Inv.setChan {p : Fin N} (hp : s.state p ≠ .sleeping) (o : Option ℕ) : Inv lk (s.setChan p o) := by
  have hchan : ∀ x, s.state x = .sleeping → (s.setChan p o).chan x = s.chan x := by
    intro x hx
    refine update_of_ne ?_ _ _
    rintro rfl
    exact hp hx
  refine ⟨h.owns,?_,?_,?_,h.owed,h.far⟩
  · intro x hx
    rw [hchan x hx]
    exact h.sleeping x hx
  · rintro x c (hx | ⟨hx,hc⟩)
    · exact h.fresh x c (.inl hx)
    · rw [hchan x hx] at hc
      exact h.fresh x c (.inr ⟨hx,hc⟩)
  · rintro q c n hq x hx ⟨hs,hc⟩
    rw [hchan x hs] at hc
    exact h.scan q c n hq x hx ⟨hs,hc⟩

theorem Inv.owner_eq {p q : Fin N} {l : Option ℕ} (hp : (s.pc p).Holds lk l)
    (hq : (s.pc q).Holds lk l) : p = q := by
  have hp' := h.owns p l hp
  rw [h.owns q l hq] at hp'
  cases hp'
  rfl

theorem Inv.not_scanning {p : Fin N} (hp : (s.pc p).Holds lk none)
    (hscan : ∀ c n, s.pc p ≠ .scanning c n) (q : Fin N) (c n : ℕ) : s.pc q ≠ .scanning c n := by
  intro hq
  have hqh : (s.pc q).Holds lk none := by
    rw [hq]
    exact .inr rfl
  have he := h.owner_eq hp hqh
  subst he
  exact hscan c n hq

theorem Inv.sleep {p : Fin N} {c : ℕ} (hpc : s.pc p = .switching c) (hchan : s.chan p = some c)
    (hfresh : s.missed p c = false ∧ (s.cond c = true → s.owed c = true)) : Inv lk (s.setState p .sleeping) := by
  have hnot := h.not_scanning (p := p) (by rw [hpc]; rfl) (by
    intro c n he
    rw [hpc] at he
    cases he)
  have hother : ∀ x, x ≠ p → (s.setState p .sleeping).state x = s.state x := by
    intro x hx
    exact update_of_ne hx _ _
  refine ⟨h.owns,?_,?_,?_,h.owed,h.far⟩
  · intro x hx
    by_cases he : x = p
    · subst he
      exact ⟨c,hchan,.inl hpc⟩
    · rw [hother x he] at hx
      exact h.sleeping x hx
  · rintro x d (hx | ⟨hx,hd⟩)
    · exact h.fresh x d (.inl hx)
    · by_cases he : x = p
      · subst he
        have hcd : c = d := Option.some.inj (hchan.symm.trans hd)
        exact hcd ▸ hfresh
      · rw [hother x he] at hx
        exact h.fresh x d (.inr ⟨hx,hd⟩)
  · intro q d n hq
    exact absurd hq (hnot q d n)

/-- The end of a wakeup: nobody waits on the channel. -/
theorem Inv.complete {p : Fin N} {c n : ℕ} (hpc : s.pc p = .scanning c n) (hn : N ≤ n) :
    Inv lk (s.complete c) := by
  have hnobody : ∀ x, ¬ Waits s x c := by
    rintro x (hx | hx)
    · have hlk : (s.pc p).Holds lk (lk c) := by
        rw [hpc]
        exact .inl rfl
      have hpt : (s.pc p).Holds lk none := by
        rw [hpc]
        exact .inr rfl
      have hxp : x = p := by
        cases hxc : s.pc x with
        | entering d =>
          rw [hxc] at hx
          cases hx
          exact h.owner_eq (by rw [hxc]; rfl) hlk
        | leaving d => exact h.owner_eq (by rw [hxc]; exact .inr rfl) hpt
        | marking d => exact h.owner_eq (by rw [hxc]; rfl) hpt
        | _ =>
          rw [hxc] at hx
          exact hx.elim
      rw [hxp,hpc] at hx
      exact hx
    · exact h.scan p c n hpc x (lt_of_lt_of_le x.isLt hn) hx
  refine ⟨h.owns,h.sleeping,?_,h.scan,?_,h.far⟩
  · intro x d hx
    have hne : d ≠ c := by
      rintro rfl
      exact hnobody x hx
    change update (s.missed x) c true d = false ∧ (_ → update s.owed c false d = true)
    rw [update_of_ne hne,update_of_ne hne]
    exact h.fresh x d hx
  · intro d hd
    have hne : d ≠ c := by
      rintro rfl
      change update s.owed d false d = true at hd
      rw [update_self] at hd
      cases hd
    change update s.owed c false d = true at hd
    rw [update_of_ne hne] at hd
    exact h.owed d hd

theorem Inv.rouse (p : Fin N) (c : ℕ) : Inv lk (s.rouse p c) := by
  rw [System.rouse]
  split
  · exact h.setState p (by rintro ⟨⟩)
  · exact h

end

theorem rouse_pc (p : Fin N) (c : ℕ) : (s.rouse p c).pc = s.pc := by
  rw [System.rouse]
  split <;> rfl

theorem not_sleeping_rouse (p : Fin N) (c : ℕ) :
    ¬ ((s.rouse p c).state p = .sleeping ∧ (s.rouse p c).chan p = some c) := by
  rw [System.rouse]
  split
  · rintro ⟨hs,-⟩
    rw [System.setState_state,update_self] at hs
    cases hs
  · next hnot => exact hnot

section Turns
variable {p : Fin N} {c n : ℕ} {q₀ q : Pc}

theorem Inv.awake_of_quiet (h : Inv lk s) (hpc : s.pc p = q₀) (hq : q₀.quiet = true) : s.state p ≠ .sleeping := by
  refine h.awake ?_
  intro c
  rw [hpc]
  constructor
  · rintro rfl
    cases hq
  · rintro rfl
    cases hq

theorem not_waker_of_quiet (hq : q.quiet = true) : ¬ q.Waker c := by
  cases q with
  | locked d => cases hq
  | waking d => cases hq
  | scanning d n => cases hq
  | _ => exact id

theorem not_bound_of_plain (hq : q.plain = true) : ¬ q.Bound c ∧ ¬ q.Far c ∧ q ≠ .scanning c n := by
  cases q with
  | entering d => cases hq
  | leaving d => cases hq
  | marking d => cases hq
  | scanning d n => cases hq
  | woken d => cases hq
  | _ => exact ⟨id,id,by rintro ⟨⟩⟩

theorem Inv.turn_plain (h : Inv lk s) (hpc : s.pc p = q₀) (hq₀ : q₀.quiet = true) (hq : q.plain = true) :
    Turn lk s p q where
  awake hs := absurd hs (h.awake_of_quiet hpc hq₀)
  bound _ hc := absurd hc (not_bound_of_plain (n := 0) hq).1
  scan _ _ hn := absurd hn (not_bound_of_plain hq).2.2
  waker _ hc := absurd (hpc ▸ hc) (not_waker_of_quiet hq₀)
  far _ hc := absurd hc (not_bound_of_plain (n := 0) hq).2.1

theorem Inv.owner_of_holds (h : Inv lk s) {l : Option ℕ} (hpc : s.pc p = q₀) (hl : q₀.Holds lk l) (r : Fin N)
    (hr : s.held l = some (.proc r)) : r = p := by
  rw [h.owns p l (hpc ▸ hl)] at hr
  cases hr
  rfl

theorem owner_of_free {l : Option ℕ} (hl : s.held l = none) (r : Fin N) (hr : s.held l = some (.proc r)) : r = p := by
  rw [hl] at hr
  cases hr

section
variable (h : Inv lk s)
include h

theorem Inv.entering (hpc : s.pc p = .entering c) (hl : s.held none = none) :
    Inv lk (s.move p (.leaving c) none (some (.proc p))) := by
  have hfar : lk c ≠ none := h.far p c (by rw [hpc]; rfl)
  refine h.move ⟨?_,?_,by rintro d n ⟨⟩,?_,by rintro d rfl; exact hfar⟩ (owner_of_free hl) ?_
  · intro hs
    exact absurd hs (h.awake_of_quiet hpc rfl)
  · rintro d rfl
    exact h.fresh p c (.inl (by rw [hpc]; rfl))
  · intro d hd
    rw [hpc] at hd
    exact hd.elim
  · rintro k (rfl | rfl)
    · exact .inr ⟨hfar,by rw [hpc]; rfl⟩
    · exact .inl ⟨rfl,rfl⟩

theorem Inv.leaving (hpc : s.pc p = .leaving c) : Inv lk (s.move p (.marking c) (lk c) none) := by
  have hfar : lk c ≠ none := h.far p c (by rw [hpc]; rfl)
  refine h.move ⟨?_,?_,by rintro d n ⟨⟩,?_,by intro d hd; exact hd.elim⟩
    (h.owner_of_holds hpc (.inl rfl)) ?_
  · intro hs
    exact absurd hs (h.awake_of_quiet hpc rfl)
  · rintro d rfl
    exact h.fresh p c (.inl (by rw [hpc]; rfl))
  · intro d hd
    rw [hpc] at hd
    exact hd.elim
  · rintro k rfl
    exact .inr ⟨hfar.symm,by rw [hpc]; exact .inr rfl⟩

theorem Inv.marking (hpc : s.pc p = .marking c) :
    Inv lk (((s.setChan p (some c)).setState p .sleeping).goto p (.switching c)) := by
  have hfresh := h.fresh p c (.inl (by rw [hpc]; rfl))
  have hgoto : Inv lk (s.goto p (.switching c)) := h.goto (h.turn_plain hpc rfl rfl) (by
    rintro l rfl
    rw [hpc]
    rfl)
  -- the three writes are independent, so the process may turn before it marks itself
  exact (hgoto.setChan (h.awake_of_quiet hpc rfl) (some c)).sleep (update_self _ _ _)
    (update_self _ _ _) hfresh

theorem Inv.switching (hpc : s.pc p = .switching c) : Inv lk (s.move p (.asleep c) none (some .scheduler)) := by
  refine h.move ⟨?_,by intro d hd; exact hd.elim,by rintro d n ⟨⟩,?_,by intro d hd; exact hd.elim⟩
    (h.owner_of_holds hpc rfl) (by intro k hk; exact hk.elim)
  · intro hs
    obtain ⟨d,hd,hd' | hd'⟩ := h.sleeping p hs
    · rw [hpc] at hd'
      cases hd'
      exact ⟨c,hd,.inr rfl⟩
    · rw [hpc] at hd'
      cases hd'
  · intro d hd
    rw [hpc] at hd
    exact hd.elim

theorem Inv.resumed (hpc : s.pc p = .resumed c) :
    Inv lk ((s.setChan p none).goto p (if lk c = none then .locked c else .dropping c)) := by
  have hchan := h.setChan (h.awake_of_quiet hpc rfl) none
  have hpc' : (s.setChan p none).pc p = .resumed c := hpc
  split
  · next hlk =>
    refine hchan.goto (hchan.turn_plain hpc' rfl rfl) ?_
    rintro l rfl
    rw [hpc',hlk]
    rfl
  · refine hchan.goto (hchan.turn_plain hpc' rfl rfl) ?_
    rintro l rfl
    rw [hpc']
    rfl

theorem Inv.lock (hpc : s.pc p = q₀) (hq : q₀.quiet = true) (hl : s.held (lk c) = none) :
    Inv lk (s.move p (.locked c) (lk c) (some (.proc p))) := by
  refine h.move (h.turn_plain hpc hq rfl) (owner_of_free hl) ?_
  rintro k rfl
  exact .inl ⟨rfl,rfl⟩

theorem Inv.unlock (hpc : s.pc p = q₀) (hq₀ : q₀.quiet = true) (hhold : q₀.Holds lk none)
    (hq : q.plain = true) (hnone : ∀ k, ¬ q.Holds lk k) (o : Option (Owner N)) : Inv lk (s.move p q none o) :=
  h.move (h.turn_plain hpc hq₀ hq) (h.owner_of_holds hpc hhold) (by
    intro k hk
    exact absurd hk (hnone k))

theorem Inv.waking (hpc : s.pc p = .waking c) (hl : s.held none = none) :
    Inv lk (s.move p (.scanning c 0) none (some (.proc p))) := by
  refine h.move ⟨?_,by intro d hd; exact hd.elim,?_,?_,by intro d hd; exact hd.elim⟩ (owner_of_free hl) ?_
  · intro hs
    exact absurd hs (h.awake (by intro d; rw [hpc]; constructor <;> rintro ⟨⟩))
  · rintro d n ⟨⟩ x hx
    exact absurd hx (Nat.not_lt_zero _)
  · intro d hd
    rw [hpc] at hd
    exact .inl hd
  · intro k hk
    by_cases hk0 : k = none
    · exact .inl ⟨hk0,rfl⟩
    · exact .inr ⟨hk0,by rw [hpc]; exact hk.resolve_right hk0⟩

theorem Inv.scanning (hpc : s.pc p = .scanning c n) (hn : n < N) :
    Inv lk ((s.rouse ⟨n,hn⟩ c).goto p (.scanning c (n+1))) := by
  have hrouse := h.rouse ⟨n,hn⟩ c
  have hpc' : (s.rouse ⟨n,hn⟩ c).pc p = .scanning c n := by rw [rouse_pc,hpc]
  refine hrouse.goto ⟨?_,by intro d hd; exact hd.elim,?_,?_,by intro d hd; exact hd.elim⟩ ?_
  · intro hs
    exact absurd hs (hrouse.awake (by intro d; rw [hpc']; constructor <;> rintro ⟨⟩))
  · rintro d k ⟨⟩ x hx
    rcases Nat.lt_succ_iff_lt_or_eq.mp hx with hlt | heq
    · exact hrouse.scan p c n hpc' x hlt
    · have hxn : x = ⟨n,hn⟩ := Fin.ext heq
      rw [hxn]
      exact not_sleeping_rouse _ c
  · intro d hd
    rw [hpc'] at hd
    exact .inl hd
  · intro l hl
    rw [hpc']
    exact hl

theorem Inv.scanned (hpc : s.pc p = .scanning c n) (hn : ¬ n < N) :
    Inv lk ((s.complete c).goto p (if lk c = none then .locked c else .woken c)) := by
  have hcomplete := h.complete hpc (Nat.le_of_not_lt hn)
  have hpc' : (s.complete c).pc p = .scanning c n := hpc
  have hawake : (s.complete c).state p ≠ .sleeping :=
    hcomplete.awake (by intro d; rw [hpc']; constructor <;> rintro ⟨⟩)
  have hpaid : ∀ d, ((s.complete c).pc p).Waker d → (s.complete c).owed d = false := by
    intro d hd
    rw [hpc'] at hd
    cases hd
    exact update_self _ _ _
  split
  · refine hcomplete.goto ⟨?_,by intro d hd; exact hd.elim,by rintro d k ⟨⟩,?_,by intro d hd; exact hd.elim⟩ ?_
    · intro hs
      exact absurd hs hawake
    · intro d hd
      exact .inr (hpaid d hd)
    · rintro l rfl
      rw [hpc']
      exact .inl rfl
  · next hlk =>
    refine hcomplete.goto ⟨?_,by intro d hd; exact hd.elim,by rintro d k ⟨⟩,?_,by rintro d rfl; exact hlk⟩ ?_
    · intro hs
      exact absurd hs hawake
    · intro d hd
      exact .inr (hpaid d hd)
    · intro l hl
      rw [hpc']
      exact hl

theorem Inv.woken (hpc : s.pc p = .woken c) : Inv lk (s.move p (.locked c) none none) := by
  have hfar : lk c ≠ none := h.far p c (by rw [hpc]; rfl)
  refine h.move (h.turn_plain hpc rfl rfl) (h.owner_of_holds hpc (.inr rfl)) ?_
  rintro k rfl
  exact .inr ⟨hfar,by rw [hpc]; exact .inl rfl⟩

theorem Inv.yielding {b : Option ℕ} (hpc : s.pc p = .yielding b) :
    Inv lk ((s.setState p .runnable).goto p (.yieldSwitching b)) := by
  have hstate := h.setState p (r := .runnable) (by rintro ⟨⟩)
  have hpc' : (s.setState p .runnable).pc p = .yielding b := hpc
  refine hstate.goto (hstate.turn_plain hpc' rfl rfl) ?_
  rintro l rfl
  rw [hpc']
  rfl

theorem Inv.yieldResumed {b : Option ℕ} (hpc : s.pc p = .yieldResumed b) :
    Inv lk (s.move p (System.back b) none none) := by
  cases b with
  | none => exact h.unlock hpc rfl rfl rfl (by intro k; exact id) none
  | some c => exact h.unlock hpc rfl rfl rfl (by intro k; exact id) none

theorem Inv.next (hstep : s.next lk p = some t) : Inv lk t := by
  rw [System.next] at hstep
  split at hstep
  · next c hpc =>
    split at hstep
    · next hl =>
      cases hstep
      exact h.entering hpc hl
    · cases hstep
  · next c hpc =>
    cases hstep
    exact h.leaving hpc
  · next c hpc =>
    cases hstep
    exact h.marking hpc
  · next c hpc =>
    cases hstep
    exact h.switching hpc
  · next c hpc =>
    cases hstep
    exact h.resumed hpc
  · next c hpc =>
    cases hstep
    exact h.unlock hpc rfl rfl rfl (by intro k; exact id) none
  · next c hpc =>
    split at hstep
    · next hl =>
      cases hstep
      exact h.lock hpc rfl hl
    · cases hstep
  · next c hpc =>
    split at hstep
    · next hl =>
      cases hstep
      exact h.waking hpc hl
    · cases hstep
  · next c n hpc =>
    split at hstep
    · next hn =>
      cases hstep
      exact h.scanning hpc hn
    · next hn =>
      cases hstep
      exact h.scanned hpc hn
  · next c hpc =>
    cases hstep
    exact h.woken hpc
  · next b hpc =>
    cases hstep
    exact h.yielding hpc
  · next b hpc =>
    cases hstep
    exact h.unlock hpc rfl rfl rfl (by intro k; exact id) (some .scheduler)
  · next b hpc =>
    cases hstep
    exact h.yieldResumed hpc
  · cases hstep

theorem Inv.test (hpc : s.pc p = .locked c) : Inv lk (s.test lk p c) := by
  have hawake : s.state p ≠ .sleeping := h.awake (by intro d; rw [hpc]; constructor <;> rintro ⟨⟩)
  have hnot : ∀ d, ¬ Waits s p d := by
    rintro d (hd | ⟨hd,-⟩)
    · rw [hpc] at hd
      exact hd
    · exact hawake hd
  let u : System N := {s with missed := update s.missed p (update (s.missed p) c false)}
  have hu : Inv lk u := by
    refine ⟨h.owns,h.sleeping,?_,h.scan,h.owed,h.far⟩
    intro x d hx
    have hne : x ≠ p := by
      rintro rfl
      exact hnot d hx
    have hmissed : u.missed x = s.missed x := update_of_ne hne _ _
    rw [hmissed]
    exact h.fresh x d hx
  have hmissed : u.missed p c = false := by
    change update s.missed p _ p c = false
    rw [update_self,update_self]
  change Inv lk (if u.cond c then u else u.goto p (if lk c = none then .marking c else .entering c))
  split
  · exact hu
  · next hcond =>
    have howed : ∀ d, (u.pc p).Waker d → u.owed d = false := by
      intro d hd
      change (s.pc p).Waker d at hd
      rw [hpc] at hd
      cases hd
      by_contra hne
      exact hcond (h.owed c (by simpa using hne)).1
    have hbound : u.missed p c = false ∧ (u.cond c = true → u.owed c = true) :=
      ⟨hmissed,fun hc => absurd hc hcond⟩
    split
    · next hlk =>
      refine hu.goto ⟨?_,by rintro d rfl; exact hbound,by rintro d k ⟨⟩,?_,by intro d hd; exact hd.elim⟩ ?_
      · intro hs
        exact absurd hs hawake
      · intro d hd
        exact .inr (howed d hd)
      · rintro l rfl
        change (s.pc p).Holds lk none
        rw [hpc]
        exact hlk.symm
    · next hlk =>
      refine hu.goto ⟨?_,by rintro d rfl; exact hbound,by rintro d k ⟨⟩,?_,by rintro d rfl; exact hlk⟩ ?_
      · intro hs
        exact absurd hs hawake
      · intro d hd
        exact .inr (howed d hd)
      · rintro l rfl
        change (s.pc p).Holds lk (lk c)
        rw [hpc]
        rfl

theorem Inv.set (hpc : s.pc p = .locked c) (b : Bool) :
    Inv lk {s with cond := update s.cond c b, owed := update s.owed c b} := by
  refine ⟨h.owns,h.sleeping,?_,h.scan,?_,h.far⟩
  · intro x d hx
    refine ⟨(h.fresh x d hx).1,?_⟩
    by_cases he : d = c
    · subst he
      change update s.cond d b d = true → update s.owed d b d = true
      rw [update_self,update_self]
      exact id
    · change update s.cond c b d = true → update s.owed c b d = true
      rw [update_of_ne he,update_of_ne he]
      exact (h.fresh x d hx).2
  · intro d hd
    change update s.owed c b d = true at hd
    change update s.cond c b d = true ∧ _
    by_cases he : d = c
    · subst he
      rw [update_self] at hd ⊢
      exact ⟨hd,p,by rw [hpc]; rfl⟩
    · rw [update_of_ne he] at hd ⊢
      exact h.owed d hd

theorem Inv.turn_locked (hpc : s.pc p = .locked c) (hbound : ∀ d, ¬ q.Bound d ∧ ¬ q.Far d)
    (hscan : ∀ d n, q = .scanning d n → n = 0) (hwaker : q.Waker c ∨ s.owed c = false) : Turn lk s p q where
  awake hs := absurd hs (h.awake (by intro d; rw [hpc]; constructor <;> rintro ⟨⟩))
  bound d hd := absurd hd (hbound d).1
  scan d n hn x hx := by
    rw [hscan d n hn] at hx
    exact absurd hx (Nat.not_lt_zero _)
  waker d hd := by
    rw [hpc] at hd
    cases hd
    exact hwaker
  far d hd := absurd hd (hbound d).2

theorem Inv.wakeup (hpc : s.pc p = .locked c) :
    Inv lk (s.goto p (if lk c = none then .scanning c 0 else .waking c)) := by
  split
  · next hlk =>
    refine h.goto (h.turn_locked hpc (by intro d; exact ⟨id,id⟩) (by rintro d n ⟨⟩; rfl) (.inl rfl)) ?_
    rintro l (rfl | rfl)
    · rw [hpc]
      rfl
    · rw [hpc]
      exact hlk.symm
  · refine h.goto (h.turn_locked hpc (by intro d; exact ⟨id,id⟩) (by rintro d n ⟨⟩) (.inl rfl)) ?_
    rintro l rfl
    rw [hpc]
    rfl

theorem Inv.schedule (hl : ∀ r, s.held none ≠ some (.proc r)) (o : Option (Owner N)) :
    Inv lk {s with held := update s.held none o} := by
  refine ⟨?_,h.sleeping,h.fresh,h.scan,h.owed,h.far⟩
  intro r l hr
  have hold := h.owns r l hr
  have hne : l ≠ none := by
    rintro rfl
    exact hl r hold
  change update s.held none o l = _
  rw [update_of_ne hne]
  exact hold

theorem Inv.dispatch (hl : s.held none = some .scheduler) (hpc : s.pc p = q₀)
    (hq₀ : ∀ c, ¬ q₀.Waker c) (hq : q.plain = true) (hhold : ∀ k, q.Holds lk k → k = none) :
    Inv lk ((s.setState p .running).move p q none (some (.proc p))) := by
  have hstate := h.setState p (r := .running) (by rintro ⟨⟩)
  refine hstate.move ⟨?_,?_,?_,?_,?_⟩ ?_ ?_
  · intro hs
    rw [System.setState_state,update_self] at hs
    cases hs
  · intro d hd
    exact absurd hd (not_bound_of_plain (n := 0) hq).1
  · intro d n hn
    exact absurd hn (not_bound_of_plain hq).2.2
  · intro d hd
    change (s.pc p).Waker d at hd
    rw [hpc] at hd
    exact absurd hd (hq₀ d)
  · intro d hd
    exact absurd hd (not_bound_of_plain (n := 0) hq).2.1
  · intro r hr
    change s.held none = _ at hr
    rw [hl] at hr
    cases hr
  · intro k hk
    exact .inl ⟨hhold k hk,rfl⟩

theorem Inv.yield (hpc : s.pc p = q₀) (hq₀ : q₀.quiet = true) (hl : s.held none = none)
    (b : Option ℕ) : Inv lk (s.move p (.yielding b) none (some (.proc p))) := by
  refine h.move (h.turn_plain hpc hq₀ rfl) (owner_of_free hl) ?_
  rintro k rfl
  exact .inl ⟨rfl,rfl⟩

end

end Turns

theorem Inv.step (h : Inv lk s) {a : Action N} (hstep : s.step lk a = some t) : Inv lk t := by
  cases a with
  | acquire p c =>
    rw [System.step] at hstep
    split at hstep
    · next hl =>
      cases hstep
      exact h.lock hl.1 rfl hl.2
    · cases hstep
  | turn p c' =>
    rw [System.step] at hstep
    split at hstep
    · next c hpc =>
      split at hstep
      · next hc =>
        cases hstep
        refine h.goto (h.turn_locked hpc (by intro d; exact ⟨id,id⟩) (by rintro d n ⟨⟩) (.inr hc.2)) ?_
        rintro l rfl
        rw [hpc]
        exact hc.1
      · cases hstep
    · cases hstep
  | set p b =>
    rw [System.step] at hstep
    split at hstep
    · next c hpc =>
      cases hstep
      exact h.set hpc b
    · cases hstep
  | test p =>
    rw [System.step] at hstep
    split at hstep
    · next c hpc =>
      cases hstep
      exact h.test hpc
    · cases hstep
  | wakeup p =>
    rw [System.step] at hstep
    split at hstep
    · next c hpc =>
      cases hstep
      exact h.wakeup hpc
    · cases hstep
  | kill p q =>
    rw [System.step] at hstep
    split at hstep
    · split at hstep
      · cases hstep
        split
        · exact h.setState q (by rintro ⟨⟩)
        · exact h
      · cases hstep
    · cases hstep
  | release p =>
    rw [System.step] at hstep
    split at hstep
    · next c hpc =>
      split at hstep
      · next howed =>
        cases hstep
        exact h.move (h.turn_locked hpc (by intro d; exact ⟨id,id⟩) (by rintro d n ⟨⟩) (.inr howed))
          (h.owner_of_holds hpc rfl) (by intro k hk; exact hk.elim)
      · cases hstep
    · cases hstep
  | yield p =>
    rw [System.step] at hstep
    split at hstep
    · next hpc =>
      split at hstep
      · next hl =>
        cases hstep
        exact h.yield hpc rfl hl none
      · cases hstep
    · next c hpc =>
      split at hstep
      · next hl =>
        cases hstep
        exact h.yield hpc rfl hl (some c)
      · cases hstep
    · cases hstep
  | next p => exact h.next hstep
  | schedAcquire =>
    rw [System.step] at hstep
    split at hstep
    · next hl =>
      cases hstep
      exact h.schedule (by intro r hr; rw [hl] at hr; cases hr) _
    · cases hstep
  | schedRelease =>
    rw [System.step] at hstep
    split at hstep
    · next hl =>
      cases hstep
      exact h.schedule (by intro r hr; rw [hl] at hr; cases hr) _
    · cases hstep
  | dispatch p =>
    rw [System.step] at hstep
    split at hstep
    · next hl =>
      split at hstep
      · next c hpc =>
        cases hstep
        exact h.dispatch hl.1 hpc (by intro d; exact id) rfl (by intro k hk; exact hk)
      · next b hpc =>
        cases hstep
        exact h.dispatch hl.1 hpc (by intro d; exact id) rfl (by intro k hk; exact hk)
      · cases hstep
    · cases hstep

def Reaches (lk : ℕ → Option ℕ) (s t : System N) : Prop := Runs.Reaches (System.step lk) (fun _ _ => True) s t

/-- When a process sleeps on a channel, no wakeup on it has completed since the process last tested the
condition, and the condition holds only while the process that made it true is in its critical section. -/
theorem no_lost_wakeup {cond : ℕ → Bool} (h : Reaches lk (System.start N cond) s) (p : Fin N) (c : ℕ)
    (hstate : s.state p = .sleeping) (hchan : s.chan p = some c) :
    s.missed p c = false ∧ (s.cond c = true → ∃ q, (s.pc q).Waker c) := by
  have hinv : Inv lk s := Runs.Reaches.invariant h (inv_start cond) (by
    intro s a t hs _ hstep
    exact hs.step hstep)
  obtain ⟨hmissed,howed⟩ := hinv.fresh p c (.inr ⟨hstate,hchan⟩)
  exact ⟨hmissed,fun hc => (hinv.owed c (howed hc)).2⟩

def sleeper : Fin 2 := ⟨0,by decide⟩
def waker : Fin 2 := ⟨1,by decide⟩

def sleepAgain : List (Action 2) :=
  [.schedAcquire,.dispatch sleeper,.next sleeper,.acquire sleeper 5,.test sleeper] ++
    List.replicate 4 (.next sleeper) ++
    [.dispatch waker,.next waker,.acquire waker 5,.set waker true,.wakeup waker] ++
    List.replicate 5 (.next waker) ++
    [.release waker,.schedAcquire,.dispatch sleeper,.next sleeper,.next sleeper,.next sleeper,
      .set sleeper false,.test sleeper] ++
    List.replicate 4 (.next sleeper)

/-- The wakeup in the run counts for the waker, which has not tested the condition, and not for the sleeper. -/
theorem no_lost_wakeup_sleepAgain : ∃ s : System 2, Reaches some (System.start 2 fun _ => false) s ∧
    s.state sleeper = .sleeping ∧ s.missed waker 5 = true ∧ s.missed sleeper 5 = false ∧
    (s.cond 5 = true → ∃ q, (s.pc q).Waker 5) := by
  have hrun : (Runs.exec (System.step some) (fun _ _ => True) sleepAgain (System.start 2 fun _ => false)).map
      (fun s => decide (s.state sleeper = .sleeping ∧ s.chan sleeper = some 5 ∧ s.missed waker 5 = true)) =
      some true := by decide +kernel
  obtain ⟨s,hs,hf⟩ := Runs.exists_reaches hrun
  obtain ⟨hstate,hchan,hmissed⟩ := of_decide_eq_true hf
  obtain ⟨hfresh,hwaker⟩ := no_lost_wakeup hs sleeper 5 hstate hchan
  exact ⟨s,hs,hstate,hmissed,hfresh,hwaker⟩

end Xv6Paging.SleepWakeup
