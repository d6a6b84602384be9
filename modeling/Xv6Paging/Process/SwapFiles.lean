import Xv6Paging.Kernel.Config
import Xv6Paging.Process.Lineage

/-! # Swap files

`createSwapFile` and `removeSwapFile` of `fs.c`, and what `fork`, `exec` and `exit` of the paging builds
make of them: a child gets a swap file if the process that forks it is not init, and the
file is removed when a process exits whose parent is not init at that time. Of the root
directory only the entries for swap files appear, and of a `struct file` its reference
count and the process whose swap file it is, if it is one.
-/
namespace Xv6Paging.SwapFiles
open Process Function

abbrev FileSlot := Fin 100

structure OpenFile where
  ref : ℕ
  swap : Option ℕ
  deriving DecidableEq

/-- `dir n` says that the root directory has an entry for the swap file of process number `n`. -/
structure System where
  table : Table
  swapFile : ProcSlot → Option FileSlot
  dir : ℕ → Bool
  files : FileSlot → OpenFile

inductive Action
  | proc (a : Process.Action)
  | exec (p : ProcSlot)
  | other (f : FileSlot) (r : ℕ)

namespace System
variable (s : System)

def filealloc : Option FileSlot := (List.finRange 100).find? fun f => decide ((s.files f).ref = 0)

def fileclose (f : FileSlot) : Except Fault System :=
  if (s.files f).ref < 1 then .error (.panic "fileclose")
  else .ok {s with files := update s.files f {s.files f with ref := (s.files f).ref-1}}

/-- The result says whether the file was unlinked. -/
def removeSwapFile (p : ProcSlot) : Except Fault (Bool × System) :=
  match s.swapFile p with
  | none => .ok (false,s)
  | some f => do
    let s ← s.fileclose f
    if s.dir (s.table.pid p) then
      return (true,{s with dir := update s.dir (s.table.pid p) false})
    else return (false,s)

/-- A file of that name that exists is opened. -/
def createSwapFile (p : ProcSlot) : Except Fault System :=
  match s.filealloc with
  | none => .error (.panic "no slot for files on /store")
  | some f => .ok {s with
      dir := update s.dir (s.table.pid p) true
      files := update s.files f ⟨1,some (s.table.pid p)⟩
      swapFile := update s.swapFile p (some f)}

/-- The test `curproc->pid==1 || curproc->parent->pid==1`. -/
def exempt (p : ProcSlot) : Except Fault Bool :=
  if s.table.pid p = 1 then .ok true
  else
    match s.table.parent p with
    | none => .error .nullDeref
    | some x => .ok (decide (s.table.pid x = 1))

def forkSwap (p : ProcSlot) : Except Fault System :=
  match s.table.pos p with
  | .forking q => if s.table.pid p ≠ 1 then s.createSwapFile q else .ok s
  | _ => .ok s

def execSwap (p : ProcSlot) : Except Fault System := do
  let skip ← s.exempt p
  if skip then return s
  else do
    let r ← s.removeSwapFile p
    r.2.createSwapFile p

def exitSwap (p : ProcSlot) : Except Fault System := do
  let skip ← s.exempt p
  if skip then return s
  else do
    let r ← s.removeSwapFile p
    if r.1 then return r.2
    else .error (.panic "failed in delete the swap file at exit\n")

def effect : Process.Action → Except Fault System
  | .forkCopy p => s.forkSwap p
  | .exit p => s.exitSwap p
  | _ => .ok s

/-- The result `none` says that the step is not possible or ends in a panic. -/
def step : Action → Option System
  | .proc a => (s.table.step a).bind fun t => (s.effect a).toOption.map fun u => {u with table := t}
  | .exec p => if s.table.state p = .running ∧ s.table.pos p = .user then (s.execSwap p).toOption else none
  | .other f r =>
    if (s.files f).ref = 0 ∨ (s.files f).swap = none then
      some {s with files := update s.files f ⟨r,none⟩}
    else none

end System

def boot : System := ⟨userinit,fun _ => none,fun _ => false,fun _ => ⟨0,none⟩⟩

structure Tidy (A : ProcSlot → Prop) (pid : ProcSlot → ℕ) (s : System) : Prop where
  armed : ∀ q, A q → ∃ f, s.swapFile q = some f ∧ s.files f = ⟨1,some (pid q)⟩ ∧ s.dir (pid q) = true
  names : ∀ n, s.dir n = true → ∃ q, A q ∧ pid q = n
  held : ∀ f n, (s.files f).ref ≠ 0 → (s.files f).swap = some n →
    ∃ q, A q ∧ pid q = n ∧ s.swapFile q = some f

def Gone (s : System) (n : ℕ) : Prop := s.dir n = false ∧ ∀ f, (s.files f).ref ≠ 0 → (s.files f).swap ≠ some n

variable {A B : ProcSlot → Prop} {pid : ProcSlot → ℕ} {s t u : System} {p q : ProcSlot}

theorem Tidy.gone (h : Tidy A pid s) {n : ℕ} (hn : ∀ q, A q → pid q ≠ n) : Gone s n := by
  constructor
  · by_contra hdir
    obtain ⟨q,hq,hpid⟩ := h.names n (by simpa using hdir)
    exact hn q hq hpid
  · intro f href hswap
    obtain ⟨q,hq,hpid,-⟩ := h.held f n href hswap
    exact hn q hq hpid

theorem Tidy.congr (h : Tidy A pid s) (hAB : ∀ x, B x ↔ A x) {pid' : ProcSlot → ℕ}
    (hpid : ∀ x, A x → pid' x = pid x) : Tidy B pid' s where
  armed q hq := by
    rw [hpid q ((hAB q).mp hq)]
    exact h.armed q ((hAB q).mp hq)
  names n hn := by
    obtain ⟨q,hq,hpq⟩ := h.names n hn
    exact ⟨q,(hAB q).mpr hq,(hpid q hq).trans hpq⟩
  held f n href hswap := by
    obtain ⟨q,hq,hpq,hf⟩ := h.held f n href hswap
    exact ⟨q,(hAB q).mpr hq,(hpid q hq).trans hpq,hf⟩

theorem filealloc_ref {f : FileSlot} (h : s.filealloc = some f) : (s.files f).ref = 0 := by
  have htest : decide ((s.files f).ref = 0) = true := List.find?_some (p := fun f => decide ((s.files f).ref = 0)) h
  exact of_decide_eq_true htest

theorem Tidy.create (h : Tidy A s.table.pid s) (hA : ∀ x, A x → s.table.pid x ≠ s.table.pid q)
    (hcreate : s.createSwapFile q = .ok u) : Tidy (fun x => x = q ∨ A x) s.table.pid u ∧ u.table = s.table := by
  rw [System.createSwapFile] at hcreate
  split at hcreate
  · cases hcreate
  · next f hf =>
    cases hcreate
    have href := filealloc_ref hf
    refine ⟨⟨?_,?_,?_⟩,rfl⟩
    · rintro x (rfl | hx)
      · exact ⟨f,update_self _ _ _,update_self _ _ _,update_self _ _ _⟩
      · obtain ⟨g,hg,hfile,hdir⟩ := h.armed x hx
        have hxq : x ≠ q := by
          rintro rfl
          exact hA x hx rfl
        have hgf : g ≠ f := by
          rintro rfl
          rw [hfile] at href
          cases href
        refine ⟨g,(update_of_ne hxq _ _).trans hg,(update_of_ne hgf _ _).trans hfile,?_⟩
        exact (update_of_ne (hA x hx) _ _).trans hdir
    · intro n hn
      by_cases hnq : n = s.table.pid q
      · exact ⟨q,.inl rfl,hnq.symm⟩
      · obtain ⟨x,hx,hpid⟩ := h.names n ((update_of_ne hnq _ _).symm.trans hn)
        exact ⟨x,.inr hx,hpid⟩
    · intro g n hg hswap
      by_cases hgf : g = f
      · subst hgf
        dsimp only at hswap
        rw [update_self] at hswap
        exact ⟨q,.inl rfl,Option.some.inj hswap,update_self _ _ _⟩
      · dsimp only at hg hswap
        rw [update_of_ne hgf] at hg hswap
        obtain ⟨x,hx,hpid,hx'⟩ := h.held g n hg hswap
        refine ⟨x,.inr hx,hpid,(update_of_ne ?_ _ _).trans hx'⟩
        rintro rfl
        exact hA x hx rfl

theorem Tidy.remove (h : Tidy A s.table.pid s) (hp : A p) (hA : ∀ x, A x → s.table.pid x = s.table.pid p → x = p) :
    ∃ u, s.removeSwapFile p = .ok (true,u) ∧ Tidy (fun x => x ≠ p ∧ A x) s.table.pid u ∧ u.table = s.table := by
  obtain ⟨f,hf,hfile,hdir⟩ := h.armed p hp
  have hclose : s.fileclose f = .ok {s with files := update s.files f ⟨0,some (s.table.pid p)⟩} := by
    rw [System.fileclose,hfile]
    rfl
  have hremove : s.removeSwapFile p = .ok (true,{s with
      files := update s.files f ⟨0,some (s.table.pid p)⟩
      dir := update s.dir (s.table.pid p) false}) := by
    rw [System.removeSwapFile,hf]
    dsimp only
    rw [hclose]
    change (if s.dir (s.table.pid p) = true then _ else _) = _
    rw [if_pos hdir]
    rfl
  refine ⟨_,hremove,⟨?_,?_,?_⟩,rfl⟩
  · rintro x ⟨hxp,hx⟩
    obtain ⟨g,hg,hgfile,hgdir⟩ := h.armed x hx
    have hpid : s.table.pid x ≠ s.table.pid p := fun he => hxp (hA x hx he)
    have hgf : g ≠ f := by
      rintro rfl
      rw [hfile,OpenFile.mk.injEq] at hgfile
      exact hpid (Option.some.inj hgfile.2).symm
    exact ⟨g,hg,(update_of_ne hgf _ _).trans hgfile,(update_of_ne hpid _ _).trans hgdir⟩
  · intro n hn
    have hne : n ≠ s.table.pid p := by
      rintro rfl
      dsimp only at hn
      rw [update_self] at hn
      cases hn
    obtain ⟨x,hx,hpid⟩ := h.names n ((update_of_ne hne _ _).symm.trans hn)
    refine ⟨x,⟨?_,hx⟩,hpid⟩
    rintro rfl
    exact hne hpid.symm
  · intro g n hg hswap
    have hgf : g ≠ f := by
      rintro rfl
      dsimp only at hg
      rw [update_self] at hg
      exact hg rfl
    dsimp only at hg hswap
    rw [update_of_ne hgf] at hg hswap
    obtain ⟨x,hx,hpid,hx'⟩ := h.held g n hg hswap
    refine ⟨x,⟨?_,hx⟩,hpid,hx'⟩
    rintro rfl
    exact hgf (Option.some.inj (hx'.symm.trans hf))

structure Sound (s : System) : Prop where
  tree : Tree s.table
  numbered : Numbered s.table
  lineage : Lineage s.table
  tidy : Tidy (Armed s.table) s.table.pid s

theorem sound_boot : Sound boot where
  tree := tree_userinit
  numbered := numbered_userinit
  lineage := lineage_userinit
  tidy := by
    refine ⟨?_,?_,?_⟩
    · intro q hq
      exact absurd rfl hq.1
    · rintro n ⟨⟩
    · intro f n href
      exact absurd rfl href

theorem Sound.used (h : Sound s) (hq : s.table.parent q ≠ none) : s.table.state q ≠ .unused :=
  fun hu => hq (h.tree.unused q hu)

theorem Sound.armed_eq (h : Sound s) (hp : Armed s.table p) (hq : Armed s.table q)
    (hpid : s.table.pid q = s.table.pid p) : q = p :=
  h.numbered.inj q p (h.used hq.1) (h.used hp.1) hpid

theorem Sound.init_of_pid (h : Sound s) (hp : s.table.state p ≠ .unused) (hpid : s.table.pid p = 1) : p = initproc := by
  refine h.numbered.inj p initproc hp ?_ (hpid.trans h.lineage.init.symm)
  intro hu
  have hactive := h.tree.init.1
  rw [hu] at hactive
  cases hactive

theorem Sound.parent (h : Sound s) (hrun : s.table.state p = .running) (hp : p ≠ initproc) :
    ∃ x, s.table.parent p = some x := by
  have hused : s.table.state p ≠ .unused := by
    rw [hrun]
    rintro ⟨⟩
  rcases h.tree.adopted p hused hp with hparent | ⟨x,hx⟩
  · exact hparent
  · rw [(h.tree.forking x p hx).1] at hrun
    cases hrun

theorem Sound.exempt_eq (h : Sound s) (hrun : s.table.state p = .running) (hp : p ≠ initproc) {x : ProcSlot}
    (hx : s.table.parent p = some x) : s.exempt p = .ok (decide (s.table.pid x = 1)) := by
  have hused : s.table.state p ≠ .unused := by
    rw [hrun]
    rintro ⟨⟩
  have hpid : s.table.pid p ≠ 1 := fun he => hp (h.init_of_pid hused he)
  rw [System.exempt,if_neg hpid,hx]

theorem Tidy.setTable (h : Tidy A pid s) (t : Table) : Tidy A pid {s with table := t} :=
  ⟨h.armed,h.names,h.held⟩

theorem Sound.exitSwap (h : Sound s) (hrun : s.table.state p = .running) (hpos : s.table.pos p = .user)
    (hp : p ≠ initproc) : ∃ x, s.table.parent p = some x ∧
      (s.table.pid x = 1 ∧ s.exitSwap p = .ok s ∨
        s.table.pid x ≠ 1 ∧ Armed s.table p ∧ ∃ u, s.exitSwap p = .ok u ∧
          Tidy (fun y => y ≠ p ∧ Armed s.table y) s.table.pid u ∧ u.table = s.table) := by
  obtain ⟨x,hx⟩ := h.parent hrun hp
  refine ⟨x,hx,?_⟩
  have hexempt := h.exempt_eq hrun hp hx
  by_cases hpid : s.table.pid x = 1
  · left
    refine ⟨hpid,?_⟩
    rw [System.exitSwap,hexempt,decide_eq_true hpid]
    rfl
  · right
    have harmed : Armed s.table p := by
      refine ⟨by rw [hx]; simp,by rw [hpos]; rintro ⟨⟩,?_⟩
      intro hc
      rw [h.lineage.ofInit p x hx hc] at hpid
      exact hpid h.lineage.init
    obtain ⟨u,hremove,htidy,htable⟩ := h.tidy.remove harmed fun y hy => h.armed_eq harmed hy
    refine ⟨hpid,harmed,u,?_,htidy,htable⟩
    rw [System.exitSwap,hexempt,decide_eq_false hpid]
    change (s.removeSwapFile p >>= _) = _
    rw [hremove]
    rfl

/-- The process that exits was forked by init, or its parent is not init. -/
def Kept (s : System) : Action → Prop
  | .proc (.exit p) => ∀ x, s.table.parent p = some x → s.table.pid x = 1 → s.table.creator p = 1
  | _ => True

instance keptDecidable : ∀ s a, Decidable (Kept s a)
  | s, .proc (.exit p) =>
    Nat.decidableForallFin fun x => s.table.parent p = some x → s.table.pid x = 1 → s.table.creator p = 1
  | _, .proc (.allocproc _) | _, .proc (.forkFail _) | _, .proc (.forkCopy _) | _, .proc (.forkDone _)
  | _, .proc (.exitDone _) | _, .proc (.wait _) | _, .proc (.kill _ _) | _, .proc (.fault _)
  | _, .proc (.schedule _) | _, .proc (.yield _) | _, .proc (.block _) | _, .proc (.unblock _)
  | _, .exec _ | _, .other _ _ => inferInstanceAs (Decidable True)

theorem step_proc {a : Process.Action} (hstep : s.step (.proc a) = some t) :
    ∃ x u, s.table.step a = some x ∧ s.effect a = .ok u ∧ t = {u with table := x} := by
  obtain ⟨x,hx,hrest⟩ := Option.bind_eq_some_iff.mp hstep
  obtain ⟨u,hu,ht⟩ := Option.map_eq_some_iff.mp hrest
  refine ⟨x,u,hx,?_,ht.symm⟩
  cases he : s.effect a with
  | error e =>
    rw [he] at hu
    cases hu
  | ok v =>
    rw [he] at hu
    cases hu
    rfl

theorem exit_step (hstep : s.step (.proc (.exit p)) = some t) :
    (s.table.state p = .running ∧ s.table.pos p = .user ∧ p ≠ initproc) ∧
      ∃ u, s.exitSwap p = .ok u ∧
        t = {u with table := {s.table with pos := update s.table.pos p .exiting}} := by
  obtain ⟨x,u,hx,hu,ht⟩ := step_proc hstep
  rw [Table.step] at hx
  split at hx
  · next hp =>
    cases hx
    exact ⟨hp,u,hu,ht⟩
  · cases hx

theorem Sound.exit (h : Sound s) (hkept : Kept s (.proc (.exit p))) (hstep : s.step (.proc (.exit p)) = some t) :
    Tidy (Armed t.table) t.table.pid t ∧ Lineage t.table := by
  obtain ⟨⟨hrun,hpos,hp⟩,u,hu,rfl⟩ := exit_step hstep
  refine ⟨?_,lineage_exit h.lineage hrun⟩
  obtain ⟨x,hx,⟨hpid,hsame⟩ | ⟨-,-,v,hv,htidy,-⟩⟩ := h.exitSwap hrun hpos hp
  · rw [hsame] at hu
    cases hu
    have hnot : ¬ Armed s.table p := fun harmed => harmed.2.2 (hkept x hx hpid)
    refine (h.tidy.congr ?_ (fun _ _ => rfl)).setTable _
    intro y
    rw [armed_exit]
    refine ⟨And.right,fun hy => ⟨?_,hy⟩⟩
    rintro rfl
    exact hnot hy
  · rw [hv] at hu
    cases hu
    exact (htidy.congr (armed_exit p) (fun _ _ => rfl)).setTable _

theorem Sound.forkCopy (h : Sound s) (hstep : s.step (.proc (.forkCopy p)) = some t) :
    Tidy (Armed t.table) t.table.pid t ∧ Lineage t.table := by
  obtain ⟨x,u,hx,hu,rfl⟩ := step_proc hstep
  rw [Table.step] at hx
  split at hx
  · next q hpos =>
    split at hx
    · next hrun =>
      cases hx
      refine ⟨?_,lineage_forkCopy h.numbered h.tree h.lineage hrun hpos⟩
      have harmed := armed_forkCopy h.tree h.lineage hpos
      have heffect : s.effect (.forkCopy p) = if s.table.pid p ≠ 1 then s.createSwapFile q else .ok s := by
        change s.forkSwap p = _
        rw [System.forkSwap,hpos]
      rw [heffect] at hu
      split at hu
      · next hpid =>
        have hnew : ∀ y, Armed s.table y → s.table.pid y ≠ s.table.pid q := by
          intro y hy he
          have hembryo := (h.tree.forking p q hpos).1
          have hyq := h.numbered.inj y q (h.used hy.1) (by rw [hembryo]; rintro ⟨⟩) he
          rw [hyq] at hy
          exact hy.1 (h.tree.forking p q hpos).2
        obtain ⟨htidy,-⟩ := h.tidy.create hnew hu
        refine (htidy.congr ?_ (fun _ _ => rfl)).setTable _
        intro y
        rw [harmed]
        simp [hpid]
      · next hpid =>
        cases hu
        refine (h.tidy.congr ?_ (fun _ _ => rfl)).setTable _
        intro y
        rw [harmed]
        simp only [hpid,and_false,false_or]
    · cases hx
  · cases hx

theorem Sound.exec (h : Sound s) (hrun : s.table.state p = .running) (hpos : s.table.pos p = .user)
    (hexec : s.execSwap p = .ok t) : t.table = s.table ∧ Tidy (Armed s.table) s.table.pid t := by
  by_cases hp : p = initproc
  · have hexempt : s.exempt p = .ok true := by
      rw [System.exempt,hp,if_pos h.lineage.init]
    rw [System.execSwap,hexempt] at hexec
    cases hexec
    exact ⟨rfl,h.tidy⟩
  · obtain ⟨x,hx⟩ := h.parent hrun hp
    have hexempt := h.exempt_eq hrun hp hx
    rw [System.execSwap,hexempt] at hexec
    by_cases hpid : s.table.pid x = 1
    · rw [decide_eq_true hpid] at hexec
      cases hexec
      exact ⟨rfl,h.tidy⟩
    · have harmed : Armed s.table p := by
        refine ⟨by rw [hx]; simp,by rw [hpos]; rintro ⟨⟩,?_⟩
        intro hc
        rw [h.lineage.ofInit p x hx hc] at hpid
        exact hpid h.lineage.init
      obtain ⟨u,hremove,htidy,htable⟩ := h.tidy.remove harmed fun y hy => h.armed_eq harmed hy
      rw [decide_eq_false hpid] at hexec
      change (s.removeSwapFile p >>= _) = _ at hexec
      rw [hremove] at hexec
      rw [← htable] at htidy
      have hcreate := htidy.create (q := p) (by
        rintro y ⟨hyp,hy⟩ he
        rw [htable] at hy he
        exact hyp (h.armed_eq harmed hy he)) hexec
      rw [htable] at hcreate
      refine ⟨hcreate.2,hcreate.1.congr ?_ (fun _ _ => rfl)⟩
      intro y
      by_cases hy : y = p
      · subst hy
        simp [harmed]
      · simp [hy]

theorem Sound.other (h : Sound s) {f : FileSlot} {r : ℕ} (hf : (s.files f).ref = 0 ∨ (s.files f).swap = none) :
    Tidy (Armed s.table) s.table.pid {s with files := update s.files f ⟨r,none⟩} := by
  refine ⟨?_,h.tidy.names,?_⟩
  · intro q hq
    obtain ⟨g,hg,hfile,hdir⟩ := h.tidy.armed q hq
    have hgf : g ≠ f := by
      rintro rfl
      rw [hfile] at hf
      rcases hf with hf | hf
      · cases hf
      · cases hf
    exact ⟨g,hg,(update_of_ne hgf _ _).trans hfile,hdir⟩
  · intro g n hg hswap
    have hgf : g ≠ f := by
      rintro rfl
      dsimp only at hswap
      rw [update_self] at hswap
      cases hswap
    dsimp only at hg hswap
    rw [update_of_ne hgf] at hg hswap
    exact h.tidy.held g n hg hswap

theorem Sound.step (h : Sound s) {a : Action} (hkept : Kept s a) (hstep : s.step a = some t) : Sound t := by
  cases a with
  | exec p =>
    rw [System.step] at hstep
    split at hstep
    · next hp =>
      cases he : s.execSwap p with
      | error e =>
        rw [he] at hstep
        cases hstep
      | ok u =>
        rw [he] at hstep
        cases hstep
        obtain ⟨htable,htidy⟩ := h.exec hp.1 hp.2 he
        exact ⟨by rw [htable]; exact h.tree,by rw [htable]; exact h.numbered,by rw [htable]; exact h.lineage,
          by rw [htable]; exact htidy⟩
    · cases hstep
  | other f r =>
    rw [System.step] at hstep
    split at hstep
    · next hf =>
      cases hstep
      exact ⟨h.tree,h.numbered,h.lineage,h.other hf⟩
    · cases hstep
  | proc a =>
    obtain ⟨x,u,hx,hu,ht⟩ := step_proc hstep
    obtain ⟨htree,hnum⟩ := step_spec h.tree h.numbered hx
    have htable : t.table = x := by rw [ht]
    rw [← htable] at htree hnum
    by_cases hexit : ∃ p, a = .exit p
    · obtain ⟨p,rfl⟩ := hexit
      obtain ⟨htidy,hlin⟩ := h.exit hkept hstep
      exact ⟨htree,hnum,hlin,htidy⟩
    · by_cases hcopy : ∃ p, a = .forkCopy p
      · obtain ⟨p,rfl⟩ := hcopy
        obtain ⟨htidy,hlin⟩ := h.forkCopy hstep
        exact ⟨htree,hnum,hlin,htidy⟩
      · have hcalm := step_calm h.tree h.lineage hx (fun p hp => hcopy ⟨p,hp⟩) (fun p hp => hexit ⟨p,hp⟩)
        have hsame : s.effect a = .ok s := by
          cases a with
          | exit p => exact absurd ⟨p,rfl⟩ hexit
          | forkCopy p => exact absurd ⟨p,rfl⟩ hcopy
          | _ => rfl
        rw [hsame] at hu
        cases hu
        subst ht
        exact ⟨htree,hnum,hcalm.lineage,(h.tidy.congr hcalm.armed hcalm.pid).setTable _⟩

/-- If no process exits whose parent has become init by adoption, the swap file of a reaped process is gone
and `exit` does not fail. In such a run, an `exit` removes the swap file exactly if the condition is met. -/
theorem swap_files_removed_iff (h : Runs.Reaches System.step Kept boot s) :
    (∀ n ∈ s.table.reaps, Gone s n) ∧
    (∀ p, s.table.state p = .running → s.table.pos p = .user → p ≠ initproc → ∃ t, s.exitSwap p = .ok t) ∧
    ∀ p t, s.step (.proc (.exit p)) = some t → (Gone t (s.table.pid p) ↔ Kept s (.proc (.exit p))) := by
  have hsound : Sound s := Runs.Reaches.invariant h sound_boot (by
    intro s a t hs ha hstep
    exact hs.step ha hstep)
  refine ⟨?_,?_,?_⟩
  · intro n hn
    refine hsound.tidy.gone ?_
    intro q hq
    exact (hsound.numbered.reaped n hn).2.2 q (hsound.used hq.1)
  · intro p hrun hpos hp
    obtain ⟨x,-,⟨-,hok⟩ | ⟨-,-,u,hok,-⟩⟩ := hsound.exitSwap hrun hpos hp
    · exact ⟨s,hok⟩
    · exact ⟨u,hok⟩
  · intro p t hstep
    obtain ⟨⟨hrun,hpos,hp⟩,u,hu,rfl⟩ := exit_step hstep
    constructor
    · intro hgone x hx hpid
      by_contra hc
      obtain ⟨y,hy,⟨-,hsame⟩ | ⟨hne,-⟩⟩ := hsound.exitSwap hrun hpos hp
      · rw [hsame] at hu
        cases hu
        have harmed : Armed s.table p := ⟨by rw [hx]; simp,by rw [hpos]; rintro ⟨⟩,hc⟩
        obtain ⟨f,-,-,hdir⟩ := hsound.tidy.armed p harmed
        have hno : s.dir (s.table.pid p) = false := hgone.1
        rw [hdir] at hno
        cases hno
      · rw [hx] at hy
        cases hy
        exact hne hpid
    · intro hkept
      obtain ⟨htidy,-⟩ := hsound.exit hkept hstep
      refine htidy.gone ?_
      intro q hq he
      obtain ⟨hqp,hq'⟩ := (armed_exit p q).mp hq
      have hused : s.table.state p ≠ .unused := by
        rw [hrun]
        rintro ⟨⟩
      exact hqp (hsound.numbered.inj q p (hsound.used hq'.1) hused he)

def twoForks : List Action :=
  [.proc (.schedule initproc),.proc (.allocproc initproc),.proc (.forkCopy initproc),.proc (.forkDone initproc),
    .proc (.schedule slot1),.proc (.allocproc slot1),.proc (.forkCopy slot1),
    .proc (.forkDone slot1),.proc (.schedule slot2)]

def childFirst : List Action :=
  twoForks ++ [.proc (.exit slot2),.proc (.exitDone slot2),.proc (.wait slot1)]

theorem swap_files_removed_childFirst : ∃ s, Runs.Reaches System.step Kept boot s ∧
    s.table.reaps = [3] ∧ Gone s 3 := by
  have hrun : (Runs.exec System.step Kept childFirst boot).map
      (fun s => decide (s.table.reaps = [3])) = some true := by decide +kernel
  obtain ⟨s,hs,hf⟩ := Runs.exists_reaches hrun
  have hreaps : s.table.reaps = [3] := of_decide_eq_true hf
  exact ⟨s,hs,hreaps,(swap_files_removed_iff hs).1 3 (by rw [hreaps]; exact List.mem_cons_self)⟩

def parentFirst : List Action :=
  twoForks ++ [.proc (.exit slot1),.proc (.exitDone slot1),.proc (.exit slot2),
    .proc (.exitDone slot2),.proc (.wait initproc),.proc (.wait initproc)]

/-- The swap file of the grandchild stays although the process has been reaped. -/
theorem orphan_keeps_swap_file : ∃ s, Runs.Reaches System.step (fun _ _ => True) boot s ∧
    3 ∈ s.table.reaps ∧ s.dir 3 = true ∧ ¬ Gone s 3 := by
  have hrun : (Runs.exec System.step (fun _ _ => True) parentFirst boot).map
      (fun s => decide (s.table.reaps = [3,2] ∧ s.dir 3 = true)) = some true := by decide +kernel
  obtain ⟨s,hs,hf⟩ := Runs.exists_reaches hrun
  obtain ⟨hreaps,hdir⟩ := of_decide_eq_true hf
  refine ⟨s,hs,by rw [hreaps]; exact List.mem_cons_self,hdir,?_⟩
  intro hgone
  rw [hgone.1] at hdir
  cases hdir

end Xv6Paging.SwapFiles
