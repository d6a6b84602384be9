import Mathlib.Algebra.Order.BigOperators.Group.Finset
import Mathlib.Algebra.BigOperators.Group.Finset.Piecewise
import Xv6Paging.FileSystem.LogControl

/-! # Space in the log

`begin_op` admits an operation when `MAXOPBLOCKS` further blocks for it and for each
operation already inside fit into `LOGSIZE`. So the blocks logged so far and the blocks
that the operations inside may still log never exceed `LOGSIZE`. The log that `mkfs` lays
out has `LOGSIZE` blocks together with its header, one less than that.
-/
namespace Xv6Paging
open Function

def OpState.logged : OpState → List WordPage.Word
  | .active _ logged => logged
  | .writing _ logged _ _ => logged
  | _ => []

def OpState.budget (q : OpState) : ℕ := maxOpBlocks-q.logged.length

def Within (s : LogSystem) : LogAction → Prop
  | .write p b _ => b ∈ (s.ops p).logged ∨ (s.ops p).logged.length < maxOpBlocks
  | _ => True

/-- The operations of the open transaction have logged fewer than `LOGSIZE-1` distinct blocks when
one of them calls `log_write`. -/
def Roomy (s : LogSystem) : LogAction → Prop
  | .write _ _ _ => (s.pending.map Update.block).dedup.length < logSize-1
  | _ => True

section Budget
variable (ops : ℕ → OpState) {ps : List ℕ} {p : ℕ} (q : OpState)

def reserved (ops : ℕ → OpState) (ps : List ℕ) : ℕ := ∑ p ∈ ps.toFinset, (ops p).budget

theorem reserved_le (hnd : ps.Nodup) : reserved ops ps ≤ ps.length*maxOpBlocks := by
  have hcard := List.toFinset_card_of_nodup hnd
  have hle : ∀ p ∈ ps.toFinset, (ops p).budget ≤ maxOpBlocks := fun p _ => Nat.sub_le _ _
  calc reserved ops ps ≤ ps.toFinset.card • maxOpBlocks := Finset.sum_le_card_nsmul _ _ _ hle
    _ = ps.length*maxOpBlocks := by rw [hcard]; rfl

theorem reserved_update_of_notMem (hp : p ∉ ps) :
    reserved (update ops p q) ps = reserved ops ps := by
  refine Finset.sum_congr rfl fun r hr => ?_
  have hne : r ≠ p := fun he => hp (he ▸ List.mem_toFinset.mp hr)
  rw [update_of_ne hne]

theorem reserved_cons (hp : p ∉ ps) :
    reserved (update ops p q) (p :: ps) = q.budget+reserved ops ps := by
  have hp' : p ∉ ps.toFinset := fun h => hp (List.mem_toFinset.mp h)
  have hrest := reserved_update_of_notMem ops q hp
  rw [reserved,List.toFinset_cons,Finset.sum_insert hp',update_self]
  exact congrArg _ hrest

theorem reserved_update (hp : p ∈ ps) :
    reserved (update ops p q) ps+(ops p).budget = reserved ops ps+q.budget := by
  have hp' : p ∈ ps.toFinset := List.mem_toFinset.mpr hp
  have h1 := Finset.add_sum_erase ps.toFinset (fun r => (ops r).budget) hp'
  have h2 := Finset.add_sum_erase ps.toFinset (fun r => (update ops p q r).budget) hp'
  have h3 : ∑ r ∈ ps.toFinset.erase p, (update ops p q r).budget =
      ∑ r ∈ ps.toFinset.erase p, (ops r).budget := by
    refine Finset.sum_congr rfl fun r hr => ?_
    rw [update_of_ne (Finset.ne_of_mem_erase hr)]
  simp only [update_self] at h2
  simp only [reserved]
  omega

theorem reserved_erase_le (hnd : ps.Nodup) :
    reserved (update ops p q) (ps.erase p) ≤ reserved ops ps := by
  have hnot : p ∉ ps.erase p := fun h => (hnd.mem_erase_iff.mp h).1 rfl
  rw [reserved_update_of_notMem ops q hnot]
  refine Finset.sum_le_sum_of_subset fun r hr => ?_
  exact List.mem_toFinset.mpr (List.mem_of_mem_erase (List.mem_toFinset.mp hr))

end Budget

structure Reserved (s : LogSystem) : Prop where
  control : Control s
  size : s.log.size = logSize
  logged : ∀ p, (s.ops p).inOp = true → (s.ops p).logged ⊆ s.log.lh
  writing : ∀ p op logged b v, s.ops p = .writing op logged b v →
    b ∈ logged ∨ logged.length < maxOpBlocks
  room : s.recovering = none → s.log.committing = false →
    ∃ ps, Crew s.ops s.log.outstanding ps ∧ s.log.lh.length+reserved s.ops ps ≤ logSize

section Reserved
variable {s t : LogSystem} {a : LogAction} {p : ℕ}

theorem LogSystem.Initial.reserved (h : s.Initial) (hs : s.log.size = logSize) : Reserved s := by
  refine ⟨h.control,hs,fun p hp => ?_,fun p op logged b v hp => ?_,fun _ _ => ⟨[],?_,?_⟩⟩
  · rw [h.ops p] at hp
    cases hp
  · rw [h.ops p] at hp
    cases hp
  · rw [h.outstanding]
    exact crew_idle h.ops
  · rw [h.lh]
    exact Nat.zero_le _

theorem Reserved.setOp {q : OpState} (h : Reserved s) (hst : LogStep s a t)
    (ht : t.ops = update s.ops p q) (hsize : t.log.size = s.log.size)
    (hsub : s.log.lh ⊆ t.log.lh) (hq : q.inOp = true → q.logged ⊆ t.log.lh)
    (hw : ∀ op logged b v, q = .writing op logged b v → b ∈ logged ∨ logged.length < maxOpBlocks)
    (hroom : t.recovering = none → t.log.committing = false →
      ∃ ps, Crew t.ops t.log.outstanding ps ∧ t.log.lh.length+Xv6Paging.reserved t.ops ps ≤ logSize) :
    Reserved t := by
  refine ⟨h.control.step hst,hsize.trans h.size,fun r hr => ?_,fun r op logged b v hr => ?_,hroom⟩
  · rw [ht] at hr ⊢
    by_cases hne : r = p
    · rw [hne,update_self] at hr ⊢
      exact hq hr
    · rw [update_of_ne hne] at hr ⊢
      exact List.Subset.trans (h.logged r hr) hsub
  · rw [ht] at hr
    by_cases hne : r = p
    · rw [hne,update_self] at hr
      exact hw op logged b v hr
    · rw [update_of_ne hne] at hr
      exact h.writing r op logged b v hr

theorem Reserved.quiet (hc : Control t) (hsize : t.log.size = logSize)
    (hin : ∀ p, (t.ops p).inOp = false)
    (hlh : t.recovering = none → t.log.committing = false → t.log.lh = []) : Reserved t := by
  refine ⟨hc,hsize,fun r hr => ?_,fun r op logged b v hr => ?_,fun hr hf => ?_⟩
  · rw [hin r] at hr
    cases hr
  · have hf := hin r
    rw [hr] at hf
    cases hf
  · obtain ⟨ps,hps⟩ := hc.crew
    have hnil : ps = [] := List.eq_nil_iff_forall_not_mem.mpr fun p hp => by
      have hp' := (hps.mem_iff p).mp hp
      rw [hin p] at hp'
      cases hp'
    refine ⟨ps,hps,?_⟩
    rw [hnil,hlh hr hf]
    exact Nat.zero_le _

theorem LogSystem.commitStep_inOp (s : LogSystem) {pc : CommitPc} (hp : s.ops p = .commit pc) (r : ℕ) :
    ((s.commitStep p pc).ops r).inOp = (s.ops r).inOp := by
  have hq : ∀ q : OpState, q.inOp = false →
      (update s.ops p q r).inOp = (s.ops r).inOp := by
    intro q hq
    by_cases hr : r = p
    · rw [hr,update_self,hp,hq]
      rfl
    · rw [update_of_ne hr]
  cases pc with
  | writeLog tail =>
    simp only [LogSystem.commitStep]
    split <;> exact hq _ rfl
  | writeHead => exact hq _ rfl
  | install tail =>
    simp only [LogSystem.commitStep]
    split <;> exact hq _ rfl
  | erase => exact hq _ rfl
  | release => exact hq _ rfl

theorem LogSystem.commitStep_size (s : LogSystem) (p : ℕ) (pc : CommitPc) :
    (s.commitStep p pc).log.size = s.log.size ∧ (s.commitStep p pc).log.start = s.log.start := by
  cases pc with
  | writeLog tail =>
    simp only [LogSystem.commitStep]
    split <;> exact ⟨rfl,rfl⟩
  | install tail =>
    simp only [LogSystem.commitStep]
    split <;> exact ⟨rfl,rfl⟩
  | _ => exact ⟨rfl,rfl⟩

theorem LogSystem.commitStep_committing (s : LogSystem) (p : ℕ) (pc : CommitPc) :
    pc = .release ∨ (s.commitStep p pc).log.committing = s.log.committing := by
  cases pc with
  | writeLog tail =>
    simp only [LogSystem.commitStep]
    split <;> exact Or.inr rfl
  | install tail =>
    simp only [LogSystem.commitStep]
    split <;> exact Or.inr rfl
  | release => exact Or.inl rfl
  | _ => exact Or.inr rfl

theorem LogSystem.recoverStep_size (s : LogSystem) (pc : RecoverPc) :
    (s.recoverStep pc).log.size = s.log.size ∧ (s.recoverStep pc).log.start = s.log.start ∧
      (s.recoverStep pc).ops = s.ops := by
  cases pc with
  | install tail =>
    simp only [LogSystem.recoverStep]
    split <;> exact ⟨rfl,rfl,rfl⟩
  | _ => exact ⟨rfl,rfl,rfl⟩

theorem Reserved.goOn {q : OpState} (h : Reserved s) (hst : LogStep s a t) (hin : (s.ops p).inOp = true)
    (hqin : q.inOp = true)
    (ht : t.ops = update s.ops p q ∧ t.log.size = s.log.size ∧ t.recovering = s.recovering ∧
      t.log.committing = s.log.committing ∧ t.log.outstanding = s.log.outstanding)
    (hsub : s.log.lh ⊆ t.log.lh) (hq : (s.ops p).logged ⊆ s.log.lh → q.logged ⊆ t.log.lh)
    (hw : ∀ op logged b v, q = .writing op logged b v → b ∈ logged ∨ logged.length < maxOpBlocks)
    (hbudget : t.log.lh.length+q.budget ≤ s.log.lh.length+(s.ops p).budget) : Reserved t := by
  obtain ⟨hops,hsize,hrec,hcom,hout⟩ := ht
  refine h.setOp hst hops hsize hsub (fun _ => hq (h.logged p hin)) hw fun hr hc => ?_
  obtain ⟨ps,hps,hroom⟩ := h.room (hrec ▸ hr) (hcom ▸ hc)
  have hup := reserved_update s.ops q ((hps.mem_iff p).mpr hin)
  rw [hops,hout]
  exact ⟨ps,hps.same (hqin.trans hin.symm),by omega⟩

theorem Reserved.step (h : Reserved s) (hw : Within s a) (hst : LogStep s a t) : Reserved t := by
  have hcontrol := h.control.step hst
  cases hst with
  | @begin p hr hp hc hb =>
    refine h.setOp (.begin hr hp hc hb) rfl rfl (List.Subset.refl _) (fun _ => List.nil_subset _)
      (by rintro _ _ _ _ ⟨⟩) fun _ _ => ?_
    obtain ⟨ps,hps,-⟩ := h.room hr hc
    have hin : (s.ops p).inOp = false := by rw [hp]; rfl
    have hnot : p ∉ ps := by
      rw [hps.mem_iff,hin]
      exact Bool.false_ne_true
    refine ⟨p :: ps,hps.join hin rfl,?_⟩
    have hcons := reserved_cons s.ops (.active s.nextOp []) hnot
    have hle := reserved_le s.ops hps.nodup
    have hcount := hps.count
    have hbudget : (OpState.active s.nextOp []).budget = maxOpBlocks := rfl
    have hm : maxOpBlocks = 10 := rfl
    change s.log.lh.length+Xv6Paging.reserved (update s.ops p (.active s.nextOp [])) (p :: ps) ≤ _
    rw [hcons,hbudget]
    rw [hm] at hle hb ⊢
    omega
  | @write p op logged b v hp hl hn hs =>
    have hlog : (s.ops p).logged = logged := by rw [hp]; rfl
    have hw' : b ∈ (s.ops p).logged ∨ (s.ops p).logged.length < maxOpBlocks := hw
    refine h.goOn (q := .writing op logged b v) (.write hp hl hn hs) (by rw [hp]; rfl) rfl ⟨rfl,rfl,rfl,rfl,rfl⟩
      (List.Subset.refl _) (fun hsub => hlog ▸ hsub) (fun op' logged' b' v' he => ?_) ?_
    · cases he
      rwa [hlog] at hw'
    · rw [OpState.budget,OpState.budget,hlog]
      rfl
  | @absorb p op logged b v hp hb =>
    have hlog : (s.ops p).logged = logged := by rw [hp]; rfl
    refine h.goOn (q := .active op (if b ∈ logged then logged else b :: logged)) (.absorb hp hb) (by rw [hp]; rfl) rfl
      ⟨rfl,rfl,rfl,rfl,rfl⟩ (List.Subset.refl _) (fun hsub => ?_) (by rintro _ _ _ _ ⟨⟩) ?_
    · rw [hlog] at hsub
      simp only [OpState.logged]
      split
      · exact hsub
      · exact List.cons_subset.mpr ⟨hb,hsub⟩
    · refine Nat.add_le_add_left ?_ _
      rw [OpState.budget,OpState.budget,hlog]
      simp only [OpState.logged]
      split
      · exact le_rfl
      · rw [List.length_cons]
        omega
  | @append p op logged b v hp hb hn =>
    have hlog : (s.ops p).logged = logged := by rw [hp]; rfl
    have hin : (s.ops p).inOp = true := by rw [hp]; rfl
    have hnot : b ∉ logged := fun hm => hb (h.logged p hin (hlog ▸ hm))
    have hlen : logged.length < maxOpBlocks := (h.writing p op logged b v hp).resolve_left hnot
    refine h.goOn (q := .active op (if b ∈ logged then logged else b :: logged)) (.append hp hb hn) hin rfl
      ⟨rfl,rfl,rfl,rfl,rfl⟩ (List.subset_append_left _ _) (fun hsub => ?_) (by rintro _ _ _ _ ⟨⟩) ?_
    · simp only [OpState.logged,if_neg hnot]
      exact List.cons_subset.mpr ⟨List.mem_append_right _ (List.mem_singleton.mpr rfl),
        List.Subset.trans (hlog ▸ hsub) (List.subset_append_left _ _)⟩
    · change (s.log.lh ++ [b]).length+_ ≤ _
      rw [List.length_append,List.length_singleton,OpState.budget,OpState.budget,hlog]
      simp only [OpState.logged,if_neg hnot,List.length_cons]
      omega
  | @leave p op logged hp hc ho =>
    have hin : (s.ops p).inOp = true := by rw [hp]; rfl
    refine h.setOp (q := .idle) (.leave hp hc ho) rfl rfl (List.Subset.refl _) (by rintro ⟨⟩)
      (by rintro _ _ _ _ ⟨⟩) fun hr _ => ?_
    obtain ⟨ps,hps,hroom⟩ := h.room hr hc
    have hle := reserved_erase_le s.ops (p := p) .idle hps.nodup
    exact ⟨ps.erase p,hps.leave hin rfl,(Nat.add_le_add_left hle _).trans hroom⟩
  | @last p op logged hp hc ho =>
    exact h.setOp (q := .commit (if 0 < s.log.lh.length then .writeLog 0 else .release)) (.last hp hc ho)
      rfl rfl (List.Subset.refl _) (by rintro ⟨⟩) (by rintro _ _ _ _ ⟨⟩) (by rintro - ⟨⟩)
  | @commit p pc hp hb =>
    obtain ⟨ps,hps⟩ := h.control.crew
    have hout := (h.control.busy p pc hp).2.1
    refine .quiet hcontrol ((s.commitStep_size p pc).1.trans h.size) (fun r => ?_) fun hr hf => ?_
    · rw [s.commitStep_inOp hp]
      exact hps.not_inOp hout r
    · rcases s.commitStep_committing p pc with rfl | hcom
      · exact (h.control.busy p _ hp).2.2.1
      · rw [hcom,(h.control.busy p pc hp).1] at hf
        cases hf
  | crash => exact .quiet hcontrol h.size (fun _ => rfl) (by rintro ⟨⟩)
  | @recover pc hr =>
    obtain ⟨h1,h2,h3⟩ := s.recoverStep_size pc
    obtain ⟨hidle,-,-⟩ := h.control.quiet (by simp [hr])
    refine .quiet hcontrol (h1.trans h.size) (fun r => ?_) fun hr' _ => ?_
    · rw [h3,hidle r]
      rfl
    · cases pc with
      | erase => exact h.control.cleared hr
      | readHead => cases hr'
      | install tail =>
        simp only [LogSystem.recoverStep] at hr'
        split at hr' <;> cases hr'

/-- If every `log_write` is called while fewer than `LOGSIZE-1` distinct blocks are logged, none panics or
runs during a commit, and each has room for its block. In such a run the condition is exact. -/
theorem reservation_suffices (h : s.Initial) (hs : s.log.size = logSize)
    (hrun : Runs.Reaches LogSystem.step (fun s a => Within s a ∧ Roomy s a) s t) :
    (∀ p op logged b v, t.ops p = .active op logged →
      (logWriteCheck t.log = .ok () ↔ Roomy t (.write p b v))) ∧
    (∀ p op logged b v, t.ops p = .writing op logged b v → ∃ l, logWriteLocked b t.log = .ok l) ∧
    ∀ p q pc, (t.ops p).inOp = true → t.ops q ≠ .commit pc := by
  have ht : Reserved t := hrun.invariant (h.reserved hs) fun s a t hs hP hst =>
    hs.step hP.1 (step_cases hst)
  have hrunning : ∀ p, (t.ops p).inOp = true → t.recovering = none := by
    intro p hp
    refine ht.control.running (p := p) rfl fun hidle => ?_
    rw [hidle] at hp
    cases hp
  refine ⟨fun p op logged b v hp => ?_,fun p op logged b v hp => ?_,fun p q pc hp =>
    ht.control.not_committing hp q pc⟩
  · have hin : (t.ops p).inOp = true := by rw [hp]; rfl
    obtain ⟨ps,hps,hroom⟩ := ht.room (hrunning p hin) (ht.control.not_committing_flag hin)
    have hlen := (ht.control.listed (hrunning p hin) (ht.control.not_committing_flag hin)).length_eq
    have hpos := List.length_pos_of_mem ((hps.mem_iff p).mpr hin)
    have hout : ¬ t.log.outstanding < 1 := by
      rw [hps.count]
      omega
    have hL : logSize = 30 := rfl
    rw [logWriteCheck,ht.size,Roomy,← hlen]
    by_cases hn : t.log.lh.length < logSize-1
    · rw [if_neg (by omega),if_neg hout]
      exact ⟨fun _ => hn,fun _ => rfl⟩
    · rw [if_pos (by omega)]
      exact ⟨by rintro ⟨⟩,fun h => (hn h).elim⟩
  · have hin : (t.ops p).inOp = true := by rw [hp]; rfl
    obtain ⟨ps,hps,hroom⟩ := ht.room (hrunning p hin) (ht.control.not_committing_flag hin)
    have hlog : (t.ops p).logged = logged := by rw [hp]; rfl
    have hsub := ht.logged p hin
    rw [hlog] at hsub
    rw [logWriteLocked]
    by_cases hb : b ∈ t.log.lh
    · exact ⟨_,if_pos hb⟩
    · have hlen : logged.length < maxOpBlocks :=
        (ht.writing p op logged b v hp).resolve_left fun hm => hb (hsub hm)
      have hbud : 0 < (t.ops p).budget := by
        rw [OpState.budget,hlog]
        omega
      have hle : (t.ops p).budget ≤ reserved t.ops ps := by
        have hmem : p ∈ ps.toFinset := List.mem_toFinset.mpr ((hps.mem_iff p).mpr hin)
        exact Finset.single_le_sum (f := fun r => (t.ops r).budget) (fun _ _ => Nat.zero_le _) hmem
      rw [if_neg hb,if_neg (by omega)]
      exact ⟨_,rfl⟩

end Reserved

section Sample

instance (s : LogSystem) : (a : LogAction) → Decidable (Within s a)
  | .write _ _ _ => inferInstanceAs (Decidable (_ ∨ _))
  | .begin _ => inferInstanceAs (Decidable True)
  | .append _ => inferInstanceAs (Decidable True)
  | .finish _ => inferInstanceAs (Decidable True)
  | .commit _ => inferInstanceAs (Decidable True)
  | .crash => inferInstanceAs (Decidable True)
  | .recover => inferInstanceAs (Decidable True)

instance (s : LogSystem) : (a : LogAction) → Decidable (Roomy s a)
  | .write _ _ _ => inferInstanceAs (Decidable (_ < _))
  | .begin _ => inferInstanceAs (Decidable True)
  | .append _ => inferInstanceAs (Decidable True)
  | .finish _ => inferInstanceAs (Decidable True)
  | .commit _ => inferInstanceAs (Decidable True)
  | .crash => inferInstanceAs (Decidable True)
  | .recover => inferInstanceAs (Decidable True)

def newLog : LogSystem where
  disk _ _ := 0
  cache _ _ := 0
  locked _ := false
  log := ⟨2,logSize,0,false,[]⟩
  ops _ := .idle
  recovering := none
  nextOp := 0
  issued := []
  pending := []
  committed := []

theorem newLog_initial : newLog.Initial where
  outstanding := rfl
  committing := rfl
  lh := rfl
  ops _ := rfl
  locked _ := rfl
  recovering := rfl
  cache := rfl
  head := by decide +kernel
  issued := rfl
  pending := rfl
  committed := rfl

def threeOps (n : ℕ) : List LogAction :=
  [.begin 0,.begin 1,.begin 2] ++ (List.range n).flatMap fun i =>
    [.write (i/10) (BitVec.ofNat 32 (100+i)) fun _ => 1,.append (i/10)]

def OpState.isActive : OpState → Bool
  | .active _ _ => true
  | _ => false

theorem active_of_isActive {q : OpState} (h : q.isActive = true) : ∃ op logged, q = .active op logged := by
  cases q with
  | active op logged => exact ⟨op,logged,rfl⟩
  | _ => cases h

/-- After 28 blocks the third operation can still log its ninth one. -/
theorem reservation_suffices_threeOps : ∃ t,
    Runs.Reaches LogSystem.step (fun s a => Within s a ∧ Roomy s a) newLog t ∧
    (t.ops 2).isActive = true ∧ logWriteCheck t.log = .ok () := by
  have hexec : (Runs.exec LogSystem.step (fun s a => Within s a ∧ Roomy s a) (threeOps 28) newLog).map (fun t =>
      (t.ops 2).isActive && decide (Roomy t (.write 2 0 fun _ => 0))) = some true := by decide +kernel
  obtain ⟨t,hrun,hf⟩ := Runs.exists_reaches hexec
  rw [Bool.and_eq_true,decide_eq_true_eq] at hf
  obtain ⟨op,logged,hact⟩ := active_of_isActive hf.1
  exact ⟨t,hrun,hf.1,((reservation_suffices newLog_initial rfl hrun).1 2 op logged 0 (fun _ => 0) hact).mpr
    hf.2⟩

/-- Three operations within their limits: the thirtieth block does not fit. -/
theorem thirtieth_block_panics : ∃ t, Runs.Reaches LogSystem.step Within newLog t ∧ (t.ops 2).isActive = true ∧
    Within t (.write 2 129 fun _ => 1) ∧
    logWriteCheck t.log = .error (.panic "too big a transaction") := by
  have hexec : (Runs.exec LogSystem.step Within (threeOps 29) newLog).map (fun t => (t.ops 2).isActive &&
      (decide (Within t (.write 2 129 fun _ => 1)) && decide (t.log.lh.length = 29 ∧ t.log.size = 30))) =
      some true := by decide +kernel
  obtain ⟨t,hrun,hf⟩ := Runs.exists_reaches hexec
  simp only [Bool.and_eq_true,decide_eq_true_eq] at hf
  obtain ⟨h1,h2,h3,h4⟩ := hf
  refine ⟨t,hrun,h1,h2,?_⟩
  rw [logWriteCheck,h3,h4]
  rfl

/-- `outstanding` counts the operations under way. While there is one, none commits and `end_op` does not
panic, and at most one commits at a time. -/
theorem commit_alone {s t : LogSystem} (h : s.Initial) (hrun : Runs.Reaches LogSystem.step (fun _ _ => True) s t) :
    (∃ ps, Crew t.ops t.log.outstanding ps) ∧
    (∀ p, (t.ops p).inOp = true → (∃ r, endOp t.log = .ok r) ∧ ∀ q pc, t.ops q ≠ .commit pc) ∧
    ∀ p q pc pc', t.ops p = .commit pc → t.ops q = .commit pc' → p = q := by
  have hc : Control t := hrun.invariant h.control fun _ _ _ hs _ hst => hs.step (step_cases hst)
  refine ⟨hc.crew,fun p hp => ⟨?_,hc.not_committing hp⟩,hc.single⟩
  rw [endOp]
  dsimp only
  rw [if_neg (by simp [hc.not_committing_flag hp])]
  split
  · exact ⟨_,rfl⟩
  · exact ⟨_,rfl⟩

theorem commit_alone_threeOps : ∃ t, Runs.Reaches LogSystem.step (fun _ _ => True) newLog t ∧ (t.ops 1).inOp = true ∧
    ∀ q pc, t.ops q ≠ .commit pc := by
  have hexec : (Runs.exec LogSystem.step (fun _ _ => True) (threeOps 0) newLog).map (fun t => (t.ops 1).inOp) =
      some true := by decide +kernel
  obtain ⟨t,hrun,hp⟩ := Runs.exists_reaches hexec
  exact ⟨t,hrun,hp,((commit_alone newLog_initial hrun).2.1 1 hp).2⟩

end Sample

end Xv6Paging
