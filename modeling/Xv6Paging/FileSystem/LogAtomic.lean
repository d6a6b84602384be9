import Xv6Paging.FileSystem.LogRecovery

/-! # Crash atomicity

An operation's updates are all in one transaction, since a commit starts only when no
operation is outstanding. Together with recovery this makes operations atomic. `log_write`
tests for room in the log before it takes the lock, and two of its callers may both pass
the test for the last log block. The header then lists `NBUF` blocks, whose buffers are
all marked, and the commit panics in `bget` before it writes anything.
-/
namespace Xv6Paging
open Sector Replay Function

def OpState.op : OpState → Option ℕ
  | .active op _ => some op
  | .writing op _ _ _ => some op
  | _ => none

/-- The updates of one operation stay together. -/
structure Whole (s : LogSystem) : Prop where
  numbered : ∀ u ∈ s.issued, u.op < s.nextOp
  done : ∀ u ∈ s.committed.flatten, u ∈ s.issued
  issued : ∀ u ∈ s.pending, u ∈ s.issued
  active : ∀ p op, (s.ops p).op = some op → op < s.nextOp ∧
    (∀ u ∈ s.issued, u.op = op → u ∈ s.pending) ∧ ∀ u ∈ s.committed.flatten, u.op ≠ op
  open_ : ∀ u ∈ s.pending, (∀ v ∈ s.issued, v.op = u.op → v ∈ s.pending) ∧
    ∀ v ∈ s.committed.flatten, v.op ≠ u.op
  whole : ∀ op, (∀ u ∈ s.issued, u.op = op → u ∈ s.committed.flatten) ∨
    ∀ u ∈ s.committed.flatten, u.op ≠ op

section Whole
variable {s t : LogSystem} {a : LogAction} {p : ℕ}

theorem LogSystem.Initial.whole (h : s.Initial) : Whole s := by
  refine ⟨?_,?_,?_,fun p op hp => ?_,?_,fun op => Or.inl ?_⟩
  · simp [h.issued]
  · simp [h.committed]
  · simp [h.pending]
  · rw [h.ops p] at hp
    cases hp
  · simp [h.pending]
  · simp [h.issued]

theorem Whole.keep (h : Whole s) (hn : t.nextOp = s.nextOp) (hi : t.issued = s.issued)
    (hp : t.pending = s.pending) (hc : t.committed = s.committed)
    (hop : ∀ p op, (t.ops p).op = some op → (s.ops p).op = some op) : Whole t := by
  refine ⟨?_,?_,?_,fun p op hpo => ?_,?_,?_⟩
  · rw [hi,hn]
    exact h.numbered
  · rw [hi,hc]
    exact h.done
  · rw [hi,hp]
    exact h.issued
  · rw [hn,hi,hp,hc]
    exact h.active p op (hop p op hpo)
  · rw [hi,hp,hc]
    exact h.open_
  · rw [hi,hc]
    exact h.whole

theorem op_update {ops : ℕ → OpState} {q : OpState} (hq : ∀ op, q.op = some op → (ops p).op = some op)
    (r op : ℕ) (h : (update ops p q r).op = some op) : (ops r).op = some op := by
  by_cases hr : r = p
  · rw [hr,update_self] at h
    rw [hr]
    exact hq op h
  · rwa [update_of_ne hr] at h

theorem Whole.appended (h : Whole s) {op : ℕ} {logged : List WordPage.Word} {b : WordPage.Word}
    {v : Block} (hp : s.ops p = .writing op logged b v) (l : Log) :
    Whole (s.appended p op logged b v l) := by
  obtain ⟨hlt,hall,hnone⟩ := h.active p op (by rw [hp]; rfl)
  have hissued : ∀ u, u ∈ (s.appended p op logged b v l).issued ↔ u ∈ s.issued ∨ u = ⟨op,b,v⟩ := by
    intro u
    simp [LogSystem.appended]
  have hpending : ∀ u, u ∈ (s.appended p op logged b v l).pending ↔ u ∈ s.pending ∨ u = ⟨op,b,v⟩ := by
    intro u
    simp [LogSystem.appended]
  refine ⟨fun u hu => ?_,fun u hu => (hissued u).mpr (Or.inl (h.done u hu)),
    fun u hu => (hissued u).mpr (((hpending u).mp hu).imp (h.issued u) id),fun r op' hr => ?_,
    fun u hu => ?_,fun op' => ?_⟩
  · rcases (hissued u).mp hu with hu | rfl
    · exact h.numbered u hu
    · exact hlt
  · have hr' : (s.ops r).op = some op' := op_update (by simp [hp,OpState.op]) r op' hr
    obtain ⟨h1,h2,h3⟩ := h.active r op' hr'
    refine ⟨h1,fun u hu hop => (hpending u).mpr ?_,h3⟩
    exact ((hissued u).mp hu).imp (fun hu => h2 u hu hop) id
  · rcases (hpending u).mp hu with hu | rfl
    · refine ⟨fun w hw hop => (hpending w).mpr ?_,(h.open_ u hu).2⟩
      exact ((hissued w).mp hw).imp (fun hw => (h.open_ u hu).1 w hw hop) id
    · refine ⟨fun w hw hop => (hpending w).mpr ?_,hnone⟩
      exact ((hissued w).mp hw).imp (fun hw => hall w hw hop) id
  · rcases h.whole op' with hin | hout
    · by_cases he : op' = op
      · exact Or.inr (he ▸ hnone)
      · refine Or.inl fun u hu hop => ?_
        rcases (hissued u).mp hu with hu | rfl
        · exact hin u hu hop
        · exact (he hop.symm).elim
    · exact Or.inr hout

theorem Whole.commitStep (h : Whole s) (hc : Control s) {pc : CommitPc} (hp : s.ops p = .commit pc) :
    Whole (s.commitStep p pc) := by
  have hop : ∀ pc' : CommitPc, ∀ r op, (update s.ops p (.commit pc') r).op = some op →
      (s.ops r).op = some op := fun pc' => op_update (by simp [OpState.op])
  cases pc with
  | writeLog tail =>
    simp only [LogSystem.commitStep]
    split
    · exact h.keep rfl rfl rfl rfl (hop _)
    · exact h.keep rfl rfl rfl rfl (hop _)
  | install tail =>
    simp only [LogSystem.commitStep]
    split
    · exact h.keep rfl rfl rfl rfl (hop _)
    · exact h.keep rfl rfl rfl rfl (hop _)
  | erase => exact h.keep rfl rfl rfl rfl (hop _)
  | release => exact h.keep rfl rfl rfl rfl (op_update (by simp [OpState.op]))
  | writeHead =>
    have hmem : ∀ u, u ∈ (s.commitStep p .writeHead).committed.flatten ↔
        u ∈ s.committed.flatten ∨ u ∈ s.pending := by
      intro u
      simp only [LogSystem.commitStep,List.flatten_append,List.mem_append]
      simp
    obtain ⟨ps,hps⟩ := hc.crew
    have hnone : ∀ r op, (s.ops r).op ≠ some op := by
      intro r op hr
      have hin := hps.not_inOp (hc.busy p _ hp).2.1 r
      cases hq : s.ops r with
      | active _ _ => rw [hq] at hin; cases hin
      | writing _ _ _ _ => rw [hq] at hin; cases hin
      | idle => rw [hq] at hr; cases hr
      | commit _ => rw [hq] at hr; cases hr
    refine ⟨h.numbered,fun u hu => ?_,by rintro _ ⟨⟩,fun r op hr => (hnone r op (hop _ r op hr)).elim,
      by rintro _ ⟨⟩,fun op => ?_⟩
    · exact ((hmem u).mp hu).elim (h.done u) (h.issued u)
    · by_cases hex : ∃ u ∈ s.pending, u.op = op
      · obtain ⟨u,hu,rfl⟩ := hex
        exact Or.inl fun w hw hop => (hmem w).mpr (Or.inr ((h.open_ u hu).1 w hw hop))
      · rcases h.whole op with hin | hout
        · exact Or.inl fun u hu hop => (hmem u).mpr (Or.inl (hin u hu hop))
        · refine Or.inr fun u hu => ?_
          rcases (hmem u).mp hu with hu | hu
          · exact hout u hu
          · exact fun he => hex ⟨u,hu,he⟩

theorem Whole.step (h : Whole s) (hc : Control s) (hst : LogStep s a t) : Whole t := by
  cases hst with
  | @begin p hr hp hcom hb =>
    have hlt : ∀ op, op < s.nextOp → op < s.nextOp+1 := fun op h => h.trans (Nat.lt_succ_self _)
    refine ⟨fun u hu => hlt _ (h.numbered u hu),h.done,h.issued,fun r op hr => ?_,h.open_,h.whole⟩
    by_cases hrp : r = p
    · rw [hrp] at hr
      have hop : s.nextOp = op := by
        simpa [LogSystem.begun,LogSystem.setOp,OpState.op] using hr
      subst hop
      -- no update carries the number of the operation that begins
      exact ⟨Nat.lt_succ_self _,fun u hu he => absurd (h.numbered u hu) (by omega),
        fun u hu he => absurd (h.numbered u (h.done u hu)) (by omega)⟩
    · have hr' : (s.ops r).op = some op := by
        simpa [LogSystem.begun,LogSystem.setOp,hrp] using hr
      obtain ⟨h1,h2,h3⟩ := h.active r op hr'
      exact ⟨hlt op h1,h2,h3⟩
  | @write p op logged b v hp hl hn hs =>
    exact h.keep rfl rfl rfl rfl (op_update (by simp [hp,OpState.op]))
  | @absorb p op logged b v hp hb => exact h.appended hp _
  | @append p op logged b v hp hb hn => exact h.appended hp _
  | @leave p op logged hp hcom ho => exact h.keep rfl rfl rfl rfl (op_update (q := .idle) (by simp [OpState.op]))
  | @last p op logged hp hcom ho =>
    exact h.keep rfl rfl rfl rfl (op_update
      (q := .commit (if 0 < s.log.lh.length then .writeLog 0 else .release)) (by simp [OpState.op]))
  | @commit p pc hp hb => exact h.commitStep hc hp
  | crash =>
    refine ⟨h.numbered,h.done,by rintro _ ⟨⟩,fun r op hr => ?_,by rintro _ ⟨⟩,h.whole⟩
    cases hr
  | @recover pc hr =>
    obtain ⟨-,-,hops⟩ := s.recoverStep_size pc
    have hop : ∀ r op, ((s.recoverStep pc).ops r).op = some op → (s.ops r).op = some op := by
      intro r op h
      rwa [hops] at h
    cases pc with
    | readHead => exact h.keep rfl rfl rfl rfl hop
    | install tail =>
      simp only [LogSystem.recoverStep] at hop ⊢
      split
      · exact h.keep rfl rfl rfl rfl fun _ _ h => h
      · exact h.keep rfl rfl rfl rfl fun _ _ h => h
    | erase => exact h.keep rfl rfl rfl rfl hop

theorem LogStep.place (h : LogStep s a t) : t.log.start = s.log.start ∧ t.log.size = s.log.size := by
  cases h with
  | @commit p pc hp hb => exact (s.commitStep_size p pc).symm
  | @recover pc hr =>
    obtain ⟨h1,h2,-⟩ := s.recoverStep_size pc
    exact ⟨h2,h1⟩
  | _ => exact ⟨rfl,rfl⟩

/-- In every interleaving, with crashes anywhere, the home blocks outside of commits and of recovery are
those of the committed transactions, and all or none of an operation's updates are among them. -/
theorem recovered_atomic (h : s.Initial) (hs : nbuf ≤ s.log.size)
    (hrun : Runs.Reaches LogSystem.step OutsideLog s t) (hr : t.recovering = none)
    (hc : t.log.committing = false) :
    (∀ b, ¬ s.log.area b → t.disk b = replay s.disk (t.committed.flatten.map Update.pair) b) ∧
    ∀ op, (∀ u ∈ t.issued, u.op = op → u ∈ t.committed.flatten) ∨ ∀ u ∈ t.committed.flatten, u.op ≠ op := by
  have hinv : Sound s.disk t ∧ Whole t ∧ t.log.start = s.log.start ∧ t.log.size = s.log.size := by
    refine hrun.invariant (I := fun t => Sound s.disk t ∧ Whole t ∧ t.log.start = s.log.start ∧
      t.log.size = s.log.size) ⟨h.sound hs,h.whole,rfl,rfl⟩ fun u a v hu hP hst => ?_
    obtain ⟨hsound,hwhole,h1,h2⟩ := hu
    have hst := step_cases hst
    exact ⟨hsound.step hP hst,hwhole.step hsound.control hst,hst.place.1.trans h1,
      hst.place.2.trans h2⟩
  obtain ⟨hsound,hwhole,h1,h2⟩ := hinv
  refine ⟨fun b hb => (hsound.idle hr hc).1.home b ?_,hwhole.whole⟩
  rw [Log.area,h1,h2]
  exact hb

end Whole

section Sample

instance (s : LogSystem) : (a : LogAction) → Decidable (OutsideLog s a)
  | .write _ _ _ => inferInstanceAs (Decidable (¬ _))
  | .begin _ => inferInstanceAs (Decidable True)
  | .append _ => inferInstanceAs (Decidable True)
  | .finish _ => inferInstanceAs (Decidable True)
  | .commit _ => inferInstanceAs (Decidable True)
  | .crash => inferInstanceAs (Decidable True)
  | .recover => inferInstanceAs (Decidable True)

def crashedCommit : List LogAction :=
  [.begin 0,.write 0 100 fun _ => 1,.append 0,.finish 0,.commit 0,.commit 0,.commit 0,.crash,
    .recover,.recover,.recover,.recover]

theorem recovered_atomic_crashedCommit : ∃ t, Runs.Reaches LogSystem.step OutsideLog newLog t ∧ t.committed.length = 1 ∧
    ∀ b, ¬ newLog.log.area b → t.disk b = replay newLog.disk (t.committed.flatten.map Update.pair) b := by
  have hexec : (Runs.exec LogSystem.step OutsideLog crashedCommit newLog).map (fun t => t.recovering.isNone &&
      !t.log.committing && decide (t.committed.length = 1)) = some true := by decide +kernel
  obtain ⟨t,hrun,hf⟩ := Runs.exists_reaches hexec
  simp only [Bool.and_eq_true,Bool.not_eq_true',Option.isNone_iff_eq_none,decide_eq_true_eq] at hf
  obtain ⟨⟨h1,h2⟩,h3⟩ := hf
  exact ⟨t,hrun,h3,(recovered_atomic newLog_initial (by decide) hrun h1 h2).1⟩

end Sample

end Xv6Paging
