import Mathlib.Data.List.Dedup
import Xv6Paging.FileSystem.Log
import Xv6Paging.Library.Runs

/-! # Who may use the log

`outstanding` counts the operations under way, `committing` is set while one commits, and
none is under way then. The block numbers in the header
are those of the open transaction's updates.
-/
namespace Xv6Paging
open Function

inductive LogStep (s : LogSystem) : LogAction → LogSystem → Prop
  | begin {p : ℕ} (hr : s.recovering = none) (hp : s.ops p = .idle) (hc : s.log.committing = false)
      (hb : s.log.lh.length+(s.log.outstanding+1)*maxOpBlocks ≤ logSize) :
      LogStep s (.begin p) (s.begun p {s.log with outstanding := s.log.outstanding+1})
  | write {p op : ℕ} {logged : List WordPage.Word} {b : WordPage.Word} {v : Sector.Block}
      (hp : s.ops p = .active op logged) (hl : s.locked b = false) (hn : s.log.lh.length < logSize)
      (hs : (s.log.lh.length : ℤ) < s.log.size-1) :
      LogStep s (.write p b v) (s.written p op logged b v)
  | absorb {p op : ℕ} {logged : List WordPage.Word} {b : WordPage.Word} {v : Sector.Block}
      (hp : s.ops p = .writing op logged b v) (hb : b ∈ s.log.lh) :
      LogStep s (.append p) (s.appended p op logged b v s.log)
  | append {p op : ℕ} {logged : List WordPage.Word} {b : WordPage.Word} {v : Sector.Block}
      (hp : s.ops p = .writing op logged b v) (hb : b ∉ s.log.lh) (hn : s.log.lh.length < logSize) :
      LogStep s (.append p) (s.appended p op logged b v {s.log with lh := s.log.lh ++ [b]})
  | leave {p op : ℕ} {logged : List WordPage.Word} (hp : s.ops p = .active op logged)
      (hc : s.log.committing = false) (ho : s.log.outstanding ≠ 1) :
      LogStep s (.finish p) (s.finished p false {s.log with outstanding := s.log.outstanding-1})
  | last {p op : ℕ} {logged : List WordPage.Word} (hp : s.ops p = .active op logged)
      (hc : s.log.committing = false) (ho : s.log.outstanding = 1) :
      LogStep s (.finish p) (s.finished p true {s.log with outstanding := 0, committing := true})
  | commit {p : ℕ} {pc : CommitPc} (hp : s.ops p = .commit pc) (hb : s.commitReads pc = true) :
      LogStep s (.commit p) (s.commitStep p pc)
  | crash : LogStep s .crash s.crash
  | recover {pc : RecoverPc} (hr : s.recovering = some pc) : LogStep s .recover (s.recoverStep pc)

theorem step_cases {s t : LogSystem} {a : LogAction} (h : s.step a = some t) : LogStep s a t := by
  cases a with
  | begin p =>
    simp only [LogSystem.step] at h
    split at h
    · next hr hp =>
      simp only [beginOp] at h
      split at h
      · cases h
      · next hc =>
        split at h
        · cases h
        · next hb =>
          cases h
          exact .begin hr hp (by simpa using hc) (not_lt.mp hb)
    · cases h
  | write p b v =>
    simp only [LogSystem.step] at h
    split at h
    · next op logged hp =>
      simp only [logWriteCheck] at h
      split at h
      · next hl _ hok =>
        cases h
        split at hok
        · cases hok
        · next hn =>
          push Not at hn
          exact .write hp hl hn.1 hn.2
      · cases h
    · cases h
  | append p =>
    simp only [LogSystem.step] at h
    split at h
    · next op logged b v hp =>
      simp only [logWriteLocked] at h
      by_cases hb : b ∈ s.log.lh
      · simp only [if_pos hb,Option.some.injEq] at h
        subst h
        exact .absorb hp hb
      · simp only [if_neg hb] at h
        by_cases hn : logSize ≤ s.log.lh.length
        · simp only [if_pos hn] at h
          cases h
        · simp only [if_neg hn,Option.some.injEq] at h
          subst h
          exact .append hp hb (not_le.mp hn)
    · cases h
  | finish p =>
    simp only [LogSystem.step] at h
    split at h
    · next op logged hp =>
      simp only [endOp] at h
      by_cases hc : s.log.committing = true
      · simp only [if_pos hc] at h
        cases h
      · have hc' : s.log.committing = false := by simpa using hc
        simp only [if_neg hc] at h
        by_cases ho : s.log.outstanding-1 = 0
        · simp only [if_pos ho,Option.some.injEq] at h
          subst h
          have ho' : s.log.outstanding = 1 := by omega
          have hlast := LogStep.last hp hc' ho'
          rw [ho]
          exact hlast
        · simp only [if_neg ho,Option.some.injEq] at h
          subst h
          exact .leave hp hc' (by omega)
    · cases h
  | commit p =>
    simp only [LogSystem.step] at h
    split at h
    · next pc hp =>
      split at h
      · next hb =>
        cases h
        exact .commit hp hb
      · cases h
    · cases h
  | crash =>
    cases h
    exact .crash
  | recover =>
    simp only [LogSystem.step,Option.map_eq_some_iff] at h
    obtain ⟨pc,hr,rfl⟩ := h
    exact .recover hr

structure LogSystem.Initial (s : LogSystem) : Prop where
  outstanding : s.log.outstanding = 0
  committing : s.log.committing = false
  lh : s.log.lh = []
  ops : ∀ p, s.ops p = .idle
  locked : ∀ b, s.locked b = false
  recovering : s.recovering = none
  cache : s.cache = s.disk
  head : readHead (s.disk s.log.start) = []
  issued : s.issued = []
  pending : s.pending = []
  committed : s.committed = []

structure ListedBy (lh : List WordPage.Word) (us : List Update) : Prop where
  nodup : lh.Nodup
  mem_iff : ∀ b, b ∈ lh ↔ ∃ u ∈ us, u.block = b

theorem listedBy_nil : ListedBy [] [] := ⟨List.nodup_nil,by simp⟩

theorem ListedBy.absorb {lh : List WordPage.Word} {us : List Update} (h : ListedBy lh us) (u : Update)
    (hu : u.block ∈ lh) : ListedBy lh (us ++ [u]) := by
  refine ⟨h.nodup,fun b => ⟨fun hb => ?_,?_⟩⟩
  · obtain ⟨v,hv,hvb⟩ := (h.mem_iff b).mp hb
    exact ⟨v,List.mem_append_left _ hv,hvb⟩
  · rintro ⟨v,hv,rfl⟩
    rcases List.mem_append.mp hv with hv | hv
    · exact (h.mem_iff _).mpr ⟨v,hv,rfl⟩
    · rw [List.mem_singleton.mp hv]
      exact hu

theorem ListedBy.append {lh : List WordPage.Word} {us : List Update} (h : ListedBy lh us) (u : Update)
    (hu : u.block ∉ lh) : ListedBy (lh ++ [u.block]) (us ++ [u]) := by
  refine ⟨?_,fun b => ?_⟩
  · rw [List.nodup_append]
    refine ⟨h.nodup,List.nodup_singleton _,fun x hx y hy => ?_⟩
    rw [List.mem_singleton.mp hy]
    exact fun he => hu (he ▸ hx)
  · simp only [List.mem_append,List.mem_singleton,h.mem_iff b]
    constructor
    · rintro (⟨v,hv,hb⟩ | rfl)
      · exact ⟨v,Or.inl hv,hb⟩
      · exact ⟨u,Or.inr rfl,rfl⟩
    · rintro ⟨v,hv | rfl,hb⟩
      · exact Or.inl ⟨v,hv,hb⟩
      · exact Or.inr hb.symm

theorem ListedBy.length_eq {lh : List WordPage.Word} {us : List Update} (h : ListedBy lh us) :
    lh.length = (us.map Update.block).dedup.length := by
  refine List.Perm.length_eq ((List.perm_ext_iff_of_nodup h.nodup (List.nodup_dedup _)).mpr fun b => ?_)
  rw [h.mem_iff,List.mem_dedup,List.mem_map]

theorem ListedBy.pending_nil {us : List Update} (h : ListedBy [] us) : us = [] := by
  cases us with
  | nil => rfl
  | cons u us => exact absurd ((h.mem_iff u.block).mpr ⟨u,List.mem_cons_self,rfl⟩) List.not_mem_nil

structure Crew (ops : ℕ → OpState) (outstanding : ℤ) (ps : List ℕ) : Prop where
  nodup : ps.Nodup
  mem_iff : ∀ p, p ∈ ps ↔ (ops p).inOp = true
  count : outstanding = ps.length

section Crew
variable {ops : ℕ → OpState} {n : ℤ} {ps : List ℕ} {p : ℕ} {q : OpState}

theorem Crew.same (h : Crew ops n ps) (hq : q.inOp = (ops p).inOp) :
    Crew (update ops p q) n ps := by
  refine ⟨h.nodup,fun r => ?_,h.count⟩
  rw [h.mem_iff]
  by_cases hr : r = p
  · rw [hr,update_self,hq]
  · rw [update_of_ne hr]

theorem Crew.join (h : Crew ops n ps) (hp : (ops p).inOp = false) (hq : q.inOp = true) :
    Crew (update ops p q) (n+1) (p :: ps) := by
  have hnot : p ∉ ps := by
    rw [h.mem_iff,hp]
    exact Bool.false_ne_true
  refine ⟨List.nodup_cons.mpr ⟨hnot,h.nodup⟩,fun r => ?_,?_⟩
  · by_cases hr : r = p
    · simp [hr,hq]
    · simp [hr,h.mem_iff]
  · rw [h.count,List.length_cons]
    push_cast
    rfl

theorem Crew.leave (h : Crew ops n ps) (hp : (ops p).inOp = true) (hq : q.inOp = false) :
    Crew (update ops p q) (n-1) (ps.erase p) := by
  have hmem : p ∈ ps := (h.mem_iff p).mpr hp
  refine ⟨h.nodup.erase p,fun r => ?_,?_⟩
  · rw [h.nodup.mem_erase_iff]
    by_cases hr : r = p
    · simp [hr,hq]
    · simp [hr,h.mem_iff]
  · have hlen := List.length_erase_of_mem hmem
    have hpos := List.length_pos_of_mem hmem
    rw [h.count]
    omega

theorem Crew.not_inOp (h : Crew ops n ps) (hn : n = 0) (p : ℕ) : (ops p).inOp = false := by
  have hlen : ps.length = 0 := by
    have hc := h.count
    omega
  have hnil : ps = [] := List.length_eq_zero_iff.mp hlen
  cases hp : (ops p).inOp with
  | false => rfl
  | true => exact absurd ((h.mem_iff p).mpr hp) (hnil ▸ List.not_mem_nil)

theorem crew_idle (h : ∀ p, ops p = .idle) : Crew ops 0 [] :=
  ⟨List.nodup_nil,fun p => by simp [h p,OpState.inOp],rfl⟩

end Crew

def CommitPc.Listed (lh : List WordPage.Word) (us : List Update) : CommitPc → Prop
  | .writeLog _ => ListedBy lh us
  | .writeHead => ListedBy lh us
  | .install _ => us = []
  | .erase => lh = [] ∧ us = []
  | .release => lh = [] ∧ us = []

structure Control (s : LogSystem) : Prop where
  quiet : s.recovering ≠ none → (∀ p, s.ops p = .idle) ∧ s.log.committing = false ∧ s.pending = []
  cleared : s.recovering = some .erase → s.log.lh = []
  crew : ∃ ps, Crew s.ops s.log.outstanding ps
  exclusive : s.log.committing = true → s.log.outstanding = 0
  busy : ∀ p pc, s.ops p = .commit pc →
    s.log.committing = true ∧ s.log.outstanding = 0 ∧ pc.Listed s.log.lh s.pending
  single : ∀ p q pc pc', s.ops p = .commit pc → s.ops q = .commit pc' → p = q
  listed : s.recovering = none → s.log.committing = false → ListedBy s.log.lh s.pending

section Control
variable {s t : LogSystem} {a : LogAction} {p : ℕ}

theorem Control.running (h : Control s) {q : OpState} (hp : s.ops p = q) (hq : q ≠ .idle) :
    s.recovering = none := by
  by_contra hr
  exact hq (hp.symm.trans ((h.quiet hr).1 p))

theorem Control.not_committing (h : Control s) (hp : (s.ops p).inOp = true) (q : ℕ) (pc : CommitPc) :
    s.ops q ≠ .commit pc := by
  intro hq
  obtain ⟨ps,hps⟩ := h.crew
  rw [hps.not_inOp (h.busy q pc hq).2.1 p] at hp
  cases hp

theorem Control.not_committing_flag (h : Control s) (hp : (s.ops p).inOp = true) :
    s.log.committing = false := by
  cases hc : s.log.committing with
  | false => rfl
  | true =>
    obtain ⟨ps,hps⟩ := h.crew
    rw [hps.not_inOp (h.exclusive hc) p] at hp
    cases hp

theorem LogSystem.Initial.control (h : s.Initial) : Control s := by
  have hcommit : ∀ p pc, s.ops p ≠ .commit pc := by
    intro p pc hp
    rw [h.ops p] at hp
    cases hp
  refine ⟨fun hr => (hr h.recovering).elim,fun hr => ?_,⟨[],?_⟩,fun _ => h.outstanding,
    fun p pc hp => (hcommit p pc hp).elim,fun p q pc pc' hp => (hcommit p pc hp).elim,fun _ _ => ?_⟩
  · rw [h.recovering] at hr
    cases hr
  · rw [h.outstanding]
    exact crew_idle h.ops
  · rw [h.lh,h.pending]
    exact listedBy_nil

theorem update_commit {ops : ℕ → OpState} {q : OpState} (hq : ∀ pc, q ≠ .commit pc) {r : ℕ}
    {pc : CommitPc} (h : update ops p q r = .commit pc) : ops r = .commit pc := by
  by_cases hr : r = p
  · rw [hr,update_self] at h
    exact (hq pc h).elim
  · rwa [update_of_ne hr] at h

theorem control_operation (hr : s.recovering = none) {q : OpState} {ps : List ℕ}
    (hq : ∀ pc, q ≠ .commit pc) (ht : t.ops = update s.ops p q)
    (hrec : t.recovering = s.recovering) (hcrew : Crew t.ops t.log.outstanding ps)
    (hnone : ∀ q pc, s.ops q ≠ .commit pc) (hcom : t.log.committing = false)
    (hlist : ListedBy t.log.lh t.pending) : Control t := by
  have hcommit : ∀ r pc, t.ops r ≠ .commit pc := by
    intro r pc hrp
    rw [ht] at hrp
    exact hnone r pc (update_commit hq hrp)
  refine ⟨fun hn => (hn (hrec.trans hr)).elim,fun he => ?_,⟨ps,hcrew⟩,fun hc => ?_,fun r pc hrp =>
    (hcommit r pc hrp).elim,fun r q pc pc' hrp => (hcommit r pc hrp).elim,fun _ _ => hlist⟩
  · rw [hrec,hr] at he
    cases he
  · rw [hcom] at hc
    cases hc

theorem Control.commit (h : Control s) {pc pc' : CommitPc} (hp : s.ops p = .commit pc)
    (ht : t.ops = update s.ops p (.commit pc')) (hrec : t.recovering = s.recovering)
    (hout : t.log.outstanding = s.log.outstanding) (hcom : t.log.committing = s.log.committing)
    (hl : pc'.Listed t.log.lh t.pending) : Control t := by
  have hr : s.recovering = none := h.running hp (by simp)
  obtain ⟨hc,ho,-⟩ := h.busy p pc hp
  obtain ⟨ps,hps⟩ := h.crew
  have hwho : ∀ r pc, t.ops r = .commit pc → r = p := by
    intro r pc hrp
    by_contra hne
    rw [ht,update_of_ne hne] at hrp
    exact hne (h.single r p _ _ hrp hp)
  refine ⟨fun hn => (hn (hrec.trans hr)).elim,fun he => ?_,⟨ps,?_⟩,fun _ => hout.trans ho,fun r pc₁ hrp => ?_,
    fun r q pc₁ pc₂ hrp hqp => (hwho r _ hrp).trans (hwho q _ hqp).symm,fun _ hf => ?_⟩
  · rw [hrec,hr] at he
    cases he
  · rw [ht,hout]
    exact hps.same (by rw [hp]; rfl)
  · obtain rfl := hwho r _ hrp
    rw [ht,update_self] at hrp
    cases hrp
    exact ⟨hcom.trans hc,hout.trans ho,hl⟩
  · rw [hcom,hc] at hf
    cases hf

theorem Control.commitStep (h : Control s) {pc : CommitPc} (hp : s.ops p = .commit pc) :
    Control (s.commitStep p pc) := by
  obtain ⟨hc,ho,hl⟩ := h.busy p pc hp
  cases pc with
  | writeLog tail =>
    simp only [LogSystem.commitStep]
    split
    · exact h.commit hp rfl rfl rfl rfl hl
    · exact h.commit hp rfl rfl rfl rfl hl
  | writeHead => exact h.commit hp rfl rfl rfl rfl rfl
  | install tail =>
    simp only [LogSystem.commitStep]
    split
    · exact h.commit hp rfl rfl rfl rfl hl
    · exact h.commit hp rfl rfl rfl rfl ⟨rfl,hl⟩
  | erase => exact h.commit hp rfl rfl rfl rfl hl
  | release =>
    have hr : s.recovering = none := h.running hp (by simp)
    obtain ⟨ps,hps⟩ := h.crew
    have hcommit : ∀ r pc, (s.commitStep p .release).ops r ≠ .commit pc := by
      intro r pc hrp
      by_cases hne : r = p
      · subst hne
        simp [LogSystem.commitStep,LogSystem.setOp] at hrp
      · have hrp' : s.ops r = .commit pc := by
          simpa [LogSystem.commitStep,LogSystem.setOp,hne] using hrp
        exact hne (h.single r p _ _ hrp' hp)
    refine ⟨fun hn => (hn hr).elim,fun he => ?_,⟨ps,hps.same (by rw [hp]; rfl)⟩,by rintro ⟨⟩,fun r pc hrp =>
      (hcommit r pc hrp).elim,fun r q pc pc' hrp => (hcommit r pc hrp).elim,fun _ _ => ?_⟩
    · have he' : s.recovering = some .erase := he
      rw [hr] at he'
      cases he'
    · have hl' : s.log.lh = [] ∧ s.pending = [] := hl
      simp only [LogSystem.commitStep,LogSystem.setOp,hl'.1,hl'.2]
      exact listedBy_nil

theorem Control.recoverStep (h : Control s) {pc : RecoverPc} (hr : s.recovering = some pc) :
    Control (s.recoverStep pc) := by
  obtain ⟨hidle,hcom,hpend⟩ := h.quiet (by simp [hr])
  have keep : ∀ t : LogSystem, t.ops = s.ops → t.log.outstanding = s.log.outstanding →
      t.log.committing = s.log.committing → t.pending = s.pending →
      (t.recovering = some .erase → t.log.lh = []) → (t.recovering = none → t.log.lh = []) →
      Control t := by
    intro t hops hout hc hpe he hn
    have hidle' : ∀ p, t.ops p = .idle := fun p => by rw [hops]; exact hidle p
    have hcommit : ∀ p pc, t.ops p ≠ .commit pc := fun p pc hp => by
      rw [hidle' p] at hp
      cases hp
    refine ⟨fun _ => ⟨hidle',hc.trans hcom,hpe.trans hpend⟩,he,?_,fun hct => ?_,
      fun p pc hp => (hcommit p pc hp).elim,fun p q pc pc' hp => (hcommit p pc hp).elim,fun hrn _ => ?_⟩
    · rw [hops,hout]
      exact h.crew
    · rw [hc,hcom] at hct
      cases hct
    · rw [hn hrn,hpe.trans hpend]
      exact listedBy_nil
  cases pc with
  | readHead => exact keep _ rfl rfl rfl rfl (by simp [LogSystem.recoverStep]) (by simp [LogSystem.recoverStep])
  | install tail =>
    simp only [LogSystem.recoverStep]
    split
    · exact keep _ rfl rfl rfl rfl (by simp) (by simp)
    · exact keep _ rfl rfl rfl rfl (fun _ => rfl) (by simp)
  | erase =>
    have hl := h.cleared hr
    exact keep _ rfl rfl rfl rfl (by simp [LogSystem.recoverStep]) fun _ => hl

theorem Control.step (h : Control s) (hst : LogStep s a t) : Control t := by
  cases hst with
  | begin hr hp hc hb =>
    obtain ⟨ps,hps⟩ := h.crew
    refine control_operation hr (fun pc => by simp) rfl rfl (hps.join (by rw [hp]; rfl) rfl) (fun q pc hq => ?_) hc
      (h.listed hr hc)
    rw [(h.busy q pc hq).1] at hc
    cases hc
  | @write p op logged b v hp hl hn hs =>
    obtain ⟨ps,hps⟩ := h.crew
    have hin : (s.ops p).inOp = true := by rw [hp]; rfl
    have hr := h.running hp (by simp)
    have hc := h.not_committing_flag hin
    exact control_operation hr (fun pc => by simp) rfl rfl (hps.same (by rw [hp]; rfl)) (h.not_committing hin)
      hc (h.listed hr hc)
  | @absorb p op logged b v hp hb =>
    obtain ⟨ps,hps⟩ := h.crew
    have hin : (s.ops p).inOp = true := by rw [hp]; rfl
    have hr := h.running hp (by simp)
    have hc := h.not_committing_flag hin
    exact control_operation hr (fun pc => by simp) rfl rfl (hps.same (by rw [hp]; rfl)) (h.not_committing hin)
      hc ((h.listed hr hc).absorb ⟨op,b,v⟩ hb)
  | @append p op logged b v hp hb hn =>
    obtain ⟨ps,hps⟩ := h.crew
    have hin : (s.ops p).inOp = true := by rw [hp]; rfl
    have hr := h.running hp (by simp)
    have hc := h.not_committing_flag hin
    exact control_operation hr (fun pc => by simp) rfl rfl (hps.same (by rw [hp]; rfl)) (h.not_committing hin)
      hc ((h.listed hr hc).append ⟨op,b,v⟩ hb)
  | @leave p op logged hp hc ho =>
    obtain ⟨ps,hps⟩ := h.crew
    have hin : (s.ops p).inOp = true := by rw [hp]; rfl
    have hr := h.running hp (by simp)
    exact control_operation hr (fun pc => by simp) rfl rfl (hps.leave hin rfl) (h.not_committing hin)
      hc (h.listed hr hc)
  | @last p op logged hp hc ho =>
    obtain ⟨ps,hps⟩ := h.crew
    have hin : (s.ops p).inOp = true := by rw [hp]; rfl
    have hr := h.running hp (by simp)
    have hlist := h.listed hr hc
    have hpc : CommitPc.Listed s.log.lh s.pending (if 0 < s.log.lh.length then .writeLog 0 else .release) := by
      split
      · exact hlist
      · have hnil : s.log.lh = [] := List.length_eq_zero_iff.mp (by omega)
        rw [hnil] at hlist ⊢
        exact ⟨rfl,hlist.pending_nil⟩
    have hwho : ∀ r pc, update s.ops p (.commit (if 0 < s.log.lh.length then .writeLog 0
        else .release)) r = .commit pc → r = p := by
      intro r pc hrp
      by_contra hne
      rw [update_of_ne hne] at hrp
      exact h.not_committing hin r pc hrp
    refine ⟨fun hn => (hn hr).elim,fun he => ?_,⟨ps.erase p,?_⟩,fun _ => rfl,fun r pc hrp => ?_,
      fun r q pc pc' hrp hqp => (hwho r pc hrp).trans (hwho q pc' hqp).symm,fun _ hf => ?_⟩
    · have he' : s.recovering = some .erase := he
      rw [hr] at he'
      cases he'
    · have hleave := hps.leave (q := .commit (if 0 < s.log.lh.length then .writeLog 0 else .release)) hin rfl
      rw [ho] at hleave
      exact hleave
    · obtain rfl := hwho r pc hrp
      have hrp' : update s.ops r (.commit (if 0 < s.log.lh.length then .writeLog 0
        else .release)) r = .commit pc := hrp
      rw [update_self] at hrp'
      cases hrp'
      exact ⟨rfl,rfl,hpc⟩
    · cases hf
  | commit hp _ => exact h.commitStep hp
  | crash =>
    refine ⟨fun _ => ⟨fun _ => rfl,rfl,rfl⟩,by rintro ⟨⟩,⟨[],crew_idle fun _ => rfl⟩,by rintro ⟨⟩,by rintro _ _ ⟨⟩,
      by rintro _ _ _ _ ⟨⟩,by rintro ⟨⟩⟩
  | recover hr => exact h.recoverStep hr

end Control

end Xv6Paging
