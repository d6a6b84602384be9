import Xv6Paging.Io.FileReferences

/-! # The calls on open files

Every call, failing or not, ends with no reference held by kernel code except those to the swap
files. The counts of all files and the fate of every pipe's page follow for whole runs.
-/
namespace Xv6Paging.Files
open Process Occurrences Function

theorem SameHolders.trans {s t u : FileTable} (h : SameHolders s t) (h' : SameHolders t u) : SameHolders s u :=
  ⟨h'.ofile.trans h.ofile,h'.live.trans h.live,h'.swap.trans h.swap⟩

namespace Counted
variable {s t : FileTable} {held : FileSlot → ℕ} {f g : FileSlot} {p q : ProcSlot} {fd : Fin 16}

section
variable (h : Counted s held)
include h

theorem held_pos (hs : t.swap = s.swap) : t.swap f = true → 0 < held f := by
  intro hf
  rw [hs] at hf
  exact (h.swap f hf).2

theorem held_pos_more (hs : t.swap = s.swap) : t.swap f = true → 0 < more held g f := by
  intro hf
  exact Nat.lt_of_lt_of_le (h.held_pos hs hf) (Nat.le_add_right _ _)

theorem dupFd (hf : 0 < (s.files f).ref) (hnone : s.ofile (p,fd) = none) (hlive : s.live p = true) :
    Outcome ((s.setFd (p,fd) (some f)).filedup f)
      (fun t => Counted t held ∧ t.ofile = (s.setFd (p,fd) (some f)).ofile ∧ t.live = s.live ∧ t.swap = s.swap)
      (fun _ => False) := by
  rw [FileTable.filedup_setFd]
  refine (h.filedup hf).bind ?_
  rintro t ⟨ht,hsame⟩
  refine Outcome.ok ⟨ht.storeFd ?_ ?_ (h.held_pos hsame.swap),?_,hsame.live,hsame.swap⟩
  · rw [hsame.ofile]
    exact hnone
  · rw [hsame.live]
    exact hlive
  · rw [FileTable.setFd,FileTable.setFd,hsame.ofile]

theorem dropFd (hsome : s.ofile (p,fd) = some f) : Outcome ((s.setFd (p,fd) none).fileclose f)
      (fun t => Counted t held ∧ t.ofile = (s.setFd (p,fd) none).ofile ∧ t.live = s.live ∧ t.swap = s.swap)
      (fun _ => False) := by
  refine ((h.clearFd hsome).fileclose (h.held_pos rfl)).post ?_
  rintro t ⟨ht,hsame,-⟩
  exact ⟨ht,hsame.ofile,hsame.live,hsame.swap⟩

theorem sysDup (hlive : s.live p = true) (n : ℤ) :
    Outcome (s.sysDup p n) (fun t => Counted t held ∧ t.swap = s.swap) (fun _ => False) := by
  rw [FileTable.sysDup]
  cases ha : s.argfd p n with
  | none => exact Outcome.ok ⟨h,rfl⟩
  | some x =>
    obtain ⟨fd,f⟩ := x
    dsimp only
    cases hd : s.fdalloc p f with
    | none => exact Outcome.ok ⟨h,rfl⟩
    | some y =>
      obtain ⟨fd',t⟩ := y
      obtain ⟨hnone,rfl⟩ := FileTable.fdalloc_some hd
      refine (h.dupFd (h.ref_pos (FileTable.argfd_some ha)) hnone hlive).post ?_
      rintro u ⟨hu,-,-,hswap⟩
      exact ⟨hu,hswap⟩

theorem sysClose (n : ℤ) :
    Outcome (s.sysClose p n) (fun t => Counted t held ∧ t.swap = s.swap) (fun _ => False) := by
  rw [FileTable.sysClose]
  cases ha : s.argfd p n with
  | none => exact Outcome.ok ⟨h,rfl⟩
  | some x =>
    obtain ⟨fd,f⟩ := x
    refine (h.dropFd (FileTable.argfd_some ha)).post ?_
    rintro u ⟨hu,-,-,hswap⟩
    exact ⟨hu,hswap⟩

theorem sysOpen (hlive : s.live p = true) (found : Bool) :
    Outcome (s.sysOpen p found) (fun t => Counted t held ∧ t.swap = s.swap) (fun _ => False) := by
  rw [FileTable.sysOpen]
  cases found with
  | false => exact Outcome.ok ⟨h,rfl⟩
  | true =>
    rw [if_pos rfl]
    cases ha : s.filealloc with
    | none => exact Outcome.ok ⟨h,rfl⟩
    | some x =>
      obtain ⟨f,t⟩ := x
      obtain ⟨ht,hsame,htype,hheld,-⟩ := h.filealloc ha
      have hpos : t.swap f = true → 0 < held f := h.held_pos hsame.swap
      dsimp only
      cases hd : t.fdalloc p f with
      | none =>
        refine (ht.fileclose hpos).post ?_
        rintro u ⟨hu,hsame',-⟩
        exact ⟨hu,(hsame.trans hsame').swap⟩
      | some y =>
        obtain ⟨fd,u⟩ := y
        obtain ⟨hnone,rfl⟩ := FileTable.fdalloc_some hd
        have hstored := ht.storeFd hnone (by rw [hsame.live]; exact hlive) hpos
        have href := ht.ref f
        rw [more_self] at href
        refine Outcome.ok ⟨hstored.setType ?_ (by simp) ?_ (fun _ => rfl),hsame.swap⟩
        · intro k w
          change (t.files f).type ≠ .pipe k w
          rw [htype]
          simp
        · intro hzero
          have hzero' : (t.files f).ref = 0 := hzero
          omega

theorem pipealloc (page : Bool) : Outcome (s.pipealloc page)
      (fun r => SameHolders s r.2 ∧ (r.1 = none → Counted r.2 held) ∧
        ∀ f0 f1, r.1 = some (f0,f1) → Counted r.2 (more (more held f1) f0))
      (fun _ => False) := by
  rw [FileTable.pipealloc]
  cases ha : s.filealloc with
  | none => exact Outcome.ok ⟨⟨rfl,rfl,rfl⟩,fun _ => h,by simp⟩
  | some x =>
    obtain ⟨f0,s1⟩ := x
    obtain ⟨h1,hsame1,htype0,-,-⟩ := h.filealloc ha
    dsimp only
    cases hb : s1.filealloc with
    | none =>
      refine (h1.fileclose (h.held_pos hsame1.swap)).bind ?_
      rintro t ⟨ht,hsame,-⟩
      exact Outcome.ok ⟨hsame1.trans hsame,fun _ => ht,by simp⟩
    | some y =>
      obtain ⟨f1,s2⟩ := y
      obtain ⟨h2,hsame2,htype1,-,hkeep⟩ := h1.filealloc hb
      have hsame := hsame1.trans hsame2
      have href0 := h1.ref f0
      rw [more_self] at href0
      obtain ⟨hne,hfile0⟩ := hkeep f0 (by omega)
      rw [more_comm] at h2
      cases page with
      | true =>
        have href1 := h2.ref f1
        rw [more,more_self] at href1
        have h3 := h2.newPipe (Ne.symm hne) (by rw [hfile0]; exact htype0) htype1
          (by rw [hfile0]; omega) (by omega)
        refine Outcome.ok ⟨⟨hsame.ofile,hsame.live,hsame.swap⟩,by simp,?_⟩
        intro a b he
        obtain ⟨rfl,rfl⟩ := Prod.mk.inj (Option.some.inj he)
        exact h3
      | false =>
        refine (h2.fileclose (h.held_pos_more hsame.swap)).bind ?_
        rintro t ⟨ht,hsame3,-⟩
        refine (ht.fileclose (h.held_pos (hsame.trans hsame3).swap)).bind ?_
        rintro u ⟨hu,hsame4,-⟩
        exact Outcome.ok ⟨(hsame.trans hsame3).trans hsame4,fun _ => hu,by simp⟩

theorem sysPipe (hlive : s.live p = true) (arg page : Bool) :
    Outcome (s.sysPipe p arg page) (fun t => Counted t held ∧ t.swap = s.swap) (fun _ => False) := by
  rw [FileTable.sysPipe]
  cases arg with
  | false => exact Outcome.ok ⟨h,rfl⟩
  | true =>
    rw [if_pos rfl]
    refine (h.pipealloc page).bind ?_
    rintro ⟨r,s1⟩ ⟨hsame,hnone,hsome⟩
    cases r with
    | none => exact Outcome.ok ⟨hnone rfl,hsame.swap⟩
    | some fs =>
      obtain ⟨rf,wf⟩ := fs
      have h1 := hsome rf wf rfl
      dsimp only at hsame h1 ⊢
      -- The two files are dropped one after the other, from any state with the right holders.
      have hdrop : ∀ t : FileTable, t.swap = s.swap → Counted t (more (more held wf) rf) →
          Outcome (do let u ← t.fileclose rf; u.fileclose wf) (fun t => Counted t held ∧ t.swap = s.swap)
            (fun _ => False) := by
        intro t hswap ht
        refine (ht.fileclose (h.held_pos_more hswap)).bind ?_
        rintro u ⟨hu,hsameu,-⟩
        refine (hu.fileclose (h.held_pos (hsameu.swap.trans hswap))).post ?_
        rintro v ⟨hv,hsamev,-⟩
        exact ⟨hv,hsamev.swap.trans (hsameu.swap.trans hswap)⟩
      cases hd : s1.fdalloc p rf with
      | none => exact hdrop s1 hsame.swap h1
      | some y =>
        obtain ⟨fd0,s2⟩ := y
        obtain ⟨hfree0,rfl⟩ := FileTable.fdalloc_some hd
        have hlive1 : s1.live p = true := by rw [hsame.live]; exact hlive
        have h2 := h1.storeFd hfree0 hlive1 (h.held_pos_more hsame.swap)
        dsimp only
        cases hd' : (s1.setFd (p,fd0) (some rf)).fdalloc p wf with
        | none =>
          have hstored : (s1.setFd (p,fd0) (some rf)).ofile (p,fd0) = some rf := by
            unfold FileTable.setFd
            exact update_self (p,fd0) (some rf) s1.ofile
          exact hdrop _ hsame.swap (h2.clearFd hstored)
        | some z =>
          obtain ⟨fd1,s3⟩ := z
          obtain ⟨hfree1,rfl⟩ := FileTable.fdalloc_some hd'
          exact Outcome.ok ⟨h2.storeFd hfree1 hlive1 (h.held_pos hsame.swap),hsame.swap⟩

end

theorem copyFds {l : List (Fin 16)} (hl : l.Nodup) (h : Counted s held)
    (hlive : s.live q = true) (hfree : ∀ i ∈ l, s.ofile (q,i) = none) :
    Outcome (l.foldlM (FileTable.copyFd p q) s) (fun t => Counted t held ∧ t.swap = s.swap) (fun _ => False) := by
  induction l generalizing s with
  | nil => exact Outcome.ok ⟨h,rfl⟩
  | cons i l ih =>
    obtain ⟨hi,hl'⟩ := List.nodup_cons.mp hl
    rw [List.foldlM_cons,FileTable.copyFd]
    cases ho : s.ofile (p,i) with
    | none => exact ih hl' h hlive fun j hj => hfree j (List.mem_cons_of_mem _ hj)
    | some f =>
      dsimp only
      rw [← FileTable.filedup_setFd]
      refine (h.dupFd (h.ref_pos ho) (hfree i List.mem_cons_self) hlive).bind ?_
      rintro t ⟨ht,hofile,hlivet,hswap⟩
      refine (ih hl' ht (by rw [hlivet]; exact hlive) ?_).post ?_
      · intro j hj
        have hne : (q,j) ≠ (q,i) := by
          intro he
          rw [(Prod.mk.inj he).2] at hj
          exact hi hj
        rw [hofile]
        exact (update_of_ne hne _ s.ofile).trans (hfree j (List.mem_cons_of_mem _ hj))
      · rintro u ⟨hu,hswapu⟩
        exact ⟨hu,hswapu.trans hswap⟩

theorem fork (h : Counted s held) (hq : s.live q = false) :
    Outcome (s.fork p q) (fun t => Counted t held ∧ t.swap = s.swap) (fun _ => False) := by
  have hstart : Counted {s with live := update s.live q true} held := by
    refine ⟨h.ref,h.idle,h.swap,h.isOpen,h.ends,h.fresh,h.freed,?_⟩
    intro x i hx
    have hxq : x ≠ q := by
      rintro rfl
      dsimp only at hx
      rw [update_self] at hx
      cases hx
    exact h.dead x i ((update_of_ne hxq _ s.live).symm.trans hx)
  exact hstart.copyFds (List.nodup_finRange 16) (update_self q true s.live)
    fun i _ => h.dead q i hq

theorem closeFds {l : List (Fin 16)} (h : Counted s held) :
    Outcome (l.foldlM (FileTable.closeFd p) s)
      (fun t => Counted t held ∧ t.swap = s.swap ∧ t.live = s.live ∧
        (∀ i, i ∈ l ∨ s.ofile (p,i) = none → t.ofile (p,i) = none)) (fun _ => False) := by
  induction l generalizing s with
  | nil => exact Outcome.ok ⟨h,rfl,rfl,fun i hi => hi.resolve_left List.not_mem_nil⟩
  | cons i l ih =>
    rw [List.foldlM_cons,FileTable.closeFd]
    have hrest : ∀ t : FileTable, Counted t held → t.swap = s.swap → t.live = s.live → t.ofile (p,i) = none →
        (∀ j, s.ofile (p,j) = none → t.ofile (p,j) = none) →
        Outcome (l.foldlM (FileTable.closeFd p) t)
          (fun t => Counted t held ∧ t.swap = s.swap ∧ t.live = s.live ∧
            (∀ j, j ∈ i :: l ∨ s.ofile (p,j) = none → t.ofile (p,j) = none)) (fun _ => False) := by
      intro t ht hswap hlive hi hkeep
      refine (ih ht).post ?_
      rintro u ⟨hu,hswapu,hliveu,hclear⟩
      refine ⟨hu,hswapu.trans hswap,hliveu.trans hlive,?_⟩
      intro j hj
      obtain hmem | hnone := hj
      · obtain rfl | hmem := List.mem_cons.mp hmem
        · exact hclear j (Or.inr hi)
        · exact hclear j (Or.inl hmem)
      · exact hclear j (Or.inr (hkeep j hnone))
    cases ho : s.ofile (p,i) with
    | none => exact hrest s h rfl rfl ho fun _ => id
    | some f =>
      dsimp only
      rw [← FileTable.fileclose_setFd]
      refine (h.dropFd ho).bind ?_
      rintro t ⟨ht,hofile,hlive,hswap⟩
      refine hrest t ht hswap hlive ?_ ?_
      · rw [hofile]
        exact update_self (p,i) none s.ofile
      · intro j hj
        rw [hofile]
        by_cases he : (p,j) = (p,i)
        · rw [he]
          exact update_self (p,i) none s.ofile
        · exact (update_of_ne he _ s.ofile).trans hj

theorem exit (h : Counted s held) :
    Outcome (s.exit p) (fun t => Counted t held ∧ t.swap = s.swap) (fun _ => False) := by
  rw [FileTable.exit]
  refine h.closeFds.bind ?_
  rintro t ⟨ht,hswap,-,hclear⟩
  refine Outcome.ok ⟨⟨ht.ref,ht.idle,ht.swap,ht.isOpen,ht.ends,ht.fresh,ht.freed,?_⟩,hswap⟩
  intro x i hx
  by_cases hxp : x = p
  · subst hxp
    exact hclear i (Or.inl (List.mem_finRange i))
  · exact ht.dead x i ((update_of_ne hxp _ t.live).symm.trans hx)

end Counted

def FileTable.swapHeld (s : FileTable) (f : FileSlot) : ℕ := (s.swap f).toNat

namespace Counted
variable {s t : FileTable} {held : FileSlot → ℕ} {f : FileSlot}

theorem swapHeld_congr (h : t.swap = s.swap) : t.swapHeld = s.swapHeld := by
  funext f
  rw [FileTable.swapHeld,FileTable.swapHeld,h]

theorem toNat_update {w : FileSlot → Bool} (hf : w f = false) (g : FileSlot) :
    (update w f true g).toNat = more (fun x => (w x).toNat) f g := by
  by_cases hg : f = g
  · subst hg
    rw [update_self,more_self,hf]
    rfl
  · rw [update_of_ne (Ne.symm hg),more_of_ne hg]

theorem withSwap (h : Counted s held) {w : FileSlot → Bool}
    (hw : ∀ g, w g = true → (s.files g).type = .inode ∧ 0 < held g) : Counted {s with swap := w} held :=
  ⟨h.ref,h.idle,hw,h.isOpen,h.ends,h.fresh,h.freed,h.dead⟩

theorem createSwapFile (h : Counted s s.swapHeld) :
    Outcome s.createSwapFile (fun t => Counted t t.swapHeld) (fun e => e = .panic "no slot for files on /store") := by
  rw [FileTable.createSwapFile]
  cases ha : s.filealloc with
  | none => exact Outcome.error rfl
  | some x =>
    obtain ⟨f,t⟩ := x
    obtain ⟨ht,hsame,htype,hheld,-⟩ := h.filealloc ha
    have hoff : t.swap f = false := by
      rw [hsame.swap]
      exact Bool.toNat_eq_zero.mp hheld
    have href := ht.ref f
    rw [more_self] at href
    have hset : Counted (t.setFile f ⟨(t.files f).ref,.inode⟩) (more t.swapHeld f) := by
      rw [swapHeld_congr hsame.swap]
      refine ht.setType ?_ (by simp) (fun hzero => ?_) (fun _ => rfl)
      · intro k w
        rw [htype]
        simp
      · omega
    have hmore : more t.swapHeld f = fun g => (update t.swap f true g).toNat :=
      funext fun g => (toNat_update hoff g).symm
    rw [hmore] at hset
    refine Outcome.ok (hset.withSwap ?_)
    intro g hg
    refine ⟨?_,by rw [hg]; exact Nat.one_pos⟩
    by_cases hfg : f = g
    · subst hfg
      rw [FileTable.setFile_self]
    · rw [update_of_ne (Ne.symm hfg)] at hg
      exact (hset.swap g hg).1

theorem removeSwapFile (h : Counted s s.swapHeld) (hf : s.swap f = true) :
    Outcome (s.removeSwapFile f) (fun t => Counted t t.swapHeld) (fun _ => False) := by
  have hback : update (update s.swap f false) f true = s.swap := by
    rw [update_idem,← hf,update_eq_self]
  have hheld : s.swapHeld = more (fun g => (update s.swap f false g).toNat) f := by
    funext g
    rw [← toNat_update (update_self f false s.swap),hback]
    rfl
  have hpos : ∀ g, update s.swap f false g = true → 0 < (update s.swap f false g).toNat := by
    intro g hg
    rw [hg]
    exact Nat.one_pos
  rw [hheld] at h
  have ht := h.withSwap (w := update s.swap f false) fun g hg => by
    have hs : s.swap g = true := by
      by_cases hfg : g = f
      · rw [hfg]
        exact hf
      · exact (update_of_ne hfg _ s.swap).symm.trans hg
    exact h.swap g hs
  refine (ht.fileclose (hpos f)).post ?_
  rintro u ⟨hu,hsame,-⟩
  rw [swapHeld_congr hsame.swap]
  exact hu

theorem fileinit : Counted FileTable.fileinit FileTable.fileinit.swapHeld := by
  have hzero : ∀ f, FileTable.fileinit.refs f = 0 := by
    intro f
    by_contra hne
    obtain ⟨d,-,hd⟩ := exists_of_occurrences_ne_zero hne
    cases hd
  refine ⟨?_,fun _ _ => rfl,?_,?_,?_,?_,?_,fun _ _ _ => rfl⟩
  · intro f
    rw [hzero]
    rfl
  · intro f hf
    cases hf
  · intro k w
    refine iff_of_false ?_ ?_
    · cases w <;> simp [FileTable.isOpen,FileTable.fileinit]
    · rintro ⟨f,hf⟩
      cases hf
  · intro f g k w hf
    cases hf
  · intro k w _
    cases w <;> rfl
  · intro k
    rw [if_neg (by simp [FileTable.fileinit])]
    rfl

theorem act (h : Counted s s.swapHeld) {a : Action} (ha : s.ready a = true) :
    Outcome (s.act a) (fun t => Counted t t.swapHeld) (fun _ => a = .createSwapFile) := by
  have hkept : ∀ {x : Except Fault FileTable},
      Outcome x (fun t => Counted t s.swapHeld ∧ t.swap = s.swap) (fun _ => False) →
      Outcome x (fun t => Counted t t.swapHeld) (fun _ => a = .createSwapFile) := by
    intro x hx
    refine hx.mono ?_ fun _ hfalse => hfalse.elim
    rintro t ⟨ht,hswap⟩
    rw [swapHeld_congr hswap]
    exact ht
  cases a with
  | «open» p found => exact hkept (h.sysOpen ha found)
  | dup p n => exact hkept (h.sysDup ha n)
  | close p n => exact hkept (h.sysClose n)
  | pipe p arg page => exact hkept (h.sysPipe ha arg page)
  | fork p q =>
    exact hkept (h.fork (Bool.not_eq_true' _ |>.mp (Bool.and_eq_true_iff.mp ha).2))
  | exit p => exact hkept h.exit
  | createSwapFile => exact h.createSwapFile.mono (fun _ ht => ht) fun _ _ => rfl
  | removeSwapFile f => exact (h.removeSwapFile ha).mono (fun _ ht => ht) fun _ hfalse => hfalse.elim

theorem reaches (h : Runs.Reaches FileTable.step (fun _ _ => True) FileTable.fileinit s) :
    Counted s s.swapHeld := by
  refine Runs.Reaches.invariant (I := fun s => Counted s s.swapHeld) h fileinit ?_
  intro s a t hs _ hstep
  unfold FileTable.step at hstep
  split at hstep
  · next hready =>
    cases hx : s.act a with
    | error e =>
      rw [hx] at hstep
      cases hstep
    | ok u =>
      rw [hx] at hstep
      cases hstep
      exact (hs.act hready).of_ok hx
  · cases hstep

end Counted

/-- However the calls fail, the count of a file that is no swap file is the number of descriptors that point
to it, and the page of a pipe is freed once, when no descriptor refers to either end. No call panics but for
the creation of a swap file. -/
theorem open_files_counted {s : FileTable} (h : Runs.Reaches FileTable.step (fun _ _ => True) FileTable.fileinit s) :
    (∀ f, s.swap f = false → (s.files f).ref = s.refs f) ∧
      (∀ f, (s.files f).ref = 0 → ∀ d, s.ofile d ≠ some f) ∧
      (∀ k < s.npipes, s.freed k ≤ 1 ∧
        (s.freed k = 1 ↔ ∀ d f w, s.ofile d = some f → (s.files f).type ≠ .pipe k w)) ∧
      ∀ a, s.ready a = true → a ≠ .createSwapFile → ∃ t, s.act a = .ok t := by
  have hc := Counted.reaches h
  have hplain : ∀ f, s.swap f = false → (s.files f).ref = s.refs f := by
    intro f hf
    rw [hc.ref f,FileTable.swapHeld,hf]
    rfl
  -- An end of a pipe is open exactly while a descriptor refers to it.
  have hopen : ∀ k w, s.isOpen k w = true ↔ ∃ d f, s.ofile d = some f ∧ (s.files f).type = .pipe k w := by
    intro k w
    rw [hc.isOpen]
    constructor
    · rintro ⟨f,hf⟩
      have hswap : s.swap f = false := by
        refine Bool.eq_false_iff.mpr ?_
        intro hs
        rw [(hc.swap f hs).1] at hf
        cases hf
      have hne : s.refs f ≠ 0 := by
        intro hzero
        rw [← hplain f hswap] at hzero
        rw [hc.idle f hzero] at hf
        cases hf
      obtain ⟨d,-,hd⟩ := exists_of_occurrences_ne_zero hne
      exact ⟨d,f,hd,hf⟩
    · rintro ⟨-,f,-,hf⟩
      exact ⟨f,hf⟩
  refine ⟨hplain,?_,?_,?_⟩
  · intro f hzero d hd
    have hpos := hc.ref_pos hd
    omega
  · intro k hk
    have hclosed : (s.isOpen k false = false ∧ s.isOpen k true = false) ↔
        ∀ d f w, s.ofile d = some f → (s.files f).type ≠ .pipe k w := by
      rw [← Bool.not_eq_true,← Bool.not_eq_true,hopen,hopen]
      constructor
      · rintro ⟨hread,hwrite⟩ d f w hd ht
        cases w with
        | false => exact hread ⟨d,f,hd,ht⟩
        | true => exact hwrite ⟨d,f,hd,ht⟩
      · intro hno
        refine ⟨?_,?_⟩ <;> rintro ⟨d,f,hd,ht⟩ <;> exact hno d f _ hd ht
    rw [hc.freed k,← hclosed]
    split_ifs with hboth
    · exact ⟨le_rfl,iff_of_true rfl hboth.2⟩
    · exact ⟨Nat.zero_le 1,iff_of_false (by decide) fun hends => hboth ⟨hk,hends⟩⟩
  · intro a ha hne
    have htotal : Outcome (s.act a) (fun t => Counted t t.swapHeld) (fun _ => False) :=
      (hc.act ha).mono (fun _ => id) fun _ he => hne he
    obtain ⟨t,ht,-⟩ := Outcome.total_iff.mp htotal
    exact ⟨t,ht⟩

def twoPipes : List Action :=
  [.createSwapFile,.pipe initproc true true,.fork initproc slot1,.close initproc 0,.exit slot1,.close initproc 1,
    .pipe initproc true true,.fork initproc slot2,.close initproc 0,.close initproc 1,.dup slot2 0,.open initproc true]

theorem open_files_counted_twoPipes : ∃ s, Runs.Reaches FileTable.step (fun _ _ => True) FileTable.fileinit s ∧
    s.npipes = 2 ∧ s.freed 0 = 1 ∧ s.freed 1 = 0 ∧ (s.files 1).ref = 2 ∧ (s.files 1).ref = s.refs 1 := by
  have hrun : (Runs.exec FileTable.step (fun _ _ => True) twoPipes FileTable.fileinit).map (fun s =>
      decide (s.npipes = 2 ∧ s.freed 0 = 1 ∧ s.freed 1 = 0 ∧ (s.files 1).ref = 2 ∧ s.swap 1 = false)) =
      some true := by
    decide +kernel
  obtain ⟨s,hs,hf⟩ := Runs.exists_reaches hrun
  obtain ⟨hnum,hfirst,hsecond,href,hswap⟩ := of_decide_eq_true hf
  exact ⟨s,hs,hnum,hfirst,hsecond,href,(open_files_counted hs).1 1 hswap⟩

end Xv6Paging.Files
