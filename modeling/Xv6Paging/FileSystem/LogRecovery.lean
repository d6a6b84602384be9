import Xv6Paging.FileSystem.LogReservation
import Xv6Paging.Library.Replay

/-! # Recovery from the log

In every state of a run the disk is recoverable: the blocks that the header on disk names
have their committed contents in the log, and all other home blocks have theirs at home.
`write_head` makes a whole transaction committed at once, installing a block and clearing
the header keep the disk recoverable, and nothing else touches home blocks.
-/
namespace Xv6Paging
open Sector Replay Function

def Update.pair (u : Update) : ℕ × Block := (u.block.toNat,u.data)

/-- The contents of the disk `d₀` after the committed transactions. -/
def LogSystem.durable (d₀ : ℕ → Block) (s : LogSystem) : ℕ → Block :=
  replay d₀ (s.committed.flatten.map Update.pair)

/-- The contents after the open transaction as well. -/
def LogSystem.current (d₀ : ℕ → Block) (s : LogSystem) : ℕ → Block :=
  replay (s.durable d₀) (s.pending.map Update.pair)

section Head
variable {lh : List WordPage.Word} {b : Block}

theorem readHead_writeHead (h : lh.length ≤ logSize) : readHead (writeHead lh b) = lh := by
  have hL : logSize = 30 := rfl
  have hn : (wordAt (writeHead lh b) 0).toInt.toNat = lh.length := by
    rw [writeHead,wordAt_putWords (by decide)]
    simp only [headWord,Option.getD_some]
    rw [BitVec.toInt_eq_toNat_of_lt]
    · simp only [BitVec.toNat_ofNat,Int.toNat_natCast]
      omega
    · simp only [BitVec.toNat_ofNat]
      omega
  rw [readHead,hn]
  refine List.ext_getElem (by simp) fun i hi hi' => ?_
  rw [List.getElem_map,List.getElem_range,writeHead,wordAt_putWords (by omega)]
  simp only [headWord,List.getElem?_eq_getElem hi',Option.getD_some]

end Head

/-- What recovery needs to find on a disk to restore the contents `st`. -/
structure Recoverable (l : Log) (d st : ℕ → Block) : Prop where
  room : (readHead (d l.start)).length < l.size
  copied : ∀ i b, (readHead (d l.start))[i]? = some b → ¬ l.area b.toNat ∧ d (l.start+i+1) = st b.toNat
  home : ∀ b, ¬ l.area b → (∀ w ∈ readHead (d l.start), w.toNat ≠ b) → d b = st b

def AtHome (l : Log) (d st : ℕ → Block) : Prop := ∀ b, ¬ l.area b → d b = st b

/-- The home blocks hold the contents `st`, but for the blocks of the list from index `tail` on. -/
def Installed (l : Log) (lh : List WordPage.Word) (tail : ℕ) (d st : ℕ → Block) : Prop :=
  ∀ b, ¬ l.area b → (∀ i w, tail ≤ i → lh[i]? = some w → w.toNat ≠ b) → d b = st b

section Disk
variable {l : Log} {d d' st : ℕ → Block} {lh : List WordPage.Word} {tail : ℕ} {w : WordPage.Word}

theorem Log.area_start (h : 0 < l.size) : l.area l.start := ⟨le_rfl,by omega⟩

theorem AtHome.recoverable (h : AtHome l d st) (hs : 0 < l.size) (hn : readHead (d l.start) = []) :
    Recoverable l d st := by
  refine ⟨by rw [hn]; exact hs,fun i b hi => ?_,fun b hb _ => h b hb⟩
  rw [hn] at hi
  simp at hi

theorem Recoverable.installed (h : Recoverable l d st) : Installed l (readHead (d l.start)) 0 d st := by
  intro b hb hn
  refine h.home b hb fun w hw => ?_
  obtain ⟨i,hi⟩ := List.mem_iff_getElem?.mp hw
  exact hn i w (Nat.zero_le _) hi

theorem Installed.all (h : Installed l lh tail d st) (ht : lh[tail]? = none) : AtHome l d st := by
  intro b hb
  refine h b hb fun i w hi hw => ?_
  have hlen := List.getElem?_eq_none_iff.mp ht
  obtain ⟨hlt,-⟩ := List.getElem?_eq_some_iff.mp hw
  omega

theorem Recoverable.install (h : Recoverable l d st) (hs : 0 < l.size)
    (hi : Installed l (readHead (d l.start)) tail d st) (hw : (readHead (d l.start))[tail]? = some w) :
    Recoverable l (update d w.toNat (d (l.start+tail+1))) st ∧
    update d w.toNat (d (l.start+tail+1)) l.start = d l.start ∧
    Installed l (readHead (d l.start)) (tail+1) (update d w.toNat (d (l.start+tail+1))) st := by
  obtain ⟨hout,hval⟩ := h.copied tail w hw
  have hstart : update d w.toNat (d (l.start+tail+1)) l.start = d l.start := by
    refine update_of_ne ?_ _ _
    rintro he
    exact hout (he ▸ l.area_start hs)
  refine ⟨⟨by rw [hstart]; exact h.room,fun i b hb => ?_,fun b hb hn => ?_⟩,hstart,fun b hb hn => ?_⟩
  · rw [hstart] at hb
    obtain ⟨hlt,-⟩ := List.getElem?_eq_some_iff.mp hb
    have hroom := h.room
    have hne : l.start+i+1 ≠ w.toNat := fun he => hout (he ▸ ⟨by omega,by omega⟩)
    rw [update_of_ne hne]
    exact h.copied i b hb
  · rw [hstart] at hn
    by_cases he : b = w.toNat
    · rw [he,update_self]
      exact hval
    · rw [update_of_ne he]
      exact h.home b hb hn
  · by_cases he : b = w.toNat
    · rw [he,update_self]
      exact hval
    · rw [update_of_ne he]
      refine hi b hb fun i v hiv hv => ?_
      by_cases hit : i = tail
      · rw [hit,hw] at hv
        cases hv
        exact fun h => he h.symm
      · exact hn i v (by omega) hv

end Disk

theorem Recoverable.of_log {l l' : Log} {d st : ℕ → Block} (h : Recoverable l d st)
    (hs : l'.start = l.start) (hz : l'.size = l.size) : Recoverable l' d st := by
  obtain ⟨start,size,out,com,lh⟩ := l
  obtain ⟨start',size',out',com',lh'⟩ := l'
  cases hs
  cases hz
  exact ⟨h.room,h.copied,h.home⟩

structure Fits (l : Log) : Prop where
  cap : l.lh.length ≤ logSize
  home : ∀ w ∈ l.lh, ¬ l.area w.toNat

/-- The log on disk is empty and the home blocks are up to date. -/
structure Calm (l : Log) (d st : ℕ → Block) : Prop where
  head : readHead (d l.start) = []
  home : AtHome l d st

def CommitPc.Holds (s : LogSystem) (st : ℕ → Block) : CommitPc → Prop
  | .writeLog tail => Calm s.log s.disk st ∧ Fits s.log ∧ (tail ≠ 0 → s.log.lh.length < s.log.size) ∧
      ∀ i w, i < tail → s.log.lh[i]? = some w → s.disk (s.log.start+i+1) = s.cache w.toNat
  | .writeHead => Calm s.log s.disk st ∧ Fits s.log ∧ s.log.lh.length < s.log.size ∧
      ∀ i w, s.log.lh[i]? = some w → s.disk (s.log.start+i+1) = s.cache w.toNat
  | .install tail => readHead (s.disk s.log.start) = s.log.lh ∧ Installed s.log s.log.lh tail s.disk st
  | .erase => AtHome s.log s.disk st
  | .release => Calm s.log s.disk st

def RecoverPc.Holds (s : LogSystem) (st : ℕ → Block) : RecoverPc → Prop
  | .readHead => True
  | .install tail => Xv6Paging.readHead (s.disk s.log.start) = s.log.lh ∧
      Installed s.log s.log.lh tail s.disk st
  | .erase => AtHome s.log s.disk st

structure Locks (s : LogSystem) : Prop where
  held : ∀ p op logged w v, s.ops p = .writing op logged w v →
    s.locked w = true ∧ s.cache w.toNat = v ∧ ¬ s.log.area w.toNat
  owner : ∀ w, s.locked w = true → ∃ p op logged v, s.ops p = .writing op logged w v
  single : ∀ p q op op' logged logged' w v v', s.ops p = .writing op logged w v →
    s.ops q = .writing op' logged' w v' → p = q

/-- The invariant of the log, for the disk `d₀` that the run started with. -/
structure Sound (d₀ : ℕ → Block) (s : LogSystem) : Prop where
  control : Control s
  size : nbuf ≤ s.log.size
  recoverable : Recoverable s.log s.disk (s.durable d₀)
  locks : Locks s
  view : s.recovering = none → ∀ w : WordPage.Word, ¬ s.log.area w.toNat → s.locked w = false →
    s.cache w.toNat = s.current d₀ w.toNat
  idle : s.recovering = none → s.log.committing = false →
    Calm s.log s.disk (s.durable d₀) ∧ Fits s.log
  commit : ∀ p pc, s.ops p = .commit pc → pc.Holds s (s.durable d₀)
  recover : ∀ pc, s.recovering = some pc → pc.Holds s (s.durable d₀) ∧ s.cache = s.disk

def OutsideLog (s : LogSystem) : LogAction → Prop
  | .write _ b _ => ¬ s.log.area b.toNat
  | _ => True

section Sound
variable {d₀ : ℕ → Block} {s t : LogSystem} {a : LogAction} {p : ℕ}

theorem Sound.pos (h : Sound d₀ s) : 0 < s.log.size := lt_of_lt_of_le (by decide) h.size

theorem LogSystem.Initial.sound (h : s.Initial) (hs : nbuf ≤ s.log.size) : Sound s.disk s := by
  have hd : s.durable s.disk = s.disk := by simp [LogSystem.durable,h.committed]
  have hc : s.current s.disk = s.disk := by simp [LogSystem.current,hd,h.pending]
  have hwriting : ∀ p q, s.ops p = q → q = .idle := fun p q hp => hp.symm.trans (h.ops p)
  have hcalm : Calm s.log s.disk s.disk := ⟨h.head,fun _ _ => rfl⟩
  refine ⟨h.control,hs,?_,⟨fun p op logged w v hp => ?_,fun w hw => ?_,fun p q op op' l l' w v v' hp => ?_⟩,
    fun _ w _ _ => ?_,fun _ _ => ?_,fun p pc hp => ?_,fun pc hr => ?_⟩
  · rw [hd]
    exact hcalm.home.recoverable (lt_of_lt_of_le (by decide) hs) h.head
  · cases hwriting p _ hp
  · rw [h.locked w] at hw
    cases hw
  · cases hwriting p _ hp
  · rw [hc,h.cache]
  · rw [hd]
    refine ⟨hcalm,by rw [h.lh]; exact Nat.zero_le _,fun w hw => ?_⟩
    rw [h.lh] at hw
    cases hw
  · cases hwriting p _ hp
  · rw [h.recovering] at hr
    cases hr

theorem Sound.operation (h : Sound d₀ s) (hst : LogStep s a t) (hr : s.recovering = none)
    (hcom : s.log.committing = false) (hnone : ∀ p pc, t.ops p ≠ .commit pc)
    (hdisk : t.disk = s.disk) (hstart : t.log.start = s.log.start) (hsize : t.log.size = s.log.size)
    (hrec : t.recovering = s.recovering) (hdone : t.committed = s.committed) (hlocks : Locks t)
    (hfits : Fits t.log) (hview : ∀ w : WordPage.Word, ¬ s.log.area w.toNat → t.locked w = false →
      t.cache w.toNat = t.current d₀ w.toNat) : Sound d₀ t := by
  have hdur : t.durable d₀ = s.durable d₀ := by rw [LogSystem.durable,hdone,LogSystem.durable]
  have harea : ∀ b, t.log.area b ↔ s.log.area b := fun b => by rw [Log.area,hstart,hsize,Log.area]
  have hcalm : Calm t.log t.disk (t.durable d₀) := by
    obtain ⟨⟨h1,h2⟩,-⟩ := h.idle hr hcom
    rw [hdur,hdisk]
    exact ⟨by rw [hstart]; exact h1,fun b hb => h2 b fun hb' => hb ((harea b).mpr hb')⟩
  refine ⟨h.control.step hst,by rw [hsize]; exact h.size,
    hcalm.home.recoverable (by rw [hsize]; exact h.pos) hcalm.head,hlocks,
    fun _ w hw hl => hview w (fun hw' => hw ((harea _).mpr hw')) hl,fun _ _ => ⟨hcalm,hfits⟩,
    fun p pc hp => (hnone p pc hp).elim,fun pc hpc => ?_⟩
  rw [hrec,hr] at hpc
  cases hpc

theorem Locks.move (h : Locks s) {q : OpState} (hp : ∀ op logged w v, s.ops p ≠ .writing op logged w v)
    (hq : ∀ op logged w v, q ≠ .writing op logged w v) (ht : t.ops = update s.ops p q)
    (hl : t.locked = s.locked) (hcache : ∀ w : WordPage.Word, s.locked w = true →
      t.cache w.toNat = s.cache w.toNat) (harea : ∀ b, t.log.area b → s.log.area b) : Locks t := by
  have hback : ∀ r op logged w v, t.ops r = .writing op logged w v ↔
      s.ops r = .writing op logged w v := by
    intro r op logged w v
    rw [ht]
    by_cases hr : r = p
    · rw [hr,update_self]
      exact ⟨fun h => (hq _ _ _ _ h).elim,fun h => (hp _ _ _ _ h).elim⟩
    · rw [update_of_ne hr]
  refine ⟨fun r op logged w v hr => ?_,fun w hw => ?_,fun r r' op op' l l' w v v' hr hr' =>
    h.single r r' op op' l l' w v v' ((hback ..).mp hr) ((hback ..).mp hr')⟩
  · obtain ⟨h1,h2,h3⟩ := h.held r op logged w v ((hback ..).mp hr)
    rw [hl,hcache w h1]
    exact ⟨h1,h2,fun ha => h3 (harea _ ha)⟩
  · rw [hl] at hw
    obtain ⟨r,op,logged,v,hr⟩ := h.owner w hw
    exact ⟨r,op,logged,v,(hback ..).mpr hr⟩

theorem Locks.take (h : Locks s) {op : ℕ} {logged : List WordPage.Word} {w : WordPage.Word} {v : Block}
    (hp : s.ops p = .active op logged) (hl : s.locked w = false) (hw : ¬ s.log.area w.toNat) :
    Locks (s.written p op logged w v) := by
  have hops : ∀ r q, r ≠ p → ((s.written p op logged w v).ops r = q ↔ s.ops r = q) := by
    intro r q hr
    simp [LogSystem.written,LogSystem.setOp,hr]
  have hself : (s.written p op logged w v).ops p = .writing op logged w v := by
    simp [LogSystem.written,LogSystem.setOp]
  refine ⟨fun r op' l w' v' hr => ?_,fun w' hw' => ?_,fun r r' op₁ op₂ l₁ l₂ w' v₁ v₂ hr hr' => ?_⟩
  · by_cases hrp : r = p
    · rw [hrp,hself] at hr
      cases hr
      simp only [LogSystem.written,LogSystem.setOp,update_self]
      exact ⟨trivial,trivial,hw⟩
    · obtain ⟨h1,h2,h3⟩ := h.held r op' l w' v' ((hops r _ hrp).mp hr)
      have hne : w' ≠ w := fun he => by
        rw [he,hl] at h1
        cases h1
      have hnat : w'.toNat ≠ w.toNat := fun he => hne (BitVec.eq_of_toNat_eq he)
      simp only [LogSystem.written,LogSystem.setOp,update_of_ne hne,update_of_ne hnat]
      exact ⟨h1,h2,h3⟩
  · by_cases hne : w' = w
    · exact ⟨p,op,logged,v,hne ▸ hself⟩
    · have hw₀ : s.locked w' = true := by
        simpa [LogSystem.written,LogSystem.setOp,hne] using hw'
      obtain ⟨r,op',l,v',hr⟩ := h.owner w' hw₀
      have hrp : r ≠ p := fun he => by
        rw [he,hp] at hr
        cases hr
      exact ⟨r,op',l,v',(hops r _ hrp).mpr hr⟩
  · by_cases hrp : r = p
    · by_cases hrp' : r' = p
      · exact hrp.trans hrp'.symm
      · rw [hrp,hself] at hr
        cases hr
        have h1 := (h.held r' _ _ _ _ ((hops r' _ hrp').mp hr')).1
        rw [hl] at h1
        cases h1
    · by_cases hrp' : r' = p
      · rw [hrp',hself] at hr'
        cases hr'
        have h1 := (h.held r _ _ _ _ ((hops r _ hrp).mp hr)).1
        rw [hl] at h1
        cases h1
      · exact h.single r r' _ _ _ _ _ _ _ ((hops r _ hrp).mp hr) ((hops r' _ hrp').mp hr')

theorem Locks.drop (h : Locks s) {op : ℕ} {logged : List WordPage.Word} {w : WordPage.Word} {v : Block}
    (hp : s.ops p = .writing op logged w v) {l : Log} (hl : ∀ b, l.area b → s.log.area b) :
    Locks (s.appended p op logged w v l) := by
  have hops : ∀ r q, r ≠ p → ((s.appended p op logged w v l).ops r = q ↔ s.ops r = q) := by
    intro r q hr
    simp [LogSystem.appended,LogSystem.setOp,hr]
  have hother : ∀ r op' l' w' v', (s.appended p op logged w v l).ops r = .writing op' l' w' v' → r ≠ p := by
    rintro r op' l' w' v' hr rfl
    simp [LogSystem.appended,LogSystem.setOp] at hr
  refine ⟨fun r op' l' w' v' hr => ?_,fun w' hw' => ?_,fun r r' op₁ op₂ l₁ l₂ w' v₁ v₂ hr hr' =>
    h.single r r' _ _ _ _ _ _ _ ((hops r _ (hother _ _ _ _ _ hr)).mp hr)
      ((hops r' _ (hother _ _ _ _ _ hr')).mp hr')⟩
  · have hrp := hother _ _ _ _ _ hr
    have hr₀ := (hops r _ hrp).mp hr
    obtain ⟨h1,h2,h3⟩ := h.held r op' l' w' v' hr₀
    have hne : w' ≠ w := fun he => hrp (h.single r p _ _ _ _ w _ _ (he ▸ hr₀) hp)
    simp only [LogSystem.appended,LogSystem.setOp,update_of_ne hne]
    exact ⟨h1,h2,fun ha => h3 (hl _ ha)⟩
  · have hne : w' ≠ w := fun he => by
      rw [he] at hw'
      simp [LogSystem.appended] at hw'
    have hw₀ : s.locked w' = true := by
      simpa [LogSystem.appended,LogSystem.setOp,hne] using hw'
    obtain ⟨r,op',l',v',hr⟩ := h.owner w' hw₀
    have hrp : r ≠ p := fun he => by
      rw [he,hp] at hr
      cases hr
      exact hne rfl
    exact ⟨r,op',l',v',(hops r _ hrp).mpr hr⟩

theorem current_appended (s : LogSystem) (p op : ℕ) (logged : List WordPage.Word) (w : WordPage.Word)
    (v : Block) (l : Log) : (s.appended p op logged w v l).current d₀ =
      update (s.current d₀) w.toNat v := by
  change replay (s.durable d₀) ((s.pending ++ [(⟨op,w,v⟩ : Update)]).map Update.pair) = _
  rw [List.map_append]
  exact replay_concat (s.durable d₀) (s.pending.map Update.pair) w.toNat v

theorem Sound.appended (h : Sound d₀ s) {op : ℕ} {logged : List WordPage.Word} {w : WordPage.Word}
    {v : Block} {l : Log} (hp : s.ops p = .writing op logged w v) (hfits : Fits l)
    (hst : LogStep s a (s.appended p op logged w v l)) (hstart : l.start = s.log.start)
    (hsize : l.size = s.log.size) : Sound d₀ (s.appended p op logged w v l) := by
  have hin : (s.ops p).inOp = true := by rw [hp]; rfl
  have hr := h.control.running hp (by simp)
  obtain ⟨hlk,hdata,hout⟩ := h.locks.held p op logged w v hp
  have harea : ∀ b, l.area b → s.log.area b := fun b hb => by
    rw [Log.area,hstart,hsize] at hb
    exact hb
  refine h.operation hst hr (h.control.not_committing_flag hin) (fun r pc hrp => ?_) rfl hstart hsize rfl rfl
    (h.locks.drop hp harea) hfits fun w' hw' hl' => ?_
  · exact h.control.not_committing hin r pc (update_commit (by simp) hrp)
  · rw [current_appended]
    by_cases hne : w' = w
    · rw [hne,update_self]
      exact hdata
    · have hnat : w'.toNat ≠ w.toNat := fun he => hne (BitVec.eq_of_toNat_eq he)
      rw [update_of_ne hnat]
      refine h.view hr w' hw' ?_
      simpa [LogSystem.appended,LogSystem.setOp,hne] using hl'

theorem Sound.write (h : Sound d₀ s) {op : ℕ} {logged : List WordPage.Word} {w : WordPage.Word}
    {v : Block} (hp : s.ops p = .active op logged) (hl : s.locked w = false)
    (hst : LogStep s a (s.written p op logged w v)) (hout : ¬ s.log.area w.toNat) :
    Sound d₀ (s.written p op logged w v) := by
  have hin : (s.ops p).inOp = true := by rw [hp]; rfl
  have hr := h.control.running hp (by simp)
  have hcom := h.control.not_committing_flag hin
  refine h.operation hst hr hcom (fun r pc hrp => ?_) rfl rfl rfl rfl rfl (h.locks.take hp hl hout)
    (h.idle hr hcom).2 fun w' hw' hl' => ?_
  · exact h.control.not_committing hin r pc (update_commit (by simp) hrp)
  · have hne : w' ≠ w := fun he => by
      rw [he] at hl'
      simp [LogSystem.written,LogSystem.setOp] at hl'
    have hnat : w'.toNat ≠ w.toNat := fun he => hne (BitVec.eq_of_toNat_eq he)
    have hl₀ : s.locked w' = false := by
      simpa [LogSystem.written,LogSystem.setOp,hne] using hl'
    simp only [LogSystem.written,LogSystem.setOp,update_of_ne hnat]
    exact h.view hr w' hw' hl₀

theorem Sound.unlocked (h : Sound d₀ s) {pc : CommitPc} (hp : s.ops p = .commit pc) (w : WordPage.Word) :
    s.locked w = false := by
  cases hl : s.locked w with
  | false => rfl
  | true =>
    obtain ⟨r,op,logged,v,hr⟩ := h.locks.owner w hl
    exact (h.control.not_committing (p := r) (by rw [hr]; rfl) p pc hp).elim

theorem Sound.commit_next (h : Sound d₀ s) {pc pc' : CommitPc} (hp : s.ops p = .commit pc)
    (hst : LogStep s a t) (ht : t.ops = update s.ops p (.commit pc'))
    (hstart : t.log.start = s.log.start) (hsize : t.log.size = s.log.size)
    (hcom : t.log.committing = s.log.committing) (hrec : t.recovering = s.recovering)
    (hlocked : t.locked = s.locked) (hrecov : Recoverable t.log t.disk (t.durable d₀))
    (hview : ∀ w : WordPage.Word, ¬ s.log.area w.toNat → t.cache w.toNat = t.current d₀ w.toNat)
    (hpc : pc'.Holds t (t.durable d₀)) : Sound d₀ t := by
  have hr := h.control.running hp (by simp)
  have harea : ∀ b, t.log.area b ↔ s.log.area b := fun b => by rw [Log.area,hstart,hsize,Log.area]
  have hcontrol := h.control.step hst
  have hp' : t.ops p = .commit pc' := by rw [ht,update_self]
  refine ⟨hcontrol,by rw [hsize]; exact h.size,hrecov,h.locks.move (by simp [hp]) (by simp) ht hlocked
    (fun w hw => ?_) (fun b hb => (harea b).mp hb),fun _ w hw _ => hview w fun hw' => hw ((harea _).mpr hw'),
    fun _ hf => ?_,fun r pc₁ hrp => ?_,fun pc₁ hr' => ?_⟩
  · rw [h.unlocked hp w] at hw
    cases hw
  · rw [hcom,(h.control.busy p pc hp).1] at hf
    cases hf
  · obtain rfl := hcontrol.single r p _ _ hrp hp'
    rw [hp'] at hrp
    cases hrp
    exact hpc
  · rw [hrec,hr] at hr'
    cases hr'

theorem length_lt_of_bgetReturns {lh : List WordPage.Word} {b : ℕ} (h : LogSystem.bgetReturns lh b = true)
    (hb : ∀ w ∈ lh, w.toNat ≠ b) : lh.length < nbuf := by
  rw [LogSystem.bgetReturns,Bool.or_eq_true,List.any_eq_true] at h
  rcases h with ⟨w,hw,he⟩ | hlt
  · exact (hb w hw (of_decide_eq_true he)).elim
  · exact of_decide_eq_true hlt

theorem Sound.room (h : Sound d₀ s) {tail : ℕ} {w : WordPage.Word} (hp : s.ops p = .commit (.writeLog tail))
    (hb : s.commitReads (.writeLog tail) = true) (hw : s.log.lh[tail]? = some w) :
    s.log.lh.length < s.log.size := by
  obtain ⟨-,hfits,hlater,-⟩ := h.commit p _ hp
  by_cases ht : tail = 0
  · subst ht
    obtain ⟨hlt,-⟩ := List.getElem?_eq_some_iff.mp hw
    rw [LogSystem.commitReads,Bool.or_eq_true,decide_eq_true_eq] at hb
    have hget := hb.resolve_left (by omega)
    have hsize := h.size
    have hn : nbuf = 30 := rfl
    refine (length_lt_of_bgetReturns hget fun v hv he => ?_).trans_le hsize
    exact hfits.home v hv ⟨by omega,by omega⟩
  · exact hlater ht

theorem Sound.writeLog (h : Sound d₀ s) {tail : ℕ} (hp : s.ops p = .commit (.writeLog tail))
    (hb : s.commitReads (.writeLog tail) = true) : Sound d₀ (s.commitStep p (.writeLog tail)) := by
  have hst : LogStep s (.commit p) (s.commitStep p (.writeLog tail)) := .commit hp hb
  have hr := h.control.running hp (by simp)
  have hview : ∀ w : WordPage.Word, ¬ s.log.area w.toNat → s.cache w.toNat = s.current d₀ w.toNat :=
    fun w hw => h.view hr w hw (h.unlocked hp w)
  obtain ⟨⟨hhead,hhome⟩,hfits,hlater,hcopied⟩ := h.commit p _ hp
  simp only [LogSystem.commitStep] at hst ⊢
  cases hw : s.log.lh[tail]? with
  | none =>
    rw [hw] at hst
    dsimp only at hst ⊢
    have hlen := List.getElem?_eq_none_iff.mp hw
    have hroom : s.log.lh.length < s.log.size := by
      by_cases ht : tail = 0
      · have hpos := h.pos
        omega
      · exact hlater ht
    refine h.commit_next hp hst rfl rfl rfl rfl rfl rfl h.recoverable hview
      ⟨⟨hhead,hhome⟩,hfits,hroom,fun i w hi => ?_⟩
    change s.log.lh[i]? = some w at hi
    obtain ⟨hlt,-⟩ := List.getElem?_eq_some_iff.mp hi
    exact hcopied i w (by omega) hi
  | some w =>
    rw [hw] at hst
    dsimp only at hst ⊢
    obtain ⟨hlt,-⟩ := List.getElem?_eq_some_iff.mp hw
    have hroom := h.room hp hb hw
    have hne : ∀ b, ¬ s.log.area b → b ≠ s.log.start+tail+1 := fun b hb he => hb (he ▸ ⟨by omega,by omega⟩)
    have hcalm : Calm s.log (update s.disk (s.log.start+tail+1) (s.cache w.toNat)) (s.durable d₀) := by
      refine ⟨?_,fun b hb => ?_⟩
      · rw [update_of_ne (by omega)]
        exact hhead
      · rw [update_of_ne (hne b hb)]
        exact hhome b hb
    refine h.commit_next hp hst rfl rfl rfl rfl rfl rfl (hcalm.home.recoverable h.pos hcalm.head) hview
      ⟨hcalm,hfits,fun _ => hroom,fun i v hi hv => ?_⟩
    change s.log.lh[i]? = some v at hv
    by_cases hit : i = tail
    · rw [hit,hw] at hv
      cases hv
      rw [hit]
      exact update_self _ _ _
    · have hne' : s.log.start+i+1 ≠ s.log.start+tail+1 := by omega
      exact (update_of_ne hne' _ _).trans (hcopied i v (by omega) hv)

theorem Sound.writeHead (h : Sound d₀ s) (hp : s.ops p = .commit .writeHead)
    (hb : s.commitReads .writeHead = true) : Sound d₀ (s.commitStep p .writeHead) := by
  have hst : LogStep s (.commit p) (s.commitStep p .writeHead) := .commit hp hb
  have hr := h.control.running hp (by simp)
  have hlisted : ListedBy s.log.lh s.pending := (h.control.busy p _ hp).2.2
  obtain ⟨⟨hhead,hhome⟩,hfits,hroom,hcopied⟩ := h.commit p _ hp
  have hview : ∀ w : WordPage.Word, ¬ s.log.area w.toNat → s.cache w.toNat = s.current d₀ w.toNat :=
    fun w hw => h.view hr w hw (h.unlocked hp w)
  have hdur : (s.commitStep p .writeHead).durable d₀ = s.current d₀ := by
    change replay d₀ ((s.committed ++ [s.pending]).flatten.map Update.pair) = _
    rw [List.flatten_append,List.map_append,replay_append]
    simp [LogSystem.current,LogSystem.durable]
  have hdisk : (s.commitStep p .writeHead).disk =
      update s.disk s.log.start (Xv6Paging.writeHead s.log.lh (s.disk s.log.start)) := rfl
  have hnew : readHead ((s.commitStep p .writeHead).disk s.log.start) = s.log.lh := by
    rw [hdisk,update_self]
    exact readHead_writeHead hfits.cap
  have hrecov : Recoverable s.log (s.commitStep p .writeHead).disk (s.current d₀) := by
    refine ⟨by rw [hnew]; exact hroom,fun i w hw => ?_,fun b hb hn => ?_⟩
    · rw [hnew] at hw
      have hout := hfits.home w (List.mem_of_getElem? hw)
      rw [hdisk,update_of_ne (by omega),hcopied i w hw]
      exact ⟨hout,hview w hout⟩
    · rw [hnew] at hn
      have hne : b ≠ s.log.start := fun he => hb (he ▸ s.log.area_start h.pos)
      have hkeep : s.current d₀ b = s.durable d₀ b := by
        refine replay_of_notMem _ fun u hu => ?_
        obtain ⟨v,hv,rfl⟩ := List.mem_map.mp hu
        exact hn v.block ((hlisted.mem_iff _).mpr ⟨v,hv,rfl⟩)
      rw [hdisk,update_of_ne hne,hkeep]
      exact hhome b hb
  have hcur : (s.commitStep p .writeHead).current d₀ = s.current d₀ := by
    change replay ((s.commitStep p .writeHead).durable d₀) [] = _
    rw [hdur]
    rfl
  refine h.commit_next hp hst rfl rfl rfl rfl rfl rfl ?_ (fun w hw => ?_) ⟨hnew,?_⟩
  · rw [hdur]
    exact hrecov
  · rw [hcur]
    exact hview w hw
  · rw [hdur]
    have hinst := hrecov.installed
    rw [hnew] at hinst
    exact hinst

theorem Sound.installStep (h : Sound d₀ s) {tail : ℕ} (hp : s.ops p = .commit (.install tail))
    (hb : s.commitReads (.install tail) = true) : Sound d₀ (s.commitStep p (.install tail)) := by
  have hst : LogStep s (.commit p) (s.commitStep p (.install tail)) := .commit hp hb
  have hr := h.control.running hp (by simp)
  have hview : ∀ w : WordPage.Word, ¬ s.log.area w.toNat → s.cache w.toNat = s.current d₀ w.toNat :=
    fun w hw => h.view hr w hw (h.unlocked hp w)
  have hnil : s.pending = [] := (h.control.busy p _ hp).2.2
  have hcur : s.current d₀ = s.durable d₀ := by
    rw [LogSystem.current,hnil]
    rfl
  obtain ⟨hhead,hinst⟩ := h.commit p _ hp
  simp only [LogSystem.commitStep] at hst ⊢
  cases hw : s.log.lh[tail]? with
  | none =>
    rw [hw] at hst
    dsimp only at hst ⊢
    exact h.commit_next hp hst rfl rfl rfl rfl rfl rfl (h.recoverable.of_log rfl rfl) hview (hinst.all hw)
  | some w =>
    rw [hw] at hst
    dsimp only at hst ⊢
    rw [← hhead] at hinst hw
    obtain ⟨h1,h2,h3⟩ := h.recoverable.install h.pos hinst hw
    rw [hhead] at h3
    have hval := (h.recoverable.copied tail w hw).2
    refine h.commit_next hp hst rfl rfl rfl rfl rfl rfl h1 (fun v hv => ?_)
      ⟨(congrArg readHead h2).trans hhead,h3⟩
    change update s.cache w.toNat (s.disk (s.log.start+tail+1)) v.toNat = s.current d₀ v.toNat
    by_cases hne : v.toNat = w.toNat
    · rw [hne,update_self,hval,hcur]
    · rw [update_of_ne hne]
      exact hview v hv

theorem AtHome.putHead {l : Log} {d st : ℕ → Block} (h : AtHome l d st) (hs : 0 < l.size) (hl : l.lh = []) :
    Calm l (update d l.start (Xv6Paging.writeHead l.lh (d l.start))) st := by
  refine ⟨?_,fun b hb => ?_⟩
  · rw [update_self,readHead_writeHead (by rw [hl]; exact Nat.zero_le _),hl]
  · have hne : b ≠ l.start := fun he => hb (he ▸ l.area_start hs)
    rw [update_of_ne hne]
    exact h b hb

theorem Sound.eraseStep (h : Sound d₀ s) (hp : s.ops p = .commit .erase) :
    Sound d₀ (s.commitStep p .erase) := by
  have hst : LogStep s (.commit p) (s.commitStep p .erase) := .commit hp rfl
  have hr := h.control.running hp (by simp)
  have hcalm := AtHome.putHead (h.commit p _ hp) h.pos (h.control.busy p _ hp).2.2.1
  exact h.commit_next hp hst rfl rfl rfl rfl rfl rfl (hcalm.home.recoverable h.pos hcalm.head)
    (fun w hw => h.view hr w hw (h.unlocked hp w)) hcalm

theorem Sound.releaseStep (h : Sound d₀ s) (hp : s.ops p = .commit .release) :
    Sound d₀ (s.commitStep p .release) := by
  have hst : LogStep s (.commit p) (s.commitStep p .release) := .commit hp rfl
  have hr := h.control.running hp (by simp)
  have hcontrol := h.control.step hst
  have hlh : s.log.lh = [] := (h.control.busy p _ hp).2.2.1
  have hcalm : Calm s.log s.disk (s.durable d₀) := h.commit p _ hp
  refine ⟨hcontrol,h.size,h.recoverable.of_log rfl rfl,h.locks.move (by simp [hp]) (q := .idle) (by simp)
    rfl rfl (fun _ _ => rfl) fun _ hb => hb,h.view,fun _ _ => ⟨⟨hcalm.head,hcalm.home⟩,?_⟩,fun r pc hrp => ?_,
    fun pc hr' => ?_⟩
  · refine ⟨?_,fun w hw => ?_⟩
    · change s.log.lh.length ≤ _
      rw [hlh]
      exact Nat.zero_le _
    · have hw' : w ∈ s.log.lh := hw
      rw [hlh] at hw'
      cases hw'
  · have hb := (hcontrol.busy r pc hrp).1
    cases hb
  · have hr'' : s.recovering = some pc := hr'
    rw [hr] at hr''
    cases hr''

theorem Sound.recoverStep (h : Sound d₀ s) {pc : RecoverPc} (hr : s.recovering = some pc) :
    Sound d₀ (s.recoverStep pc) := by
  have hcontrol := h.control.step (.recover hr)
  obtain ⟨hidle,-,hpend⟩ := h.control.quiet (by simp [hr])
  obtain ⟨hpc,hcache⟩ := h.recover pc hr
  obtain ⟨hsize,hstart,hops⟩ := s.recoverStep_size pc
  have hunlocked : ∀ w, s.locked w = false := by
    intro w
    cases hl : s.locked w with
    | false => rfl
    | true =>
      obtain ⟨r,op,logged,v,hrw⟩ := h.locks.owner w hl
      rw [hidle r] at hrw
      cases hrw
  -- what the three kinds of steps have in common
  have next : ∀ t : LogSystem, Control t → t.ops = s.ops → t.locked = s.locked →
      t.log.start = s.log.start → t.log.size = s.log.size →
      Recoverable t.log t.disk (t.durable d₀) →
      (t.recovering = none → Calm t.log t.disk (t.durable d₀) ∧ Fits t.log ∧
        ∀ w : WordPage.Word, ¬ t.log.area w.toNat → t.cache w.toNat = t.current d₀ w.toNat) →
      (∀ pc, t.recovering = some pc → pc.Holds t (t.durable d₀) ∧ t.cache = t.disk) → Sound d₀ t := by
    intro t hc hp hl hst hsz hrecov hnone hsome
    have hno : ∀ r q, t.ops r = q → q = .idle := fun r q hq => by
      rw [hp,hidle r] at hq
      exact hq.symm
    refine ⟨hc,by rw [hsz]; exact h.size,hrecov,⟨fun r op l w v hrw => ?_,fun w hw => ?_,
      fun r r' op op' l l' w v v' hrw => ?_⟩,fun hn w hw _ => (hnone hn).2.2 w hw,
      fun hn _ => ⟨(hnone hn).1,(hnone hn).2.1⟩,fun r pc hrp => ?_,hsome⟩
    · cases hno r _ hrw
    · rw [hl,hunlocked w] at hw
      cases hw
    · cases hno r _ hrw
    · cases hno r _ hrp
  cases pc with
  | readHead =>
    refine next _ hcontrol hops rfl hstart hsize (h.recoverable.of_log rfl rfl) (by rintro ⟨⟩)
      fun pc hpc' => ?_
    cases hpc'
    exact ⟨⟨rfl,h.recoverable.installed⟩,hcache⟩
  | install tail =>
    obtain ⟨hhead,hinst⟩ := hpc
    simp only [LogSystem.recoverStep] at hcontrol hops hsize hstart ⊢
    cases hw : s.log.lh[tail]? with
    | none =>
      rw [hw] at hcontrol hops hsize hstart
      dsimp only at hcontrol hops hsize hstart ⊢
      refine next _ hcontrol hops rfl hstart hsize (h.recoverable.of_log rfl rfl) (by rintro ⟨⟩)
        fun pc hpc' => ?_
      cases hpc'
      exact ⟨hinst.all hw,hcache⟩
    | some w =>
      rw [hw] at hcontrol hops hsize hstart
      dsimp only at hcontrol hops hsize hstart ⊢
      rw [← hhead] at hinst hw
      obtain ⟨h1,h2,h3⟩ := h.recoverable.install h.pos hinst hw
      rw [hhead] at h3
      refine next _ hcontrol hops rfl hstart hsize h1 (by rintro ⟨⟩) fun pc hpc' => ?_
      cases hpc'
      refine ⟨⟨(congrArg readHead h2).trans hhead,h3⟩,?_⟩
      change update s.cache w.toNat _ = update s.disk w.toNat _
      rw [hcache]
  | erase =>
    have hlh := h.control.cleared hr
    have hcalm := AtHome.putHead hpc h.pos hlh
    refine next _ hcontrol hops rfl hstart hsize (hcalm.home.recoverable h.pos hcalm.head)
      (fun _ => ⟨hcalm,⟨?_,fun w hw => ?_⟩,fun w hw => ?_⟩) (by rintro _ ⟨⟩)
    · change s.log.lh.length ≤ _
      rw [hlh]
      exact Nat.zero_le _
    · have hw' : w ∈ s.log.lh := hw
      rw [hlh] at hw'
      cases hw'
    · have hcur : s.current d₀ = s.durable d₀ := by
        rw [LogSystem.current,hpend]
        rfl
      change s.cache w.toNat = s.current d₀ w.toNat
      rw [hcache,hcur]
      exact hpc w.toNat hw

theorem Sound.step (h : Sound d₀ s) (hout : OutsideLog s a) (hst : LogStep s a t) : Sound d₀ t := by
  have hst' := hst
  cases hst with
  | @begin p hr hp hc hb =>
    refine h.operation hst' hr hc (fun r pc hrp => ?_) rfl rfl rfl rfl rfl
      (h.locks.move (by simp [hp]) (q := .active s.nextOp []) (by simp) rfl rfl (fun _ _ => rfl) fun _ h => h)
      ⟨(h.idle hr hc).2.cap,(h.idle hr hc).2.home⟩ fun w hw hl => h.view hr w hw hl
    have hrp' : s.ops r = .commit pc := update_commit (by simp) hrp
    rw [(h.control.busy r pc hrp').1] at hc
    cases hc
  | @write p op logged b v hp hl hn hs => exact h.write hp hl hst' hout
  | @absorb p op logged b v hp hb =>
    have hin : (s.ops p).inOp = true := by rw [hp]; rfl
    have hr := h.control.running hp (by simp)
    exact h.appended hp (h.idle hr (h.control.not_committing_flag hin)).2 hst' rfl rfl
  | @append p op logged b v hp hb hn =>
    have hin : (s.ops p).inOp = true := by rw [hp]; rfl
    have hr := h.control.running hp (by simp)
    have hfits := (h.idle hr (h.control.not_committing_flag hin)).2
    refine h.appended hp ⟨?_,fun w hw => ?_⟩ hst' rfl rfl
    · rw [List.length_append,List.length_singleton]
      exact hn
    · rcases List.mem_append.mp hw with hw | hw
      · exact hfits.home w hw
      · rw [List.mem_singleton.mp hw]
        exact (h.locks.held p op logged b v hp).2.2
  | @leave p op logged hp hc ho =>
    have hin : (s.ops p).inOp = true := by rw [hp]; rfl
    have hr := h.control.running hp (by simp)
    obtain ⟨-,hfits⟩ := h.idle hr hc
    refine h.operation hst' hr hc (fun r pc hrp => ?_) rfl rfl rfl rfl rfl
      (h.locks.move (by simp [hp]) (q := .idle) (by simp) rfl rfl (fun _ _ => rfl) fun _ h => h)
      ⟨hfits.cap,hfits.home⟩ fun w hw hl => h.view hr w hw hl
    exact h.control.not_committing hin r pc (update_commit (by simp) hrp)
  | @last p op logged hp hc ho =>
    have hin : (s.ops p).inOp = true := by rw [hp]; rfl
    have hr := h.control.running hp (by simp)
    obtain ⟨⟨hhead,hhome⟩,hfits⟩ := h.idle hr hc
    have hcontrol := h.control.step hst'
    have hself : (s.finished p true {s.log with outstanding := 0, committing := true}).ops p =
        .commit (if 0 < s.log.lh.length then .writeLog 0 else .release) := by
      simp [LogSystem.finished,LogSystem.setOp]
    refine ⟨hcontrol,h.size,h.recoverable.of_log rfl rfl,h.locks.move (by simp [hp])
      (q := .commit (if 0 < s.log.lh.length then .writeLog 0 else .release)) (by simp) rfl rfl
      (fun _ _ => rfl) fun _ h => h,fun _ => h.view hr,fun _ hf => ?_,fun r pc hrp => ?_,fun pc hr' => ?_⟩
    · cases hf
    · obtain rfl := hcontrol.single r p _ _ hrp hself
      rw [hself] at hrp
      cases hrp
      split
      · exact ⟨⟨hhead,hhome⟩,⟨hfits.cap,hfits.home⟩,fun h0 => (h0 rfl).elim,by rintro _ _ ⟨⟩⟩
      · exact ⟨hhead,hhome⟩
    · have hr'' : s.recovering = some pc := hr'
      rw [hr] at hr''
      cases hr''
  | @commit p pc hp hb =>
    cases pc with
    | writeLog tail => exact h.writeLog hp hb
    | writeHead => exact h.writeHead hp hb
    | install tail => exact h.installStep hp hb
    | erase => exact h.eraseStep hp
    | release => exact h.releaseStep hp
  | crash =>
    refine ⟨h.control.step hst',h.size,h.recoverable.of_log rfl rfl,⟨by rintro _ _ _ _ _ ⟨⟩,by rintro _ ⟨⟩,
      by rintro _ _ _ _ _ _ _ _ _ ⟨⟩⟩,by rintro ⟨⟩,by rintro ⟨⟩,by rintro _ _ ⟨⟩,fun pc hpc => ?_⟩
    cases hpc
    exact ⟨trivial,rfl⟩
  | recover hr => exact h.recoverStep hr

end Sound

end Xv6Paging
