import Mathlib.Data.List.Count
import Xv6Paging.FileSystem.InodeCache
import Xv6Paging.Library.Runs

/-! # References to cached inodes

The reference count of an entry is the number of references that processes hold, and an
inode has at most one entry in use. A process that frees an inode has the only reference
to it and keeps it: an inode without links can be looked up only by the process that has
just allocated it, and it can be allocated again only after it was freed on disk.
-/
namespace Xv6Paging
open Function

def InodeCache.MayGet (s : InodeCache) (p : ℕ) (k : ℕ × ℕ) : Prop :=
  s.pcs p = .ready ∧ 0 < (s.disk k).nlink ∨ s.pcs p = .allocated k.1 k.2

inductive InodeStep (s : InodeCache) : InodeCache → Prop
  | hit {p : ℕ} {e : CacheSlot} (hp : s.MayGet p (s.entries e).key) (hr : 0 < (s.entries e).ref) :
      InodeStep s ({s.setEntry e {s.entries e with ref := (s.entries e).ref+1} with
        refs := (p,e) :: s.refs}.setPc p .ready)
  | recycle {p dev inum : ℕ} {e : CacheSlot} (hp : s.MayGet p (dev,inum)) (hr : (s.entries e).ref = 0)
      (hnone : ∀ e, 0 < (s.entries e).ref → (s.entries e).key ≠ (dev,inum)) :
      InodeStep s ({s.setEntry e {s.entries e with dev := dev, inum := inum, ref := 1, valid := false} with
        refs := (p,e) :: s.refs}.setPc p .ready)
  | idup {p : ℕ} {e : CacheSlot} (hp : s.pcs p = .ready) (hm : (p,e) ∈ s.refs) :
      InodeStep s {s.setEntry e {s.entries e with ref := (s.entries e).ref+1} with refs := (p,e) :: s.refs}
  | lock {p : ℕ} {e : CacheSlot} (hp : s.pcs p = .ready) (hl : s.lock e = none) :
      InodeStep s (s.setLock e (some p))
  | load {p : ℕ} {e : CacheSlot} (hp : s.pcs p = .ready) (hm : (p,e) ∈ s.refs) (hl : s.lock e = none)
      (ht : (s.disk (s.entries e).key).type ≠ 0) :
      InodeStep s ((s.setEntry e {s.entries e with valid := true, copy := s.disk (s.entries e).key}).setLock e
        (some p))
  | iunlock {p : ℕ} {e : CacheSlot} (hp : s.pcs p = .ready) (hl : s.lock e = some p) :
      InodeStep s (s.setLock e none)
  | setLinks {p n : ℕ} {e : CacheSlot} (hp : s.pcs p = .ready) (hm : (p,e) ∈ s.refs)
      (hl : s.lock e = some p) (hv : (s.entries e).valid = true) :
      InodeStep s ((s.setEntry e {s.entries e with copy := {(s.entries e).copy with nlink := n}}).setDisk
        (s.entries e).key {(s.entries e).copy with nlink := n})
  | ialloc {p dev inum type : ℕ} (hp : s.pcs p = .ready) (ht : (s.disk (dev,inum)).type = 0)
      (hn : type ≠ 0) : InodeStep s ((s.setDisk (dev,inum) ⟨type,0⟩).setPc p (.allocated dev inum))
  | check {p : ℕ} {e : CacheSlot} (hp : s.pcs p = .ready) (hm : (p,e) ∈ s.refs) (hl : s.lock e = none)
      (hv : (s.entries e).valid = true) (hz : (s.entries e).copy.nlink = 0) :
      InodeStep s ((s.setLock e (some p)).setPc p (.checking e))
  | skip {p : ℕ} {e : CacheSlot} (hp : s.pcs p = .ready) (hm : (p,e) ∈ s.refs) (hl : s.lock e = none) :
      InodeStep s ((s.setLock e (some p)).setPc p (.unlocking e false))
  | last {p : ℕ} {e : CacheSlot} (hp : s.pcs p = .checking e) (hr : (s.entries e).ref = 1) :
      InodeStep s (s.setPc p (.freeing e))
  | shared {p : ℕ} {e : CacheSlot} (hp : s.pcs p = .checking e) : InodeStep s (s.setPc p (.unlocking e false))
  | truncate {p : ℕ} {e : CacheSlot} (hp : s.pcs p = .freeing e) : InodeStep s (s.setPc p (.clearing e))
  | clear {p : ℕ} {e : CacheSlot} (hp : s.pcs p = .clearing e) :
      InodeStep s (((s.setEntry e {s.entries e with copy := {(s.entries e).copy with type := 0}}).setDisk
        (s.entries e).key {(s.entries e).copy with type := 0}).setPc p (.freed e))
  | invalidate {p : ℕ} {e : CacheSlot} (hp : s.pcs p = .freed e) :
      InodeStep s ((s.setEntry e {s.entries e with valid := false}).setPc p (.unlocking e true))
  | unlock {p : ℕ} {e : CacheSlot} {done : Bool} (hp : s.pcs p = .unlocking e done) :
      InodeStep s ((s.setLock e none).setPc p (.dropping e done))
  | drop {p : ℕ} {e : CacheSlot} {done : Bool} (hp : s.pcs p = .dropping e done) :
      InodeStep s {(s.setEntry e {s.entries e with ref := (s.entries e).ref-1}).setPc p .ready with
        refs := s.refs.erase (p,e)}

namespace InodeCache
variable {s t : InodeCache}

theorem lookup_some {dev inum : ℕ} {e : CacheSlot} (h : s.lookup dev inum = some e) :
    0 < (s.entries e).ref ∧ (s.entries e).key = (dev,inum) := by
  have hf := List.find?_some h
  simp only [decide_eq_true_eq] at hf
  exact ⟨hf.1,Prod.ext hf.2.1 hf.2.2⟩

theorem lookup_none {dev inum : ℕ} (h : s.lookup dev inum = none) (e : CacheSlot)
    (hr : 0 < (s.entries e).ref) : (s.entries e).key ≠ (dev,inum) := by
  have hf := List.find?_eq_none.mp h e (List.mem_finRange e)
  simp only [decide_eq_true_eq] at hf
  rintro hk
  exact hf ⟨hr,congrArg Prod.fst hk,congrArg Prod.snd hk⟩

theorem iget_cases {p dev inum : ℕ} (hp : s.MayGet p (dev,inum)) (h : s.iget p dev inum = some t) :
    InodeStep s (t.setPc p .ready) := by
  rw [iget] at h
  split at h
  · next e he =>
    obtain ⟨hr,hk⟩ := lookup_some he
    cases h
    exact .hit (hk ▸ hp) hr
  · next hnone =>
    split at h
    · next e he =>
      have hf := List.find?_some he
      simp only [decide_eq_true_eq] at hf
      cases h
      exact .recycle hp hf (lookup_none hnone)
    · cases h

theorem setPc_self {p : ℕ} {q : IputPc} (h : s.pcs p = q) : s.setPc p q = s := by
  rw [setPc,← h,update_eq_self]

theorem step_cases {a : InodeAction} (h : s.step a = some t) : InodeStep s t := by
  cases a with
  | iget p dev inum =>
    simp only [step] at h
    split at h
    · next hp =>
      split at h
      · next hn =>
        have hready : t.pcs p = .ready := by
          have hpcs : t.pcs = s.pcs := by
            rw [iget] at h
            split at h
            · cases h
              rfl
            · split at h
              · cases h
                rfl
              · cases h
          rw [hpcs]
          exact hp
        rw [← setPc_self hready]
        exact iget_cases (Or.inl ⟨hp,hn⟩) h
      · cases h
    · next dev' inum' hp =>
      split at h
      · next hk =>
        obtain ⟨rfl,rfl⟩ := hk
        obtain ⟨u,hu,rfl⟩ := Option.map_eq_some_iff.mp h
        exact iget_cases (Or.inr hp) hu
      · cases h
    · cases h
  | idup p e =>
    simp only [step] at h
    split at h
    · next hc =>
      cases h
      exact .idup hc.1 hc.2
    · cases h
  | ilock p e =>
    simp only [step] at h
    split at h
    · next hc =>
      simp only [ilock] at h
      split at h
      · cases h
        exact .lock hc.1 hc.2.2
      · split at h
        · cases h
        · next ht =>
          cases h
          exact .load hc.1 hc.2.1 hc.2.2 ht
    · cases h
  | iunlock p e =>
    simp only [step] at h
    split at h
    · next hc =>
      cases h
      exact .iunlock hc.1 hc.2
    · cases h
  | setLinks p e n =>
    simp only [step] at h
    split at h
    · next hc =>
      cases h
      exact .setLinks hc.1 hc.2.1 hc.2.2.1 hc.2.2.2
    · cases h
  | ialloc p dev inum type =>
    simp only [step] at h
    split at h
    · next hc =>
      cases h
      exact .ialloc hc.1 hc.2.1 hc.2.2
    · cases h
  | iput p e =>
    simp only [step] at h
    split at h
    · next hc =>
      cases h
      split
      · next hz => exact .check hc.1 hc.2.1 hc.2.2 hz.1 hz.2
      · exact .skip hc.1 hc.2.1 hc.2.2
    · cases h
  | next p =>
    simp only [step,next] at h
    split at h
    · next e hp =>
      cases h
      split
      · next hr => exact .last hp hr
      · exact .shared hp
    · next e hp =>
      cases h
      exact .truncate hp
    · next e hp =>
      cases h
      exact .clear hp
    · next e hp =>
      cases h
      exact .invalidate hp
    · next e done hp =>
      cases h
      exact .unlock hp
    · next e done hp =>
      cases h
      exact .drop hp
    · cases h

end InodeCache

@[grind] def IputPc.slot : IputPc → Option CacheSlot
  | .ready => none
  | .allocated _ _ => none
  | .checking e => some e
  | .freeing e => some e
  | .clearing e => some e
  | .freed e => some e
  | .unlocking e _ => some e
  | .dropping e _ => some e

@[grind] def IputPc.locking : IputPc → Option CacheSlot
  | .dropping _ _ => none
  | q => q.slot

@[grind] def IputPc.unlinked : IputPc → Option CacheSlot
  | .checking e => some e
  | .freeing e => some e
  | .clearing e => some e
  | _ => none

@[grind] def IputPc.doomed : IputPc → Option CacheSlot
  | .freeing e => some e
  | .clearing e => some e
  | _ => none

@[grind] def IputPc.after : IputPc → Option CacheSlot
  | .freed e => some e
  | .unlocking e true => some e
  | .dropping e true => some e
  | _ => none

/-- `count`, `unique` and `only` are the results. A valid entry agrees with the disk unless its inode is
being freed, referenced inodes are allocated unless their holder has freed them, and a newly allocated inode
is referenced only by a process that has freed it. -/
structure Referenced (s : InodeCache) : Prop where
  count : ∀ e, (s.entries e).ref = s.refs.countP fun r => r.2 = e
  unique : ∀ e e', 0 < (s.entries e).ref → 0 < (s.entries e').ref →
    (s.entries e).key = (s.entries e').key → e = e'
  holds : ∀ p e, (s.pcs p).slot = some e → (p,e) ∈ s.refs
  locked : ∀ p e, (s.pcs p).locking = some e → s.lock e = some p
  unlinked : ∀ p e, (s.pcs p).unlinked = some e → (s.entries e).valid = true ∧ (s.entries e).copy.nlink = 0
  only : ∀ p e, (s.pcs p).doomed = some e → (s.entries e).ref = 1
  fresh : ∀ e, (s.entries e).valid = true → 0 < (s.entries e).ref →
    (∀ p, s.lock e = some p → s.pcs p ≠ .freed e) →
    (s.disk (s.entries e).key).type ≠ 0 ∧ (s.entries e).copy = s.disk (s.entries e).key
  alive : ∀ p e, (p,e) ∈ s.refs → (s.pcs p).after ≠ some e → (s.disk (s.entries e).key).type ≠ 0
  pending : ∀ q dev inum, s.pcs q = .allocated dev inum → (s.disk (dev,inum)).type ≠ 0 ∧
    (s.disk (dev,inum)).nlink = 0 ∧
    ∀ p e, (p,e) ∈ s.refs → (s.entries e).key = (dev,inum) → (s.pcs p).after = some e
  typed : ∀ k, (s.disk k).type = 0 → (s.disk k).nlink = 0
  lone : ∀ p e, (s.pcs p).after = some e → (p,e) ∉ s.refs.erase (p,e)
  single : ∀ q q' dev inum, s.pcs q = .allocated dev inum → s.pcs q' = .allocated dev inum → q = q'

section Referenced
variable {s t : InodeCache} {p q dev inum n type : ℕ} {e : CacheSlot} {done : Bool}

theorem countP_erase_slot {refs : List (ℕ × CacheSlot)} (hm : (p,e) ∈ refs) (e' : CacheSlot) :
    ((refs.erase (p,e)).countP fun r => r.2 = e') =
      if e' = e then (refs.countP fun r => r.2 = e')-1 else refs.countP fun r => r.2 = e' := by
  rw [List.countP_erase]
  by_cases he : e' = e
  · subst he
    simp [hm]
  · simp [he,Ne.symm he]

theorem Referenced.ref_pos (h : Referenced s) (hm : (p,e) ∈ s.refs) : 0 < (s.entries e).ref := by
  rw [h.count e]
  exact_mod_cast List.countP_pos_iff.mpr ⟨(p,e),hm,by simp⟩

theorem IputPc.slot_of_doomed {q : IputPc} (h : q.doomed = some e) :
    q.slot = some e ∧ q.locking = some e ∧ q.unlinked = some e ∧ q.after ≠ some e := by
  cases q <;> grind

theorem IputPc.slot_of_unlinked {q : IputPc} (h : q.unlinked = some e) :
    q.slot = some e ∧ q.locking = some e := by
  cases q <;> grind

section
variable (h : Referenced s) (hp : (s.pcs p).doomed = some e)
include h hp

theorem Referenced.eq_of_doomed (hm : (q,e) ∈ s.refs) : q = p := by
  have hone : s.refs.countP (fun r => r.2 = e) = 1 := by
    have hc := h.count e
    rw [h.only p e hp] at hc
    exact_mod_cast hc.symm
  have hp' := h.holds p e (IputPc.slot_of_doomed hp).1
  rw [List.countP_eq_length_filter,List.length_eq_one_iff] at hone
  obtain ⟨r,hr⟩ := hone
  have h1 : (p,e) ∈ s.refs.filter fun r => r.2 = e := List.mem_filter.mpr ⟨hp',by simp⟩
  have h2 : (q,e) ∈ s.refs.filter fun r => r.2 = e := List.mem_filter.mpr ⟨hm,by simp⟩
  rw [hr,List.mem_singleton] at h1 h2
  exact congrArg Prod.fst (h2.trans h1.symm)

theorem Referenced.alone : (p,e) ∉ s.refs.erase (p,e) := by
  intro hm
  have hc := h.count e
  have hpos : 0 < (s.refs.erase (p,e)).countP fun r => r.2 = e :=
    List.countP_pos_iff.mpr ⟨(p,e),hm,by simp⟩
  rw [countP_erase_slot (h.holds p e (IputPc.slot_of_doomed hp).1),if_pos rfl] at hpos
  rw [h.only p e hp] at hc
  omega

theorem Referenced.copy_eq : (s.entries e).copy = s.disk (s.entries e).key := by
  obtain ⟨hslot,hlock,hunlinked,-⟩ := IputPc.slot_of_doomed hp
  refine (h.fresh e (h.unlinked p e hunlinked).1 (h.ref_pos (h.holds p e hslot)) fun r hr hf => ?_).2
  rw [h.locked p e hlock] at hr
  cases hr
  rw [hf] at hp
  cases hp

theorem Referenced.not_mayGet : ¬ s.MayGet q (s.entries e).key := by
  obtain ⟨hslot,-,hunlinked,hafter⟩ := IputPc.slot_of_doomed hp
  rintro (⟨-,hlink⟩ | halloc)
  · rw [← h.copy_eq hp,(h.unlinked p e hunlinked).2] at hlink
    exact absurd hlink (lt_irrefl 0)
  · exact hafter ((h.pending q _ _ halloc).2.2 p e (h.holds p e hslot) rfl)

end

theorem Referenced.fresh_of_locked (h : Referenced s) (hp : s.pcs p = .ready) (hm : (p,e) ∈ s.refs)
    (hl : s.lock e = some p) (hv : (s.entries e).valid = true) :
    (s.disk (s.entries e).key).type ≠ 0 ∧ (s.entries e).copy = s.disk (s.entries e).key := by
  refine h.fresh e hv (h.ref_pos hm) fun r hr hf => ?_
  rw [hl] at hr
  cases hr
  rw [hp] at hf
  cases hf

theorem Referenced.move (pc : IputPc) (lock : CacheSlot → Option ℕ) (h : Referenced s)
    (hslot : ∀ e, pc.slot = some e → (p,e) ∈ s.refs)
    (hlocking : ∀ e, pc.locking = some e → lock e = some p)
    (hothers : ∀ r e, r ≠ p → (s.pcs r).locking = some e → lock e = some r)
    (hunlinked : ∀ e, pc.unlinked = some e → (s.entries e).valid = true ∧ (s.entries e).copy.nlink = 0)
    (honly : ∀ e, pc.doomed = some e → (s.entries e).ref = 1)
    (hafter : ∀ e, (s.pcs p).after = some e → pc.after = some e)
    (hlone : ∀ e, pc.after = some e → (p,e) ∉ s.refs.erase (p,e))
    (hstale : ∀ e, s.pcs p = .freed e → (s.entries e).valid = false)
    (hnew : ∀ dev inum, pc ≠ .allocated dev inum) :
    Referenced {s with pcs := update s.pcs p pc, lock := lock} := by
  constructor
  case count => exact h.count
  case unique => exact h.unique
  case fresh =>
    intro e hv hr hf
    refine h.fresh e hv hr fun r hl hrf => ?_
    have hne : r ≠ p := by
      rintro rfl
      rw [hstale e hrf] at hv
      cases hv
    have hl' := hothers r e hne (by rw [hrf]; rfl)
    exact hf r hl' ((update_of_ne hne _ _).trans hrf)
  case typed => exact h.typed
  all_goals
    obtain ⟨-,-,h3,h4,h5,h6,-,h8,h9,-,h11,h12⟩ := h
    grind

theorem Referenced.others_lock (h : Referenced s) (hl : s.lock e = none) (r : ℕ) (e' : CacheSlot) (_ : r ≠ p)
    (hr : (s.pcs r).locking = some e') : update s.lock e (some p) e' = some r := by
  have he := h.locked r e' hr
  rw [update_of_ne (by rintro rfl; rw [hl] at he; cases he)]
  exact he

theorem Referenced.others_unlock (h : Referenced s) (hl : s.lock e = some p) (r : ℕ) (e' : CacheSlot)
    (hne : r ≠ p) (hr : (s.pcs r).locking = some e') : update s.lock e none e' = some r := by
  have he := h.locked r e' hr
  rw [update_of_ne (by rintro rfl; rw [hl] at he; cases he; exact hne rfl)]
  exact he

theorem Referenced.setLock {o : Option ℕ} (h : Referenced s) (hp : s.pcs p = .ready)
    (hothers : ∀ r e', r ≠ p → (s.pcs r).locking = some e' → update s.lock e o e' = some r) :
    Referenced (s.setLock e o) := by
  have hm := h.move (p := p) .ready (update s.lock e o) (by rintro _ ⟨⟩) (by rintro _ ⟨⟩) hothers
    (by rintro _ ⟨⟩) (by rintro _ ⟨⟩) (by rw [hp]; exact fun _ he => he) (by rintro _ ⟨⟩)
    (by rw [hp]; rintro _ ⟨⟩) (by rintro _ _ ⟨⟩)
  rwa [← hp,update_eq_self] at hm

theorem Referenced.setPc (pc : IputPc) (h : Referenced s) (hp : (s.pcs p).locking = some e)
    (hsame : pc.slot = (s.pcs p).slot ∧ pc.locking = (s.pcs p).locking)
    (hunlinked : ∀ e, pc.unlinked = some e → (s.pcs p).unlinked = some e)
    (honly : ∀ e, pc.doomed = some e → (s.entries e).ref = 1)
    (hafter : ∀ e, (s.pcs p).after = some e → pc.after = some e)
    (hlone : ∀ e, pc.after = some e → (p,e) ∉ s.refs.erase (p,e))
    (hstale : ∀ e, s.pcs p = .freed e → (s.entries e).valid = false) : Referenced (s.setPc p pc) := by
  refine h.move pc s.lock ?_ ?_ (fun r e _ hr => h.locked r e hr) (fun e he => h.unlinked p e (hunlinked e he)) honly
    hafter hlone hstale ?_
  · exact fun e he => h.holds p e (hsame.1 ▸ he)
  · exact fun e he => h.locked p e (hsame.2 ▸ he)
  · rintro dev inum rfl
    rw [← hsame.2] at hp
    cases hp

theorem InodeCache.freed_of_update {pc : IputPc} {e' : CacheSlot} (hp : ∀ e, s.pcs p ≠ .freed e)
    (hf : ∀ r, s.lock e' = some r → update s.pcs p pc r ≠ .freed e') :
    ∀ r, s.lock e' = some r → s.pcs r ≠ .freed e' := by
  intro r hl hrf
  have hne : r ≠ p := fun he => hp e' (he ▸ hrf)
  exact hf r hl ((update_of_ne hne _ _).trans hrf)

section
variable (h : Referenced s)
include h

theorem Referenced.type_ne_zero {k : ℕ × ℕ} (hp : s.MayGet p k) : (s.disk k).type ≠ 0 := by
  rcases hp with ⟨-,hn⟩ | hp
  · intro h0
    rw [h.typed k h0] at hn
    exact absurd hn (lt_irrefl 0)
  · exact (h.pending p _ _ hp).1

theorem Referenced.eq_of_mayGet {k : ℕ × ℕ} (hp : s.MayGet p k)
    (hq : s.pcs q = .allocated k.1 k.2) : q = p := by
  rcases hp with ⟨-,hn⟩ | hp
  · rw [(h.pending q _ _ hq).2.1] at hn
    exact absurd hn (lt_irrefl 0)
  · exact h.single q p _ _ hq hp

theorem Referenced.addRef {c : CacheEntry}
    (hp : s.pcs p = .ready ∨ s.pcs p = .allocated c.dev c.inum) (href : c.ref = (s.entries e).ref+1)
    (hused : 0 < (s.entries e).ref → c.key = (s.entries e).key ∧ c.valid = (s.entries e).valid ∧
      c.copy = (s.entries e).copy)
    (hfree : (s.entries e).ref = 0 → c.valid = false)
    (hother : ∀ e', 0 < (s.entries e').ref → (s.entries e').key = c.key → e' = e)
    (hdoom : ∀ r, (s.pcs r).doomed ≠ some e) (htype : (s.disk c.key).type ≠ 0)
    (hpend : ∀ q, s.pcs q = .allocated c.dev c.inum → q = p) :
    Referenced ({s.setEntry e c with refs := (p,e) :: s.refs}.setPc p .ready) := by
  have hnone : (s.entries e).ref = 0 → ∀ q, (q,e) ∉ s.refs := fun h0 q hm => (h.ref_pos hm).ne' h0
  have hpos : 0 < (s.entries e).ref ∨ (s.entries e).ref = 0 := by
    have hc := h.count e
    omega
  constructor <;> simp only [InodeCache.setPc,InodeCache.setEntry]
  case fresh =>
    intro e' hv hr hf
    have hf' := InodeCache.freed_of_update (by rcases hp with hp | hp <;> rw [hp] <;> rintro _ ⟨⟩) hf
    by_cases he : e' = e
    · subst he
      rw [update_self] at hv ⊢
      rcases hpos with hpos | hpos
      · obtain ⟨hkey,hvalid,hcopy⟩ := hused hpos
        rw [hkey,hcopy]
        exact h.fresh e' (hvalid ▸ hv) hpos hf'
      · rw [hfree hpos] at hv
        cases hv
    · rw [update_of_ne he] at hv hr ⊢
      exact h.fresh e' hv hr hf'
  all_goals
    obtain ⟨h1,h2,h3,h4,h5,h6,-,h8,h9,h10,h11,h12⟩ := h
    grind [CacheEntry.key,IputPc.slot_of_unlinked]

theorem Referenced.hit (hp : s.MayGet p (s.entries e).key) (hr : 0 < (s.entries e).ref) :
    Referenced ({s.setEntry e {s.entries e with ref := (s.entries e).ref+1} with
      refs := (p,e) :: s.refs}.setPc p .ready) :=
  h.addRef (hp.imp_left And.left) rfl (fun _ => ⟨rfl,rfl,rfl⟩) (fun h0 => absurd h0 hr.ne')
    (fun e' hr' hk => h.unique e' e hr' hr hk) (fun _ hd => h.not_mayGet hd hp) (h.type_ne_zero hp)
    (fun _ hq => h.eq_of_mayGet hp hq)

theorem Referenced.recycle (hp : s.MayGet p (dev,inum)) (hr : (s.entries e).ref = 0)
    (hnone : ∀ e, 0 < (s.entries e).ref → (s.entries e).key ≠ (dev,inum)) :
    Referenced ({s.setEntry e {s.entries e with dev := dev, inum := inum, ref := 1, valid := false} with
      refs := (p,e) :: s.refs}.setPc p .ready) :=
  h.addRef (hp.imp_left And.left) (by rw [hr]; rfl) (fun hr' => absurd hr hr'.ne') (fun _ => rfl)
    (fun e' hr' hk => absurd hk (hnone e' hr'))
    (fun r hd => (h.ref_pos (h.holds r e (IputPc.slot_of_doomed hd).1)).ne' hr) (h.type_ne_zero hp)
    (fun q hq => h.eq_of_mayGet hp hq)

theorem Referenced.idup (hp : s.pcs p = .ready) (hm : (p,e) ∈ s.refs) :
    Referenced {s.setEntry e {s.entries e with ref := (s.entries e).ref+1} with refs := (p,e) :: s.refs} := by
  have hr := h.ref_pos hm
  have hafter : (s.pcs p).after ≠ some e := by
    rw [hp]
    rintro ⟨⟩
  rw [← InodeCache.setPc_self (s := {s.setEntry e _ with refs := _}) hp]
  refine h.addRef (Or.inl hp) rfl (fun _ => ⟨rfl,rfl,rfl⟩) (fun h0 => absurd h0 hr.ne')
    (fun e' hr' hk => h.unique e' e hr' hr hk) (fun r hd => ?_) (h.alive p e hm hafter)
    (fun q hq => absurd ((h.pending q _ _ hq).2.2 p e hm rfl) hafter)
  rw [← h.eq_of_doomed hd hm,hp] at hd
  cases hd

theorem Referenced.write {c : CacheEntry} {r : InodeRecord} (hr : 0 < (s.entries e).ref)
    (hl : s.lock e = some p) (hp : (s.pcs p).unlinked ≠ some e) (hkey : c.key = (s.entries e).key) (href : c.ref = (s.entries e).ref)
    (hfresh : c.valid = true → s.pcs p ≠ .freed e → r.type ≠ 0 ∧ c.copy = r)
    (halive : (s.disk c.key).type ≠ 0 → r.type = 0 → ∀ q, (q,e) ∈ s.refs → (s.pcs q).after = some e)
    (hpend : ∀ q, s.pcs q = .allocated c.dev c.inum → r.type ≠ 0 ∧ r.nlink = 0)
    (htyped : r.type = 0 → r.nlink = 0) : Referenced ((s.setEntry e c).setDisk c.key r) := by
  have hpos := fun q e => h.ref_pos (p := q) (e := e)
  have hunlinked : ∀ q, (s.pcs q).unlinked ≠ some e := by
    intro q hq
    have hlq := h.locked q e (IputPc.slot_of_unlinked hq).2
    rw [hl] at hlq
    cases hlq
    exact hp hq
  have hdisk : ∀ e', e' ≠ e → 0 < (s.entries e').ref → (s.entries e').key ≠ c.key := fun e' he hr' hk =>
    he (h.unique e' e hr' hr (hk.trans hkey))
  constructor <;> simp only [InodeCache.setEntry,InodeCache.setDisk]
  case fresh =>
    intro e' hv hr' hf
    by_cases he : e' = e
    · subst he
      rw [update_self] at hv ⊢
      rw [update_self]
      exact hfresh hv (hf p hl)
    · rw [update_of_ne he] at hv hr' ⊢
      rw [update_of_ne (hdisk e' he hr')]
      exact h.fresh e' hv hr' hf
  all_goals
    obtain ⟨h1,h2,h3,h4,h5,h6,-,h8,h9,h10,h11,h12⟩ := h
    grind [CacheEntry.key]

theorem Referenced.setEntry {c : CacheEntry} (hr : 0 < (s.entries e).ref)
    (hl : s.lock e = some p) (hp : (s.pcs p).unlinked ≠ some e) (hkey : c.key = (s.entries e).key)
    (href : c.ref = (s.entries e).ref)
    (hfresh : c.valid = true → s.pcs p ≠ .freed e → (s.disk c.key).type ≠ 0 ∧ c.copy = s.disk c.key) :
    Referenced (s.setEntry e c) := by
  have hw := h.write hr hl hp hkey href hfresh (fun ht h0 => absurd h0 ht)
    (fun q hq => ⟨(h.pending q _ _ hq).1,(h.pending q _ _ hq).2.1⟩) (h.typed _)
  rwa [InodeCache.setDisk,InodeCache.setEntry,update_eq_self] at hw

theorem Referenced.load (hp : s.pcs p = .ready) (hm : (p,e) ∈ s.refs) (hl : s.lock e = none)
    (ht : (s.disk (s.entries e).key).type ≠ 0) :
    Referenced ((s.setEntry e {s.entries e with valid := true, copy := s.disk (s.entries e).key}).setLock e
      (some p)) :=
  (h.setLock hp (h.others_lock hl)).setEntry (p := p) (h.ref_pos hm) (update_self ..)
    (by simp [InodeCache.setLock,hp,IputPc.unlinked]) rfl rfl fun _ _ => ⟨ht,rfl⟩

theorem Referenced.setLinks (hp : s.pcs p = .ready) (hm : (p,e) ∈ s.refs)
    (hl : s.lock e = some p) (hv : (s.entries e).valid = true) :
    Referenced ((s.setEntry e {s.entries e with copy := {(s.entries e).copy with nlink := n}}).setDisk
      (s.entries e).key {(s.entries e).copy with nlink := n}) := by
  obtain ⟨ht,hcopy⟩ := h.fresh_of_locked hp hm hl hv
  have hafter : (s.pcs p).after ≠ some e := by
    rw [hp]
    rintro ⟨⟩
  rw [← hcopy] at ht
  exact h.write (c := {s.entries e with copy := {(s.entries e).copy with nlink := n}}) (h.ref_pos hm) hl
    (by rw [hp]; rintro ⟨⟩) rfl rfl (fun _ _ => ⟨ht,rfl⟩) (fun _ h0 => absurd h0 ht)
    (fun q hq => absurd ((h.pending q _ _ hq).2.2 p e hm rfl) hafter) (fun h0 => absurd h0 ht)

theorem Referenced.clear (hp : s.pcs p = .clearing e) :
    Referenced (((s.setEntry e {s.entries e with copy := {(s.entries e).copy with type := 0}}).setDisk
      (s.entries e).key {(s.entries e).copy with type := 0}).setPc p (.freed e)) := by
  have hdoom : (s.pcs p).doomed = some e := by rw [hp]; rfl
  obtain ⟨hslot,hlock,hunlinked,hafter⟩ := IputPc.slot_of_doomed hdoom
  have hm := h.holds p e hslot
  have hfreed : Referenced (s.setPc p (.freed e)) :=
    h.setPc _ hlock (by rw [hp]; exact ⟨rfl,rfl⟩) (by rintro _ ⟨⟩) (by rintro _ ⟨⟩) (by rw [hp]; rintro _ ⟨⟩)
      (by rintro _ ⟨⟩; exact h.alone hdoom) (by rw [hp]; rintro _ ⟨⟩)
  refine hfreed.write (c := {s.entries e with copy := {(s.entries e).copy with type := 0}}) (h.ref_pos hm)
    (h.locked p e hlock) ?_ rfl rfl (fun _ hf => absurd (update_self ..) hf) (fun _ _ q hq => ?_) (fun q hq => ?_)
    fun _ => (h.unlinked p e hunlinked).2
  · simp [InodeCache.setPc,IputPc.unlinked]
  · rw [h.eq_of_doomed hdoom hq]
    simp [InodeCache.setPc,IputPc.after]
  · by_cases hqp : q = p
    · subst hqp
      simp [InodeCache.setPc] at hq
    · exact absurd ((h.pending q _ _ ((update_of_ne hqp _ _).symm.trans hq)).2.2 p e hm rfl) hafter

theorem Referenced.invalidate (hp : s.pcs p = .freed e) :
    Referenced ((s.setEntry e {s.entries e with valid := false}).setPc p (.unlocking e true)) := by
  have hl := h.locked p e (by rw [hp]; rfl)
  have hm := h.holds p e (by rw [hp]; rfl)
  have hw : Referenced (s.setEntry e {s.entries e with valid := false}) :=
    h.setEntry (h.ref_pos hm) hl (by rw [hp]; rintro ⟨⟩) rfl rfl (by rintro ⟨⟩)
  refine hw.setPc (e := e) _ (by simp [InodeCache.setEntry,hp,IputPc.locking,IputPc.slot]) ?_ (by rintro _ ⟨⟩)
    (by rintro _ ⟨⟩) ?_ ?_ ?_
  · simp [InodeCache.setEntry,hp,IputPc.locking,IputPc.slot]
  · simp [InodeCache.setEntry,hp,IputPc.after]
  · rintro _ ⟨⟩
    exact h.lone p e (by rw [hp]; rfl)
  · simp [InodeCache.setEntry,hp]

theorem Referenced.ialloc (hp : s.pcs p = .ready) (ht : (s.disk (dev,inum)).type = 0)
    (hn : type ≠ 0) : Referenced ((s.setDisk (dev,inum) ⟨type,0⟩).setPc p (.allocated dev inum)) := by
  obtain ⟨h1,h2,h3,h4,h5,h6,h7,h8,h9,h10,h11,h12⟩ := h
  constructor <;> simp only [InodeCache.setPc,InodeCache.setDisk] <;> grind [CacheEntry.key]

theorem Referenced.drop (hp : s.pcs p = .dropping e done) :
    Referenced {(s.setEntry e {s.entries e with ref := (s.entries e).ref-1}).setPc p .ready with
      refs := s.refs.erase (p,e)} := by
  have hm : (p,e) ∈ s.refs := h.holds p e (by rw [hp]; rfl)
  have hpos := h.ref_pos hm
  have hdoom : ∀ r, (s.pcs r).doomed ≠ some e := by
    intro r hr
    rw [← h.eq_of_doomed hr hm,hp] at hr
    cases hr
  have hmem : ∀ r e', (r,e') ∈ s.refs.erase (p,e) → (r,e') ∈ s.refs := fun r e' hr => List.mem_of_mem_erase hr
  have hkeep : ∀ r e', r ≠ p → (r,e') ∈ s.refs → (r,e') ∈ s.refs.erase (p,e) := fun r e' hr hre =>
    (List.mem_erase_of_ne (by rintro ⟨⟩; exact hr rfl)).mpr hre
  have hafter : ∀ e', (s.pcs p).after = some e' → (p,e') ∉ s.refs.erase (p,e) := by
    intro e' he
    have hlone := h.lone p e' he
    rw [hp] at he
    cases done <;> cases he
    exact hlone
  obtain ⟨c,hc⟩ : ∃ c, c = {s.entries e with ref := (s.entries e).ref-1} := ⟨_,rfl⟩
  have hkey : c.key = (s.entries e).key := by rw [hc,CacheEntry.key,CacheEntry.key]
  rw [← hc]
  constructor <;> simp only [InodeCache.setPc,InodeCache.setEntry]
  case count =>
    intro e'
    have hcount := h.count e'
    rw [countP_erase_slot hm]
    by_cases he : e' = e
    · subst he
      rw [update_self,if_pos rfl,hc]
      dsimp only
      omega
    · rw [update_of_ne he,if_neg he,hcount]
  case fresh =>
    intro e' hv hr hf
    have hf' := InodeCache.freed_of_update (by rw [hp]; rintro _ ⟨⟩) hf
    by_cases he : e' = e
    · subst he
      rw [update_self] at hv ⊢
      rw [hc] at hv ⊢
      exact h.fresh e' hv hpos hf'
    · rw [update_of_ne he] at hv hr ⊢
      exact h.fresh e' hv hr hf'
  all_goals
    obtain ⟨-,h2,h3,h4,h5,h6,-,h8,h9,h10,h11,h12⟩ := h
    grind [CacheEntry.key]

theorem Referenced.step (hst : InodeStep s t) : Referenced t := by
  cases hst with
  | hit hp hr => exact h.hit hp hr
  | recycle hp hr hnone => exact h.recycle hp hr hnone
  | idup hp hm => exact h.idup hp hm
  | lock hp hl => exact h.setLock hp (h.others_lock hl)
  | load hp hm hl ht => exact h.load hp hm hl ht
  | iunlock hp hl => exact h.setLock hp (h.others_unlock hl)
  | setLinks hp hm hl hv => exact h.setLinks hp hm hl hv
  | ialloc hp ht hn => exact h.ialloc hp ht hn
  | check hp hm hl hv hz =>
    exact h.move _ _ (by rintro _ ⟨⟩; exact hm) (by rintro _ ⟨⟩; exact update_self ..) (h.others_lock hl)
      (by rintro _ ⟨⟩; exact ⟨hv,hz⟩) (by rintro _ ⟨⟩) (by rw [hp]; rintro _ ⟨⟩) (by rintro _ ⟨⟩)
      (by rw [hp]; rintro _ ⟨⟩) (by rintro _ _ ⟨⟩)
  | skip hp hm hl =>
    exact h.move _ _ (by rintro _ ⟨⟩; exact hm) (by rintro _ ⟨⟩; exact update_self ..) (h.others_lock hl)
      (by rintro _ ⟨⟩) (by rintro _ ⟨⟩) (by rw [hp]; rintro _ ⟨⟩) (by rintro _ ⟨⟩) (by rw [hp]; rintro _ ⟨⟩)
      (by rintro _ _ ⟨⟩)
  | @last p e hp hr =>
    exact h.setPc (e := e) _ (by rw [hp]; rfl) (by rw [hp]; exact ⟨rfl,rfl⟩) (by rw [hp]; rintro _ ⟨⟩; rfl)
      (by rintro _ ⟨⟩; exact hr) (by rw [hp]; rintro _ ⟨⟩) (by rintro _ ⟨⟩) (by rw [hp]; rintro _ ⟨⟩)
  | @shared p e hp =>
    exact h.setPc (e := e) _ (by rw [hp]; rfl) (by rw [hp]; exact ⟨rfl,rfl⟩) (by rintro _ ⟨⟩) (by rintro _ ⟨⟩)
      (by rw [hp]; rintro _ ⟨⟩) (by rintro _ ⟨⟩) (by rw [hp]; rintro _ ⟨⟩)
  | @truncate p e hp =>
    exact h.setPc (e := e) _ (by rw [hp]; rfl) (by rw [hp]; exact ⟨rfl,rfl⟩) (by rw [hp]; rintro _ ⟨⟩; rfl)
      (by rintro _ ⟨⟩; exact h.only p e (by rw [hp]; rfl)) (by rw [hp]; rintro _ ⟨⟩) (by rintro _ ⟨⟩)
      (by rw [hp]; rintro _ ⟨⟩)
  | clear hp => exact h.clear hp
  | invalidate hp => exact h.invalidate hp
  | @unlock p e done hp =>
    have hl := h.locked p e (by rw [hp]; rfl)
    have hafter : (s.pcs p).after = (IputPc.dropping e done).after := by rw [hp]; cases done <;> rfl
    exact h.move _ _ (by rintro _ ⟨⟩; exact h.holds p e (by rw [hp]; rfl)) (by rintro _ ⟨⟩) (h.others_unlock hl)
      (by rintro _ ⟨⟩) (by rintro _ ⟨⟩) (fun e he => hafter ▸ he) (fun e he => h.lone p e (hafter.trans he))
      (by rw [hp]; rintro _ ⟨⟩) (by rintro _ _ ⟨⟩)
  | drop hp => exact h.drop hp

end

end Referenced

/-- Nothing is referenced yet, and a free inode on disk has no links. -/
def InodeCache.Initial (s : InodeCache) : Prop :=
  (∀ e, (s.entries e).ref = 0) ∧ (∀ p, s.pcs p = .ready) ∧ s.refs = [] ∧
    ∀ k, (s.disk k).type = 0 → (s.disk k).nlink = 0

theorem InodeCache.Initial.referenced {s : InodeCache} (h : s.Initial) : Referenced s := by
  obtain ⟨href,hpcs,hrefs,htyped⟩ := h
  constructor
  case typed => exact htyped
  all_goals simp [href,hpcs,hrefs,IputPc.slot,IputPc.locking,IputPc.unlinked,IputPc.doomed,IputPc.after]

def InodeCache.Reaches : InodeCache → InodeCache → Prop := Runs.Reaches InodeCache.step fun _ _ => True

theorem InodeCache.Reaches.referenced {s t : InodeCache} (h : s.Reaches t) (hs : s.Initial) : Referenced t :=
  Runs.Reaches.invariant h hs.referenced fun _ _ _ hI _ hst => hI.step (step_cases hst)

theorem InodeStep.key_eq {s t : InodeCache} {e : CacheSlot} (hst : InodeStep s t) (he : 0 < (s.entries e).ref) :
    (t.entries e).key = (s.entries e).key := by
  have hupdate : ∀ e' (c : CacheEntry), c.key = (s.entries e').key →
      (update s.entries e' c e).key = (s.entries e).key := by
    intro e' c hc
    by_cases h : e = e'
    · subst h
      rw [update_self,hc]
    · rw [update_of_ne h]
  cases hst with
  | @recycle p dev inum e' hp hr hnone =>
    have hne : e ≠ e' := by
      rintro rfl
      omega
    exact congrArg CacheEntry.key (update_of_ne hne _ _)
  | hit | idup | load | setLinks | clear | invalidate | drop => exact hupdate _ _ rfl
  | _ => rfl

theorem InodeStep.freed_by {s t : InodeCache} {k : ℕ × ℕ} (h : Referenced s) (hst : InodeStep s t)
    (ht : (s.disk k).type ≠ 0) (hz : (t.disk k).type = 0) :
    ∃ p e, s.pcs p = .clearing e ∧ (s.entries e).key = k := by
  have hother : ∀ k' r, k ≠ k' → (update s.disk k' r k).type ≠ 0 := by
    intro k' r hk
    rwa [update_of_ne hk]
  cases hst with
  | @setLinks p n e hp hm hl hv =>
    have hfresh := h.fresh_of_locked hp hm hl hv
    have hkeep : (s.entries e).copy.type ≠ 0 := by
      rw [hfresh.2]
      exact hfresh.1
    by_cases hk : k = (s.entries e).key
    · subst hk
      change (update s.disk (s.entries e).key {(s.entries e).copy with nlink := n} _).type = 0 at hz
      rw [update_self] at hz
      exact absurd hz hkeep
    · exact absurd hz (hother _ _ hk)
  | @ialloc p dev inum type hp hfree hn =>
    by_cases hk : k = (dev,inum)
    · subst hk
      exact absurd hfree ht
    · exact absurd hz (hother _ _ hk)
  | @clear p e hp =>
    by_cases hk : k = (s.entries e).key
    · exact ⟨p,e,hp,hk.symm⟩
    · exact absurd hz (hother _ _ hk)
  | _ => exact absurd hz ht

/-- In every interleaving an inode has at most one entry in use, reference counts count the references held,
and only a process in `iput` with the only reference frees an inode, which has no links. -/
theorem inode_cache_sound {s₀ s : InodeCache} (h₀ : s₀.Initial) (h : s₀.Reaches s) :
    (∀ e e', 0 < (s.entries e).ref → 0 < (s.entries e').ref → (s.entries e).dev = (s.entries e').dev →
      (s.entries e).inum = (s.entries e').inum → e = e') ∧
    (∀ e, (s.entries e).ref = s.refs.countP fun r => r.2 = e) ∧
    (∀ a t, s.step a = some t → ∀ e, 0 < (s.entries e).ref →
      (t.entries e).dev = (s.entries e).dev ∧ (t.entries e).inum = (s.entries e).inum) ∧
    (∀ p e, s.pcs p = .freeing e ∨ s.pcs p = .clearing e →
      (s.entries e).copy.nlink = 0 ∧ (s.disk (s.entries e).key).nlink = 0 ∧ (s.entries e).ref = 1 ∧
        (p,e) ∈ s.refs ∧ ∀ q, (q,e) ∈ s.refs → q = p) ∧
    ∀ a t, s.step a = some t → ∀ k, (s.disk k).type ≠ 0 → (t.disk k).type = 0 →
      ∃ p e, s.pcs p = .clearing e ∧ (s.entries e).key = k := by
  have hI := h.referenced h₀
  refine ⟨?_,hI.count,?_,?_,?_⟩
  · intro e e' he he' hdev hinum
    exact hI.unique e e' he he' (Prod.ext hdev hinum)
  · intro a t hst e he
    have hk := (InodeCache.step_cases hst).key_eq he
    exact ⟨congrArg Prod.fst hk,congrArg Prod.snd hk⟩
  · intro p e hp
    have hd : (s.pcs p).doomed = some e := by
      rcases hp with hp | hp <;> rw [hp] <;> rfl
    obtain ⟨hslot,hlock,hunlinked,-⟩ := IputPc.slot_of_doomed hd
    have hm := hI.holds p e hslot
    have hn := (hI.unlinked p e hunlinked).2
    exact ⟨hn,by rw [← hI.copy_eq hd,hn],hI.only p e hd,hm,fun q hq => hI.eq_of_doomed hd hq⟩
  · intro a t hst k ht hz
    exact (InodeCache.step_cases hst).freed_by hI ht hz

def oneFile : InodeCache where
  entries _ := ⟨0,0,0,false,⟨0,0⟩⟩
  lock _ := none
  disk k := if k = (1,5) then ⟨2,1⟩ else ⟨0,0⟩
  pcs _ := .ready
  refs := []

theorem oneFile_initial : oneFile.Initial := by
  refine ⟨fun _ => rfl,fun _ => rfl,rfl,fun k => ?_⟩
  simp only [oneFile]
  split
  · rintro ⟨⟩
  · exact fun _ => rfl

def unlinkShared : List InodeAction :=
  [.iget 1 1 5,.iget 2 1 5,.ilock 1 0,.setLinks 1 0 0,.iunlock 1 0,.iput 1 0,.next 1,.next 1,.next 1,
    .iput 2 0,.next 2]

theorem inode_cache_sound_unlinked : ∃ s, oneFile.Reaches s ∧ s.pcs 2 = .freeing 0 ∧
    (s.entries 0).copy.nlink = 0 ∧ (s.entries 0).ref = 1 ∧ ∀ q, (q,0) ∈ s.refs → q = 2 := by
  have hrun : (Runs.exec InodeCache.step (fun _ _ => True) unlinkShared oneFile).map
      (fun s => decide (s.pcs 2 = .freeing 0)) = some true := by decide +kernel
  obtain ⟨s,hs,hf⟩ := Runs.exists_reaches hrun
  have hp : s.pcs 2 = .freeing 0 := of_decide_eq_true hf
  obtain ⟨h1,-,h3,-,h5⟩ := (inode_cache_sound oneFile_initial hs).2.2.2.1 2 0 (Or.inl hp)
  exact ⟨s,hs,hp,h1,h3,h5⟩

/-- `ilock` does not panic: an inode to which a process has a reference is allocated. -/
theorem ilock_returns {s₀ s : InodeCache} (h₀ : s₀.Initial) (h : s₀.Reaches s) {p : ℕ} {e : CacheSlot}
    (hp : s.pcs p = .ready) (hr : (p,e) ∈ s.refs) (hl : s.lock e = none) :
    1 ≤ (s.entries e).ref ∧ ∃ t, s.step (.ilock p e) = some t ∧
      (t.entries e).copy = t.disk (t.entries e).key ∧ (t.disk (t.entries e).key).type ≠ 0 := by
  have hI := h.referenced h₀
  refine ⟨hI.ref_pos hr,?_⟩
  have htype := hI.alive p e hr (by simp [hp,IputPc.after])
  rw [InodeCache.step,if_pos ⟨hp,hr,hl⟩,InodeCache.ilock,if_neg htype]
  split
  · next hv =>
    obtain ⟨-,hcopy⟩ := hI.fresh e hv (hI.ref_pos hr) (by simp [hl])
    exact ⟨_,rfl,hcopy,htype⟩
  · refine ⟨_,rfl,?_⟩
    simpa [InodeCache.setLock,InodeCache.setEntry,CacheEntry.key] using htype

theorem ilock_returns_oneFile : ∃ s t, oneFile.Reaches s ∧ s.step (.ilock 2 0) = some t ∧
    (t.disk (t.entries 0).key).type ≠ 0 := by
  have hrun : (Runs.exec InodeCache.step (fun _ _ => True) [.iget 1 1 5,.iget 2 1 5] oneFile).map
      (fun s => decide (s.pcs 2 = .ready ∧ (2,0) ∈ s.refs ∧ s.lock 0 = none)) = some true := by decide +kernel
  obtain ⟨s,hs,hf⟩ := Runs.exists_reaches hrun
  obtain ⟨hp,hr,hl⟩ := of_decide_eq_true hf
  obtain ⟨-,t,ht,-,htype⟩ := ilock_returns oneFile_initial hs hp hr hl
  exact ⟨s,t,hs,ht,htype⟩

end Xv6Paging
