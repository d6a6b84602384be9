import Mathlib.Data.Fintype.Card
import Xv6Paging.FileSystem.BufferCache
import Xv6Paging.Library.Runs

/-! # Coherence of the buffer cache

The buffers stay on one ring, a block has at most one buffer, and `refcnt` counts the
uses of a buffer, so that a buffer in use is never given to another block. The contents
follow: a valid buffer has the data last stored for its block, and so has the disk,
unless the block's buffer is dirty or is being changed.
-/
namespace Xv6Paging
open LinkRing LinkedCells Sector Function

@[grind] def BufUse.slot : BufUse → Option BufSlot
  | .idle => none
  | .waiting b => some b
  | .filling b => some b
  | .holding b => some b
  | .changed b => some b
  | .writing b => some b
  | .releasing b => some b

@[grind] def BufUse.locking : BufUse → Option BufSlot
  | .filling b => some b
  | .holding b => some b
  | .changed b => some b
  | .writing b => some b
  | _ => none

@[grind] def BufUse.owning : BufUse → Option BufSlot
  | .holding b => some b
  | .changed b => some b
  | .writing b => some b
  | _ => none

theorem BufUse.slot_of_locking {u : BufUse} {b : BufSlot} (h : u.locking = some b) : u.slot = some b := by
  cases u <;> first | exact h | cases h

theorem BufUse.locking_of_owning {u : BufUse} {b : BufSlot} (h : u.owning = some b) : u.locking = some b := by
  cases u <;> first | exact h | cases h

inductive BufferStep (s : BufferCache) : BufferCache → Prop
  | hit {k dev blockno : ℕ} {b : BufSlot} (hk : s.uses k = .idle) (hd : dev ≠ 0)
      (hb : s.lookup (dev,blockno) = some b) :
      BufferStep s ((s.setBuf b {s.buf b with refcnt := (s.buf b).refcnt+1}).join k b (dev,blockno))
  | recycle {k dev blockno : ℕ} {b : BufSlot} (hk : s.uses k = .idle) (hd : dev ≠ 0)
      (hnone : s.lookup (dev,blockno) = none) (hb : s.unused = some b) :
      BufferStep s ((s.setBuf b {s.buf b with
        dev := dev, blockno := blockno, valid := false, dirty := false, refcnt := 1}).join k b (dev,blockno))
  | acquire {k : ℕ} {b : BufSlot} (hk : s.uses k = .waiting b) (hl : s.lock b = none) :
      BufferStep s ((s.setLock b (some k)).setUse k (if (s.buf b).valid then .holding b else .filling b))
  | iderw {k : ℕ} {b : BufSlot} (hk : s.uses k = .filling b ∨ s.uses k = .writing b) :
      BufferStep s ((s.iderw b).setUse k (.holding b))
  | change {k : ℕ} {b : BufSlot} {data : Block} (hk : s.uses k = .holding b ∨ s.uses k = .changed b) :
      BufferStep s (s.change k b data)
  | mark {k : ℕ} {b : BufSlot} {u : BufUse} (hk : s.uses k = .holding b ∨ s.uses k = .changed b)
      (hu : u = .writing b ∨ u = .holding b) : BufferStep s ((s.setDirty b).setUse k u)
  | brelse {k : ℕ} {b : BufSlot} (hk : s.uses k = .holding b) :
      BufferStep s ((s.setLock b none).setUse k (.releasing b))
  | drop {k : ℕ} {b : BufSlot} (hk : s.uses k = .releasing b) : BufferStep s (s.drop k b)

theorem BufferCache.step_cases {s t : BufferCache} {a : BufferAction} (h : s.step a = some t) :
    BufferStep s t := by
  cases a with
  | bget k dev blockno =>
    simp only [step] at h
    split at h
    · next hk =>
      split at h
      · cases h
      · next hd =>
        rw [bget] at h
        split at h
        · next b hb =>
          cases h
          exact .hit hk hd hb
        · next hnone =>
          split at h
          · next b hb =>
            cases h
            exact .recycle hk hd hnone hb
          · cases h
    · cases h
  | acquire k =>
    simp only [step] at h
    split at h
    · next b hk =>
      split at h
      · next hl =>
        cases h
        exact .acquire hk hl
      · cases h
    · cases h
  | iderw k =>
    simp only [step] at h
    split at h
    · next b hk =>
      cases h
      exact .iderw (Or.inl hk)
    · next b hk =>
      cases h
      exact .iderw (Or.inr hk)
    · cases h
  | change k data =>
    simp only [step] at h
    split at h
    · next b hk =>
      cases h
      exact .change (Or.inl hk)
    · next b hk =>
      cases h
      exact .change (Or.inr hk)
    · cases h
  | bwrite k =>
    simp only [step] at h
    split at h
    · next b hk =>
      cases h
      exact .mark (Or.inl hk) (Or.inl rfl)
    · next b hk =>
      cases h
      exact .mark (Or.inr hk) (Or.inl rfl)
    · cases h
  | logWrite k =>
    simp only [step] at h
    split at h
    · next b hk =>
      cases h
      exact .mark (Or.inl hk) (Or.inr rfl)
    · next b hk =>
      cases h
      exact .mark (Or.inr hk) (Or.inr rfl)
    · cases h
  | brelse k =>
    simp only [step] at h
    split at h
    · next b hk =>
      cases h
      exact .brelse hk
    · cases h
  | drop k =>
    simp only [step] at h
    split at h
    · next b hk =>
      cases h
      exact .drop hk
    · cases h

/-- The shape of the cache: `count` and `users` say that `refcnt` is the number of uses. -/
structure Shared (s : BufferCache) : Prop where
  ring : ∃ l, IsRing s.links l ∧ ∀ b, b ∈ l
  unique : ∀ b b', (s.buf b).dev ≠ 0 → (s.buf b).key = (s.buf b').key → b = b'
  count : ∀ b, (s.buf b).refcnt = (s.users b).length
  nodup : ∀ b, (s.users b).Nodup
  users : ∀ b k, k ∈ s.users b ↔ (s.uses k).slot = some b
  request : ∀ k b, (s.uses k).slot = some b → (s.buf b).key = s.request k ∧ (s.buf b).dev ≠ 0
  locked : ∀ k b, (s.uses k).locking = some b → s.lock b = some k

section Shared
variable {s t : BufferCache} {k dev blockno : ℕ} {b : BufSlot}

theorem bufSlots_length_lt {l : List BufSlot} (h : l.Nodup) : l.length < 31 := by
  have hle := List.Nodup.length_le_card h
  rw [Fintype.card_fin] at hle
  omega

theorem Shared.lookup_some (h : Shared s) {key : ℕ × ℕ} (hb : s.lookup key = some b) : (s.buf b).key = key := by
  obtain ⟨l,hl,-⟩ := h.ring
  rw [BufferCache.lookup,chase_eq hl.forward _ (bufSlots_length_lt hl.nodup)] at hb
  simpa using List.find?_some hb

theorem Shared.lookup_none (h : Shared s) {key : ℕ × ℕ} (hnone : s.lookup key = none) (b : BufSlot) :
    (s.buf b).key ≠ key := by
  obtain ⟨l,hl,hall⟩ := h.ring
  rw [BufferCache.lookup,chase_eq hl.forward _ (bufSlots_length_lt hl.nodup)] at hnone
  simpa using List.find?_eq_none.mp hnone b (hall b)

theorem Shared.unused_some (h : Shared s) (hb : s.unused = some b) :
    (s.buf b).refcnt = 0 ∧ (s.buf b).dirty = false := by
  obtain ⟨l,hl,-⟩ := h.ring
  have hlen := bufSlots_length_lt (List.nodup_reverse.mpr hl.nodup)
  rw [BufferCache.unused,chase_eq hl.backward _ hlen] at hb
  simpa using List.find?_some hb

theorem Shared.no_use (h : Shared s) (hb : (s.buf b).refcnt = 0) (k : ℕ) : (s.uses k).slot ≠ some b := by
  rw [h.count b,List.length_eq_zero_iff] at hb
  intro hk
  have hm := (h.users b k).mpr hk
  rw [hb] at hm
  cases hm

theorem Shared.alone (h : Shared s) {j : ℕ} (hk : (s.uses k).locking = some b) (hj : (s.uses j).locking = some b) :
    j = k := by
  have hl := h.locked k b hk
  rw [h.locked j b hj] at hl
  exact Option.some.inj hl

theorem Shared.hit (h : Shared s) (hk : s.uses k = .idle) (hd : dev ≠ 0) (hb : s.lookup (dev,blockno) = some b) :
    Shared ((s.setBuf b {s.buf b with refcnt := (s.buf b).refcnt+1}).join k b (dev,blockno)) := by
  have hkey := h.lookup_some hb
  obtain ⟨hring,hunique,hcount,hnodup,husers,hrequest,hlocked⟩ := h
  constructor <;> simp only [BufferCache.join,BufferCache.setUse,BufferCache.setBuf]
  · exact hring
  · grind [Buf.key]
  · grind
  · grind
  · grind
  · grind [Buf.key]
  · grind

theorem Shared.recycle (h : Shared s) (hk : s.uses k = .idle) (hd : dev ≠ 0)
    (hnone : s.lookup (dev,blockno) = none) (hb : s.unused = some b) :
    Shared ((s.setBuf b {s.buf b with
      dev := dev, blockno := blockno, valid := false, dirty := false, refcnt := 1}).join k b (dev,blockno)) := by
  have hmiss := h.lookup_none hnone
  have hfree := (h.unused_some hb).1
  have hno := h.no_use hfree
  have hnil : s.users b = [] := List.length_eq_zero_iff.mp (hfree ▸ (h.count b).symm)
  obtain ⟨hring,hunique,hcount,hnodup,husers,hrequest,hlocked⟩ := h
  constructor <;> simp only [BufferCache.join,BufferCache.setUse,BufferCache.setBuf]
  · exact hring
  · grind [Buf.key]
  · grind
  · grind
  · grind
  · grind [Buf.key]
  · grind

theorem Shared.relock (u : BufUse) (lock : BufSlot → Option ℕ) (h : Shared s) (hu : u.slot = (s.uses k).slot)
    (hlocking : ∀ b, u.locking = some b → lock b = some k)
    (hothers : ∀ j b, j ≠ k → (s.uses j).locking = some b → lock b = some j) :
    Shared {s with uses := update s.uses k u, lock := lock} := by
  obtain ⟨hring,hunique,hcount,hnodup,husers,hrequest,hlocked⟩ := h
  refine ⟨hring,hunique,hcount,hnodup,?_,?_,?_⟩
  · grind
  · grind
  · grind

theorem Shared.edit {u : BufUse} {c : Buf} {disk stored : ℕ × ℕ → Block} (h : Shared s)
    (hk : (s.uses k).locking = some b) (hu : u.locking = some b) (hkey : c.key = (s.buf b).key)
    (hrefcnt : c.refcnt = (s.buf b).refcnt) :
    Shared {s with
      buf := update s.buf b c, uses := update s.uses k u, disk := disk, stored := stored} := by
  have hslot : u.slot = (s.uses k).slot :=
    (BufUse.slot_of_locking hu).trans (BufUse.slot_of_locking hk).symm
  obtain ⟨hring,hunique,hcount,hnodup,husers,hrequest,hlocked⟩ := h
  refine ⟨hring,?_,?_,hnodup,?_,?_,?_⟩
  · grind [Buf.key]
  · grind
  · grind
  · grind [Buf.key]
  · grind

theorem ring_moveFront {k : Links BufSlot} (b : BufSlot) (h : ∃ l, IsRing k l ∧ ∀ b, b ∈ l) :
    ∃ l, IsRing ((k.unlink b).pushFront b) l ∧ ∀ b, b ∈ l := by
  obtain ⟨l,hl,hall⟩ := h
  obtain ⟨pre,post,rfl⟩ := List.append_of_mem (hall b)
  refine ⟨b :: (pre ++ post),hl.unlink.pushFront (not_mem_remove hl.nodup),fun b' => ?_⟩
  have hb' := hall b'
  simp only [List.mem_append,List.mem_cons] at hb' ⊢
  tauto

theorem Shared.drop (h : Shared s) (hk : s.uses k = .releasing b) : Shared (s.drop k b) := by
  have hring := ring_moveFront b h.ring
  have hmem : k ∈ s.users b := (h.users b k).mpr (by rw [hk]; rfl)
  have hlen := List.length_erase_of_mem hmem
  have hdropped : Shared {(s.setBuf b {s.buf b with refcnt := (s.buf b).refcnt-1}).setUse k .idle with
      users := update s.users b ((s.users b).erase k)} := by
    obtain ⟨hring,hunique,hcount,hnodup,husers,hrequest,hlocked⟩ := h
    have herase := fun j => (hnodup b).mem_erase_iff (a := j) (b := k)
    have hnd := (hnodup b).erase k
    constructor <;> simp only [BufferCache.setUse,BufferCache.setBuf]
    · exact hring
    · grind [Buf.key]
    · grind
    · grind
    · grind
    · grind [Buf.key]
    · grind
  rw [BufferCache.drop]
  split
  · obtain ⟨-,hunique,hcount,hnodup,husers,hrequest,hlocked⟩ := hdropped
    exact ⟨hring,hunique,hcount,hnodup,husers,hrequest,hlocked⟩
  · exact hdropped

theorem Shared.step (h : Shared s) (hst : BufferStep s t) : Shared t := by
  cases hst with
  | hit hk hd hb => exact h.hit hk hd hb
  | recycle hk hd hnone hb => exact h.recycle hk hd hnone hb
  | @acquire k b hk hl =>
    refine h.relock _ _ ?_ ?_ fun j b' _ hj => ?_
    · rw [hk]
      split <;> rfl
    · split <;> (rintro _ ⟨⟩; exact update_self ..)
    · have hlock := h.locked j b' hj
      have hne : b' ≠ b := by
        rintro rfl
        rw [hl] at hlock
        cases hlock
      exact (update_of_ne hne _ _).trans hlock
  | @iderw k b hk =>
    have hlocking : (s.uses k).locking = some b := by rcases hk with hk | hk <;> rw [hk] <;> rfl
    rw [BufferCache.iderw]
    split
    · exact h.edit hlocking rfl rfl rfl
    · exact h.edit hlocking rfl rfl rfl
  | @change k b data hk =>
    have hlocking : (s.uses k).locking = some b := by rcases hk with hk | hk <;> rw [hk] <;> rfl
    exact h.edit hlocking rfl rfl rfl
  | @mark k b u hk hu =>
    have hlocking : (s.uses k).locking = some b := by rcases hk with hk | hk <;> rw [hk] <;> rfl
    have hu' : u.locking = some b := by rcases hu with hu | hu <;> rw [hu] <;> rfl
    exact h.edit hlocking hu' rfl rfl
  | @brelse k b hk =>
    refine h.relock _ _ (by rw [hk]; rfl) (by rintro _ ⟨⟩) fun j b' hj hjb => ?_
    have hlock := h.locked j b' hjb
    have hne : b' ≠ b := by
      rintro rfl
      exact hj (h.alone (by rw [hk]; rfl) hjb)
    exact (update_of_ne hne _ _).trans hlock
  | drop hk => exact h.drop hk

end Shared

/-- Valid buffers are up to date, and so is the disk for every block without a buffer that is dirty or being
changed. -/
structure Current (s : BufferCache) : Prop where
  owned : ∀ k b, (s.uses k).owning = some b → (s.buf b).valid = true
  filling : ∀ k b, s.uses k = .filling b → (s.buf b).valid = false
  writing : ∀ k b, s.uses k = .writing b → (s.buf b).dirty = true
  pinned : ∀ b, (s.buf b).dirty = true → (s.buf b).valid = true
  clean : ∀ b, (s.buf b).valid = true → (s.buf b).data = s.stored (s.buf b).key
  home : ∀ key, (∀ b, (s.buf b).key = key → (s.buf b).dirty = false ∧ ∀ k, s.uses k ≠ .changed b) →
    s.disk key = s.stored key

section Current
variable {s t : BufferCache} {k dev blockno : ℕ} {b : BufSlot}

theorem Current.quiet (h : Current s) (hdisk : t.disk = s.disk) (hstored : t.stored = s.stored)
    (hbuf : ∀ b, (t.buf b).valid = (s.buf b).valid ∧ (t.buf b).dirty = (s.buf b).dirty ∧
      (t.buf b).data = (s.buf b).data ∧ (t.buf b).key = (s.buf b).key)
    (howned : ∀ k b, (t.uses k).owning = some b → (s.buf b).valid = true)
    (hfilling : ∀ k b, t.uses k = .filling b → (s.buf b).valid = false)
    (hwriting : ∀ k b, t.uses k = .writing b → (s.buf b).dirty = true)
    (hchanged : ∀ k b, s.uses k = .changed b → t.uses k = .changed b) : Current t := by
  refine ⟨fun k b hk => ?_,fun k b hk => ?_,fun k b hk => ?_,fun b hb => ?_,fun b hb => ?_,fun key hall => ?_⟩
  · rw [(hbuf b).1]
    exact howned k b hk
  · rw [(hbuf b).1]
    exact hfilling k b hk
  · rw [(hbuf b).2.1]
    exact hwriting k b hk
  · rw [(hbuf b).2.1] at hb
    rw [(hbuf b).1]
    exact h.pinned b hb
  · obtain ⟨hvalid,-,hdata,hkey⟩ := hbuf b
    rw [hvalid] at hb
    rw [hdata,hkey,hstored]
    exact h.clean b hb
  · rw [hdisk,hstored]
    refine h.home key fun b hb => ?_
    obtain ⟨-,hdirty,-,hkey⟩ := hbuf b
    obtain ⟨h1,h2⟩ := hall b (hkey.trans hb)
    exact ⟨hdirty ▸ h1,fun k hk => h2 k (hchanged k b hk)⟩

theorem Current.move {u : BufUse} (h : Current s) (hdisk : t.disk = s.disk) (hstored : t.stored = s.stored)
    (hbuf : ∀ b, (t.buf b).valid = (s.buf b).valid ∧ (t.buf b).dirty = (s.buf b).dirty ∧
      (t.buf b).data = (s.buf b).data ∧ (t.buf b).key = (s.buf b).key)
    (huses : t.uses = update s.uses k u) (hold : ∀ b, s.uses k ≠ .changed b)
    (howned : ∀ b, u.owning = some b → (s.buf b).valid = true)
    (hfilling : ∀ b, u = .filling b → (s.buf b).valid = false) (hwriting : ∀ b, u ≠ .writing b) : Current t := by
  refine h.quiet hdisk hstored hbuf (fun j b hj => ?_) (fun j b hj => ?_) (fun j b hj => ?_) fun j b hj => ?_ <;>
    rw [huses] at *
  all_goals by_cases hjk : j = k
  · rw [hjk,update_self] at hj
    exact howned b hj
  · rw [update_of_ne hjk] at hj
    exact h.owned j b hj
  · rw [hjk,update_self] at hj
    exact hfilling b hj
  · rw [update_of_ne hjk] at hj
    exact h.filling j b hj
  · rw [hjk,update_self] at hj
    exact (hwriting b hj).elim
  · rw [update_of_ne hjk] at hj
    exact h.writing j b hj
  · exact (hold b (hjk ▸ hj)).elim
  · rw [update_of_ne hjk]
    exact hj

theorem buf_update_refcnt (s : BufferCache) (b : BufSlot) (n : ℕ) (b' : BufSlot) :
    let c := update s.buf b {s.buf b with refcnt := n} b'
    c.valid = (s.buf b').valid ∧ c.dirty = (s.buf b').dirty ∧ c.data = (s.buf b').data ∧
      c.key = (s.buf b').key := by
  by_cases hb : b' = b
  · subst hb
    rw [update_self]
    exact ⟨rfl,rfl,rfl,rfl⟩
  · rw [update_of_ne hb]
    exact ⟨rfl,rfl,rfl,rfl⟩

theorem Current.recycle (h : Current s) (hs : Shared s) (hk : s.uses k = .idle) (hb : s.unused = some b) :
    Current ((s.setBuf b {s.buf b with
      dev := dev, blockno := blockno, valid := false, dirty := false, refcnt := 1}).join k b (dev,blockno)) := by
  obtain ⟨hfree,hdirty⟩ := hs.unused_some hb
  have hno := hs.no_use hfree
  have hne : ∀ j b', (s.uses j).slot = some b' → b' ≠ b := by
    rintro j b' hj rfl
    exact hno j hj
  refine ⟨fun j b' hj => ?_,fun j b' hj => ?_,fun j b' hj => ?_,fun b' hb' => ?_,fun b' hb' => ?_,
    fun key hall => ?_⟩ <;> simp only [BufferCache.join,BufferCache.setUse,BufferCache.setBuf] at *
  · have hjk : j ≠ k := by
      rintro rfl
      rw [update_self] at hj
      cases hj
    rw [update_of_ne hjk] at hj
    rw [update_of_ne (hne j b' (BufUse.slot_of_locking (BufUse.locking_of_owning hj)))]
    exact h.owned j b' hj
  · have hjk : j ≠ k := by
      rintro rfl
      rw [update_self] at hj
      cases hj
    rw [update_of_ne hjk] at hj
    rw [update_of_ne (hne j b' (by rw [hj]; rfl))]
    exact h.filling j b' hj
  · have hjk : j ≠ k := by
      rintro rfl
      rw [update_self] at hj
      cases hj
    rw [update_of_ne hjk] at hj
    rw [update_of_ne (hne j b' (by rw [hj]; rfl))]
    exact h.writing j b' hj
  · by_cases hbb : b' = b
    · rw [hbb,update_self] at hb'
      cases hb'
    · rw [update_of_ne hbb] at hb' ⊢
      exact h.pinned b' hb'
  · by_cases hbb : b' = b
    · rw [hbb,update_self] at hb'
      cases hb'
    · rw [update_of_ne hbb] at hb' ⊢
      exact h.clean b' hb'
  · refine h.home key fun b' hb' => ?_
    by_cases hbb : b' = b
    · subst hbb
      exact ⟨hdirty,fun j hj => hno j (by rw [hj]; rfl)⟩
    · have hkeep := hall b'
      rw [update_of_ne hbb] at hkeep
      obtain ⟨h1,h2⟩ := hkeep hb'
      refine ⟨h1,fun j hj => h2 j ?_⟩
      have hjk : j ≠ k := by
        rintro rfl
        rw [hk] at hj
        cases hj
      rw [update_of_ne hjk]
      exact hj

theorem Current.edit {u : BufUse} {c : Buf} {disk stored : ℕ × ℕ → Block} (h : Current s) (hs : Shared s)
    (hk : (s.uses k).locking = some b) (hu : u.owning = some b) (hkey : c.key = (s.buf b).key)
    (hvalid : c.valid = true) (hwriting : u = .writing b → c.dirty = true) (hclean : c.data = stored c.key)
    (hdisk : ∀ key, key ≠ c.key → disk key = s.disk key)
    (hstored : ∀ key, key ≠ c.key → stored key = s.stored key)
    (hhome : c.dirty = false → u ≠ .changed b → disk c.key = stored c.key) :
    Current {s with
      buf := update s.buf b c, uses := update s.uses k u, disk := disk, stored := stored} := by
  have hdev := (hs.request k b (BufUse.slot_of_locking hk)).2
  have hother : ∀ b', b' ≠ b → (s.buf b').key ≠ c.key := by
    intro b' hb' he
    exact hb' (hs.unique b b' hdev (he.trans hkey).symm).symm
  have halone : ∀ j b', j ≠ k → (s.uses j).locking = some b' → b' ≠ b := by
    rintro j b' hj hjb rfl
    exact hj (hs.alone hk hjb)
  refine ⟨fun j b' hj => ?_,fun j b' hj => ?_,fun j b' hj => ?_,fun b' hb' => ?_,fun b' hb' => ?_,
    fun key hall => ?_⟩ <;> dsimp only at *
  · by_cases hjk : j = k
    · rw [hjk,update_self,hu] at hj
      cases hj
      rw [update_self]
      exact hvalid
    · rw [update_of_ne hjk] at hj
      rw [update_of_ne (halone j b' hjk (BufUse.locking_of_owning hj))]
      exact h.owned j b' hj
  · by_cases hjk : j = k
    · rw [hjk,update_self] at hj
      rw [hj] at hu
      cases hu
    · rw [update_of_ne hjk] at hj
      rw [update_of_ne (halone j b' hjk (by rw [hj]; rfl))]
      exact h.filling j b' hj
  · by_cases hjk : j = k
    · rw [hjk,update_self] at hj
      have hbb : b' = b := by
        rw [hj] at hu
        exact Option.some.inj hu
      rw [hbb,update_self]
      exact hwriting (hbb ▸ hj)
    · rw [update_of_ne hjk] at hj
      rw [update_of_ne (halone j b' hjk (by rw [hj]; rfl))]
      exact h.writing j b' hj
  · by_cases hbb : b' = b
    · rw [hbb,update_self]
      exact hvalid
    · rw [update_of_ne hbb] at hb' ⊢
      exact h.pinned b' hb'
  · by_cases hbb : b' = b
    · rw [hbb,update_self]
      exact hclean
    · rw [update_of_ne hbb] at hb' ⊢
      rw [hstored _ (hother b' hbb)]
      exact h.clean b' hb'
  · by_cases he : key = c.key
    · subst he
      obtain ⟨h1,h2⟩ := hall b (by rw [update_self])
      rw [update_self] at h1
      refine hhome h1 fun hc => h2 k ?_
      rw [update_self]
      exact hc
    · rw [hdisk key he,hstored key he]
      refine h.home key fun b' hb' => ?_
      have hbb : b' ≠ b := by
        rintro rfl
        exact he (hb'.symm.trans hkey.symm)
      have hkeep := hall b'
      rw [update_of_ne hbb] at hkeep
      obtain ⟨h1,h2⟩ := hkeep hb'
      refine ⟨h1,fun j hj => h2 j ?_⟩
      have hjk : j ≠ k := by
        rintro rfl
        rw [hj] at hk
        exact hbb (Option.some.inj hk)
      rw [update_of_ne hjk]
      exact hj

theorem Current.step (h : Current s) (hs : Shared s) (hst : BufferStep s t) : Current t := by
  cases hst with
  | @hit k dev blockno b hk hd hb =>
    exact h.move rfl rfl (buf_update_refcnt s b _) rfl (by rw [hk]; rintro _ ⟨⟩) (by rintro _ ⟨⟩)
      (by rintro _ ⟨⟩) (by rintro _ ⟨⟩)
  | recycle hk hd hnone hb => exact h.recycle hs hk hb
  | @acquire k b hk hl =>
    refine h.move rfl rfl (fun _ => ⟨rfl,rfl,rfl,rfl⟩) rfl (by rw [hk]; rintro _ ⟨⟩) ?_ ?_ ?_
    · split
      · next hv =>
        rintro _ ⟨⟩
        exact hv
      · rintro _ ⟨⟩
    · split
      · rintro _ ⟨⟩
      · next hv =>
        rintro _ ⟨⟩
        exact Bool.not_eq_true _ ▸ hv
    · split <;> rintro _ ⟨⟩
  | @iderw k b hk =>
    have hlocking : (s.uses k).locking = some b := by rcases hk with hk | hk <;> rw [hk] <;> rfl
    obtain ⟨hkey,hdev⟩ := hs.request k b (BufUse.slot_of_locking hlocking)
    rw [BufferCache.iderw]
    split
    · next hd =>
      have hclean := h.clean b (h.pinned b hd)
      refine h.edit hs hlocking rfl rfl rfl (by rintro ⟨⟩) hclean (fun key hne => ?_) (fun _ _ => rfl) fun _ _ => ?_
      · exact update_of_ne hne _ _
      · exact (update_self ..).trans hclean
    · next hd =>
      -- the block's only buffer is this one, so the disk has what was stored last
      have hhome : s.disk (s.buf b).key = s.stored (s.buf b).key := by
        refine h.home _ fun b' hb' => ?_
        have hbb := hs.unique b b' hdev hb'.symm
        subst hbb
        refine ⟨Bool.not_eq_true _ ▸ hd,fun j hj => ?_⟩
        have hjk := hs.alone hlocking (j := j) (by rw [hj]; rfl)
        rw [← hjk,hj] at hk
        rcases hk with hk | hk <;> cases hk
      exact h.edit hs hlocking rfl rfl rfl (by rintro ⟨⟩) hhome (fun _ _ => rfl) (fun _ _ => rfl) fun _ _ => hhome
  | @change k b data hk =>
    have howning : (s.uses k).owning = some b := by rcases hk with hk | hk <;> rw [hk] <;> rfl
    have hself : update s.stored (s.buf b).key data (s.buf b).key = data := update_self ..
    refine h.edit hs (BufUse.locking_of_owning howning) rfl rfl (h.owned k b howning) (by rintro ⟨⟩)
      hself.symm (fun _ _ => rfl) (fun key hne => ?_) fun _ hu => (hu rfl).elim
    exact update_of_ne hne _ _
  | @mark k b u hk hu =>
    have howning : (s.uses k).owning = some b := by rcases hk with hk | hk <;> rw [hk] <;> rfl
    have hvalid := h.owned k b howning
    exact h.edit hs (BufUse.locking_of_owning howning) (by rcases hu with hu | hu <;> rw [hu] <;> rfl) rfl hvalid
      (fun _ => rfl) (h.clean b hvalid) (fun _ _ => rfl) (fun _ _ => rfl) (by rintro ⟨⟩)
  | @brelse k b hk =>
    exact h.move rfl rfl (fun _ => ⟨rfl,rfl,rfl,rfl⟩) rfl (by rw [hk]; rintro _ ⟨⟩) (by rintro _ ⟨⟩)
      (by rintro _ ⟨⟩) (by rintro _ ⟨⟩)
  | @drop k b hk =>
    have hbuf := buf_update_refcnt s b ((s.buf b).refcnt-1)
    rw [BufferCache.drop]
    split
    · exact h.move rfl rfl hbuf rfl (by rw [hk]; rintro _ ⟨⟩) (by rintro _ ⟨⟩) (by rintro _ ⟨⟩) (by rintro _ ⟨⟩)
    · exact h.move rfl rfl hbuf rfl (by rw [hk]; rintro _ ⟨⟩) (by rintro _ ⟨⟩) (by rintro _ ⟨⟩) (by rintro _ ⟨⟩)

end Current

theorem binit_shared (disk : ℕ × ℕ → Block) : Shared (BufferCache.binit disk) := by
  refine ⟨⟨(List.finRange 30).reverse ++ [],isRing_empty.foldl_pushFront (by simp [List.nodup_finRange]),?_⟩,
    fun _ _ hd => (hd rfl).elim,fun _ => rfl,fun _ => List.nodup_nil,fun b k => ?_,?_,?_⟩
  · intro b
    simp
  · exact ⟨by rintro ⟨⟩,by rintro ⟨⟩⟩
  · rintro k b ⟨⟩
  · rintro k b ⟨⟩

theorem binit_current (disk : ℕ × ℕ → Block) : Current (BufferCache.binit disk) := by
  refine ⟨?_,?_,?_,?_,?_,fun _ _ => rfl⟩
  · rintro k b ⟨⟩
  · rintro k b ⟨⟩
  · rintro k b ⟨⟩
  · rintro b ⟨⟩
  · rintro b ⟨⟩

def BufferCache.Reaches : BufferCache → BufferCache → Prop := Runs.Reaches BufferCache.step fun _ _ => True

theorem BufferCache.Reaches.invariant {disk : ℕ × ℕ → Block} {s : BufferCache} (h : (binit disk).Reaches s) :
    Shared s ∧ Current s := by
  refine Runs.Reaches.invariant (I := fun s => Shared s ∧ Current s) h ⟨binit_shared disk,binit_current disk⟩ ?_
  intro s a t hs _ hst
  have hcases := step_cases hst
  exact ⟨hs.1.step hcases,hs.2.step hs.1 hcases⟩

theorem BufferStep.reassigned {s t : BufferCache} (h : Shared s) (hst : BufferStep s t) {b : BufSlot}
    (hb : (t.buf b).key ≠ (s.buf b).key) : (s.buf b).refcnt = 0 ∧ (s.buf b).dirty = false := by
  have hupdate : ∀ b' (c : Buf), c.key = (s.buf b').key → (update s.buf b' c b).key = (s.buf b).key := by
    intro b' c hc
    by_cases he : b = b'
    · subst he
      rw [update_self,hc]
    · rw [update_of_ne he]
  cases hst with
  | @recycle k dev blockno b' hk hd hnone hb' =>
    by_cases he : b = b'
    · rw [he]
      exact h.unused_some hb'
    · exact (hb (congrArg Buf.key (update_of_ne he _ _))).elim
  | hit => exact (hb (hupdate _ _ rfl)).elim
  | change => exact (hb (hupdate _ _ rfl)).elim
  | mark => exact (hb (hupdate _ _ rfl)).elim
  | @iderw k b' hk =>
    refine (hb ?_).elim
    simp only [BufferCache.setUse,BufferCache.iderw]
    split
    · exact hupdate _ _ rfl
    · exact hupdate _ _ rfl
  | @drop k b' hk =>
    refine (hb ?_).elim
    simp only [BufferCache.drop]
    split
    · exact hupdate _ _ rfl
    · exact hupdate _ _ rfl
  | acquire => exact (hb rfl).elim
  | brelse => exact (hb rfl).elim

/-- In every reachable state `next` and `prev` go through all buffers in opposite orders, a block has at
most one buffer, `refcnt` counts the uses, only an unused clean buffer gets another block, and `bread` has
returned the data last stored. -/
theorem buffer_cache_coherent {disk : ℕ × ℕ → Block} {s : BufferCache} (h : (BufferCache.binit disk).Reaches s) :
    (∃ l : List BufSlot, l.Nodup ∧ (∀ b, b ∈ l) ∧
      Follows (fun b => s.links.next (some b)) (s.links.next none) l ∧
      Follows (fun b => s.links.prev (some b)) (s.links.prev none) l.reverse) ∧
    (∀ b b', (s.buf b).dev ≠ 0 → (s.buf b).dev = (s.buf b').dev → (s.buf b).blockno = (s.buf b').blockno →
      b = b') ∧
    (∀ b, (s.users b).Nodup ∧ (∀ k, k ∈ s.users b ↔ (s.uses k).slot = some b) ∧
      (s.buf b).refcnt = (s.users b).length) ∧
    (∀ a t b, s.step a = some t → (t.buf b).key ≠ (s.buf b).key →
      (s.buf b).refcnt = 0 ∧ (s.buf b).dirty = false) ∧
    ∀ k b, s.uses k = .holding b → (s.buf b).key = s.request k ∧ (s.buf b).data = s.stored (s.request k) := by
  obtain ⟨hs,hc⟩ := h.invariant
  refine ⟨?_,?_,fun b => ⟨hs.nodup b,hs.users b,hs.count b⟩,?_,?_⟩
  · obtain ⟨l,hl,hall⟩ := hs.ring
    exact ⟨l,hl.nodup,hall,hl.forward,hl.backward⟩
  · intro b b' hd hdev hblockno
    exact hs.unique b b' hd (Prod.ext hdev hblockno)
  · intro a t b hst hb
    exact (BufferCache.step_cases hst).reassigned hs hb
  · intro k b hk
    have howning : (s.uses k).owning = some b := by rw [hk]; rfl
    have hkey := (hs.request k b (by rw [hk]; rfl)).1
    have hdata := hc.clean b (hc.owned k b howning)
    rw [hkey] at hdata
    exact ⟨hkey,hdata⟩

def logThenRead : List BufferAction :=
  [.bget 0 1 5,.acquire 0,.iderw 0,.change 0 fun _ => 7,.logWrite 0,.brelse 0,.drop 0,.bget 1 1 5,.acquire 1]

theorem buffer_cache_coherent_logged : ∃ s, (BufferCache.binit fun _ _ => 0).Reaches s ∧
    s.uses 1 = .holding 0 ∧ (s.buf 0).data 0 = 7 := by
  have hrun : (Runs.exec BufferCache.step (fun _ _ => True) logThenRead (BufferCache.binit fun _ _ => 0)).map
      (fun s => decide (s.uses 1 = .holding 0 ∧ s.stored (s.request 1) 0 = 7)) = some true := by decide +kernel
  obtain ⟨s,hs,hf⟩ := Runs.exists_reaches hrun
  obtain ⟨hk,hdata⟩ := of_decide_eq_true hf
  have hread := ((buffer_cache_coherent hs).2.2.2.2 1 0 hk).2
  exact ⟨s,hs,hk,by rw [hread]; exact hdata⟩

end Xv6Paging
