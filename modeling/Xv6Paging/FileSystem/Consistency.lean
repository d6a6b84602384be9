import Xv6Paging.FileSystem.FileContents
import Xv6Paging.Library.Runs

/-! # A consistent file system

The file system is consistent when the blocks of the allocated inodes are owned
exclusively and the free map is true, every inode has the blocks that its size asks for,
and an inode in the cache that is valid is the one on the disk. Every call that its
callers are allowed to make keeps this and fails only for want of blocks or inodes.
-/
namespace Xv6Paging.Fs
open WordPage Sector Ownership Function
variable {sb : Superblock} {start : ℕ} {d d' : Disk} {s t : FsState} {i : ℕ} {x : Dinode}

/-- The allocated inodes as they are on the disk; a free inode has no blocks whatever it holds. -/
def table (sb : Superblock) (d : Disk) (i : ℕ) : Dinode :=
  if i < sb.ninodes ∧ (sb.dinode d i).type ≠ 0 then sb.dinode d i else Dinode.zero

structure Consistent (sb : Superblock) (start : ℕ) (s : FsState) : Prop where
  blocks : Blocks sb start (table sb s.disk) s.disk ∅
  full : ∀ i bn, bn*bSize < (table sb s.disk i).size.toNat → blockOf (table sb s.disk) s.disk i bn ≠ none
  live : ∀ i, 0 < (s.icache i).ref → i < sb.ninodes ∧ (sb.dinode s.disk i).type ≠ 0
  agree : ∀ i, 0 < (s.icache i).ref → (s.icache i).valid = true → (s.icache i).copy = sb.dinode s.disk i

def Held (s : FsState) (i : ℕ) : Prop := 0 < (s.icache i).ref ∧ (s.icache i).valid = true

/-- What the callers in `fs.c` and `sysfile.c` make sure of: entries name allocated inodes, an inode is
locked before it is used, offset and count are machine words, and the inode is no device. -/
def Allowed (sb : Superblock) (s : FsState) : Call → Prop
  | .iget inum => inum < sb.ninodes ∧ (sb.dinode s.disk inum).type ≠ 0
  | .ialloc type => type ≠ 0
  | .ilock inum => 0 < (s.icache inum).ref
  | .readi inum _ off n => Held s inum ∧ (s.icache inum).copy.type ≠ tDev ∧ off < 2^32 ∧ n < 2^32
  | .writei inum _ off n => Held s inum ∧ (s.icache inum).copy.type ≠ tDev ∧ off < 2^32 ∧ n < 2^32
  | .itrunc inum => Held s inum
  | .setLinks inum _ => Held s inum
  | .iput inum => 0 < (s.icache inum).ref

def NoSpace (e : Fault) : Prop := OutOfBlocks e ∨ e = .panic "ialloc: no inodes"

theorem table_of_live (hi : i < sb.ninodes) (ht : (sb.dinode d i).type ≠ 0) : table sb d i = sb.dinode d i :=
  if_pos ⟨hi,ht⟩

theorem table_congr (h : ∀ k < sb.ninodes, k ≠ i → sb.dinode d' k = sb.dinode d k) {k : ℕ} (hk : k ≠ i) :
    table sb d' k = table sb d k := by
  by_cases hlt : k < sb.ninodes
  · rw [table,table,h k hlt hk]
  · rw [table,table,if_neg fun hc => hlt hc.1,if_neg fun hc => hlt hc.1]

theorem table_update (hi : i < sb.ninodes) (h : ∀ k < sb.ninodes, k ≠ i → sb.dinode d' k = sb.dinode d k)
    (hx : (if (sb.dinode d' i).type = 0 then Dinode.zero else sb.dinode d' i) = x) :
    table sb d' = update (table sb d) i x := by
  funext k
  by_cases hk : k = i
  · subst hk
    rw [update_self,← hx,table]
    by_cases ht : (sb.dinode d' k).type = 0
    · rw [if_pos ht,if_neg fun hc => hc.2 ht]
    · rw [if_neg ht,if_pos ⟨hi,ht⟩]
  · rw [update_of_ne hk]
    exact table_congr h hk

section
variable (h : Consistent sb start s)
include h

theorem Consistent.change (htable : table sb d' = update (table sb s.disk) i x)
    (hblocks : Blocks sb start (update (table sb s.disk) i x) d' ∅)
    (hkept : ∀ j, j ≠ i → ∀ bn b, blockOf (table sb s.disk) s.disk j bn = some b →
      blockOf (update (table sb s.disk) i x) d' j bn = some b)
    (hfull : ∀ bn, bn*bSize < x.size.toNat → blockOf (update (table sb s.disk) i x) d' i bn ≠ none)
    (hdin : ∀ k < sb.ninodes, k ≠ i → sb.dinode d' k = sb.dinode s.disk k) {e : CachedInode}
    (hent : 0 < e.ref → (i < sb.ninodes ∧ (sb.dinode d' i).type ≠ 0) ∧ (e.valid = true → e.copy = sb.dinode d' i)) :
    Consistent sb start (FsState.setEntry {s with disk := d'} i e) := by
  refine ⟨?_,fun j bn hbn => ?_,fun j hj => ?_,fun j hj hv => ?_⟩
  · change Blocks sb start (table sb d') d' ∅
    rw [htable]
    exact hblocks
  · change bn*bSize < (table sb d' j).size.toNat at hbn
    change blockOf (table sb d') d' j bn ≠ none
    rw [htable] at hbn ⊢
    by_cases hji : j = i
    · subst hji
      rw [update_self] at hbn
      exact hfull bn hbn
    · rw [update_of_ne hji] at hbn
      obtain ⟨b,hb⟩ := Option.ne_none_iff_exists'.mp (h.full j bn hbn)
      rw [hkept j hji bn b hb]
      exact Option.some_ne_none b
  · change 0 < (update s.icache i e j).ref at hj
    by_cases hji : j = i
    · subst hji
      rw [update_self] at hj
      exact (hent hj).1
    · rw [update_of_ne hji] at hj
      obtain ⟨hlt,ht⟩ := h.live j hj
      exact ⟨hlt,hdin j hlt hji ▸ ht⟩
  · change 0 < (update s.icache i e j).ref at hj
    change (update s.icache i e j).valid = true at hv
    change (update s.icache i e j).copy = sb.dinode d' j
    by_cases hji : j = i
    · subst hji
      rw [update_self] at hj hv ⊢
      exact (hent hj).2 hv
    · rw [update_of_ne hji] at hj hv ⊢
      rw [hdin j (h.live j hj).1 hji]
      exact h.agree j hj hv

theorem Consistent.setEntry {e : CachedInode}
    (hent : 0 < e.ref → (i < sb.ninodes ∧ (sb.dinode s.disk i).type ≠ 0) ∧
      (e.valid = true → e.copy = sb.dinode s.disk i)) : Consistent sb start (s.setEntry i e) := by
  have hself : update (table sb s.disk) i (table sb s.disk i) = table sb s.disk := update_eq_self ..
  refine h.change (x := table sb s.disk i) hself.symm ?_ ?_ ?_ (fun _ _ _ => rfl) hent <;> rw [hself]
  · exact h.blocks
  · exact fun _ _ _ _ hb => hb
  · exact h.full i

theorem Consistent.iget (hi : i < sb.ninodes) (ht : (sb.dinode s.disk i).type ≠ 0) :
    Consistent sb start (s.iget i) := by
  rw [FsState.iget]
  split
  · next hr => exact h.setEntry fun _ => ⟨⟨hi,ht⟩,h.agree i hr⟩
  · exact h.setEntry fun _ => ⟨⟨hi,ht⟩,by rintro ⟨⟩⟩

theorem ilock_spec (hr : 0 < (s.icache i).ref) : Outcome (s.ilock sb i) (Consistent sb start) NoSpace := by
  obtain ⟨hi,ht⟩ := h.live i hr
  rw [FsState.ilock,if_neg (by omega)]
  split
  · exact Outcome.ok h
  · exact Outcome.ok (h.setEntry fun _ => ⟨⟨hi,ht⟩,fun _ => rfl⟩)

theorem Consistent.held (hh : Held s i) :
    i < sb.ninodes ∧ (s.icache i).copy = sb.dinode s.disk i ∧ (sb.dinode s.disk i).type ≠ 0 ∧
      table sb s.disk i = (s.icache i).copy := by
  obtain ⟨hi,ht⟩ := h.live i hh.1
  have hc := h.agree i hh.1 hh.2
  exact ⟨hi,hc,ht,(table_of_live hi ht).trans hc.symm⟩

end

theorem store_self (s : FsState) (i : ℕ) : s.store i (s.icache i).copy s.disk = s := by
  rw [FsState.store,FsState.setEntry]
  change FsState.mk s.disk (update s.icache i (s.icache i)) = s
  rw [update_eq_self]

theorem Consistent.store (h : Consistent sb start s) (hi : i < sb.ninodes) (hx : sb.dinode d' i = x) (ht : x.type ≠ 0)
    (hblocks : Blocks sb start (update (table sb s.disk) i x) d' ∅)
    (hkept : ∀ j, j ≠ i → ∀ bn b, blockOf (table sb s.disk) s.disk j bn = some b →
      blockOf (update (table sb s.disk) i x) d' j bn = some b)
    (hfull : ∀ bn, bn*bSize < x.size.toNat → blockOf (update (table sb s.disk) i x) d' i bn ≠ none)
    (hdin : ∀ k < sb.ninodes, k ≠ i → sb.dinode d' k = sb.dinode s.disk k) :
    Consistent sb start (s.store i x d') := by
  subst hx
  exact h.change (table_update hi hdin (if_neg ht)) hblocks hkept hfull hdin fun _ => ⟨⟨hi,ht⟩,fun _ => rfl⟩

theorem Consistent.kept (h : Consistent sb start s) (hd : ∀ x, start ≤ x → d' x = s.disk x) (x : Dinode) :
    ∀ j, j ≠ i → ∀ bn b, blockOf (table sb s.disk) s.disk j bn = some b →
      blockOf (update (table sb s.disk) i x) d' j bn = some b := by
  intro j hj bn b hb
  obtain ⟨p,hp,ha⟩ := Option.bind_eq_some_iff.mp hb
  have hpj := (placeOf_data hp).2
  rw [blockOf,hp,Option.bind_some,addr_view (v := table sb s.disk) (update_of_ne (hpj ▸ hj) _ _),
    h.blocks.addr_data hd]
  exact ha

theorem readi_keeps (h : Consistent sb start s) (hh : Held s i) (dst : ℕ → Byte) {off n : ℕ} (hoff : off < 2^32)
    (hn : n < 2^32) :
    call sb s (.readi i dst off n) = .ok
      (if (s.icache i).copy.size.toNat < off ∨ 2^32 ≤ off+n then .read (-1) dst
      else .read ((min (off+n) (s.icache i).copy.size.toNat-off : ℕ) : ℤ)
        (blit id dst 0 (min (off+n) (s.icache i).copy.size.toNat-off)
          fun k => bytes (table sb s.disk) s.disk i (off+k)),s) := by
  obtain ⟨-,-,-,htab⟩ := h.held hh
  have hr : readi sb (table sb s.disk i) dst off n s.disk = _ :=
    readi_spec dst (fun bn hbn => h.full i bn (hbn.trans_le (min_le_right _ _))) hoff hn
  rw [htab] at hr
  simp only [call,hr]
  split
  · change Except.ok (_,s.store i (s.icache i).copy s.disk) = _
    rw [store_self]
  · change Except.ok (_,s.store i (s.icache i).copy s.disk) = _
    rw [store_self]

theorem writei_call (hl : Layout sb start) (h : Consistent sb start s) (hh : Held s i) {src : ℕ → Byte} {off n : ℕ} :
    Outcome (call sb s (.writei i src off n)) (fun r =>
      ((off ≤ (s.icache i).copy.size.toNat ∧ off+n ≤ maxFile*bSize) ∧
        ∃ x, Written sb start (table sb s.disk) s.disk i src off n x ∧ r = (.written n,s.store i x.2.1 x.2.2)) ∨
      ¬ (off ≤ (s.icache i).copy.size.toNat ∧ off+n ≤ maxFile*bSize) ∧ r = (.written (-1),s)) OutOfBlocks := by
  obtain ⟨hi,hcopy,-,htab⟩ := h.held hh
  rw [call]
  by_cases hok : off ≤ (s.icache i).copy.size.toNat ∧ off+n ≤ maxFile*bSize
  · have hw : Outcome (writei sb i (table sb s.disk i) src off n s.disk) _ OutOfBlocks :=
      writei_spec hl h.blocks hi (hcopy ▸ htab).symm (h.full i) (htab.symm ▸ hok.1) hok.2
    rw [htab] at hw
    refine hw.bind fun x hx => Outcome.ok (Or.inl ⟨hok,x,hx,?_⟩)
    rw [hx.count]
  · rw [writei_rejects hok]
    refine Outcome.ok (Or.inr ⟨hok,?_⟩)
    rw [store_self]

theorem writei_keeps (h : Consistent sb start s) (hh : Held s i) {src : ℕ → Byte} {off n : ℕ}
    {r : ℤ × Dinode × Disk} (hw : Written sb start (table sb s.disk) s.disk i src off n r) :
    Consistent sb start (s.store i r.2.1 r.2.2) := by
  obtain ⟨hi,hc,ht,htab⟩ := h.held hh
  have hsize : r.2.1.size.toNat ≤ max (table sb s.disk i).size.toNat (off+n) := by
    rw [hw.fields]
    dsimp only
    rw [BitVec.toNat_ofNat]
    exact Nat.mod_le _ _
  have htype : r.2.1.type ≠ 0 := by
    rw [hw.fields]
    dsimp only
    rw [htab,hc]
    exact ht
  exact h.store hi hw.dinode htype hw.blocks (fun j _ bn b hb => hw.kept j bn b hb)
    (fun bn hbn => hw.full bn (hbn.trans_le hsize)) hw.dinodes

theorem itrunc_keeps (h : Consistent sb start s) (hh : Held s i) {r : Dinode × Disk}
    (hr : Truncated sb start (table sb s.disk) s.disk i r) : Consistent sb start (s.store i r.1 r.2) := by
  obtain ⟨hi,hc,ht,htab⟩ := h.held hh
  have htype : r.1.type ≠ 0 := by
    rw [hr.inode]
    dsimp only
    rw [htab,hc]
    exact ht
  refine h.store hi hr.dinode htype hr.blocks (h.kept hr.data _) (fun bn hbn => ?_) hr.others
  rw [hr.inode] at hbn
  exact absurd hbn (Nat.not_lt_zero _)

section
variable (hl : Layout sb start) (h : Consistent sb start s)
include hl h

theorem Consistent.rewrite (hi : i < sb.ninodes) (ip : Dinode)
    (hx : (if ip.type = 0 then Dinode.zero else ip) = x) (haddrs : x.addrs = (table sb s.disk i).addrs)
    (hsize : x.size = (table sb s.disk i).size) {e : CachedInode}
    (hent : 0 < e.ref → ip.type ≠ 0 ∧ (e.valid = true → e.copy = ip)) :
    Consistent sb start (FsState.setEntry {s with disk := iupdate sb i ip s.disk} i e) := by
  have hself : sb.dinode (iupdate sb i ip s.disk) i = ip := Superblock.dinode_setDinode _
  have hdin : ∀ k < sb.ninodes, k ≠ i → sb.dinode (iupdate sb i ip s.disk) k = sb.dinode s.disk k :=
    fun k _ hk => Superblock.dinode_setDinode_of_ne _ hk
  obtain ⟨hblocks,haddr,-⟩ := h.blocks.rewrite hl hi ip haddrs
  refine h.change (table_update hi hdin (hself.symm ▸ hx)) hblocks (fun j _ bn b hb => (blockOf_congr haddr j bn).trans hb)
    (fun bn hbn => ?_) hdin fun he => ?_
  · rw [hsize] at hbn
    rw [blockOf_congr haddr]
    exact h.full i bn hbn
  · rw [hself]
    exact ⟨⟨hi,(hent he).1⟩,(hent he).2⟩

theorem ialloc_spec {type : BitVec 16} (ht : type ≠ 0) :
    Outcome (s.ialloc sb type) (fun r => Consistent sb start r.2) NoSpace := by
  rw [FsState.ialloc]
  split
  · next k hk =>
    have hlt : k+1 < sb.ninodes := by
      have := List.mem_range.mp (List.mem_of_find?_eq_some hk)
      omega
    have hfree : (sb.dinode s.disk (k+1)).type = 0 := by
      have hd := List.find?_some hk
      exact of_decide_eq_true hd
    have hzero : table sb s.disk (k+1) = Dinode.zero := if_neg fun hc => hc.2 hfree
    have hunref : ¬ 0 < (s.icache (k+1)).ref := fun hr => (h.live _ hr).2 hfree
    refine Outcome.ok ?_
    rw [FsState.iget,if_neg hunref]
    have hx : (if ({Dinode.zero with type := type} : Dinode).type = 0 then Dinode.zero
      else {Dinode.zero with type := type}) = {Dinode.zero with type := type} := if_neg ht
    refine h.rewrite hl hlt _ hx ?_ ?_ fun _ => ⟨ht,by rintro ⟨⟩⟩
    · rw [hzero]
    · rw [hzero]
  · exact Outcome.error (Or.inr rfl)

theorem iput_spec (hr : 0 < (s.icache i).ref) : Outcome (s.iput sb none i) (Consistent sb start) NoSpace := by
  obtain ⟨hi,ht⟩ := h.live i hr
  rw [FsState.iput,if_neg (Option.some_ne_none i).symm]
  split
  · next hlast =>
    have hheld : Held s i := ⟨hr,hlast.1⟩
    obtain ⟨-,-,-,htab⟩ := h.held hheld
    have htrunc := itrunc_spec hl h.blocks hi
    rw [htab] at htrunc
    refine (htrunc.mono (fun _ hx => hx) fun _ hf => hf.elim).bind ?_
    rintro ⟨ip,d⟩ htr
    have hc := itrunc_keeps h hheld htr
    have hip := htr.inode
    have hdin := htr.dinode
    dsimp only at hip hdin
    -- the inode that `itrunc` has stored is now written again with type zero
    have hentry : (s.store i ip d).icache i = {s.icache i with copy := ip} := update_self ..
    have hstored : table sb (s.store i ip d).disk i = ip := by
      refine (table_of_live hi ?_).trans hdin
      refine (hc.live i ?_).2
      dsimp only
      rw [hentry]
      exact hr
    have hfreed := hc.rewrite hl hi {ip with type := 0} (x := Dinode.zero)
      (e := ⟨(s.icache i).ref-1,false,{ip with type := 0}⟩) (if_pos rfl) (by rw [hstored,hip]; rfl)
      (by rw [hstored,hip]; rfl) fun he => absurd he (by dsimp only; omega)
    rw [FsState.store,FsState.setEntry,FsState.setEntry] at hfreed
    dsimp only at hfreed
    rw [update_idem] at hfreed
    exact Outcome.ok hfreed
  · refine Outcome.ok (h.setEntry fun _ => ⟨⟨hi,ht⟩,?_⟩)
    exact h.agree i hr

/-- Every allowed call keeps the file system consistent and fails only for want of space. -/
theorem call_spec (c : Call) (hc : Allowed sb s c) :
    Outcome (call sb s c) (fun r => Consistent sb start r.2) NoSpace := by
  cases c with
  | iget inum => exact Outcome.ok (h.iget hc.1 hc.2)
  | ialloc type => exact (ialloc_spec hl h hc).bind fun _ hr => Outcome.ok hr
  | ilock inum => exact (ilock_spec h hc).bind fun _ hr => Outcome.ok hr
  | readi inum dst off n =>
    obtain ⟨hh,-,hoff,hn⟩ := hc
    rw [readi_keeps h hh dst hoff hn]
    exact Outcome.ok h
  | writei inum src off n =>
    refine (writei_call hl h hc.1).mono ?_ fun _ he => Or.inl he
    rintro r (⟨-,x,hx,rfl⟩ | ⟨-,rfl⟩)
    · exact writei_keeps h hc.1 hx
    · exact h
  | itrunc inum =>
    obtain ⟨hi,-,-,htab⟩ := h.held hc
    have ht := itrunc_spec hl h.blocks hi
    rw [htab] at ht
    rw [call]
    refine (ht.mono (fun _ hx => hx) fun _ hf => hf.elim).bind fun r hr => ?_
    exact Outcome.ok (itrunc_keeps h hc hr)
  | setLinks inum n =>
    obtain ⟨hi,hcopy,ht,htab⟩ := h.held hc
    have htype : (s.icache inum).copy.type ≠ 0 := hcopy ▸ ht
    refine Outcome.ok (h.rewrite hl hi {(s.icache inum).copy with nlink := n} (if_neg htype) ?_ ?_
      fun _ => ⟨htype,fun _ => rfl⟩)
    · rw [htab]
    · rw [htab]
  | iput inum => exact (iput_spec hl h hc).bind fun _ hr => Outcome.ok hr

end

def step (sb : Superblock) (s : FsState) (c : Call) : Option FsState := (call sb s c).toOption.map Prod.snd

theorem Consistent.reaches (hl : Layout sb start) (h : Consistent sb start s)
    (hr : Runs.Reaches (step sb) (Allowed sb) s t) : Consistent sb start t := by
  refine hr.invariant h fun s c t hs hc ht => ?_
  obtain ⟨r,hcall,rfl⟩ := Option.map_eq_some_iff.mp ht
  refine (call_spec hl hs c hc).of_ok (a := r) ?_
  cases hx : call sb s c with
  | ok r' =>
    rw [hx] at hcall
    cases hcall
    rfl
  | error e =>
    rw [hx] at hcall
    cases hcall

/-- After every sequence of allowed calls a used data block belongs to exactly one place, every file has the
blocks that its size asks for, a valid cached inode is the one on disk, and no allowed call frees a free
block. -/
theorem blocks_owned_once (hl : Layout sb start) (h : Consistent sb start s)
    (hr : Runs.Reaches (step sb) (Allowed sb) s t) :
    (∀ b, start ≤ b → b < sb.size → sb.marked t.disk b = true →
      ∃! p : Place, p.addr (table sb t.disk) t.disk = some b) ∧
    (∀ (p : Place) b, p.addr (table sb t.disk) t.disk = some b →
      sb.marked t.disk b = true ∧ start ≤ b ∧ b < sb.size) ∧
    (∀ i bn, bn < ((table sb t.disk i).size.toNat+bSize-1)/bSize → blockOf (table sb t.disk) t.disk i bn ≠ none) ∧
    (∀ i, Held t i → (t.icache i).copy = sb.dinode t.disk i) ∧
    (∀ c, Allowed sb t c → Outcome (call sb t c) (fun r => Consistent sb start r.2) NoSpace) ∧
    ∀ c, Allowed sb t c → call sb t c ≠ .error (.panic "freeing free block") := by
  have ht := h.reaches hl hr
  have hown := ht.blocks.owned
  refine ⟨fun b h1 h2 h3 => ?_,fun p b hp => ?_,fun i bn hbn => ht.full i bn ?_,fun i hi => ht.agree i hi.1 hi.2,
    call_spec hl ht,fun c hc he => ?_⟩
  · obtain ⟨p,hp⟩ := ((hown.used_iff b).mp ⟨h1,h2,h3⟩).resolve_right (Set.notMem_empty b)
    exact ⟨p,hp,fun q hq => hown.inj q p b hq hp⟩
  · obtain ⟨h1,h2,h3⟩ := hown.used_of_addr hp
    exact ⟨h3,h1,h2⟩
  · have hb : bSize = 512 := rfl
    rw [hb] at hbn ⊢
    omega
  · rcases (call_spec hl ht c hc).of_error he with hf | hf <;> exact absurd (Fault.panic.inj hf) (by decide)

instance allowedDecidable (sb : Superblock) : ∀ s c, Decidable (Allowed sb s c)
  | _, .iget _ => inferInstanceAs (Decidable (_ ∧ _))
  | _, .ialloc _ => inferInstanceAs (Decidable (_ ≠ _))
  | _, .ilock _ => inferInstanceAs (Decidable (_ < _))
  | _, .readi _ _ _ _ => inferInstanceAs (Decidable ((_ ∧ _) ∧ _))
  | _, .writei _ _ _ _ => inferInstanceAs (Decidable ((_ ∧ _) ∧ _))
  | _, .itrunc _ => inferInstanceAs (Decidable (_ ∧ _))
  | _, .setLinks _ _ => inferInstanceAs (Decidable (_ ∧ _))
  | _, .iput _ => inferInstanceAs (Decidable (_ < _))

def sampleSuper : Superblock := {size := 8, ninodes := 3, inodestart := 2, bmapstart := 3}

def sampleState : FsState :=
  {disk := fun b k => if b = 3 ∧ k.val = 0 then 15 else 0, icache := fun _ => ⟨0,false,Dinode.zero⟩}

theorem sample_layout : Layout sampleSuper 4 := ⟨by decide,by decide,by decide,by decide⟩

theorem sample_consistent : Consistent sampleSuper 4 sampleState := by
  have hfree : ∀ i < 3, (sampleSuper.dinode sampleState.disk i).type = 0 := by decide +kernel
  have hmarked : ∀ b < 8, sampleSuper.marked sampleState.disk b = decide (b < 4) := by decide +kernel
  have htable : table sampleSuper sampleState.disk = fun _ => Dinode.zero := by
    funext i
    exact if_neg fun hc => hc.2 (hfree i hc.1)
  have hnone : ∀ p, Place.addr (fun _ => Dinode.zero) sampleState.disk p = none := by
    intro p
    cases p <;> rfl
  have hblocks : Blocks sampleSuper 4 (fun _ => Dinode.zero) sampleState.disk ∅ := by
    refine ⟨⟨fun p q c hp => ?_,fun c => ⟨?_,?_⟩,fun c hc => hc.elim⟩,fun b hb hs => ?_⟩
    · rw [hnone] at hp
      cases hp
    · rintro ⟨h1,h2,h3⟩
      rw [hmarked c h2] at h3
      exact absurd (of_decide_eq_true h3) (not_lt.mpr h1)
    · rintro (⟨p,hp⟩ | hc)
      · rw [hnone] at hp
        cases hp
      · exact hc.elim
    · rw [hmarked b hb]
      exact decide_eq_true hs
  refine ⟨htable.symm ▸ hblocks,fun i bn hbn => ?_,?_,?_⟩
  · rw [htable] at hbn
    exact absurd hbn (Nat.not_lt_zero _)
  · rintro i ⟨⟩
  · rintro i ⟨⟩

def sampleCalls : List Call :=
  [.ialloc tFile,.ilock 1,.writei 1 (fun k => BitVec.ofNat 8 k) 0 600,.writei 1 (fun _ => 7) 510 20]

theorem blocks_owned_once_sample : ∃ t, Runs.Reaches (step sampleSuper) (Allowed sampleSuper) sampleState t ∧
    sampleSuper.marked t.disk 5 = true ∧ ∃! p : Place, p.addr (table sampleSuper t.disk) t.disk = some 5 := by
  have hrun : (Runs.exec (step sampleSuper) (Allowed sampleSuper) sampleCalls sampleState).map
      (fun t => sampleSuper.marked t.disk 5) = some true := by decide +kernel
  obtain ⟨t,ht,hmark⟩ := Runs.exists_reaches hrun
  obtain ⟨hown,-⟩ := blocks_owned_once sample_layout sample_consistent ht
  exact ⟨t,ht,hmark,hown 5 (by decide) (by decide) hmark⟩

end Xv6Paging.Fs
