import Xv6Paging.FileSystem.Truncate

/-! # The bytes of a file

The loops of `readi` and `writei` over the blocks of an inode. Each iteration maps one
block and copies a piece of it, so a read leaves everything as it is and a write changes
the bytes it covers in one file and none of any other.
-/
namespace Xv6Paging.Fs
open WordPage Sector Ownership Function
variable {sb : Superblock} {start : ℕ} {v v' : ℕ → Dinode} {d d' : Disk} {L : Set ℕ} {i : ℕ}

theorem blockOf_congr (h : ∀ p, Place.addr v' d' p = Place.addr v d p) (j bn : ℕ) :
    blockOf v' d' j bn = blockOf v d j bn :=
  congrArg (placeOf j bn).bind (funext h)

theorem bytes_of_addrs (h : ∀ j, (v' j).addrs = (v j).addrs) (j o : ℕ) : bytes v' d j o = bytes v d j o := by
  rw [bytes,bytes,blockOf_congr fun p => addr_of_addrs (h p.inode)]

theorem bytes_of_block {o b : ℕ} (h : blockOf v d i (o/bSize) = some b) :
    bytes v d i o = d b (Fin.ofNat 512 (o%bSize)) := by
  rw [bytes,h]

theorem Blocks.addr_data (h : Blocks sb start v d L) (hd : ∀ x, start ≤ x → d' x = d x) (p : Place) :
    Place.addr v d' p = Place.addr v d p :=
  addr_congr (fun _ a ha => hd a (h.addr_range ha).1) p

theorem Blocks.bytes_data (h : Blocks sb start v d L) (hd : ∀ x, start ≤ x → d' x = d x) (j o : ℕ) :
    bytes v d' j o = bytes v d j o := by
  rw [bytes,bytes,blockOf_congr (h.addr_data hd)]
  cases hb : blockOf v d j (o/bSize) with
  | none => rfl
  | some b =>
    obtain ⟨p,-,hp⟩ := Option.bind_eq_some_iff.mp hb
    dsimp only
    rw [hd b (h.addr_range hp).1]

theorem Blocks.rewrite (hl : Layout sb start) (h : Blocks sb start v d L) (hi : i < sb.ninodes) (ip : Dinode)
    {x : Dinode} (hx : x.addrs = (v i).addrs) :
    Blocks sb start (update v i x) (Fs.iupdate sb i ip d) L ∧
      (∀ p, Place.addr (update v i x) (Fs.iupdate sb i ip d) p = Place.addr v d p) ∧
      ∀ j o, bytes (update v i x) (Fs.iupdate sb i ip d) j o = bytes v d j o := by
  have hview : ∀ j, (update v i x j).addrs = (v j).addrs := by
    intro j
    by_cases hj : j = i
    · subst hj
      rw [update_self,hx]
    · rw [update_of_ne hj]
  have hblocks := h.of_addrs hview
  have hdata := (hl.iupdate (d := d) hi ip).1
  exact ⟨hblocks.iupdate hl hi ip,fun p => (hblocks.addr_data hdata p).trans (addr_of_addrs (hview p.inode)),
    fun j o => (hblocks.bytes_data hdata j o).trans (bytes_of_addrs hview j o)⟩

theorem Blocks.indirect_ne (h : Blocks sb start v d L) {bn a : ℕ} (ha : blockOf v d i bn = some a) (j c : ℕ)
    (hc : Place.addr v d (.indirect j) = some c) : c ≠ a := by
  rintro rfl
  obtain ⟨p,hp,hpa⟩ := Option.bind_eq_some_iff.mp ha
  have hdata := (placeOf_data hp).1
  rw [h.owned.inj _ _ _ hpa hc] at hdata
  cases hdata

theorem addr_store (h : Blocks sb start v d L) {bn a : ℕ} (ha : blockOf v d i bn = some a) (x : Block) (q : Place) :
    Place.addr v (update d a x) q = Place.addr v d q :=
  addr_congr (fun j c hc => update_of_ne (h.indirect_ne ha j c hc) _ _) q

theorem store_block (hl : Layout sb start) (h : Blocks sb start v d L) {bn a : ℕ} (ha : blockOf v d i bn = some a)
    (x : Block) :
    Blocks sb start v (update d a x) L ∧
      (∀ k < sb.ninodes, sb.dinode (update d a x) k = sb.dinode d k) ∧
      (∀ j m, blockOf v (update d a x) j m = blockOf v d j m) ∧
      ∀ j o, bytes v (update d a x) j o =
        if j = i ∧ o/bSize = bn then x (Fin.ofNat 512 (o%bSize)) else bytes v d j o := by
  obtain ⟨p,hp,hpa⟩ := Option.bind_eq_some_iff.mp ha
  obtain ⟨hs,hz⟩ := h.addr_range hpa
  obtain ⟨hmark,hdin⟩ := hl.update_data (d := d) hs hz x
  have haddr : ∀ j m, blockOf v (update d a x) j m = blockOf v d j m := blockOf_congr (addr_store h ha x)
  refine ⟨h.congr hmark fun j c hc => update_of_ne (h.indirect_ne ha j c hc) _ _,hdin,haddr,fun j o => ?_⟩
  rw [bytes,bytes,haddr]
  by_cases hj : j = i ∧ o/bSize = bn
  · obtain ⟨rfl,rfl⟩ := hj
    rw [if_pos ⟨rfl,rfl⟩,ha]
    dsimp only
    rw [update_self]
  · rw [if_neg hj]
    cases hb : blockOf v d j (o/bSize) with
    | none => rfl
    | some c =>
      dsimp only
      rw [update_of_ne]
      -- the block of another file, or another block of this one
      rintro rfl
      obtain ⟨q,hq,hqa⟩ := Option.bind_eq_some_iff.mp hb
      rw [h.owned.inj _ _ _ hqa hpa] at hq
      exact hj (placeOf_inj hq hp)

theorem blit_block {a o m : ℕ} (ha : blockOf v d i (o/bSize) = some a) (hm : o%bSize+m ≤ bSize) (src : ℕ → Byte)
    (x : ℕ) :
    (if x/bSize = o/bSize then blit Fin.val (d a) (o%bSize) m src (Fin.ofNat 512 (x%bSize)) else bytes v d i x) =
      blit id (bytes v d i) o m src x := by
  have hb : bSize = 512 := rfl
  have hval : (Fin.ofNat 512 (x%bSize)).val = x%bSize := Nat.mod_eq_of_lt (Nat.mod_lt x (by decide))
  by_cases hx : x/bSize = o/bSize
  · have hbytes : bytes v d i x = d a (Fin.ofNat 512 (x%bSize)) := bytes_of_block (hx ▸ ha)
    rw [if_pos hx,blit,blit,hbytes,hval,id]
    rw [hb] at hx hm ⊢
    have hin : (o%512 ≤ x%512 ∧ x%512 < o%512+m) ↔ (o ≤ x ∧ x < o+m) := by omega
    by_cases h : o ≤ x ∧ x < o+m
    · have hsub : x%512-o%512 = x-o := by omega
      rw [if_pos h,if_pos (hin.mpr h),hsub]
    · rw [if_neg h,if_neg fun hc => h (hin.mp hc)]
  · have hout : ¬ (o ≤ x ∧ x < o+m) := by
      rw [hb] at hx hm
      omega
    rw [if_neg hx,blit,id,if_neg hout]

theorem bmap_of_block (sb : Superblock) {bn b : ℕ} (h : blockOf v d i bn = some b) :
    ∃ a : Word, bmap sb (v i) bn d = .ok (a,v i,d) ∧ a.toNat = b := by
  have hnd : nDirect = 12 := rfl
  have hni : nIndirect = 128 := rfl
  rw [blockOf,placeOf] at h
  rw [bmap,hnd,hni]
  split at h
  · next hd =>
    have hk : (⟨bn,hd⟩ : Fin 12).castSucc = Fin.ofNat 13 bn := Fin.ext (by
      change bn = bn%13
      omega)
    rw [Option.bind_some,Place.addr,hk] at h
    obtain ⟨hne,hb⟩ := target_eq_some.mp h
    rw [if_pos hd,ensureAddr,if_neg hne]
    exact ⟨_,rfl,hb⟩
  · next hd =>
    split at h
    · next hj =>
      rw [Option.bind_some,Place.addr] at h
      obtain ⟨a,ha,hw⟩ := Option.bind_eq_some_iff.mp h
      obtain ⟨hne,rfl⟩ := target_eq_some.mp ha
      obtain ⟨hne',hb⟩ := target_eq_some.mp hw
      rw [if_neg hd,if_pos hj,ensureAddr,if_neg hne]
      refine ⟨_,?_,hb⟩
      change (if _ then _ else _) = _
      rw [if_neg hne']
      rfl
    · cases h

theorem piece_div {o k n : ℕ} (hk : k < min n (bSize-o%bSize)) :
    (o+k)/bSize = o/bSize ∧ (o+k)%bSize = o%bSize+k := by
  have hb : bSize = 512 := rfl
  rw [hb] at hk ⊢
  omega

section Read
variable (v d i) (dst : ℕ → Byte) (off : ℕ)

def readProgress (tot : ℕ) : ReadLoop :=
  ⟨blit id dst 0 tot fun k => bytes v d i (off+k),off+tot,tot,v i,d⟩

variable {v d i off}

theorem readiStep_progress {n tot : ℕ} (hb : blockOf v d i ((off+tot)/bSize) ≠ none) :
    readiStep sb n (readProgress v d i dst off tot) =
      .ok (readProgress v d i dst off (tot+min (n-tot) (bSize-(off+tot)%bSize))) := by
  obtain ⟨b,hb⟩ := Option.ne_none_iff_exists'.mp hb
  obtain ⟨a,hmap,rfl⟩ := bmap_of_block sb hb
  have hsrc : ∀ k < min (n-tot) (bSize-(off+tot)%bSize),
      d a.toNat (Fin.ofNat 512 ((off+tot)%bSize+k)) = bytes v d i (off+(tot+k)) := by
    intro k hk
    obtain ⟨hdiv,hmod⟩ := piece_div hk
    rw [← Nat.add_assoc,bytes_of_block (hdiv ▸ hb),hmod]
  have happ := blit_append id dst 0 (fun k => bytes v d i (off+k)) tot (min (n-tot) (bSize-(off+tot)%bSize))
  rw [Nat.zero_add] at happ
  have hdst := (blit_congr id (blit id dst 0 tot fun k => bytes v d i (off+k)) tot _ hsrc).trans happ
  simp only [readiStep,readProgress,hmap]
  change Except.ok (ReadLoop.mk _ _ _ _ _) = _
  rw [hdst,Nat.add_assoc]

theorem readiLoop_progress {n : ℕ} (hall : ∀ bn, bn*bSize < off+n → blockOf v d i bn ≠ none) :
    readiLoop sb n n (readProgress v d i dst off 0) = .ok (readProgress v d i dst off n) := by
  refine blockwise (F := fun fuel tot => readiLoop sb n fuel (readProgress v d i dst off tot) = .ok _) off
    (fun fuel => ?_) (fun fuel tot h ih => ?_) n 0 (Nat.zero_le n) (Nat.sub_le n 0)
  · cases fuel <;> exact if_neg (lt_irrefl n)
  · have hle := Nat.div_mul_le_self (off+tot) bSize
    rw [readiLoop,if_pos (show (readProgress v d i dst off tot).tot < n from h),
      readiStep_progress dst (hall _ (by omega))]
    exact ih

/-- `readi` on an inode that has the blocks it needs copies its bytes and changes nothing. -/
theorem readi_spec {n : ℕ} (hall : ∀ bn, bn*bSize < min (off+n) (v i).size.toNat → blockOf v d i bn ≠ none)
    (hoff : off < 2^32) (hn : n < 2^32) :
    readi sb (v i) dst off n d = .ok (if (v i).size.toNat < off ∨ 2^32 ≤ off+n then (-1,dst,v i,d)
      else (((min (off+n) (v i).size.toNat-off : ℕ) : ℤ),
        blit id dst 0 (min (off+n) (v i).size.toNat-off) (fun k => bytes v d i (off+k)),v i,d)) := by
  have hwrap : (off+n)%2^32 < off ↔ 2^32 ≤ off+n := by omega
  simp only [readi,hwrap]
  split
  · rfl
  · next hok =>
    have hlen : (if (v i).size.toNat < off+n then (v i).size.toNat-off else n) = min (off+n) (v i).size.toNat-off := by
      split <;> omega
    simp only [hlen]
    have hrun : readiLoop sb (min (off+n) (v i).size.toNat-off) _ (readProgress v d i dst off 0) = _ :=
      readiLoop_progress dst (fun bn hbn => hall bn (by omega))
    rw [readProgress,blit_zero,Nat.add_zero] at hrun
    rw [hrun]
    rfl

end Read

section Write
variable (sb start v d i) (src : ℕ → Byte) (off : ℕ)

/-- What holds in the loop of `writei` on inode `i` after `w.tot` bytes. -/
structure WriteProgress (w : WriteLoop) : Prop where
  off_eq : w.off = off+w.tot
  blocks : Blocks sb start (update v i w.ip) w.disk ∅
  fields : w.ip = {v i with addrs := w.ip.addrs}
  written : ∀ o, bytes (update v i w.ip) w.disk i o = blit id (bytes v d i) off w.tot src o
  others : ∀ j o, j ≠ i → bytes (update v i w.ip) w.disk j o = bytes v d j o
  kept : ∀ j bn b, blockOf v d j bn = some b → blockOf (update v i w.ip) w.disk j bn = some b
  covered : ∀ bn, off ≤ bn*bSize → bn*bSize < off+w.tot → blockOf (update v i w.ip) w.disk i bn ≠ none
  dinodes : ∀ k < sb.ninodes, sb.dinode w.disk k = sb.dinode d k
  same : (∀ bn, bn*bSize < off+w.tot → blockOf v d i bn ≠ none) → w.ip = v i

variable {sb start v d i src off}

theorem WriteProgress.init (h : Blocks sb start v d ∅) : WriteProgress sb start v d i src off ⟨off,0,v i,d⟩ := by
  have hself : update v i (v i) = v := update_eq_self ..
  refine ⟨rfl,?_,rfl,?_,?_,?_,?_,fun _ _ => rfl,fun _ => rfl⟩ <;> dsimp only <;> rw [hself]
  · exact h
  · intro o
    rw [blit_zero]
  · exact fun _ _ _ => rfl
  · exact fun _ _ _ hb => hb
  · intro bn h1 h2
    omega

/-- One iteration: block `w.off/bSize` has been mapped and a piece of it is written. -/
theorem WriteProgress.step (hl : Layout sb start) {w : WriteLoop} (h : WriteProgress sb start v d i src off w)
    {a : Word} {ip : Dinode} {d₁ : Disk}
    (hmap : Mapped sb start (update v i w.ip) w.disk ∅ i (w.off/bSize) (a,ip,d₁)) {m : ℕ} (hpos : 0 < m)
    (hm : w.off%bSize+m ≤ bSize) :
    WriteProgress sb start v d i src off ⟨w.off+m,w.tot+m,ip,
      update d₁ a.toNat (blit Fin.val (d₁ a.toNat) (w.off%bSize) m fun k => src (w.tot+k))⟩ := by
  have hb : bSize = 512 := rfl
  have hm_blocks := hmap.blocks
  have hm_grows := hmap.grows
  have hm_block := hmap.block
  have hm_same := hmap.same
  dsimp only at hm_blocks hm_grows hm_block hm_same
  rw [update_idem] at hm_blocks hm_grows hm_block
  rw [update_self] at hm_same
  obtain ⟨hblocks,hdin,haddr,hbytes⟩ := store_block hl hm_blocks hm_block
    (blit Fin.val (d₁ a.toNat) (w.off%bSize) m fun k => src (w.tot+k))
  have hkept : ∀ j bn b, blockOf v d j bn = some b →
      blockOf (update v i ip) (update d₁ a.toNat
        (blit Fin.val (d₁ a.toNat) (w.off%bSize) m fun k => src (w.tot+k))) j bn = some b := by
    intro j bn b hjb
    rw [haddr]
    exact hm_grows.blocks j bn b (h.kept j bn b hjb)
  refine ⟨?_,hblocks,?_,fun o => ?_,fun j o hj => ?_,hkept,fun bn h1 h2 => ?_,fun k hk => ?_,fun hall => ?_⟩
  · change w.off+m = off+(w.tot+m)
    rw [h.off_eq,Nat.add_assoc]
  · have hf := hm_grows.fields i
    rw [update_self,update_self] at hf
    rw [h.fields] at hf
    exact hf
  · rw [hbytes]
    have happ := congrFun (blit_append id (bytes v d i) off src w.tot m) o
    rw [← happ]
    have hold : bytes (update v i ip) d₁ i = blit id (bytes v d i) off w.tot src := by
      funext x
      rw [hm_grows.bytes]
      exact h.written x
    have hpiece := blit_block hm_block hm (fun k => src (w.tot+k)) o
    rw [hold,h.off_eq] at hpiece
    simp only [true_and]
    rw [hold,h.off_eq]
    exact hpiece
  · rw [hbytes,if_neg fun hc => hj hc.1,hm_grows.bytes]
    exact h.others j o hj
  · change bn*bSize < off+(w.tot+m) at h2
    rw [haddr]
    by_cases hold : bn*bSize < off+w.tot
    · obtain ⟨b,hb⟩ := Option.ne_none_iff_exists'.mp (h.covered bn h1 hold)
      rw [hm_grows.blocks i bn b hb]
      exact Option.some_ne_none b
    · have hbn : bn = w.off/bSize := by
        rw [h.off_eq] at hm ⊢
        rw [hb] at h2 hold hm ⊢
        omega
      rw [hbn,hm_block]
      exact Option.some_ne_none _
  · exact (hdin k hk).trans ((hm_grows.dinodes k hk).trans (h.dinodes k hk))
  · change ∀ bn, bn*bSize < off+(w.tot+m) → _ at hall
    have hexists : blockOf (update v i w.ip) w.disk i (w.off/bSize) ≠ none := by
      have hle := Nat.div_mul_le_self w.off bSize
      have hoff := h.off_eq
      obtain ⟨b,hb⟩ := Option.ne_none_iff_exists'.mp (hall (w.off/bSize) (by omega))
      rw [h.kept i _ b hb]
      exact Option.some_ne_none b
    exact (hm_same hexists).1.trans (h.same fun bn hbn => hall bn (by omega))

theorem writeiStep_spec (hl : Layout sb start) {n : ℕ} {w : WriteLoop} (h : WriteProgress sb start v d i src off w)
    (hw : w.tot < n) (hn : off+n ≤ maxFile*bSize) :
    Outcome (writeiStep sb src n w) (fun w' => WriteProgress sb start v d i src off w' ∧ w.tot < w'.tot ∧ w'.tot ≤ n)
      OutOfBlocks := by
  have hbn : w.off/bSize < maxFile := by
    rw [Nat.div_lt_iff_lt_mul (by decide),h.off_eq]
    omega
  have hmap := bmap_spec hl h.blocks i hbn
  rw [update_self] at hmap
  rw [writeiStep]
  refine hmap.bind ?_
  rintro ⟨a,ip,d₁⟩ hm
  generalize hp : min (n-w.tot) (bSize-w.off%bSize) = m
  have hlt : w.off%bSize < bSize := Nat.mod_lt _ (by decide)
  have hpos : 0 < m ∧ m ≤ n-w.tot ∧ w.off%bSize+m ≤ bSize := by omega
  exact Outcome.ok ⟨h.step hl hm hpos.1 hpos.2.2,Nat.lt_add_of_pos_right hpos.1,
    Nat.add_le_of_le_sub' hw.le hpos.2.1⟩

theorem writeiLoop_spec (hl : Layout sb start) {n : ℕ} (hn : off+n ≤ maxFile*bSize) (fuel : ℕ) {w : WriteLoop}
    (h : WriteProgress sb start v d i src off w) (ht : w.tot ≤ n) (hf : n-w.tot ≤ fuel) :
    Outcome (writeiLoop sb src n fuel w) (fun w' => WriteProgress sb start v d i src off w' ∧ w'.tot = n)
      OutOfBlocks := by
  induction fuel generalizing w with
  | zero =>
    have hend : w.tot = n := by omega
    rw [writeiLoop,if_neg (by omega)]
    exact Outcome.ok ⟨h,hend⟩
  | succ fuel ih =>
    rw [writeiLoop]
    split
    · next hlt =>
      refine (writeiStep_spec hl h hlt hn).bind fun w' hw' => ?_
      exact ih hw'.1 hw'.2.2 (by omega)
    · exact Outcome.ok ⟨h,by omega⟩

variable (sb start v d i src off) in
structure Written (n : ℕ) (r : ℤ × Dinode × Disk) : Prop where
  count : r.1 = n
  fields : r.2.1 = {v i with addrs := r.2.1.addrs, size := BitVec.ofNat 32 (max (v i).size.toNat (off+n))}
  blocks : Blocks sb start (update v i r.2.1) r.2.2 ∅
  written : ∀ o, bytes (update v i r.2.1) r.2.2 i o = blit id (bytes v d i) off n src o
  others : ∀ j o, j ≠ i → bytes (update v i r.2.1) r.2.2 j o = bytes v d j o
  kept : ∀ j bn b, blockOf v d j bn = some b → blockOf (update v i r.2.1) r.2.2 j bn = some b
  full : ∀ bn, bn*bSize < max (v i).size.toNat (off+n) → blockOf (update v i r.2.1) r.2.2 i bn ≠ none
  dinode : sb.dinode r.2.2 i = r.2.1
  dinodes : ∀ k < sb.ninodes, k ≠ i → sb.dinode r.2.2 k = sb.dinode d k

theorem WriteProgress.full {w : WriteLoop} (h : WriteProgress sb start v d i src off w) (hoff : off ≤ (v i).size.toNat)
    (hall : ∀ bn, bn*bSize < (v i).size.toNat → blockOf v d i bn ≠ none) (bn : ℕ)
    (hbn : bn*bSize < max (v i).size.toNat (off+w.tot)) : blockOf (update v i w.ip) w.disk i bn ≠ none := by
  by_cases hold : bn*bSize < (v i).size.toNat
  · obtain ⟨b,hb⟩ := Option.ne_none_iff_exists'.mp (hall bn hold)
    rw [h.kept i bn b hb]
    exact Option.some_ne_none b
  · exact h.covered bn (by omega) (by omega)

theorem WriteProgress.grow (hl : Layout sb start) {w : WriteLoop} (h : WriteProgress sb start v d i src off w)
    (hi : i < sb.ninodes) (hoff : off ≤ (v i).size.toNat)
    (hall : ∀ bn, bn*bSize < (v i).size.toNat → blockOf v d i bn ≠ none) (hgrow : w.ip.size.toNat < w.off) :
    Written sb start v d i src off w.tot (w.tot,{w.ip with size := BitVec.ofNat 32 w.off},
      iupdate sb i {w.ip with size := BitVec.ofNat 32 w.off} w.disk) := by
  have hsize : w.ip.size = (v i).size := by rw [h.fields]
  have hmax : max (v i).size.toNat (off+w.tot) = w.off := by
    rw [hsize] at hgrow
    rw [h.off_eq] at hgrow ⊢
    exact max_eq_right hgrow.le
  obtain ⟨hblocks,haddr,hbytes⟩ := h.blocks.rewrite hl hi {w.ip with size := BitVec.ofNat 32 w.off}
    (x := {w.ip with size := BitVec.ofNat 32 w.off}) (by rw [update_self])
  rw [update_idem] at hblocks haddr hbytes
  have hblock := blockOf_congr haddr
  refine ⟨rfl,?_,hblocks,fun o => (hbytes i o).trans (h.written o),
    fun j o hj => (hbytes j o).trans (h.others j o hj),fun j bn b hb => (hblock j bn).trans (h.kept j bn b hb),
    fun bn hbn => ?_,Superblock.dinode_setDinode _,
    fun k hk hne => (Superblock.dinode_setDinode_of_ne _ hne).trans (h.dinodes k hk)⟩
  · rw [hmax]
    dsimp only
    rw [h.fields]
  · rw [hblock]
    exact h.full hoff hall bn hbn

theorem writei_spec (hl : Layout sb start) (h : Blocks sb start v d ∅) (hi : i < sb.ninodes)
    (hdin : sb.dinode d i = v i)
    (hall : ∀ bn, bn*bSize < (v i).size.toNat → blockOf v d i bn ≠ none) {n : ℕ}
    (hoff : off ≤ (v i).size.toNat) (hn : off+n ≤ maxFile*bSize) :
    Outcome (writei sb i (v i) src off n d) (Written sb start v d i src off n) OutOfBlocks := by
  have hlim : maxFile*bSize = 71680 := rfl
  have hpass : ¬ ((v i).size.toNat < off ∨ (off+n)%2^32 < off) := by omega
  rw [writei,if_neg hpass,if_neg (by omega)]
  refine (writeiLoop_spec hl hn n (.init h) (Nat.zero_le n) (Nat.sub_le n 0)).bind ?_
  rintro w ⟨hw,rfl⟩
  split
  · next hgrow => exact Outcome.ok (hw.grow hl hi hoff hall hgrow.2)
  · next hgrow =>
    have hsize : w.ip.size = (v i).size := by rw [hw.fields]
    have hle : off+w.tot ≤ (v i).size.toNat := by
      have hwoff := hw.off_eq
      rw [hsize] at hgrow
      omega
    have hmax : max (v i).size.toNat (off+w.tot) = (v i).size.toNat := max_eq_left hle
    -- no block was missing, so `bmap` has not changed the inode
    have hsame : w.ip = v i := hw.same fun bn hbn => hall bn (hbn.trans_le hle)
    refine Outcome.ok ⟨rfl,?_,hw.blocks,hw.written,hw.others,hw.kept,hw.full hoff hall,?_,fun k hk _ => hw.dinodes k hk⟩
    · rw [hmax,BitVec.ofNat_toNat,BitVec.setWidth_eq]
      exact hw.fields
    · dsimp only
      rw [hsame,← hdin]
      exact hw.dinodes i hi

theorem writeiLoop_inside (hl : Layout sb start) {n : ℕ} (hn : off+n ≤ maxFile*bSize)
    (hall : ∀ bn, bn*bSize < off+n → blockOf v d i bn ≠ none) (fuel : ℕ) {w : WriteLoop}
    (h : WriteProgress sb start v d i src off w) (ht : w.tot ≤ n) (hf : n-w.tot ≤ fuel) :
    ∃ w', writeiLoop sb src n fuel w = .ok w' := by
  induction fuel generalizing w with
  | zero => exact ⟨w,if_neg (by omega)⟩
  | succ fuel ih =>
    rw [writeiLoop]
    by_cases hlt : w.tot < n
    · have hle := Nat.div_mul_le_self w.off bSize
      have hoff := h.off_eq
      obtain ⟨b,hb⟩ := Option.ne_none_iff_exists'.mp (hall (w.off/bSize) (by omega))
      obtain ⟨a,hmap,-⟩ := bmap_of_block sb (h.kept i _ b hb)
      rw [update_self] at hmap
      obtain ⟨w',hw'⟩ : ∃ w', writeiStep sb src n w = .ok w' := by
        rw [writeiStep,hmap]
        exact ⟨_,rfl⟩
      obtain ⟨hnext,hmore,hle'⟩ := (writeiStep_spec hl h hlt hn).of_ok hw'
      rw [if_pos hlt,hw']
      exact ih hnext hle' (by omega)
    · exact ⟨w,if_neg hlt⟩

theorem writei_inside (hl : Layout sb start) (h : Blocks sb start v d ∅)
    (hall : ∀ bn, bn*bSize < (v i).size.toNat → blockOf v d i bn ≠ none) {n : ℕ}
    (hoff : off+n ≤ (v i).size.toNat) (hn : off+n ≤ maxFile*bSize) :
    ∃ r, writei sb i (v i) src off n d = .ok r := by
  have hlim : maxFile*bSize = 71680 := rfl
  have hpass : ¬ ((v i).size.toNat < off ∨ (off+n)%2^32 < off) := by omega
  obtain ⟨w,hw⟩ := writeiLoop_inside hl hn (fun bn hbn => hall bn (hbn.trans_le hoff)) n (.init h)
    (Nat.zero_le n) (Nat.sub_le n 0)
  rw [writei,if_neg hpass,if_neg (by omega),hw]
  dsimp only [bind,Except.bind]
  split
  · exact ⟨_,rfl⟩
  · exact ⟨_,rfl⟩

theorem writei_rejects {n : ℕ} {ip : Dinode}
    (h : ¬ (off ≤ ip.size.toNat ∧ off+n ≤ maxFile*bSize)) : writei sb i ip src off n d = .ok (-1,ip,d) := by
  rw [writei]
  split
  · rfl
  · rw [if_pos (by omega)]

end Write

end Xv6Paging.Fs
