import Mathlib.Data.Finset.Card
import Xv6Paging.FileSystem.Consistency

/-! # The blocks that one write logs

The blocks that `balloc`, `bmap`, `iupdate` and `writei` pass to `log_write`, in order and with
repetitions. A chunk of `filewrite` covers at most four blocks of the file, and then the
first of them exists. A block that does not exist costs its bitmap block besides itself,
and the indirect block costs itself and a bitmap block once.
-/
namespace Xv6Paging.Fs
open WordPage Sector Ownership Function
variable (sb : Superblock)

def logAfter {α : Type} (x : Except Fault α) (f : α → List ℕ) : List ℕ :=
  match x with
  | .ok a => f a
  | .error _ => []

@[simp] theorem logAfter_ok {α : Type} (a : α) (f : α → List ℕ) : logAfter (.ok a) f = f a := rfl
@[simp] theorem logAfter_error {α : Type} (e : Fault) (f : α → List ℕ) : logAfter (.error e) f = [] := rfl

/-- `balloc` logs the bitmap block and, in `bzero`, the new block. -/
def ballocLog (d : Disk) : List ℕ :=
  match freeBlock sb d with
  | some b => [sb.bblock b,b]
  | none => []

def ensureAddrLog (ip : Dinode) (k : Fin 13) (d : Disk) : List ℕ := if ip.addrs k = 0 then ballocLog sb d else []

/-- The indirect block `a` is logged when an entry has been stored in it. -/
def entryLog (a : Word) (bn : ℕ) (d : Disk) : List ℕ :=
  if wordAt (d a.toNat) (bn-nDirect) = 0 then ballocLog sb d ++ logAfter (balloc sb d) fun _ => [a.toNat] else []

def bmapLog (ip : Dinode) (bn : ℕ) (d : Disk) : List ℕ :=
  if bn < nDirect then ensureAddrLog sb ip (Fin.ofNat 13 bn) d
  else ensureAddrLog sb ip 12 d ++ logAfter (ensureAddr sb ip 12 d) fun r => entryLog sb r.1 bn r.2.2

/-- One iteration of `writei` logs the data block that `bmap` has returned. -/
def writeiStepLog (w : WriteLoop) : List ℕ :=
  bmapLog sb w.ip (w.off/bSize) w.disk ++ logAfter (bmap sb w.ip (w.off/bSize) w.disk) fun r => [r.1.toNat]

def writeiLoopLog (src : ℕ → Byte) (n : ℕ) : ℕ → WriteLoop → List ℕ
  | 0, _ => []
  | fuel+1, w =>
    if w.tot < n then writeiStepLog sb w ++ logAfter (writeiStep sb src n w) (writeiLoopLog src n fuel) else []

def writeiLog (inum : ℕ) (ip : Dinode) (src : ℕ → Byte) (off n : ℕ) (d : Disk) : List ℕ :=
  if ip.size.toNat < off ∨ (off+n)%2^32 < off then []
  else if maxFile*bSize < off+n then []
  else writeiLoopLog sb src n n ⟨off,0,ip,d⟩ ++ logAfter (writeiLoop sb src n n ⟨off,0,ip,d⟩) fun w =>
    if 0 < n ∧ w.ip.size.toNat < w.off then [sb.iblock inum] else []

variable {sb} {start : ℕ} {v : ℕ → Dinode} {d d' : Disk} {L : Set ℕ} {i bn : ℕ}

theorem ballocLog_error (h : ∀ r, balloc sb d ≠ .ok r) : ballocLog sb d = [] := by
  rw [ballocLog]
  cases hb : freeBlock sb d with
  | none => rfl
  | some b =>
    refine absurd ?_ (h (BitVec.ofNat 32 b,update (sb.mark d b) b fun _ => 0))
    rw [balloc,hb]

theorem mem_ballocLog (hl : Layout sb start) {w : Word} (h : balloc sb d = .ok (w,d')) {b : ℕ}
    (hb : b ∈ ballocLog sb d) : b = sb.bblock w.toNat ∨ b = w.toNat := by
  rw [ballocLog] at hb
  rw [balloc] at h
  cases hf : freeBlock sb d with
  | none =>
    rw [hf] at h
    cases h
  | some c =>
    rw [hf] at h hb
    cases h
    have hc : (BitVec.ofNat 32 c).toNat = c := by
      rw [BitVec.toNat_ofNat]
      exact Nat.mod_eq_of_lt ((freeBlock_some hf).1.trans hl.size)
    rw [hc]
    simpa using hb

theorem mem_ensureAddrLog (hl : Layout sb start) {ip : Dinode} {k : Fin 13} {r : Word × Dinode × Disk}
    (hr : ensureAddr sb ip k d = .ok r) {b : ℕ} (hb : b ∈ ensureAddrLog sb ip k d) :
    ip.addrs k = 0 ∧ (b = sb.bblock r.1.toNat ∨ b = r.1.toNat) := by
  rw [ensureAddrLog] at hb
  rw [ensureAddr] at hr
  split at hb
  · next hk =>
    rw [if_pos hk] at hr
    obtain ⟨⟨a,d'⟩,ha,hr⟩ := bind_eq_ok hr
    cases hr
    exact ⟨hk,mem_ballocLog hl ha hb⟩
  · cases hb

theorem ensureAddrLog_error {ip : Dinode} {k : Fin 13} {e : Fault} (he : ensureAddr sb ip k d = .error e) :
    ensureAddrLog sb ip k d = [] := by
  rw [ensureAddrLog]
  split
  · next hk =>
    rw [ensureAddr,if_pos hk] at he
    refine ballocLog_error fun r hr => ?_
    rw [hr] at he
    cases he
  · rfl

theorem ensureAddr_addrs {ip : Dinode} {k j : Fin 13} {r : Word × Dinode × Disk} (hr : ensureAddr sb ip k d = .ok r)
    (hj : j ≠ k) : r.2.1.addrs j = ip.addrs j := by
  rw [ensureAddr] at hr
  split at hr
  · obtain ⟨⟨a,d'⟩,-,hr⟩ := bind_eq_ok hr
    cases hr
    exact update_of_ne hj _ _
  · cases hr
    rfl

theorem bmapLog_of_block (sb : Superblock) (h : blockOf v d i bn ≠ none) : bmapLog sb (v i) bn d = [] := by
  have hnd : nDirect = 12 := rfl
  obtain ⟨b,hb⟩ := Option.ne_none_iff_exists'.mp h
  rw [blockOf,placeOf] at hb
  rw [bmapLog,hnd]
  split at hb
  · next hd =>
    have hk : (⟨bn,hd⟩ : Fin 12).castSucc = Fin.ofNat 13 bn := Fin.ext (by
      change bn = bn%13
      omega)
    rw [Option.bind_some,Place.addr,hk] at hb
    rw [if_pos hd,ensureAddrLog,if_neg (target_eq_some.mp hb).1]
  · next hd =>
    split at hb
    · next hj =>
      rw [Option.bind_some,Place.addr] at hb
      obtain ⟨a,ha,hw⟩ := Option.bind_eq_some_iff.mp hb
      obtain ⟨hne,rfl⟩ := target_eq_some.mp ha
      rw [if_neg hd,ensureAddrLog,if_neg hne,ensureAddr,if_neg hne]
      exact if_neg (target_eq_some.mp hw).1
    · cases hb

theorem mem_bmapLog (hl : Layout sb start) (h : Blocks sb start v d L) (i : ℕ) {bn : ℕ} (hbn : bn < maxFile)
    {r : Word × Dinode × Disk} (hr : bmap sb (v i) bn d = .ok r) :
    ((v i).addrs 12 ≠ 0 → r.2.1.addrs 12 = (v i).addrs 12) ∧ ∃ y, ∀ b ∈ bmapLog sb (v i) bn d,
      b = r.1.toNat ∨ b = sb.bblock r.1.toNat ∨
        r.2.1.addrs 12 ≠ 0 ∧ (b = (r.2.1.addrs 12).toNat ∨ (v i).addrs 12 = 0 ∧ b = y) := by
  have hmax : maxFile = 140 := rfl
  have hnd : nDirect = 12 := rfl
  have hni : nIndirect = 128 := rfl
  rw [bmap] at hr
  rw [bmapLog]
  by_cases hd : bn < nDirect
  · rw [if_pos hd] at hr ⊢
    have hne : (12 : Fin 13) ≠ Fin.ofNat 13 bn := by
      intro he
      have hv := congrArg Fin.val he
      change 12 = bn%13 at hv
      omega
    refine ⟨fun _ => ensureAddr_addrs hr hne,0,fun b hb => ?_⟩
    obtain ⟨-,hb | hb⟩ := mem_ensureAddrLog hl hr hb
    · exact Or.inr (Or.inl hb)
    · exact Or.inl hb
  · rw [if_neg hd] at hr ⊢
    rw [if_pos (by omega)] at hr
    obtain ⟨⟨a,ip,d₁⟩,hens,hr⟩ := bind_eq_ok hr
    obtain ⟨-,-,ha,haddr,hold⟩ := (ensureAddr_spec hl h i 12).of_ok hens
    dsimp only at hr ha haddr hold
    have hip : r.2.1 = ip := by
      split at hr
      · obtain ⟨⟨c,d₂⟩,-,hr⟩ := bind_eq_ok hr
        cases hr
        rfl
      · cases hr
        rfl
    rw [hip,haddr,hens]
    refine ⟨fun hne => ?_,sb.bblock a.toNat,fun b hb => ?_⟩
    · rw [← haddr,(hold hne).1]
    · rcases List.mem_append.mp hb with hb | hb
      · obtain ⟨hz,hb | hb⟩ := mem_ensureAddrLog hl hens hb
        · exact Or.inr (Or.inr ⟨ha,Or.inr ⟨hz,hb⟩⟩)
        · exact Or.inr (Or.inr ⟨ha,Or.inl hb⟩)
      · rw [logAfter_ok,entryLog] at hb
        split at hb
        · next hz =>
          rw [if_pos hz] at hr
          obtain ⟨⟨c,d₂⟩,hc,hr⟩ := bind_eq_ok hr
          cases hr
          rw [hc,logAfter_ok] at hb
          rcases List.mem_append.mp hb with hb | hb
          · rcases mem_ballocLog hl hc hb with hb | hb
            · exact Or.inr (Or.inl hb)
            · exact Or.inl hb
          · exact Or.inr (Or.inr ⟨ha,Or.inl (List.mem_singleton.mp hb)⟩)
        · cases hb

theorem mem_bmapLog_error (hl : Layout sb start) {ip : Dinode} (hbn : bn < maxFile) {e : Fault}
    (he : bmap sb ip bn d = .error e) : ∃ y z, ∀ b ∈ bmapLog sb ip bn d, b = y ∨ b = z := by
  have hmax : maxFile = 140 := rfl
  have hnd : nDirect = 12 := rfl
  have hni : nIndirect = 128 := rfl
  rw [bmap] at he
  rw [bmapLog]
  by_cases hd : bn < nDirect
  · rw [if_pos hd] at he ⊢
    rw [ensureAddrLog_error he]
    exact ⟨0,0,fun b hb => absurd hb List.not_mem_nil⟩
  · rw [if_neg hd] at he ⊢
    rw [if_pos (by omega)] at he
    cases hens : ensureAddr sb ip 12 d with
    | error e' =>
      rw [ensureAddrLog_error hens]
      exact ⟨0,0,fun b hb => absurd hb List.not_mem_nil⟩
    | ok x =>
      obtain ⟨a,ip',d₁⟩ := x
      rw [hens] at he
      refine ⟨sb.bblock a.toNat,a.toNat,fun b hb => ?_⟩
      rcases List.mem_append.mp hb with hb | hb
      · exact (mem_ensureAddrLog hl hens hb).2
      · dsimp only [bind,Except.bind] at he
        rw [logAfter_ok,entryLog] at hb
        split at hb
        · next hz =>
          rw [if_pos hz] at he
          cases hc : balloc sb d₁ with
          | ok c =>
            rw [hc] at he
            cases he
          | error e' =>
            rw [hc,logAfter_error,ballocLog_error fun r hr => by rw [hr] at hc; cases hc] at hb
            cases hb
        · cases hb

section Loop
variable {src : ℕ → Byte} {off n : ℕ}

def blocksLeft (stop o : ℕ) : ℕ := if o < stop then (stop+511)/512-o/512 else 0

def newBlocksLeft (stop o : ℕ) : ℕ := if o < stop then (stop+511)/512-(o+511)/512 else 0

theorem blocksLeft_step {stop o m : ℕ} (ho : o < stop) (hm : m = min (stop-o) (512-o%512)) :
    blocksLeft stop (o+m)+1 ≤ blocksLeft stop o ∧ newBlocksLeft stop (o+m) ≤ newBlocksLeft stop o ∧
      (o%512 = 0 → newBlocksLeft stop (o+m)+1 ≤ newBlocksLeft stop o) := by
  rw [blocksLeft,blocksLeft,newBlocksLeft,newBlocksLeft,if_pos ho,if_pos ho]
  by_cases hend : o+m < stop
  · rw [if_pos hend,if_pos hend]
    omega
  · rw [if_neg hend,if_neg hend]
    omega

/-- The rest of the loop logs data blocks, their bitmap blocks, and two blocks for the indirect block; one,
if that exists. -/
def Fits (stop : ℕ) (w : WriteLoop) (log : List ℕ) : Prop :=
  ∃ data bits : Finset ℕ, ∃ x y : ℕ, (∀ b ∈ log, b ∈ data ∨ b ∈ bits ∨ b = x ∨ b = y) ∧
    data.card ≤ blocksLeft stop w.off ∧ bits.card ≤ newBlocksLeft stop w.off ∧
    (w.ip.addrs 12 ≠ 0 → x = (w.ip.addrs 12).toNat ∧ y = x)

theorem fits_nil (stop : ℕ) (w : WriteLoop) : Fits stop w [] := by
  refine ⟨∅,∅,(w.ip.addrs 12).toNat,(w.ip.addrs 12).toNat,?_,Nat.zero_le _,Nat.zero_le _,fun _ => ⟨rfl,rfl⟩⟩
  exact fun b hb => absurd hb List.not_mem_nil

theorem Fits.cons_old {stop : ℕ} {w w' : WriteLoop} {log : List ℕ} (h : Fits stop w' log) (hlt : w.off < stop)
    (hoff : w'.off = w.off+min (stop-w.off) (512-w.off%512)) (hip : w'.ip = w.ip) (a : ℕ) : Fits stop w (a :: log) := by
  obtain ⟨data,bits,x,y,hmem,hdata,hbits,hind⟩ := h
  obtain ⟨hblocks,hnew,-⟩ := blocksLeft_step hlt rfl
  rw [hoff] at hdata hbits
  refine ⟨insert a data,bits,x,y,fun b hb => ?_,(Finset.card_insert_le a data).trans (by omega),hbits.trans hnew,
    hip ▸ hind⟩
  rcases List.mem_cons.mp hb with rfl | hb
  · exact Or.inl (Finset.mem_insert_self b data)
  · exact (hmem b hb).imp_left (Finset.mem_insert_of_mem ·)

theorem Fits.append_new {stop : ℕ} {w w' : WriteLoop} {log l : List ℕ} (h : Fits stop w' log) (hlt : w.off < stop)
    (hoff : w'.off = w.off+min (stop-w.off) (512-w.off%512)) (halign : w.off%512 = 0) (a z y₀ : ℕ)
    (hkeep : w.ip.addrs 12 ≠ 0 → w'.ip.addrs 12 = w.ip.addrs 12)
    (hl : ∀ b ∈ l, b = a ∨ b = z ∨
      w'.ip.addrs 12 ≠ 0 ∧ (b = (w'.ip.addrs 12).toNat ∨ w.ip.addrs 12 = 0 ∧ b = y₀)) : Fits stop w (l ++ log) := by
  obtain ⟨data,bits,x,y,hmem,hdata,hbits,hind⟩ := h
  obtain ⟨hblocks,-,hnew⟩ := blocksLeft_step hlt rfl
  have hnew := hnew halign
  rw [hoff] at hdata hbits
  -- the indirect block that exists afterwards is the only one the rest logs
  obtain ⟨x',y',hrest,hhere,hfixed⟩ : ∃ x' y', (∀ b, b = x ∨ b = y → b = x' ∨ b = y') ∧
      (∀ b, w'.ip.addrs 12 ≠ 0 ∧ (b = (w'.ip.addrs 12).toNat ∨ w.ip.addrs 12 = 0 ∧ b = y₀) → b = x' ∨ b = y') ∧
      (w.ip.addrs 12 ≠ 0 → x' = (w.ip.addrs 12).toNat ∧ y' = x') := by
    by_cases hw' : w'.ip.addrs 12 = 0
    · have hw : w.ip.addrs 12 = 0 := by
        by_contra hne
        exact hne (hkeep hne ▸ hw')
      exact ⟨x,y,fun b hb => hb,fun b hb => absurd hw' hb.1,fun hne => absurd hw hne⟩
    · obtain ⟨rfl,rfl⟩ := hind hw'
      by_cases hw : w.ip.addrs 12 = 0
      · exact ⟨_,y₀,fun b hb => Or.inl (hb.elim id id),fun b hb => hb.2.imp_right (·.2),fun hne => absurd hw hne⟩
      · refine ⟨_,_,fun b hb => hb,fun b hb => ?_,fun _ => ⟨by rw [hkeep hw],rfl⟩⟩
        exact Or.inl (hb.2.resolve_right fun hz => hw hz.1)
  refine ⟨insert a data,insert z bits,x',y',fun b hb => ?_,(Finset.card_insert_le a data).trans (by omega),
    (Finset.card_insert_le z bits).trans (by omega),hfixed⟩
  rcases List.mem_append.mp hb with hb | hb
  · rcases hl b hb with rfl | rfl | hb
    · exact Or.inl (Finset.mem_insert_self b data)
    · exact Or.inr (Or.inl (Finset.mem_insert_self b bits))
    · exact Or.inr (Or.inr (hhere b hb))
  · rcases hmem b hb with hb | hb | hb
    · exact Or.inl (Finset.mem_insert_of_mem hb)
    · exact Or.inr (Or.inl (Finset.mem_insert_of_mem hb))
    · exact Or.inr (Or.inr (hrest b hb))

theorem writeiStep_ok (src : ℕ → Byte) (n : ℕ) {w : WriteLoop} {r : Word × Dinode × Disk}
    (hr : bmap sb w.ip (w.off/bSize) w.disk = .ok r) : ∃ w', writeiStep sb src n w = .ok w' ∧
      w'.off = w.off+min (n-w.tot) (512-w.off%512) ∧ w'.tot = w.tot+min (n-w.tot) (512-w.off%512) ∧
      w'.ip = r.2.1 := by
  rw [writeiStep,hr]
  exact ⟨_,rfl,rfl,rfl,rfl⟩

theorem writeiStep_error {w : WriteLoop} {e : Fault} (he : bmap sb w.ip (w.off/bSize) w.disk = .error e) :
    writeiStep sb src n w = .error e := by
  rw [writeiStep,he]
  rfl

theorem writeiLoopLog_fits (hl : Layout sb start) (hn : off+n ≤ maxFile*bSize) (hoff : off ≤ (v i).size.toNat)
    (hall : ∀ bn, bn*bSize < (v i).size.toNat → blockOf v d i bn ≠ none) (fuel : ℕ) {w : WriteLoop}
    (h : WriteProgress sb start v d i src off w) (halign : w.off%512 = 0 ∨ w.tot = 0 ∨ w.tot = n) :
    Fits (off+n) w (writeiLoopLog sb src n fuel w) := by
  induction fuel generalizing w with
  | zero => exact fits_nil _ w
  | succ fuel ih =>
    rw [writeiLoopLog]
    by_cases hlt : w.tot < n
    · have hb : bSize = 512 := rfl
      have hwoff := h.off_eq
      have hstop : w.off < off+n := by omega
      have hleft : off+n-w.off = n-w.tot := by omega
      have hbn : w.off/bSize < maxFile := by
        rw [Nat.div_lt_iff_lt_mul (by decide)]
        omega
      have hnext : ∀ w', writeiStep sb src n w = .ok w' → w'.off = w.off+min (n-w.tot) (512-w.off%512) →
          w'.tot = w.tot+min (n-w.tot) (512-w.off%512) → Fits (off+n) w' (writeiLoopLog sb src n fuel w') := by
        intro w' hw' ho ht
        exact ih ((writeiStep_spec hl h hlt hn).of_ok hw').1 (by omega)
      rw [if_pos hlt,writeiStepLog]
      by_cases hal : w.off%512 = 0
      · cases hmap : bmap sb w.ip (w.off/bSize) w.disk with
        | error e =>
          obtain ⟨y,z,hlog⟩ := mem_bmapLog_error hl hbn hmap
          rw [writeiStep_error hmap,logAfter_error,logAfter_error,List.append_nil]
          exact (fits_nil (off+n) {w with off := w.off+min (off+n-w.off) (512-w.off%512)}).append_new hstop rfl hal
            y z 0 (fun _ => rfl) fun b hb => (hlog b hb).imp_right Or.inl
        | ok r =>
          obtain ⟨w',hw',ho,ht,hip⟩ := writeiStep_ok src n hmap
          have hview : bmap sb (update v i w.ip i) (w.off/bSize) w.disk = .ok r := by
            rw [update_self]
            exact hmap
          obtain ⟨hkeep,y,hlog⟩ := mem_bmapLog hl h.blocks i hbn hview
          rw [update_self] at hkeep hlog
          rw [hw',logAfter_ok,logAfter_ok]
          refine (hnext w' hw' ho ht).append_new hstop (hleft ▸ ho) hal r.1.toNat (sb.bblock r.1.toNat) y ?_
            fun b hb => ?_
          · rw [hip]
            exact hkeep
          · rw [hip]
            rcases List.mem_append.mp hb with hb | hb
            · exact hlog b hb
            · exact Or.inl (List.mem_singleton.mp hb)
      · have hle := Nat.div_mul_le_self w.off 512
        obtain ⟨b,hblock⟩ := Option.ne_none_iff_exists'.mp (hall (w.off/bSize) (by rw [hb]; omega))
        have hexists := h.kept i _ b hblock
        obtain ⟨a,hmap,-⟩ := bmap_of_block sb hexists
        have hnone := bmapLog_of_block sb (hexists ▸ Option.some_ne_none b)
        rw [update_self] at hmap hnone
        obtain ⟨w',hw',ho,ht,hip⟩ := writeiStep_ok src n hmap
        rw [hnone,hmap,hw',logAfter_ok,logAfter_ok]
        exact (hnext w' hw' ho ht).cons_old hstop (hleft ▸ ho) hip a.toNat
    · rw [if_neg hlt]
      exact fits_nil _ w

end Loop

theorem mem_inodeLog {x : Except Fault WriteLoop} {p : WriteLoop → Prop} [DecidablePred p] {b c : ℕ}
    (hb : b ∈ logAfter x fun w => if p w then [c] else []) : b = c := by
  cases x with
  | error e => cases hb
  | ok w =>
    rw [logAfter_ok] at hb
    split at hb
    · exact List.mem_singleton.mp hb
    · cases hb

/-- One chunk of `filewrite` logs at most `MAXOPBLOCKS` distinct blocks. If block 0 or a bitmap block were
free, mapping could hand it out, and a chunk could log more: so the inode's blocks are owned. -/
theorem filewrite_chunk_fits (hl : Layout sb start) (h : Blocks sb start v d ∅)
    (hall : ∀ bn < ((v i).size.toNat+bSize-1)/bSize, blockOf v d i bn ≠ none) {off n : ℕ}
    (hoff : off ≤ (v i).size.toNat) (hn : n ≤ filewriteMax) (src : ℕ → Byte) :
    (writeiLog sb i (v i) src off n d).toFinset.card ≤ maxOpBlocks := by
  have hmax : maxOpBlocks = 10 := rfl
  have hchunk : filewriteMax = 1536 := rfl
  have hb : bSize = 512 := rfl
  rw [writeiLog]
  split
  · exact Nat.zero_le _
  · split
    · exact Nat.zero_le _
    · next hlim =>
      have hfull : ∀ bn, bn*bSize < (v i).size.toNat → blockOf v d i bn ≠ none := by
        intro bn hbn
        refine hall bn ?_
        rw [hb] at hbn ⊢
        omega
      have hinit : WriteProgress sb start v d i src off ⟨off,0,v i,d⟩ := .init h
      obtain ⟨data,bits,x,y,hmem,hdata,hbits,-⟩ := writeiLoopLog_fits hl (not_lt.mp hlim) hoff hfull n hinit
        (Or.inr (Or.inl rfl))
      have hsub : (writeiLoopLog sb src n n ⟨off,0,v i,d⟩ ++ logAfter (writeiLoop sb src n n ⟨off,0,v i,d⟩) fun w =>
          if 0 < n ∧ w.ip.size.toNat < w.off then [sb.iblock i] else []).toFinset ⊆
          (data ∪ bits) ∪ {x,y,sb.iblock i} := by
        intro b hb
        simp only [Finset.mem_union,Finset.mem_insert,Finset.mem_singleton]
        rcases List.mem_append.mp (List.mem_toFinset.mp hb) with hb | hb
        · rcases hmem b hb with hb | hb | hb | hb <;> simp [hb]
        · exact Or.inr (Or.inr (Or.inr (mem_inodeLog hb)))
      have hleft : data.card+bits.card ≤ 7 := by
        rw [blocksLeft] at hdata
        rw [newBlocksLeft] at hbits
        dsimp only at hdata hbits
        split at hdata <;> split at hbits <;> omega
      calc _ ≤ ((data ∪ bits) ∪ {x,y,sb.iblock i}).card := Finset.card_le_card hsub
        _ ≤ (data ∪ bits).card+({x,y,sb.iblock i} : Finset ℕ).card := Finset.card_union_le _ _
        _ ≤ (data.card+bits.card)+3 := Nat.add_le_add (Finset.card_union_le _ _) Finset.card_le_three
        _ ≤ maxOpBlocks := by omega

/-- A full chunk at the start of an empty file. -/
theorem filewrite_chunk_fits_sample :
    (writeiLog sampleSuper 1 (table sampleSuper sampleState.disk 1) (fun _ => 7) 0 1536 sampleState.disk).toFinset.card ≤
      maxOpBlocks := by
  have hb : bSize = 512 := rfl
  refine filewrite_chunk_fits sample_layout sample_consistent.blocks (fun bn hbn => ?_) (Nat.zero_le _) (by decide) _
  refine sample_consistent.full 1 bn ?_
  rw [hb] at hbn ⊢
  omega

end Xv6Paging.Fs
