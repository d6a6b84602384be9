import Xv6Paging.Library.CopyOrder
import Xv6Paging.Library.WordPage

/-! # memmove

`memmove` of `string.c`, which the kernel uses, and `memmove` of `ulib.c`, which user programs use. The first one chooses
the direction in which it copies. The second one always goes upward, and its size is an `int`.
-/
namespace Xv6Paging
open WordPage CopyOrder

abbrev Addr := BitVec 32

abbrev AddressSpace := Addr → Byte

def copyUp : ℕ → Addr → Addr → AddressSpace → AddressSpace
  | 0, _, _, m => m
  | n+1, d, s, m => copyUp n (d+1) (s+1) (Function.update m d (m s))

def copyDown : ℕ → Addr → Addr → AddressSpace → AddressSpace
  | 0, _, _, m => m
  | n+1, d, s, m => copyDown n (d-1) (s-1) (Function.update m (d-1) (m (s-1)))

/-- `memmove` of `string.c`: the pointer it returns, and the memory. -/
def StringC.memmove (dst src : Addr) (n : BitVec 32) (m : AddressSpace) : Addr × AddressSpace :=
  if src < dst ∧ dst < src+n then (dst,copyDown n.toNat (dst+n) (src+n) m)
  else (dst,copyUp n.toNat dst src m)

def Ulib.memmove (vdst vsrc : Addr) (n : BitVec 32) (m : AddressSpace) : Addr × AddressSpace :=
  (vdst,copyUp n.toInt.toNat vdst vsrc m)

/-- The bytes from `dst` on are those that were at `src`, and all others are as before. -/
structure BytesMoved (dst src : Addr) (n : ℕ) (m m' : AddressSpace) : Prop where
  copied : ∀ k < n, m' (dst+BitVec.ofNat 32 k) = m (src+BitVec.ofNat 32 k)
  kept : ∀ a : Addr, a.toNat < dst.toNat ∨ dst.toNat+n ≤ a.toNat → m' a = m a

section Loops
variable {dst src : Addr} {n j k : ℕ} {m m' m'' : AddressSpace}

theorem toNat_add_ofNat (h : dst.toNat+n ≤ 2^32) (hk : k < n) : (dst+BitVec.ofNat 32 k).toNat = dst.toNat+k := by
  rw [BitVec.toNat_add,BitVec.toNat_ofNat,Nat.add_mod_mod,Nat.mod_eq_of_lt (by omega)]

theorem add_ofNat_succ (d : Addr) (k : ℕ) : d+BitVec.ofNat 32 (k+1) = d+1+BitVec.ofNat 32 k := by
  rw [BitVec.ofNat_add,BitVec.add_comm (BitVec.ofNat 32 k),← BitVec.add_assoc]
  rfl

theorem add_ofNat_ne (h : dst.toNat+n ≤ 2^32) (hj : j < n) (hk : k < n) (hne : k ≠ j) :
    dst+BitVec.ofNat 32 k ≠ dst+BitVec.ofNat 32 j := by
  intro he
  have hnat := congrArg BitVec.toNat he
  rw [toNat_add_ofNat h hk,toNat_add_ofNat h hj] at hnat
  omega

theorem copyUp_eq (n : ℕ) (dst src : Addr) (m : AddressSpace) : copyUp n dst src m =
    copyAll (fun k => dst+BitVec.ofNat 32 k) (fun k => src+BitVec.ofNat 32 k) m (List.range n) := by
  induction n generalizing dst src m with
  | zero => rfl
  | succ n ih =>
    have hfirst : copyCell (fun k => dst+BitVec.ofNat 32 k) (fun k => src+BitVec.ofNat 32 k) m 0 =
        Function.update m dst (m src) := by
      simp only [copyCell,BitVec.add_zero]
    rw [copyUp,ih,List.range_succ_eq_map,copyAll_cons,copyAll_map,hfirst]
    simp only [Nat.succ_eq_add_one,add_ofNat_succ]

theorem copyDown_eq (n : ℕ) (dst src : Addr) (m : AddressSpace) :
    copyDown n (dst+BitVec.ofNat 32 n) (src+BitVec.ofNat 32 n) m =
      copyAll (fun k => dst+BitVec.ofNat 32 k) (fun k => src+BitVec.ofNat 32 k) m (List.range n).reverse := by
  induction n generalizing m with
  | zero => rfl
  | succ n ih =>
    have hpred : ∀ a : Addr, a+BitVec.ofNat 32 (n+1)-1 = a+BitVec.ofNat 32 n := by
      intro a
      rw [BitVec.ofNat_add,← BitVec.add_assoc]
      exact BitVec.add_sub_cancel _ _
    rw [copyDown,hpred,hpred,ih,List.range_succ,List.reverse_concat,copyAll_cons]
    rfl

section
variable (hdst : dst.toNat+n ≤ 2^32) (hsrc : src.toNat+n ≤ 2^32)
include hdst hsrc

theorem moved_of_order {ks : List ℕ} (hmem : ∀ k, k ∈ ks ↔ k < n)
    (hnd : ks.Nodup) (hsafe : ks.Pairwise fun k j => dst.toNat+k ≠ src.toNat+j) :
    BytesMoved dst src n m (copyAll (fun k => dst+BitVec.ofNat 32 k) (fun k => src+BitVec.ofNat 32 k) m ks) := by
  refine ⟨fun k hk => copyAll_of_pairwise (hnd.imp_of_mem ?_) (hsafe.imp_of_mem ?_) ((hmem k).mpr hk),
    fun a ha => copyAll_of_forall_ne fun k hk he => ?_⟩
  · intro i j hi hj hne
    exact add_ofNat_ne hdst ((hmem j).mp hj) ((hmem i).mp hi) hne
  · intro i j hi hj hne he
    have hnat := congrArg BitVec.toNat he
    rw [toNat_add_ofNat hdst ((hmem i).mp hi),toNat_add_ofNat hsrc ((hmem j).mp hj)] at hnat
    exact hne hnat
  · have hk' := (hmem k).mp hk
    have hnat := congrArg BitVec.toNat he
    rw [toNat_add_ofNat hdst hk'] at hnat
    omega

theorem copyUp_moved
    (hover : ¬ (src.toNat < dst.toNat ∧ dst.toNat < src.toNat+n)) : BytesMoved dst src n m (copyUp n dst src m) := by
  rw [copyUp_eq]
  refine moved_of_order hdst hsrc (fun k => List.mem_range) List.nodup_range ?_
  refine List.pairwise_lt_range.imp_of_mem fun {k j} hk hj hlt => ?_
  rw [List.mem_range] at hk hj
  omega

theorem copyDown_moved (hle : src.toNat ≤ dst.toNat) :
    BytesMoved dst src n m (copyDown n (dst+BitVec.ofNat 32 n) (src+BitVec.ofNat 32 n) m) := by
  rw [copyDown_eq]
  refine moved_of_order hdst hsrc (fun k => List.mem_reverse.trans List.mem_range)
    (List.nodup_reverse.mpr List.nodup_range) (List.pairwise_reverse.mpr ?_)
  refine List.pairwise_lt_range.imp fun {k j} hlt => ?_
  omega

end

theorem copyUp_overlap (hdst : dst.toNat+n ≤ 2^32) (hlt : src.toNat < dst.toNat) (hover : dst.toNat < src.toNat+n) :
    copyUp n dst src m (dst+BitVec.ofNat 32 (dst.toNat-src.toNat)) = m src := by
  obtain ⟨δ,hδ⟩ : ∃ δ, dst.toNat-src.toNat = δ := ⟨_,rfl⟩
  have hlater : ∀ {j k : ℕ}, j < k → k < n → dst+BitVec.ofNat 32 k ≠ dst+BitVec.ofNat 32 j :=
    fun hjk hk => add_ofNat_ne hdst (hjk.trans hk) hk hjk.ne'
  -- the source of this byte is the first byte of the destination
  have hback : src+BitVec.ofNat 32 δ = dst+BitVec.ofNat 32 0 := by
    refine BitVec.eq_of_toNat_eq ?_
    rw [toNat_add_ofNat (n := δ+1) (by omega) (by omega),toNat_add_ofNat hdst (by omega)]
    omega
  rw [hδ,copyUp_eq,copyAll_range_at (show δ < n by omega) fun k hk hkn => hlater hk hkn,hback,
    copyAll_range_at (show 0 < δ by omega) fun k hk hkδ => hlater hk (by omega)]
  exact congrArg m (BitVec.add_zero src)

end Loops

section Memmove
variable {dst src : Addr} {n : BitVec 32} {m m' m'' : AddressSpace}

theorem BytesMoved.unique {n : ℕ} (hdst : dst.toNat+n ≤ 2^32) (h : BytesMoved dst src n m m')
    (h' : BytesMoved dst src n m m'') : m' = m'' := by
  funext a
  by_cases ha : a.toNat < dst.toNat ∨ dst.toNat+n ≤ a.toNat
  · rw [h.kept a ha,h'.kept a ha]
  · have hk : a.toNat-dst.toNat < n := by omega
    have haddr : a = dst+BitVec.ofNat 32 (a.toNat-dst.toNat) := by
      refine BitVec.eq_of_toNat_eq ?_
      rw [toNat_add_ofNat hdst hk]
      omega
    rw [haddr,h.copied _ hk,h'.copied _ hk]

theorem StringC.memmove_moved (hdst : dst.toNat+n.toNat ≤ 2^32) (hsrc : src.toNat+n.toNat ≤ 2^32) (m : AddressSpace) :
    BytesMoved dst src n.toNat m (memmove dst src n m).2 := by
  rw [memmove]
  by_cases hdown : src < dst ∧ dst < src+n
  · rw [if_pos hdown]
    have hmoved := copyDown_moved (m := m) hdst hsrc (BitVec.le_of_lt hdown.1)
    rwa [BitVec.ofNat_toNat,BitVec.setWidth_eq] at hmoved
  · rw [if_neg hdown]
    refine copyUp_moved hdst hsrc fun hover => hdown ⟨hover.1,?_⟩
    rw [BitVec.lt_def,BitVec.toNat_add,Nat.mod_eq_of_lt (by omega)]
    exact hover.2

theorem toInt_toNat (n : BitVec 32) : n.toInt.toNat = if n.toNat < 2^31 then n.toNat else 0 := by
  rw [BitVec.toInt_eq_toNat_cond]
  have := n.isLt
  split_ifs <;> omega

def oneAt (src : Addr) : AddressSpace := fun a => if a = src then 1 else 0

def UpwardSafe (dst src : Addr) (n : BitVec 32) : Prop :=
  dst = src ∨ n.toNat < 2^31 ∧ ¬ (src < dst ∧ dst.toNat < src.toNat+n.toNat)

theorem Ulib.memmove_moved (hdst : dst.toNat+n.toNat ≤ 2^32) (hsrc : src.toNat+n.toNat ≤ 2^32) (h : UpwardSafe dst src n)
    (m : AddressSpace) : BytesMoved dst src n.toNat m (memmove dst src n m).2 := by
  rw [memmove,toInt_toNat]
  by_cases hsmall : n.toNat < 2^31
  · rw [if_pos hsmall]
    refine copyUp_moved hdst hsrc fun hover => ?_
    rcases h with rfl | ⟨-,hno⟩
    · omega
    · exact hno hover
  · rw [if_neg hsmall]
    rcases h with rfl | ⟨hlt,-⟩
    · exact ⟨fun _ _ => rfl,fun _ _ => rfl⟩
    · exact absurd hlt hsmall

theorem Ulib.not_memmove_moved (hdst : dst.toNat+n.toNat ≤ 2^32) (h : ¬ UpwardSafe dst src n) :
    ¬ BytesMoved dst src n.toNat (oneAt src) (memmove dst src n (oneAt src)).2 := by
  intro hmoved
  rw [UpwardSafe,not_or] at h
  obtain ⟨hne,h⟩ := h
  have hzero : oneAt src dst = 0 := if_neg hne
  have hone : oneAt src src = 1 := if_pos rfl
  rw [memmove,toInt_toNat] at hmoved
  dsimp only at hmoved
  by_cases hsmall : n.toNat < 2^31
  · obtain ⟨hlt,hover⟩ := not_not.mp fun hno => h ⟨hsmall,hno⟩
    have hlt' : src.toNat < dst.toNat := hlt
    have hcopied := hmoved.copied (dst.toNat-src.toNat) (by omega)
    have hend : src+BitVec.ofNat 32 (dst.toNat-src.toNat) = dst := by
      refine BitVec.eq_of_toNat_eq ?_
      rw [toNat_add_ofNat (n := dst.toNat-src.toNat+1) (by omega) (by omega)]
      omega
    rw [if_pos hsmall,copyUp_overlap hdst hlt hover,hend,hzero,hone] at hcopied
    cases hcopied
  · have hcopied := hmoved.copied 0 (by omega)
    rw [if_neg hsmall,copyUp,BitVec.add_zero,BitVec.add_zero,hzero,hone] at hcopied
    cases hcopied

/-- The kernel's `memmove` moves the bytes whatever the overlap. The user's one does so for all memories
exactly if nothing has to be moved, or the size is not negative as an `int` and the destination does not
start inside the source. -/
theorem memmove_moved_iff (dst src : Addr) (n : BitVec 32) (hdst : dst.toNat+n.toNat ≤ 2^32)
    (hsrc : src.toNat+n.toNat ≤ 2^32) :
    (∀ m, BytesMoved dst src n.toNat m (StringC.memmove dst src n m).2) ∧
    ((∀ m, BytesMoved dst src n.toNat m (Ulib.memmove dst src n m).2) ↔ UpwardSafe dst src n) ∧
    ((∀ m, Ulib.memmove dst src n m = StringC.memmove dst src n m) ↔ UpwardSafe dst src n) := by
  have hkernel := fun m => StringC.memmove_moved (n := n) hdst hsrc m
  refine ⟨hkernel,⟨fun hall => ?_,fun h m => Ulib.memmove_moved hdst hsrc h m⟩,fun hall => ?_,fun h m => ?_⟩
  · by_contra h
    exact Ulib.not_memmove_moved hdst h (hall _)
  · by_contra h
    refine Ulib.not_memmove_moved hdst h ?_
    rw [hall]
    exact hkernel _
  · refine Prod.ext ?_ ((Ulib.memmove_moved hdst hsrc h m).unique hdst (hkernel m))
    rw [StringC.memmove]
    split_ifs <;> rfl

theorem memmove_moved_separate :
    UpwardSafe 0x2000 0x1000 16 ∧ ∀ m, Ulib.memmove 0x2000 0x1000 16 m = StringC.memmove 0x2000 0x1000 16 m := by
  have hsafe : UpwardSafe 0x2000 0x1000 16 := Or.inr (by decide)
  exact ⟨hsafe,(memmove_moved_iff 0x2000 0x1000 16 (by decide) (by decide)).2.2.mpr hsafe⟩

/-- The bytes 1, 2 at the addresses 0 and 1, moved up by one: the user's `memmove` leaves 1, 1. -/
theorem memmove_up_by_one :
    ∃ m : AddressSpace, ¬ BytesMoved 1 0 2 m (Ulib.memmove 1 0 2 m).2 ∧ (StringC.memmove 1 0 2 m).2 2 = 2 ∧
      (Ulib.memmove 1 0 2 m).2 2 = 1 := by
  refine ⟨fun a => if a = 0 then 1 else if a = 1 then 2 else 0,fun hmoved => ?_,by decide,by decide⟩
  have hcopied := hmoved.copied 1 (by decide)
  revert hcopied
  decide

end Memmove

end Xv6Paging
