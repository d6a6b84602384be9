import Xv6Paging.Paging.CopyOut
import Xv6Paging.Paging.KernelMap
import Xv6Paging.Paging.MapPages

/-! # The device mapping

The last mapping that `setupkvm` makes is that of the devices, at the top of the address space. Its pages are present
and closed to user code, so an address that wraps around below zero is refused by `uva2ka`.
-/
namespace Xv6Paging
open WordPage PageTree

section Runs
variable {c : Config} {d d' : Frame} {s s' : Kernel} {a n : ℕ} {pa perm : Word} {r : ℤ}

theorem absent_of_mappagesLoop (hrun : mappagesLoop d perm n a pa s = .ok (r,s')) :
    has (s.pte d (vpn a)) pteP = false := by
  refine Bool.eq_false_iff.mpr fun hp => ?_
  obtain ⟨t,ht⟩ := table_of_has hp
  rw [mappagesLoop.eq_def] at hrun
  dsimp only at hrun
  rw [walkpgdir_of_table ht] at hrun
  dsimp only at hrun
  rw [readPte_eq ht,if_pos hp] at hrun
  cases hrun

theorem mappagesLoop_maps (h : TablesApart d s) (hend : mapAddr a n < 2^32)
    (hrun : mappagesLoop d perm n a pa s = .ok (r,s')) :
    TablesApart d s' ∧ (¬ r < 0 → MapsFirst d a (n+1) pa perm s s') := by
  induction n generalizing a pa s with
  | zero =>
    have hpage := absent_of_mappagesLoop hrun
    rw [mappagesLoop] at hrun
    obtain hfail | ⟨t,s₁,hwalk,hp,hs₁,hself,hother⟩ := h.enter hpage (mapEntry pa perm 0)
    · rw [hfail] at hrun
      cases hrun
      exact ⟨h,fun hr => (hr (by decide)).elim⟩
    · rw [hwalk] at hrun
      dsimp only at hrun
      rw [hp,if_neg Bool.false_ne_true,← mapEntry_zero] at hrun
      cases hrun
      exact ⟨hs₁,fun _ => .cons (fun i hi => (Nat.not_lt_zero i hi).elim) hself hother (.none hs₁ fun _ => rfl)⟩
  | succ n ih =>
    have hpage := absent_of_mappagesLoop hrun
    have hne : ∀ i < n+1, vpn (mapAddr a (i+1)) ≠ vpn a := by
      intro i hi he
      have hle : (i+1)*pgSize ≤ (n+1)*pgSize := Nat.mul_le_mul_right pgSize (Nat.succ_le_of_lt hi)
      have hhi : mapAddr a (i+1) < 2^32 := (Nat.add_le_add_left hle a).trans_lt hend
      have hq := (vpn_inj hhi ((Nat.le_add_right a _).trans_lt hhi)).mp he
      simp only [mapAddr,pgSize] at hq
      omega
    rw [mappagesLoop] at hrun
    obtain hfail | ⟨t,s₁,hwalk,hp,hs₁,hself,hother⟩ := h.enter hpage (mapEntry pa perm 0)
    · rw [hfail] at hrun
      cases hrun
      exact ⟨h,fun hr => (hr (by decide)).elim⟩
    · rw [hwalk] at hrun
      dsimp only at hrun
      rw [hp,if_neg Bool.false_ne_true,← mapEntry_zero] at hrun
      obtain ⟨hapart,hmaps⟩ := ih hs₁ (by rw [mapAddr_succ]; exact hend) hrun
      exact ⟨hapart,fun hr => .cons hne hself hother (hmaps hr)⟩

theorem mappages_maps {size : ℕ} (h : TablesApart d s) (ha : a < 2^32) (hrun : mappages d a size pa perm s = .ok (r,s')) :
    TablesApart d s' ∧ (¬ r < 0 → MapsFirst d (pgRoundDown a)
      ((pgRoundDown ((a+size-1)%2^32)-pgRoundDown a)/pgSize+1) pa perm s s') := by
  refine mappagesLoop_maps h ?_ hrun
  simp only [mapAddr,pgRoundDown,pgSize]
  omega

theorem setupkvmLoop_last {m : Kmap} (ms : List Kmap) (h : TablesApart d s) (hlt : ∀ k ∈ ms ++ [m], k.virt < 2^32)
    (hrun : setupkvmLoop c d (ms ++ [m]) s = .ok (some d',s')) :
    d' = d ∧ ∃ s₁, MapsFirst d (pgRoundDown m.virt)
      ((pgRoundDown ((m.virt+(m.physEnd+2^32-m.physStart)%2^32-1)%2^32)-pgRoundDown m.virt)/pgSize+1)
      (BitVec.ofNat 32 m.physStart) m.perm s₁ s' := by
  induction ms generalizing s with
  | nil =>
    rw [List.nil_append,setupkvmLoop] at hrun
    obtain ⟨⟨r,s₁⟩,hmap,hrun⟩ := bind_eq_ok hrun
    obtain ⟨-,hmaps⟩ := mappages_maps h (hlt m (by simp)) hmap
    dsimp only at hrun
    split_ifs at hrun with hr
    · obtain ⟨s₂,-,hrun⟩ := bind_eq_ok hrun
      cases hrun
    · cases hrun
      exact ⟨rfl,s,hmaps hr⟩
  | cons k ms ih =>
    rw [List.cons_append,setupkvmLoop] at hrun
    obtain ⟨⟨r,s₁⟩,hmap,hrun⟩ := bind_eq_ok hrun
    obtain ⟨hapart,-⟩ := mappages_maps h (hlt k (by simp)) hmap
    dsimp only at hrun
    split_ifs at hrun with hr
    · obtain ⟨s₂,-,hrun⟩ := bind_eq_ok hrun
      cases hrun
    · exact ih hapart (fun k hk => hlt k (List.mem_cons_of_mem _ hk)) hrun

end Runs

def DeviceMapped (d : Frame) (s : Kernel) : Prop :=
  ∀ va, devSpace ≤ va → va < 2^32 → has (s.pte d (vpn va)) pteP = true ∧ has (s.pte d (vpn va)) pteU = false

section Setup
variable {c : Config} {S : Set Frame} {d : Frame} {s₀ s : Kernel}

theorem deviceEntry (i : ℕ) : has (mapEntry (BitVec.ofNat 32 devSpace) pteW i) pteP = true ∧
    has (mapEntry (BitVec.ofNat 32 devSpace) pteW i) pteU = false := by
  have hbit : (BitVec.ofNat 32 devSpace+BitVec.ofNat 32 (i*pgSize)).getLsbD 2 = false := by
    have hdiv : (devSpace+i*pgSize)/2^2%2 ≠ 1 := by
      simp only [devSpace,pgSize]
      omega
    rw [← BitVec.ofNat_add,BitVec.getLsbD_ofNat,Nat.testBit_eq_decide_div_mod_eq,decide_eq_false hdiv,Bool.and_false]
  refine ⟨?_,?_⟩
  · simp only [mapEntry,has_pteP,BitVec.getLsbD_or]
    simp [pteP]
  · simp only [mapEntry,has_pteU,BitVec.getLsbD_or,hbit]
    decide

theorem setupkvm_device (hw : Wf c S s₀) (hset : setupkvm c s₀ = .ok (some d,s)) : DeviceMapped d s := by
  have hend : c.dataAddr < kernBase+phystop := Nat.lt_of_le_of_lt c.data_le_end c.end_lt
  rw [setupkvm] at hset
  cases hl : s₀.freelist with
  | nil =>
    rw [kalloc_nil hl] at hset
    cases hset
  | cons d' l =>
    rw [kalloc_cons hl] at hset
    dsimp only at hset
    rw [if_neg (by decide)] at hset
    have hapart : TablesApart d' (s₀.take.store d' fun _ => 0) := by
      have hfree : Owned tablesOnly Set.univ ∅ (d' :: l) (s₀.take.store d' fun _ => 0).mem :=
        ⟨fun _ _ _ hu => hu.elim,fun _ _ hu => hu.elim,fun _ _ hu => hu.elim,hl ▸ hw.free_nodup,fun _ _ => trivial⟩
      obtain ⟨hrest,hfresh⟩ := hfree.take
      have htail : (s₀.take.store d' fun _ => 0).freelist = l := by
        change s₀.take.freelist = l
        rw [Kernel.take,hl,List.tail_cons]
      have hdir := hrest.insertDir hfresh (Function.update_self d' _ _)
      rw [insert_empty_eq] at hdir
      rw [TablesApart,htail]
      exact hdir
    have hlt : ∀ k ∈ kmap c, k.virt < 2^32 := by
      have hsmall : kernBase+phystop < 2^32 := by decide
      intro k hk
      simp only [kmap,List.mem_cons,List.not_mem_nil,or_false] at hk
      rcases hk with rfl | rfl | rfl | rfl
      · decide
      · exact show kernLink < 2^32 by decide
      · exact hend.trans hsmall
      · decide
    obtain ⟨rfl,s₁,hmaps⟩ := setupkvmLoop_last (m := ⟨devSpace,devSpace,0,pteW⟩) ((kmap c).take 3) hapart hlt hset
    intro va hlo hhi
    have hvpn : vpn va = vpn (mapAddr devSpace (va/pgSize-devSpace/pgSize)) := by
      refine vpn_congr ?_
      simp only [mapAddr,pgSize,devSpace] at hlo ⊢
      omega
    have hentry : s.pte d (vpn va) = mapEntry (BitVec.ofNat 32 devSpace) pteW (va/pgSize-devSpace/pgSize) := by
      rw [hvpn]
      refine hmaps.mapped _ ?_
      have hcount : (pgRoundDown ((devSpace+(0+2^32-devSpace)%2^32-1)%2^32)-pgRoundDown devSpace)/pgSize+1 = 8192 := by
        decide
      rw [hcount]
      simp only [pgSize,devSpace]
      omega
    rw [hentry]
    exact deviceEntry _

end Setup

end Xv6Paging
