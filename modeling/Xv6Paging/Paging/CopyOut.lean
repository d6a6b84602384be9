import Xv6Paging.Library.Scatter
import Xv6Paging.Paging.Frames

/-! # Copies to user addresses

`copyout` translates the pages of the range by the tables of a directory that need not be the current one. It copies
the bytes in front of the first page that is not a user page. If that page has no page table, `uva2ka` reads through a
null pointer.
-/
namespace Xv6Paging
open WordPage PageTree Scatter

def Kernel.userFrame (s : Kernel) (d : Frame) (a : ℕ) : Option Frame :=
  if has (s.pte d (vpn a)) pteP && has (s.pte d (vpn a)) pteU then some (pteAddr (s.pte d (vpn a))) else none

def Kernel.userCell (s : Kernel) (d : Frame) (a : ℕ) : Option (Frame × Fin 4096) :=
  (s.userFrame d a).map fun f => (f,Fin.ofNat 4096 a)

def Kernel.bytes (s : Kernel) (i : Frame × Fin 4096) : Byte := s.mem i.1 i.2

/-- The frames are memory that the kernel can address, no part of the tables that translate the range, and
different addresses have different bytes. -/
structure Separate (d : Frame) (va len : ℕ) (s : Kernel) : Prop where
  memory : ∀ k < len, ∀ f, s.userFrame d (va+k) = some f → f.toNat*pgSize < phystop
  directory : ∀ k < len, s.userFrame d (va+k) ≠ some d
  tables : ∀ k < len, ∀ k' < len, ∀ f, s.userFrame d (va+k) = some f → s.table d (vpn (va+k')) ≠ some f
  distinct : InjOn (fun k => s.userCell d (va+k)) len

/-- The result of `copyout`: `n` bytes are copied, up to the first page that is not a user page, and nothing else has
changed. -/
structure CopiedOut (d : Frame) (va : ℕ) (src : ℕ → Byte) (len : ℕ) (s : Kernel) (n : ℕ) (r : ℤ × Kernel) : Prop where
  le : n ≤ len
  mapped : ∀ k < n, s.userFrame d (va+k) ≠ none
  copied : Scattered (fun k => s.userCell d (va+k)) src n s.bytes r.2.bytes
  rest : r.2 = {s with mem := r.2.mem}
  result : n = len ∧ r.1 = 0 ∨ n < len ∧ s.userFrame d (va+n) = none ∧ r.1 = -1

section
variable {d f t : Frame} {s s' s₁ : Kernel} {va len n a b k : ℕ} {src : ℕ → Byte}

theorem userFrame_congr (h : s'.pte d (vpn a) = s.pte d (vpn b)) : s'.userFrame d a = s.userFrame d b := by
  rw [Kernel.userFrame,Kernel.userFrame,h]

theorem uva2ka_eq (h : s.table d (vpn a) = some t) : uva2ka d a s = .ok (s.userFrame d a) := by
  simp only [uva2ka,walkpgdir_of_table h,readPte_eq h,Kernel.userFrame]
  cases has (s.pte d (vpn a)) pteP <;> cases has (s.pte d (vpn a)) pteU <;> rfl

theorem uva2ka_missing (h : s.table d (vpn a) = none) : uva2ka d a s = .error .nullDeref := by
  simp only [uva2ka,walkpgdir_false,h,Option.map_none]

theorem Separate.translation (h : Separate d va len s) (hn : n ≤ len)
    (hw : Scattered (fun k => s.userCell d (va+k)) src n s.bytes s'.bytes) (hk : k < len) :
    s'.table d (vpn (va+k)) = s.table d (vpn (va+k)) ∧ s'.pte d (vpn (va+k)) = s.pte d (vpn (va+k)) := by
  have hpage : ∀ t, (∀ k < n, s.userFrame d (va+k) ≠ some t) → s'.mem t = s.mem t := by
    intro t ht
    funext o
    refine hw.other (t,o) fun k hk hc => ?_
    obtain ⟨f,hf,hfo⟩ := Option.map_eq_some_iff.mp hc
    cases hfo
    exact ht k hk hf
  have hdir : s'.mem d = s.mem d := hpage d fun k hk => h.directory k (hk.trans_le hn)
  have htable : s'.table d (vpn (va+k)) = s.table d (vpn (va+k)) := by
    simp only [Kernel.table,Format.table,hdir]
  refine ⟨htable,?_⟩
  cases ht : s.table d (vpn (va+k)) with
  | none => rw [pte_of_no_table ht,pte_of_no_table (htable.trans ht)]
  | some t =>
    rw [← readPte_eq ht,← readPte_eq (htable.trans ht),Kernel.readPte,Kernel.readPte,
      hpage t fun k' hk' hf => h.tables k' (hk'.trans_le hn) k hk t hf ht]

theorem userFrame_add (h : va%pgSize+k < pgSize) : s.userFrame d (va+k) = s.userFrame d va := by
  refine userFrame_congr (congrArg (s.pte d) (vpn_congr ?_))
  simp only [pgSize] at h ⊢
  omega

theorem scattered_chunk (src : ℕ → Byte) (hf : s.userFrame d va = some f) (hn : va%pgSize+n ≤ pgSize) :
    Scattered (fun k => s.userCell d (va+k)) src n s.bytes
      (s.store f (blit Fin.val (s.mem f) (va%pgSize) n src)).bytes := by
  simp only [pgSize] at hn ⊢
  have hcell : ∀ k < n, s.userCell d (va+k) = some (f,Fin.ofNat 4096 (va+k)) := by
    intro k hk
    rw [Kernel.userCell,userFrame_add (by simp only [pgSize]; omega),hf]
    rfl
  have hval : ∀ k < n, (Fin.ofNat 4096 (va+k)).val = va%4096+k := by
    intro k hk
    rw [Fin.val_ofNat]
    omega
  refine ⟨fun k hk i hi => ?_,fun i hi => ?_⟩
  · rw [hcell k hk] at hi
    cases hi
    simp only [Kernel.bytes,Kernel.store,Function.update_self,blit,hval k hk]
    rw [if_pos (by omega),Nat.add_sub_cancel_left]
  · obtain ⟨g,o⟩ := i
    simp only [Kernel.bytes,Kernel.store]
    by_cases hg : g = f
    · subst hg
      rw [Function.update_self,blit,if_neg]
      intro ho
      refine hi (o.val-va%4096) (by omega) ?_
      rw [hcell _ (by omega)]
      refine congrArg (fun x => some (g,x)) (Fin.ext ?_)
      rw [hval _ (by omega)]
      omega
    · rw [Function.update_of_ne hg]

theorem Separate.rest (h : Separate d va (a+len) s)
    (hw : Scattered (fun k => s.userCell d (va+k)) src a s.bytes s₁.bytes)
    (hb : ∀ k < len, vpn (b+k) = vpn (va+(a+k)) ∧ (b+k)%4096 = (va+(a+k))%4096) :
    Separate d b len s₁ ∧ ∀ k < len, s₁.table d (vpn (b+k)) = s.table d (vpn (va+(a+k))) ∧
      s₁.userFrame d (b+k) = s.userFrame d (va+(a+k)) ∧ s₁.userCell d (b+k) = s.userCell d (va+(a+k)) := by
  have hsame : ∀ k < len, s₁.table d (vpn (b+k)) = s.table d (vpn (va+(a+k))) ∧
      s₁.userFrame d (b+k) = s.userFrame d (va+(a+k)) ∧ s₁.userCell d (b+k) = s.userCell d (va+(a+k)) := by
    intro k hk
    obtain ⟨htable,hpte⟩ := h.translation (Nat.le_add_right a len) hw (Nat.add_lt_add_left hk a)
    have hframe : s₁.userFrame d (b+k) = s.userFrame d (va+(a+k)) := by
      refine userFrame_congr ?_
      rw [(hb k hk).1,hpte]
    refine ⟨?_,hframe,?_⟩
    · rw [(hb k hk).1,htable]
    · have hoff : Fin.ofNat 4096 (b+k) = Fin.ofNat 4096 (va+(a+k)) := Fin.ext (hb k hk).2
      rw [Kernel.userCell,Kernel.userCell,hframe,hoff]
  refine ⟨⟨fun k hk f hf => ?_,fun k hk hf => ?_,fun k hk k' hk' f hf ht => ?_,?_⟩,hsame⟩
  · rw [(hsame k hk).2.1] at hf
    exact h.memory (a+k) (Nat.add_lt_add_left hk a) f hf
  · rw [(hsame k hk).2.1] at hf
    exact h.directory (a+k) (Nat.add_lt_add_left hk a) hf
  · rw [(hsame k hk).2.1] at hf
    rw [(hsame k' hk').1] at ht
    exact h.tables (a+k) (Nat.add_lt_add_left hk a) (a+k') (Nat.add_lt_add_left hk' a) f hf ht
  · intro k hk k' hk' i hi hi'
    exact h.distinct.drop k hk k' hk' i ((hsame k hk).2.2.symm.trans hi) ((hsame k' hk').2.2.symm.trans hi')

theorem CopiedOut.prepend {m rest : ℕ} {r : ℤ × Kernel} (h : Separate d va (m+rest) s)
    (hw : Scattered (fun k => s.userCell d (va+k)) src m s.bytes s₁.bytes) (hrest : {s with mem := s₁.mem} = s₁)
    (hbefore : ∀ k < m, s.userFrame d (va+k) ≠ none)
    (hsame : ∀ k < rest, s₁.userFrame d (b+k) = s.userFrame d (va+(m+k)) ∧
      s₁.userCell d (b+k) = s.userCell d (va+(m+k)))
    (hcop : CopiedOut d b (fun k => src (m+k)) rest s₁ n r) : CopiedOut d va src (m+rest) s (m+n) r := by
  refine ⟨Nat.add_le_add_left hcop.le m,fun k hk => ?_,?_,?_,?_⟩
  · rcases Nat.lt_or_ge k m with hlt | hge
    · exact hbefore k hlt
    · obtain ⟨k',rfl⟩ := Nat.exists_eq_add_of_le hge
      have hk' : k' < n := by omega
      rw [← (hsame k' (hk'.trans_le hcop.le)).1]
      exact hcop.mapped k' hk'
  · refine Scattered.append (h.distinct.mono (Nat.add_le_add_left hcop.le m)) hw ?_
    exact hcop.copied.congr fun k hk => (hsame k (hk.trans_le hcop.le)).2.symm
  · have hr := hcop.rest
    rw [← hrest] at hr
    exact hr
  · refine hcop.result.imp (fun hend => ⟨congrArg (m+·) hend.1,hend.2⟩) fun hstop => ?_
    refine ⟨Nat.add_lt_add_left hstop.1 m,?_,hstop.2.2⟩
    rw [← (hsame n hstop.1).1]
    exact hstop.2.1

theorem copyoutLoop_spec {fuel : ℕ} (src : ℕ → Byte) (h : Separate d va len s) (hfuel : len < fuel) :
    (∃ n r, copyoutLoop d fuel va src len s = .ok r ∧ CopiedOut d va src len s n r ∧
      (n < len → s.table d (vpn (va+n)) ≠ none)) ∨
    ∃ n < len, (∀ k < n, s.userFrame d (va+k) ≠ none) ∧ s.table d (vpn (va+n)) = none ∧
      copyoutLoop d fuel va src len s = .error .nullDeref := by
  induction fuel generalizing va len s src with
  | zero => exact (Nat.not_lt_zero _ hfuel).elim
  | succ fuel ih =>
    rw [copyoutLoop]
    rcases Nat.eq_zero_or_pos len with rfl | hpos
    · rw [if_neg (Nat.lt_irrefl 0)]
      refine Or.inl ⟨0,(0,s),rfl,⟨le_rfl,fun k hk => (Nat.not_lt_zero k hk).elim,.zero,rfl,Or.inl ⟨rfl,rfl⟩⟩,?_⟩
      exact fun hlt => (Nat.not_lt_zero _ hlt).elim
    · rw [if_pos hpos]
      have hround : vpn (pgRoundDown va) = vpn va := vpn_congr (by simp only [pgRoundDown,pgSize]; omega)
      cases ht : s.table d (vpn va) with
      | none =>
        refine Or.inr ⟨0,hpos,fun k hk => (Nat.not_lt_zero k hk).elim,ht,?_⟩
        dsimp only
        rw [uva2ka_missing (hround ▸ ht)]
        rfl
      | some t =>
        have huva : uva2ka d (pgRoundDown va) s = .ok (s.userFrame d va) := by
          rw [uva2ka_eq (hround ▸ ht),userFrame_congr (s := s) (congrArg (s.pte d) hround)]
        dsimp only
        rw [huva]
        dsimp only [bind,Except.bind]
        cases hf : s.userFrame d va with
        | none =>
          refine Or.inl ⟨0,(-1,s),rfl,⟨Nat.zero_le len,fun k hk => (Nat.not_lt_zero k hk).elim,.zero,rfl,
            Or.inr ⟨hpos,hf,rfl⟩⟩,fun _ => ?_⟩
          rw [Nat.add_zero,ht]
          exact Option.some_ne_none t
        | some f =>
          dsimp only
          have hoff : va-pgRoundDown va = va%pgSize := by
            simp only [pgRoundDown,pgSize]
            omega
          obtain ⟨m,hm⟩ : ∃ m, min (pgSize-va%pgSize) len = m := ⟨_,rfl⟩
          obtain ⟨hle,hpage,hchunk⟩ : m ≤ len ∧ va%pgSize+m ≤ pgSize ∧ (0 < m ∧ (m < len → va%pgSize+m = pgSize)) := by
            simp only [pgSize] at hm ⊢
            omega
          obtain ⟨rest,rfl⟩ := Nat.exists_eq_add_of_le hle
          rw [hoff,hm,Nat.add_sub_cancel_left]
          have hw := scattered_chunk src hf hpage
          have hnext : ∀ k < rest, vpn ((pgRoundDown va+pgSize)%2^32+k) = vpn (va+(m+k)) ∧
              ((pgRoundDown va+pgSize)%2^32+k)%4096 = (va+(m+k))%4096 := by
            intro k hk
            have hfull := hchunk.2 (by omega)
            simp only [pgSize] at hfull
            refine ⟨vpn_congr ?_,?_⟩
            · simp only [pgRoundDown,pgSize]
              omega
            · simp only [pgRoundDown,pgSize]
              omega
          obtain ⟨hsep,hsame⟩ := h.rest hw hnext
          have hbefore : ∀ k < m, s.userFrame d (va+k) ≠ none := fun k hk => by
            rw [userFrame_add (by omega),hf]
            exact Option.some_ne_none f
          obtain ⟨n,r,hrun,hcop,htab⟩ | ⟨n,hn,hmapped,hnone,hrun⟩ := ih (fun k => src (m+k)) hsep (by omega)
          · refine Or.inl ⟨m+n,r,hrun,hcop.prepend h hw rfl hbefore fun k hk => (hsame k hk).2,fun hlt => ?_⟩
            have hn : n < rest := by omega
            rw [← (hsame n hn).1]
            exact htab hn
          · refine Or.inr ⟨m+n,by omega,fun k hk => ?_,?_,hrun⟩
            · rcases Nat.lt_or_ge k m with hlt | hge
              · exact hbefore k hlt
              · obtain ⟨k',rfl⟩ := Nat.exists_eq_add_of_le hge
                have hk' : k' < n := by omega
                rw [← (hsame k' (hk'.trans hn)).2.1]
                exact hmapped k' hk'
            · rw [← (hsame n hn).1]
              exact hnone

theorem userFrame_of_no_table (h : s.table d (vpn a) = none) : s.userFrame d a = none := by
  rw [Kernel.userFrame,pte_of_no_table h]
  rfl

theorem CopiedOut.zero_iff {r : ℤ × Kernel} (h : CopiedOut d va src len s n r) :
    r.1 = 0 ↔ ∀ k < len, s.userFrame d (va+k) ≠ none := by
  obtain ⟨rfl,hr⟩ | ⟨hlt,hnone,hr⟩ := h.result
  · exact iff_of_true hr h.mapped
  · rw [hr]
    exact iff_of_false (by decide) fun hall => hall n hlt hnone

/-- `copyout` does its work exactly if the first page of the range that is not a user page has a page table. -/
theorem copyout_iff (h : Separate d va len s) :
    (∀ src, ∃ n r, copyout d va src len s = .ok r ∧ CopiedOut d va src len s n r ∧
      (r.1 = 0 ↔ ∀ k < len, s.userFrame d (va+k) ≠ none)) ↔
    ∀ n < len, (∀ k < n, s.userFrame d (va+k) ≠ none) → s.table d (vpn (va+n)) ≠ none := by
  constructor
  · intro hall n hn hbefore hnone
    have hstop := userFrame_of_no_table hnone
    obtain ⟨n',r,hrun,hcop,-⟩ := hall fun _ => 0
    obtain ⟨m,r',hrun',hcop',htab⟩ | ⟨m,-,-,-,herr⟩ := copyoutLoop_spec (fun _ => 0) h (Nat.lt_succ_self len)
    · -- The loop has stopped at the first page that is not mapped, which had a table.
      have hle : m ≤ n := not_lt.mp fun hlt => hcop'.mapped n hlt hstop
      obtain ⟨rfl,-⟩ | ⟨hm,hmnone,-⟩ := hcop'.result
      · omega
      · have hge : n ≤ m := not_lt.mp fun hlt => hbefore m hlt hmnone
        rw [Nat.le_antisymm hge hle] at hnone
        exact htab hm hnone
    · rw [copyout,herr] at hrun
      cases hrun
  · intro hcond src
    obtain ⟨n,r,hrun,hcop,-⟩ | ⟨n,hn,hbefore,hnone,-⟩ := copyoutLoop_spec src h (Nat.lt_succ_self len)
    · exact ⟨n,r,hrun,hcop,hcop.zero_iff⟩
    · exact (hcond n hn hbefore hnone).elim

end

def onePageSpace : Kernel := .wired 1 (fun _ => userPerm) [] (.init .none)

/-- A string of fifty bytes in the middle of the page. -/
theorem copyout_onePageSpace : Separate 0x200 100 50 onePageSpace ∧ ∀ src, ∃ n r,
    copyout 0x200 100 src 50 onePageSpace = .ok r ∧ CopiedOut 0x200 100 src 50 onePageSpace n r ∧
      (r.1 = 0 ↔ ∀ k < 50, onePageSpace.userFrame 0x200 (100+k) ≠ none) := by
  have hframe : ∀ k < 50, onePageSpace.userFrame 0x200 (100+k) = some 0x210 := by decide +kernel
  have htable : ∀ k < 50, onePageSpace.table 0x200 (vpn (100+k)) = some 0x201 := by decide +kernel
  have hsep : Separate 0x200 100 50 onePageSpace := by
    refine ⟨fun k hk f hf => ?_,fun k hk hf => ?_,fun k hk k' hk' f hf ht => ?_,?_⟩
    · rw [hframe k hk] at hf
      cases hf
      decide
    · rw [hframe k hk] at hf
      exact absurd hf (by decide)
    · rw [htable k' hk',← hf,hframe k hk] at ht
      exact absurd ht (by decide)
    · intro k hk k' hk' i hi hi'
      have hcell : ∀ k < 50, onePageSpace.userCell 0x200 (100+k) = some (0x210,Fin.ofNat 4096 (100+k)) := by
        intro k hk
        rw [Kernel.userCell,hframe k hk]
        rfl
      have heq := (hcell k hk).symm.trans (hi.trans (hi'.symm.trans (hcell k' hk')))
      have hoff := congrArg (fun c : Frame × Fin 4096 => c.2.val) (Option.some.inj heq)
      simp only [Fin.val_ofNat] at hoff
      omega
  refine ⟨hsep,(copyout_iff hsep).mpr fun n hn _ hnone => ?_⟩
  rw [htable n hn] at hnone
  cases hnone

/-- An address in the next four megabytes, which have no page table. -/
theorem copyout_nullDeref : onePageSpace.table 0x200 (vpn (2^22)) = none ∧
    ∀ src, copyout 0x200 (2^22) src 1 onePageSpace = .error .nullDeref := by
  have hnone : onePageSpace.table 0x200 (vpn (2^22)) = none := by decide +kernel
  refine ⟨hnone,fun src => ?_⟩
  rw [copyout,copyoutLoop,if_pos Nat.one_pos]
  dsimp only
  rw [show pgRoundDown (2^22) = 2^22 by decide,uva2ka_missing hnone]
  rfl

end Xv6Paging
