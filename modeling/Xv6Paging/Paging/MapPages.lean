import Xv6Paging.Paging.Frames

/-! # The translation that `mappages` builds

A call of `mappages` for unmapped pages enters them one by one, with page tables made of free frames where there is
none yet, and changes no other translation. Only the directory and its tables have to be different frames here;
the frames behind the entries may be any.
-/
namespace Xv6Paging
open WordPage PageTree

def tablesOnly : Format Frame := {x86 with own := fun _ => false}

/-- The directory and its page tables are different frames, none of them free, and no frame is free twice. -/
abbrev TablesApart (d : Frame) (s : Kernel) : Prop := Owned tablesOnly Set.univ {d} s.freelist s.mem

def mapAddr (a i : ℕ) : ℕ := a+i*pgSize
def mapEntry (pa perm : Word) (i : ℕ) : Word := (pa+BitVec.ofNat 32 (i*pgSize)) ||| perm ||| pteP

structure MapsFirst (d : Frame) (a n : ℕ) (pa perm : Word) (s s' : Kernel) : Prop where
  apart : TablesApart d s'
  mapped : ∀ i < n, s'.pte d (vpn (mapAddr a i)) = mapEntry pa perm i
  other : ∀ k, (∀ i < n, vpn (mapAddr a i) ≠ k) → s'.pte d k = s.pte d k

section
variable {d t : Frame} {s s₁ : Kernel} {a n va : ℕ} {pa perm w : Word}

theorem mem_self : d ∈ ({d} : Set Frame) := Set.mem_singleton d

theorem TablesApart.walk (h : TablesApart d s) (va : ℕ) :
    walkpgdir d va true s = (none,s.starve) ∨
    ∃ t s₁, walkpgdir d va true s = (some (t,ptx va),s₁) ∧ TablesApart d s₁ ∧ s₁.table d (vpn va) = some t ∧
      ∀ k, s₁.pte d k = s.pte d k := by
  cases ht : s.table d (vpn va) with
  | some t => exact Or.inr ⟨t,s,walkpgdir_of_table ht true,h,ht,fun _ => rfl⟩
  | none =>
    cases hl : s.freelist with
    | nil => exact Or.inl (walkpgdir_nil ht hl)
    | cons t l =>
      rw [TablesApart,hl] at h
      obtain ⟨hrest,hfresh⟩ := h.take
      have htail : (s.grow d (vpn va) t).freelist = l := by
        simp only [Kernel.grow,Kernel.take,hl,List.tail_cons]
      refine Or.inr ⟨t,s.grow d (vpn va) t,walkpgdir_cons ht hl,?_,?_,fun k => ?_⟩
      · rw [TablesApart,htail]
        exact hrest.addTable hfresh mem_self ht (link_tableWord t)
      · have hlinked : tablesOnly.table (linkTable s.mem d (vpn va).1 t (tableWord t)) d (vpn va).1 = some t :=
          table_linkTable_same hfresh mem_self (link_tableWord t)
        exact hlinked
      · exact hrest.entry_linkTable hfresh mem_self mem_self ht (link_tableWord t)

theorem TablesApart.setPte (h : TablesApart d s) {k : Index} (ht : s.table d k = some t) :
    TablesApart d (s.setPte d k w) ∧ (s.setPte d k w).pte d k = w ∧
      ∀ k', k' ≠ k → (s.setPte d k w).pte d k' = s.pte d k' := by
  have hsame : tablesOnly.entry (tablesOnly.setEntry s.mem d k w) d k = w := Owned.entry_setEntry_same h mem_self ht
  refine ⟨Owned.setEntry h mem_self ht fun ho => Bool.noConfusion ho,hsame,fun k' hk => ?_⟩
  have hother : tablesOnly.entry (tablesOnly.setEntry s.mem d k w) d k' = tablesOnly.entry s.mem d k' :=
    Owned.entry_setEntry_of_ne h mem_self mem_self fun he => hk (Prod.mk.inj he).2
  exact hother

theorem TablesApart.enter (h : TablesApart d s) (hun : has (s.pte d (vpn va)) pteP = false) (w : Word) :
    walkpgdir d va true s = (none,s.starve) ∨
    ∃ t s₁, walkpgdir d va true s = (some (t,ptx va),s₁) ∧ has (s₁.readPte (t,ptx va)) pteP = false ∧
      TablesApart d (s₁.writePte (t,ptx va) w) ∧ (s₁.writePte (t,ptx va) w).pte d (vpn va) = w ∧
      ∀ k, k ≠ vpn va → (s₁.writePte (t,ptx va) w).pte d k = s.pte d k := by
  refine (h.walk va).imp id ?_
  rintro ⟨t,s₁,hwalk,hs₁,ht,hpte⟩
  obtain ⟨hapart,hself,hother⟩ := hs₁.setPte (w := w) ht
  refine ⟨t,s₁,hwalk,?_,?_,?_,?_⟩
  · rw [readPte_eq ht,hpte]
    exact hun
  · rw [writePte_eq ht]
    exact hapart
  · rw [writePte_eq ht]
    exact hself
  · intro k hk
    rw [writePte_eq ht,hother k hk,hpte]

theorem mapAddr_zero (a : ℕ) : mapAddr a 0 = a := by
  rw [mapAddr,Nat.zero_mul,Nat.add_zero]

theorem mapEntry_zero : mapEntry pa perm 0 = pa ||| perm ||| pteP := by
  rw [mapEntry,Nat.zero_mul,BitVec.add_zero]

theorem mapAddr_succ (a i : ℕ) : mapAddr (a+pgSize) i = mapAddr a (i+1) := by
  simp only [mapAddr,Nat.succ_mul]
  omega

theorem mapEntry_succ (i : ℕ) : mapEntry (pa+0x1000#32) perm i = mapEntry pa perm (i+1) := by
  have hsum : pa+0x1000#32+BitVec.ofNat 32 (i*pgSize) = pa+BitVec.ofNat 32 ((i+1)*pgSize) := by
    rw [Nat.succ_mul,Nat.add_comm,BitVec.ofNat_add,BitVec.add_assoc]
    rfl
  rw [mapEntry,hsum,mapEntry]

theorem MapsFirst.none (h : TablesApart d s₁) (hpte : ∀ k, s₁.pte d k = s.pte d k) : MapsFirst d a 0 pa perm s s₁ :=
  ⟨h,fun i hi => (Nat.not_lt_zero i hi).elim,fun k _ => hpte k⟩

theorem MapsFirst.cons {s' : Kernel} (hne : ∀ i < n, vpn (mapAddr a (i+1)) ≠ vpn a)
    (hself : s₁.pte d (vpn a) = mapEntry pa perm 0) (hother : ∀ k, k ≠ vpn a → s₁.pte d k = s.pte d k)
    (h : MapsFirst d (a+pgSize) n (pa+0x1000#32) perm s₁ s') : MapsFirst d a (n+1) pa perm s s' := by
  refine ⟨h.apart,fun i hi => ?_,fun k hk => ?_⟩
  · cases i with
    | zero =>
      rw [mapAddr_zero,h.other (vpn a) fun i hi => ?_,hself]
      rw [mapAddr_succ]
      exact hne i hi
    | succ i =>
      rw [← mapAddr_succ,← mapEntry_succ]
      exact h.mapped i (by omega)
  · rw [h.other k fun i hi => ?_]
    · refine hother k fun he => hk 0 (Nat.succ_pos n) ?_
      rw [mapAddr_zero,he]
    · rw [mapAddr_succ]
      exact hk (i+1) (by omega)

/-- The loop maps all the pages, or stops where there is no frame for a page table. -/
theorem mappagesLoop_spec (pa perm : Word) (h : TablesApart d s) (hend : mapAddr a n < 2^32)
    (hun : ∀ i ≤ n, has (s.pte d (vpn (mapAddr a i))) pteP = false) :
    ∃ r s' m, mappagesLoop d perm n a pa s = .ok (r,s') ∧ MapsFirst d a m pa perm s s' ∧
      (r = 0 ∧ m = n+1 ∨ r = -1 ∧ m < n+1) := by
  induction n generalizing a pa s with
  | zero =>
    have hpage := hun 0 le_rfl
    rw [mapAddr_zero] at hpage
    rw [mappagesLoop]
    obtain hfail | ⟨t,s₁,hwalk,hp,hs₁,hself,hother⟩ := h.enter hpage (mapEntry pa perm 0)
    · rw [hfail]
      exact ⟨-1,s.starve,0,rfl,.none h fun _ => rfl,Or.inr ⟨rfl,Nat.one_pos⟩⟩
    · rw [hwalk]
      dsimp only
      rw [hp,if_neg Bool.false_ne_true,← mapEntry_zero]
      refine ⟨0,_,1,rfl,.cons (fun i hi => (Nat.not_lt_zero i hi).elim) hself hother (.none hs₁ fun _ => rfl),Or.inl ⟨rfl,rfl⟩⟩
  | succ n ih =>
    have hpage := hun 0 (Nat.zero_le _)
    rw [mapAddr_zero] at hpage
    have hlt : mapAddr (a+pgSize) n < 2^32 := by
      rw [mapAddr_succ]
      exact hend
    have hne : ∀ i ≤ n, vpn (mapAddr a (i+1)) ≠ vpn a := by
      intro i hi he
      have hle : (i+1)*pgSize ≤ (n+1)*pgSize := Nat.mul_le_mul_right pgSize (Nat.succ_le_succ hi)
      have hhi : mapAddr a (i+1) < 2^32 := (Nat.add_le_add_left hle a).trans_lt hend
      have hq := (vpn_inj hhi ((Nat.le_add_right a _).trans_lt hhi)).mp he
      simp only [mapAddr,pgSize] at hq
      omega
    rw [mappagesLoop]
    obtain hfail | ⟨t,s₁,hwalk,hp,hs₁,hself,hother⟩ := h.enter hpage (mapEntry pa perm 0)
    · rw [hfail]
      exact ⟨-1,s.starve,0,rfl,.none h fun _ => rfl,Or.inr ⟨rfl,Nat.succ_pos _⟩⟩
    · rw [hwalk]
      dsimp only
      rw [hp,if_neg Bool.false_ne_true,← mapEntry_zero]
      have hun₁ : ∀ i ≤ n, has ((s₁.writePte (t,ptx a) (mapEntry pa perm 0)).pte d (vpn (mapAddr (a+pgSize) i))) pteP =
          false := by
        intro i hi
        rw [mapAddr_succ,hother _ (hne i hi)]
        exact hun (i+1) (by omega)
      obtain ⟨r,s',m,hrun,hmaps,hres⟩ := ih (pa+0x1000#32) hs₁ hlt hun₁
      have hm : m ≤ n+1 := by omega
      refine ⟨r,s',m+1,hrun,.cons (fun i hi => hne i (by omega)) hself hother hmaps,?_⟩
      omega

def coveredPages (va size : ℕ) : ℕ := (pgRoundDown (va+size-1)-pgRoundDown va)/pgSize+1

theorem vpn_mapAddr {size x : ℕ} (hlo : va ≤ x) (hhi : x < va+size) (hend : va+size ≤ 2^32) :
    x/pgSize-va/pgSize < coveredPages va size ∧ vpn x = vpn (mapAddr (pgRoundDown va) (x/pgSize-va/pgSize)) := by
  simp only [coveredPages,mapAddr,pgRoundDown,pgSize]
  refine ⟨by omega,(vpn_inj (by omega) (by omega)).mpr ?_⟩
  simp only [pgSize]
  omega

theorem mapEntry_decode (hpa : pteFlags pa = 0) (hperm : pteAddr perm = 0) (i : ℕ) :
    pteAddr (mapEntry pa perm i) = pteAddr pa+BitVec.ofNat 20 i ∧ pteFlags (mapEntry pa perm i) = perm ||| pteP := by
  have hlow : pa.toNat%2^12 = 0 := (pteFlags_toNat pa).symm.trans (congrArg BitVec.toNat hpa)
  have hsmall : perm.toNat/2^12 = 0 := (pteAddr_toNat perm).symm.trans (congrArg BitVec.toNat hperm)
  have hflags : pteFlags perm = perm := by
    refine BitVec.eq_of_toNat_eq ?_
    rw [pteFlags_toNat]
    omega
  have hsum : pteFlags (pa+BitVec.ofNat 32 (i*pgSize)) = 0 := by
    refine BitVec.eq_of_toNat_eq ?_
    rw [pteFlags_toNat,BitVec.toNat_add,BitVec.toNat_ofNat,pgSize]
    have hmod : (pa.toNat+i*4096%2^32)%2^32%2^12 = 0 := by omega
    exact hmod
  have hframe : pteAddr (pa+BitVec.ofNat 32 (i*pgSize)) = pteAddr pa+BitVec.ofNat 20 i := by
    refine BitVec.eq_of_toNat_eq ?_
    rw [pteAddr_toNat,BitVec.toNat_add,BitVec.toNat_add,pteAddr_toNat,BitVec.toNat_ofNat,BitVec.toNat_ofNat,pgSize]
    omega
  constructor
  · rw [mapEntry,pteAddr_or,pteAddr_or,hframe,hperm,pteAddr_pteP]
    simp
  · rw [mapEntry,pteFlags_or,pteFlags_or,hsum,hflags,show pteFlags pteP = pteP by decide]
    simp

/-- `mappages` returns 0 with the requested translation, or -1 with a first part of it; no other translation
has changed. -/
theorem mappages_translation {size : ℕ} (h : TablesApart d s) (hsize : 0 < size) (hend : va+size ≤ 2^32)
    (hpa : pteFlags pa = 0) (hun : ∀ x, pgRoundDown va ≤ x → x < va+size → has (s.pte d (vpn x)) pteP = false) :
    ∃ r s', mappages d va size pa perm s = .ok (r,s') ∧ (r = 0 ∨ r = -1) ∧
      (r = 0 → ∀ x, va ≤ x → x < va+size → s'.pte d (vpn x) = mapEntry pa perm (x/pgSize-va/pgSize) ∧
        (pteAddr perm = 0 → pteAddr (s'.pte d (vpn x)) = pteAddr pa+BitVec.ofNat 20 (x/pgSize-va/pgSize) ∧
          pteFlags (s'.pte d (vpn x)) = perm ||| pteP)) ∧
      ∃ m ≤ coveredPages va size, MapsFirst d (pgRoundDown va) m pa perm s s' ∧ (r = 0 ↔ m = coveredPages va size) := by
  have hlast : (va+size-1)%2^32 = va+size-1 := Nat.mod_eq_of_lt (by omega)
  obtain ⟨n,hn⟩ : ∃ n, (pgRoundDown (va+size-1)-pgRoundDown va)/pgSize = n := ⟨_,rfl⟩
  have hcovered : coveredPages va size = n+1 := by
    rw [coveredPages,hn]
  have htop : mapAddr (pgRoundDown va) n ≤ va+size-1 := by
    rw [← hn]
    simp only [mapAddr,pgRoundDown,pgSize]
    omega
  obtain ⟨r,s',m,hrun,hmaps,hres⟩ := mappagesLoop_spec pa perm h (a := pgRoundDown va) (n := n)
    (by omega) fun i hi => by
      have hle : i*pgSize ≤ n*pgSize := Nat.mul_le_mul_right pgSize hi
      refine hun _ (Nat.le_add_right _ _) ?_
      simp only [mapAddr] at htop ⊢
      omega
  refine ⟨r,s',?_,?_,?_,m,by omega,hmaps,?_⟩
  · rw [mappages,hlast,hn]
    exact hrun
  · omega
  · intro hr x hlo hhi
    obtain ⟨hi,hvpn⟩ := vpn_mapAddr hlo hhi hend
    have hentry := hmaps.mapped (x/pgSize-va/pgSize) (by omega)
    rw [hvpn,hentry]
    exact ⟨rfl,fun hperm => mapEntry_decode hpa hperm _⟩
  · omega

end

theorem tablesApart_of {d : Frame} {s : Kernel} (hdir : ∀ k, s.table d k ≠ some d)
    (hinj : ∀ k k' t, s.table d k = some t → s.table d k' = some t → k.1 = k'.1)
    (hfree : ∀ f ∈ s.freelist, f ≠ d ∧ ∀ k, s.table d k ≠ some f) (hnodup : s.freelist.Nodup) : TablesApart d s := by
  refine ⟨fun u v f hu hv huf hvf => ?_,fun u f hu huf hf => ?_,fun _ _ _ _ => trivial,hnodup,fun _ _ => trivial⟩
  · cases u with
    | leaf d' k => cases huf
    | dir d' =>
      obtain rfl : d' = d := hu
      cases v with
      | leaf d'' k => cases hvf
      | dir d'' =>
        obtain rfl : d'' = d' := hv
        rfl
      | table d'' i =>
        obtain rfl : d'' = d' := hv
        exact (hdir (i,0) (hvf.trans huf.symm)).elim
    | table d' i =>
      obtain rfl : d' = d := hu
      cases v with
      | leaf d'' k => cases hvf
      | dir d'' =>
        obtain rfl : d'' = d' := hv
        exact (hdir (i,0) (huf.trans hvf.symm)).elim
      | table d'' j =>
        obtain rfl : d'' = d' := hv
        rw [show i = j from hinj (i,0) (j,0) f huf hvf]
  · cases u with
    | leaf d' k => cases huf
    | dir d' =>
      obtain rfl : d' = d := hu
      exact (hfree f hf).1 (Option.some.inj huf).symm
    | table d' i =>
      obtain rfl : d' = d := hu
      exact (hfree f hf).2 (i,0) huf

theorem oneTable_of_words {s : Kernel} {d t t' : Frame} {k : Index}
    (hmem : s.mem d = pageOfWords fun i => if i = 0 then frameAddr t ||| pteP ||| pteW ||| pteU else 0)
    (ht : s.table d k = some t') : k.1 = 0 ∧ t' = t := by
  rw [Kernel.table,Format.table,hmem,readWord_pageOfWords,link_eq_some] at ht
  by_cases h0 : k.1.val = 0
  · rw [if_pos h0] at ht
    refine ⟨Fin.ext h0,?_⟩
    rw [← ht.2]
    simp
  · rw [if_neg h0] at ht
    exact absurd ht.1 (by decide)

def twoFree : Kernel := .wired 1 (fun _ => userPerm) [0x300,0x301] (.init .none)

theorem twoFree_apart : TablesApart 0x200 twoFree := by
  have htable : ∀ k t, twoFree.table 0x200 k = some t → k.1 = 0 ∧ t = 0x201 := fun k t => oneTable_of_words rfl
  refine tablesApart_of (fun k hk => ?_) (fun k k' t hk hk' => ?_) (fun f hf => ?_) (by decide)
  · exact absurd (htable k _ hk).2 (by decide)
  · rw [(htable k t hk).1,(htable k' t hk').1]
  · have hne : f ≠ 0x200 ∧ f ≠ 0x201 := by
      rcases (List.mem_cons.mp hf).imp_right List.mem_singleton.mp with rfl | rfl
      · decide
      · decide
    exact ⟨hne.1,fun k hk => hne.2 (htable k f hk).2⟩

/-- Two bytes on both sides of a boundary between page tables. -/
theorem mappages_twoFree : TablesApart 0x200 twoFree ∧ ∃ r s',
    mappages 0x200 0x3fffff 2 0x500000 userPerm twoFree = .ok (r,s') ∧ (r = 0 ∨ r = -1) ∧
      (r = 0 → ∀ x, 0x3fffff ≤ x → x < 0x3fffff+2 →
        s'.pte 0x200 (vpn x) = mapEntry 0x500000 userPerm (x/pgSize-0x3fffff/pgSize) ∧
        (pteAddr userPerm = 0 → pteAddr (s'.pte 0x200 (vpn x)) =
            pteAddr 0x500000+BitVec.ofNat 20 (x/pgSize-0x3fffff/pgSize) ∧
          pteFlags (s'.pte 0x200 (vpn x)) = userPerm ||| pteP)) ∧
      ∃ m ≤ coveredPages 0x3fffff 2, MapsFirst 0x200 (pgRoundDown 0x3fffff) m 0x500000 userPerm twoFree s' ∧
        (r = 0 ↔ m = coveredPages 0x3fffff 2) := by
  refine ⟨twoFree_apart,mappages_translation twoFree_apart (by decide) (by decide) (by decide) fun x hlo hhi => ?_⟩
  have hvpn : vpn x = vpn 0x3ff000 ∨ vpn x = vpn 0x400000 := by
    have hr : pgRoundDown 0x3fffff = 0x3ff000 := by decide
    rcases Nat.lt_or_ge x 0x400000 with hlt | hge
    · refine Or.inl ((vpn_inj (by omega) (by decide)).mpr ?_)
      simp only [pgSize]
      omega
    · refine Or.inr ((vpn_inj (by omega) (by decide)).mpr ?_)
      simp only [pgSize]
      omega
  rcases hvpn with hx | hx
  · rw [hx]
    decide +kernel
  · rw [hx]
    decide +kernel

/-- A directory whose first entry is the directory itself, and a frame with an entry of a page. -/
def selfMapped : Kernel :=
  {twoFree with
    mem := fun f =>
      if f = 0x200 then pageOfWords fun k => if k = 0 then frameAddr 0x200 ||| pteP ||| pteW ||| pteU else 0
      else if f = 0x300 then pageOfWords fun k => if k = 0 then frameAddr 0x301 ||| userPerm ||| pteP else 0
      else fun _ => 0
    freelist := []}

/-- The one page table of the directory is the directory, so a page entered in it is also a page table. -/
theorem mappages_selfMapped :
    (∀ k t, selfMapped.table 0x200 k = some t → k.1 = 0 ∧ t = 0x200) ∧
    has (selfMapped.pte 0x200 (vpn 0x1000)) pteP = false ∧ selfMapped.pte 0x200 (vpn 0x400000) = 0 ∧
    ((mappages 0x200 0x1000 1 0x300000 userPerm selfMapped).toOption.map
      fun r => (r.1,r.2.pte 0x200 (vpn 0x400000))) = some (0,0x301007) := by
  refine ⟨fun k t => oneTable_of_words rfl,?_,?_,?_⟩
  · decide +kernel
  · decide +kernel
  · decide +kernel

end Xv6Paging
