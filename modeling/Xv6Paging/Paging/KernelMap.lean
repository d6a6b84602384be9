import Xv6Paging.Paging.FrameAccounts

/-! # Building a directory

What `setupkvm` makes of the free frames: a directory that maps the kernel's part of the address space
and nothing below it, from sixty-five frames, or nothing at all. The mappings are made in the order of
their addresses, so a page table is missing exactly when the next address is the first of the table.
-/
namespace Xv6Paging
open WordPage PageTree

variable {c : Config} {S : Set Frame} {s s₀ s₁ : Kernel} {d t : Frame} {a : ℕ} {w : Word}

def tablesBelow (a : ℕ) : ℕ := (a+(2^22-1))/2^22

/-- The kernel's pages below `a` are mapped in the new directory `d`, which has been built from
free frames of `s₀`. -/
structure Mapping (c : Config) (S : Set Frame) (d : Frame) (s₀ : Kernel) (a : ℕ) (s : Kernel) : Prop where
  wf : Wf c (insert d S) s
  same : Same S ∅ s₀ s
  accounted : s.accounted {d} = s₀.freeFrames
  user : ∀ k, x86.own k = true → s.table d k = none
  above : ∀ k : Index, a ≤ k.1.val*2^22 → s.table d k = none
  partway : a%2^22 ≠ 0 → ∃ t, s.table d (vpn a) = some t
  unmapped : ∀ va, a ≤ va → va < 2^32 → has (s.pte d (vpn va)) pteP = false
  proc : s.proc = s₀.proc

namespace Mapping

theorem congr (h : Mapping c S d s₀ a s) (hm : s₁.mem = s.mem) (hf : s₁.freelist = s.freelist)
    (hp : s₁.proc = s.proc) : Mapping c S d s₀ a s₁ := by
  have htable : ∀ k, s₁.table d k = s.table d k := fun k => by rw [Kernel.table,Kernel.table,hm]
  have hpte : ∀ k, s₁.pte d k = s.pte d k := fun k => by rw [Kernel.pte,Kernel.pte,hm]
  refine ⟨?_,?_,(accounted_congr hm hf).trans h.accounted,?_,?_,?_,?_,hp.trans h.proc⟩
  · rw [Wf,hm,hf]
    exact h.wf
  · rw [Same,hm]
    exact h.same
  · intro k hk
    rw [htable]
    exact h.user k hk
  · intro k hk
    rw [htable]
    exact h.above k hk
  · intro ha
    rw [htable]
    exact h.partway ha
  · intro va h1 h2
    rw [hpte]
    exact h.unmapped va h1 h2

theorem skip (h : Mapping c S d s₀ a s) {b : ℕ} (hab : a ≤ b) (hb : b%2^22 = 0) : Mapping c S d s₀ b s :=
  ⟨h.wf,h.same,h.accounted,h.user,fun k hk => h.above k (hab.trans hk),fun hne => (hne hb).elim,
    fun va h1 h2 => h.unmapped va (hab.trans h1) h2,h.proc⟩

theorem write (hdS : d ∉ S) (h : Mapping c S d s₀ a s) (hal : pgSize ∣ a) (hlo : kernBase ≤ a) (hhi : a < 2^32)
    (hwf : Wf c (insert d S) s₁) (hsame : Same S ∅ s₀ s₁) (hacc : s₁.accounted {d} = s₀.freeFrames)
    (ht : s₁.table d (vpn a) = some t) (htables : ∀ k : Index, k.1 ≠ (vpn a).1 → s₁.table d k = s.table d k)
    (hpte : ∀ k, s₁.pte d k = s.pte d k) (hproc : s₁.proc = s₀.proc) :
    Mapping c S d s₀ (a+pgSize) (s₁.setPte d (vpn a) w) := by
  have hd : d ∈ insert d S := Set.mem_insert d S
  have hsize : pgSize = 4096 := rfl
  have hdvd : 4096 ∣ a := hal
  have hforeign : x86.own (vpn a) = false := by
    refine Bool.eq_false_iff.mpr ?_
    intro ho
    have hlt := (own_iff hhi).mp ho
    omega
  have hpdx : (vpn a).1.val = a/2^22 := by
    rw [vpn,pdx_val]
    omega
  have htable : ∀ k, (s₁.setPte d (vpn a) w).table d k = s₁.table d k := fun k => hwf.setPte_table hd hd
  have hwf' : Wf c (insert d S) (s₁.setPte d (vpn a) w) := by
    refine hwf.setEntry hd ht fun ho => ?_
    rw [hforeign] at ho
    cases ho
  have hwfd : Wf c {d} s₁ := hwf.subset (Set.singleton_subset_iff.mpr hd)
  refine ⟨hwf',?_,(hwfd.accounted_foreign (Set.mem_singleton d) hforeign).trans hacc,?_,?_,?_,?_,hproc⟩
  · refine hsame.trans ((hwf.same_setPte hd).others (Set.subset_insert d S) ?_)
    rintro q rfl
    exact hdS
  · intro k ho
    have hne : k.1 ≠ (vpn a).1 := by
      intro he
      have hk : k.1.val < 512 := by simpa [x86] using ho
      have hb : kernBase = 2^31 := by decide
      rw [he] at hk
      omega
    rw [htable,htables k hne]
    exact h.user k ho
  · intro k hk
    have hne : k.1 ≠ (vpn a).1 := by
      intro he
      rw [he] at hk
      omega
    rw [htable,htables k hne]
    exact h.above k (by omega)
  · intro hpart
    refine ⟨t,?_⟩
    have hsamePdx : (vpn (a+pgSize)).1 = (vpn a).1 := by
      refine Fin.ext ?_
      rw [hpdx,vpn,pdx_val]
      omega
    rw [htable,Kernel.table,hsamePdx]
    exact ht
  · intro va h1 h2
    have hne : (d,vpn va) ∉ ({(d,vpn a)} : Set (Frame × Index)) := by
      intro he
      have hv : vpn va = vpn a := (Prod.mk.inj he).2
      have hq := (vpn_inj h2 hhi).mp hv
      rw [hsize] at hq h1
      omega
    have he : (s₁.setPte d (vpn a) w).pte d (vpn va) = s₁.pte d (vpn va) := (hwf.same_setPte hd).entry d hd _ hne
    rw [he,hpte]
    exact h.unmapped va (by omega) h2

/-- Either the page table exists or can be made, or the free list is empty at the start of a table. -/
theorem step (hdS : d ∉ S) (h : Mapping c S d s₀ a s) (hal : pgSize ∣ a) (hlo : kernBase ≤ a) (hhi : a < 2^32) :
    (s.freelist = [] ∧ tablesBelow a < tablesBelow (a+pgSize) ∧ walkpgdir d a true s = (none,s.starve)) ∨
    ∃ t s₁, walkpgdir d a true s = (some (t,ptx a),s₁) ∧ has (s₁.readPte (t,ptx a)) pteP = false ∧
      ∀ w, Mapping c S d s₀ (a+pgSize) (s₁.writePte (t,ptx a) w) ∧
        (s₁.writePte (t,ptx a) w).pte d (vpn a) = w ∧
        (s₁.writePte (t,ptx a) w).freelist.length+tablesBelow (a+pgSize) = s.freelist.length+tablesBelow a := by
  have hd : d ∈ insert d S := Set.mem_insert d S
  have hsize : pgSize = 4096 := rfl
  have hdvd : 4096 ∣ a := hal
  have hwfd : Wf c {d} s := h.wf.subset (Set.singleton_subset_iff.mpr hd)
  have hnone : s.table d (vpn a) = none ↔ a%2^22 = 0 := by
    refine ⟨fun hn => ?_,fun h0 => h.above (vpn a) ?_⟩
    · by_contra hpart
      obtain ⟨t,ht⟩ := h.partway hpart
      rw [hn] at ht
      cases ht
    · rw [vpn,pdx_val]
      omega
  obtain ⟨ht,hl,hwalk⟩ | ⟨t,s₁,ho,hwalk⟩ := h.wf.opens hd a
  · have h0 := hnone.mp ht
    refine Or.inl ⟨hl,?_,hwalk⟩
    rw [tablesBelow,tablesBelow]
    omega
  · refine Or.inr ⟨t,s₁,hwalk,?_,fun w => ?_⟩
    · rw [readPte_eq ho.table,ho.pte hd]
      exact h.unmapped a le_rfl hhi
    · rw [writePte_eq ho.table]
      refine ⟨?_,ho.wf.setPte_same hd ho.table,?_⟩
      · exact h.write hdS hal hlo hhi ho.wf (h.same.trans (ho.same.subset (Set.subset_insert d S)))
          ((ho.accounted hwfd rfl).trans h.accounted) ho.table
          (fun k hk => ho.tables d hd k fun he => hk (Prod.mk.inj he).2) (ho.pte hd) (ho.rest.1.trans h.proc)
      · change s₁.freelist.length+_ = _
        rw [tablesBelow,tablesBelow]
        have htab := ho.table
        obtain rfl | ⟨ht,l,hl,rfl⟩ := ho.origin
        · have hpart : a%2^22 ≠ 0 := fun h0 => by simp [hnone.mpr h0] at htab
          omega
        · have h0 := hnone.mp ht
          change s.freelist.tail.length+_ = _
          rw [hl,List.tail_cons,List.length_cons]
          omega

end Mapping

/-- All pages are mapped, or the free list was too short for the page tables. -/
def MapsTo (c : Config) (S : Set Frame) (d : Frame) (s₀ : Kernel) (a b : ℕ) (last : Word) (s : Kernel)
    (r : ℤ × Kernel) : Prop :=
  (r.1 = 0 ∧ Mapping c S d s₀ b r.2 ∧ r.2.pte d (vpn (b-pgSize)) = last ∧
    r.2.freelist.length+tablesBelow b = s.freelist.length+tablesBelow a) ∨
  (r.1 = -1 ∧ (∃ e, Mapping c S d s₀ e r.2) ∧ s.freelist.length+tablesBelow a < tablesBelow b)

theorem tablesBelow_mono {a b : ℕ} (h : a ≤ b) : tablesBelow a ≤ tablesBelow b :=
  Nat.div_le_div_right (Nat.add_le_add_right h _)

theorem mappagesLoop_kernel (hdS : d ∉ S) (perm : Word) (n : ℕ) (pa : Word) (h : Mapping c S d s₀ a s)
    (hal : pgSize ∣ a) (hlo : kernBase ≤ a) (hhi : a+n*pgSize < 2^32) :
    Outcome (mappagesLoop d perm n a pa s)
      (MapsTo c S d s₀ a (a+(n+1)*pgSize) (pa+BitVec.ofNat 32 (n*0x1000) ||| perm ||| pteP) s) (fun _ => False) := by
  have hsize : pgSize = 4096 := rfl
  induction n generalizing a s pa with
  | zero =>
    rw [mappagesLoop]
    obtain ⟨hl,hmore,hwalk⟩ | ⟨t,s₁,hwalk,hread,hwrite⟩ := h.step hdS hal hlo (by omega)
    · rw [hwalk]
      refine .ok (Or.inr ⟨rfl,⟨a,h.congr rfl rfl rfl⟩,?_⟩)
      rw [hl]
      simpa using hmore
    · obtain ⟨hmap,hpte,hlen⟩ := hwrite (pa ||| perm ||| pteP)
      rw [hwalk]
      simp only [hread,Bool.false_eq_true,if_false]
      refine .ok (Or.inl ⟨rfl,?_,?_,?_⟩)
      · simpa using hmap
      · simpa using hpte
      · simpa using hlen
  | succ n ih =>
    rw [mappagesLoop]
    have hend : a+pgSize+(n+1)*pgSize = a+(n+1+1)*pgSize := by
      rw [hsize]
      omega
    obtain ⟨hl,hmore,hwalk⟩ | ⟨t,s₁,hwalk,hread,hwrite⟩ := h.step hdS hal hlo (by omega)
    · rw [hwalk]
      refine .ok (Or.inr ⟨rfl,⟨a,h.congr rfl rfl rfl⟩,?_⟩)
      have hle : tablesBelow (a+pgSize) ≤ tablesBelow (a+(n+1+1)*pgSize) := tablesBelow_mono (by omega)
      rw [hl]
      simp only [List.length_nil]
      omega
    · obtain ⟨hmap,-,hlen⟩ := hwrite (pa ||| perm ||| pteP)
      rw [hwalk]
      simp only [hread,Bool.false_eq_true,if_false]
      have hrest := ih (pa+0x1000#32) hmap (Nat.dvd_add hal (Nat.dvd_refl _)) (by omega) (by rw [hsize] at hhi ⊢; omega)
      have hpa : pa+0x1000#32+BitVec.ofNat 32 (n*0x1000) = pa+BitVec.ofNat 32 ((n+1)*0x1000) := by
        rw [BitVec.add_assoc,Nat.add_mul,Nat.one_mul,Nat.add_comm,BitVec.ofNat_add]
      rw [hend,hpa] at hrest
      refine hrest.post ?_
      rintro r (⟨hr,hfin,hlast,hcount⟩ | ⟨hr,hpart,hshort⟩)
      · exact Or.inl ⟨hr,hfin,hlast,hcount.trans hlen⟩
      · refine Or.inr ⟨hr,hpart,?_⟩
        rw [← hlen]
        exact hshort

theorem mappages_kernel (hdS : d ∉ S) {size : ℕ} {pa perm : Word} (h : Mapping c S d s₀ a s) (hal : pgSize ∣ a)
    (hsz : pgSize ∣ size) (hpos : 0 < size) (hlo : kernBase ≤ a) (hhi : a+size ≤ 2^32) :
    Outcome (mappages d a size pa perm s)
      (MapsTo c S d s₀ a (a+size) (pa+BitVec.ofNat 32 (size-pgSize) ||| perm ||| pteP) s) (fun _ => False) := by
  have hsize : pgSize = 4096 := rfl
  have hdvd : 4096 ∣ a := hal
  have hdvd' : 4096 ∣ size := hsz
  have hlast : pgRoundDown ((a+size-1)%2^32) = a+size-pgSize := by
    rw [pgRoundDown,hsize]
    omega
  have hn : (a+size-pgSize-a)/pgSize = size/4096-1 := by
    rw [hsize]
    omega
  have hloop := mappagesLoop_kernel hdS perm (size/4096-1) pa h hal hlo (by rw [hsize]; omega)
  have hend : a+(size/4096-1+1)*pgSize = a+size := by
    rw [hsize]
    omega
  have hoff : (size/4096-1)*0x1000 = size-pgSize := by
    rw [hsize]
    omega
  rw [hend,hoff] at hloop
  rw [mappages,hlast,pgRoundDown_of_dvd hal,hn]
  exact hloop

section Setup

def topFrame : Frame := 0xFFFFF#20

theorem topFrame_notMem (c : Config) : topFrame ∉ c.frames := by
  intro h
  have hlt : topFrame.toNat*pgSize < phystop := h.2
  exact absurd hlt (by decide)

structure NewSpace (c : Config) (S : Set Frame) (d : Frame) (s₀ s : Kernel) : Prop where
  mapping : Mapping c S d s₀ (2^32) s
  top : pteAddr (s.pte d (vpn (2^32-1))) = topFrame
  count : s.freelist.length+65 = s₀.freelist.length

structure Undone (c : Config) (S : Set Frame) (s₀ s : Kernel) : Prop where
  wf : Wf c S s
  same : Same S ∅ s₀ s
  frames : s.freeFrames = s₀.freeFrames
  proc : s.proc = s₀.proc

theorem Mapping.freevm (hdS : d ∉ S) (h : Mapping c S d s₀ a s) :
    Outcome (freevm c d s) (Undone c S s₀) (fun _ => False) := by
  have hd : d ∈ insert d S := Set.mem_insert d S
  have hpages : Outcome (Xv6Paging.freevm c d s) (fun s' => Wf c (insert d S \ {d}) s' ∧
      Same (insert d S \ {d}) ∅ s s' ∧ OnlyPages s s' ∧ ∃ e, kernBase ≤ e ∧ s'.proc.pages = s.proc.pages)
      (fun _ => False) := by
    refine freevm_spec (M := fun _ p => p = s.proc.pages) h.wf hd ?_ rfl
    intro b p _ hb hor hp
    have hnone : s.table d (vpn b) = none := by
      obtain hlt | hnone := hor
      · exact h.user (vpn b) ((own_iff hb).mpr hlt)
      · exact hnone
    have hforget : forgetPage c.build (decide (s.proc.pgdir = d)) b 0#32 p = (p,0) := by simp [forgetPage,has]
    rw [pte_of_no_table hnone,hforget]
    exact .ok hp
  cases hrun : Xv6Paging.freevm c d s with
  | error e => exact (hpages.of_error hrun).elim
  | ok s' =>
    obtain ⟨hw,hsame,honly,e,-,hp⟩ := hpages.of_ok hrun
    obtain ⟨-,-,l,hl,-,hmem⟩ := freevm_returns h.wf hd hrun
    rw [Set.insert_sdiff_of_mem _ (Set.mem_singleton d),Set.sdiff_singleton_eq_self hdS] at hw hsame
    refine .ok ⟨hw,h.same.trans hsame,?_,?_⟩
    · rw [← h.accounted,accounted_eq]
      ext f
      change f ∈ s'.freelist ↔ f ∈ s.freelist ∨ f ∈ s.spaceFrames {d}
      rw [hl,List.mem_append,hmem,or_comm]
    · rw [honly.proc,hp]
      exact h.proc

theorem setupkvmLoop_cons (hdS : d ∉ S) {m : Kmap} {ms : List Kmap} {Q : Option Frame × Kernel → Prop}
    (b size : ℕ) (h : Mapping c S d s₀ a s) (hb : m.virt = b) (hab : a ≤ b) (hpart : a = b ∨ b%2^22 = 0)
    (hsz : (m.physEnd+2^32-m.physStart)%2^32 = size) (hal : pgSize ∣ b) (hdiv : pgSize ∣ size) (hpos : 0 < size)
    (hlo : kernBase ≤ b) (hhi : b+size ≤ 2^32)
    (hrest : ∀ s', Mapping c S d s₀ (b+size) s' →
      s'.pte d (vpn (b+size-pgSize)) =
        BitVec.ofNat 32 m.physStart+BitVec.ofNat 32 (size-pgSize) ||| m.perm ||| pteP →
      s'.freelist.length+tablesBelow (b+size) = s.freelist.length+tablesBelow b →
      Outcome (setupkvmLoop c d ms s') Q (fun _ => False))
    (hfail : ∀ s', Undone c S s₀ s' → s.freelist.length+tablesBelow b < tablesBelow (b+size) → Q (none,s')) :
    Outcome (setupkvmLoop c d (m :: ms) s) Q (fun _ => False) := by
  have hstart : Mapping c S d s₀ b s := by
    obtain rfl | hb22 := hpart
    · exact h
    · exact h.skip hab hb22
  rw [setupkvmLoop]
  dsimp only
  rw [hb,hsz]
  refine (mappages_kernel hdS hstart hal hdiv hpos hlo hhi).bind ?_
  rintro ⟨r,s'⟩ (⟨rfl,hmap,hlast,hcount⟩ | ⟨rfl,⟨e,hmap⟩,hshort⟩)
  · exact hrest s' hmap hlast hcount
  · simp only [Int.reduceNeg,Int.reduceLT,if_true]
    refine (hmap.freevm hdS).bind ?_
    intro s'' hundone
    exact .ok (hfail s'' hundone hshort)

/-- `setupkvm` takes sixty-five frames or leaves the free list as it was. -/
theorem setupkvm_spec (hw : Wf c S s) :
    Outcome (setupkvm c s)
      (fun r => (∃ d, r.1 = some d ∧ d ∉ S ∧ NewSpace c S d s r.2) ∨
        (r.1 = none ∧ s.freelist.length < 65 ∧ Undone c S s r.2)) (fun _ => False) := by
  have hsize : pgSize = 4096 := rfl
  rw [setupkvm]
  cases hl : s.freelist with
  | nil =>
    rw [kalloc_nil hl]
    exact .ok (Or.inr ⟨rfl,by simp,hw,Keeps.refl _,rfl,rfl⟩)
  | cons d l =>
    rw [kalloc_cons hl]
    obtain ⟨hwt,hft⟩ := hw.take hl
    have hdS : d ∉ S := hft.notTree.1
    obtain ⟨hws,hfs,hsame⟩ := hft.store (A := ∅) hwt fun _ => 0
    have hzero : (s.take.store d fun _ => 0).mem d = fun _ => 0 := Function.update_self d _ _
    have hnone : ∀ k, (s.take.store d fun _ => 0).table d k = none := by
      intro k
      rw [Kernel.table,Format.table,hzero]
      exact (congrArg x86.link (readWord_zero k.1)).trans x86.link_zero
    have hlen : (s.take.store d fun _ => 0).freelist.length+1 = s.freelist.length := by
      change s.take.freelist.length+1 = _
      rw [Kernel.take,hl]
      rfl
    have hstart : Mapping c S d s kernBase (s.take.store d fun _ => 0) := by
      refine ⟨hws.insertDir hfs hzero,hsame,?_,fun k _ => hnone k,fun k _ => hnone k,?_,?_,rfl⟩
      · have hacc : (s.take.store d fun _ => 0).accounted {d} = insert d s.take.freeFrames := by
          rw [accounted_eq,Kernel.spaceFrames,← insert_empty_eq,used_insertDir hzero,Set.union_insert]
          refine congrArg (insert d) (Set.union_eq_left.mpr ?_)
          rintro f ⟨u,hu,-⟩
          exact hu.elim
        rw [hacc]
        ext f
        change f = d ∨ f ∈ s.take.freelist ↔ f ∈ s.freelist
        rw [Kernel.take,hl]
        exact List.mem_cons.symm
      · intro hne
        exact (hne (by decide)).elim
      · intro va _ _
        rw [pte_of_no_table (hnone (vpn va))]
        decide
    -- The four mappings, with the number of page tables that each can add.
    have hlink := c.kernLink_lt_data
    have hend : c.dataAddr < kernBase+phystop := Nat.lt_of_le_of_lt c.data_le_end c.end_lt
    have hdvd : 4096 ∣ c.dataAddr := c.data_aligned
    have hbase : kernBase = 0x80000000 := rfl
    have hkl : kernLink = 0x80100000 := rfl
    have hext : extMem = 0x100000 := rfl
    have hstop : phystop = 0xE000000 := rfl
    have hdev : devSpace = 0xFE000000 := rfl
    have hmid : tablesBelow c.dataAddr ≤ tablesBelow (kernBase+phystop) := tablesBelow_mono hend.le
    have htb0 : tablesBelow kernBase = 512 := rfl
    have htb1 : tablesBelow kernLink = 513 := rfl
    have htb3 : tablesBelow (kernBase+phystop) = 568 := rfl
    have htb4 : tablesBelow devSpace = 1016 := rfl
    have htb5 : tablesBelow (2^32) = 1024 := rfl
    rw [hl] at hlen
    dsimp only
    rw [if_neg (by decide),kmap]
    refine setupkvmLoop_cons hdS kernBase extMem hstart rfl le_rfl (Or.inl rfl) (by decide) (by decide)
      (by decide) (by decide) le_rfl (by decide) ?_ ?_
    · intro s1 h1 _ hc1
      rw [show kernBase+extMem = kernLink from rfl] at h1 hc1
      refine setupkvmLoop_cons hdS kernLink (c.dataAddr-kernLink) h1 rfl le_rfl (Or.inl rfl) (by dsimp only; omega)
        (by decide) (by rw [hsize,hkl]; omega) (by omega) (by decide) (by omega) ?_ ?_
      · intro s2 h2 _ hc2
        rw [Nat.add_sub_cancel' hlink.le] at h2 hc2
        refine setupkvmLoop_cons hdS c.dataAddr (kernBase+phystop-c.dataAddr) h2 rfl le_rfl (Or.inl rfl)
          (by dsimp only; omega) c.data_aligned (by rw [hsize,hbase,hstop]; omega) (by omega) (by omega) (by omega) ?_ ?_
        · intro s3 h3 _ hc3
          rw [Nat.add_sub_cancel' hend.le] at h3 hc3
          refine setupkvmLoop_cons hdS devSpace (2^32-devSpace) h3 rfl (by decide) (Or.inr (by decide)) (by decide)
            (by decide) (by decide) (by decide) (by decide) (by decide) ?_ ?_
          · intro s4 h4 hlast hc4
            rw [show devSpace+(2^32-devSpace) = 2^32 from rfl] at h4 hc4
            refine .ok (Or.inl ⟨d,rfl,hdS,h4,?_,?_⟩)
            · have htop : s4.pte d (vpn (2^32-1)) = s4.pte d (vpn (devSpace+(2^32-devSpace)-pgSize)) := by
                rw [show vpn (2^32-1) = vpn (devSpace+(2^32-devSpace)-pgSize) by decide]
              rw [htop,hlast]
              decide
            · dsimp only
              rw [hl]
              omega
          · intro s' hundone hshort
            rw [show devSpace+(2^32-devSpace) = 2^32 from rfl] at hshort
            exact Or.inr ⟨rfl,by omega,hundone⟩
        · intro s' hundone hshort
          rw [Nat.add_sub_cancel' hend.le] at hshort
          exact Or.inr ⟨rfl,by omega,hundone⟩
      · intro s' hundone hshort
        rw [Nat.add_sub_cancel' hlink.le] at hshort
        exact Or.inr ⟨rfl,by omega,hundone⟩
    · intro s' hundone hshort
      rw [show kernBase+extMem = kernLink from rfl] at hshort
      exact Or.inr ⟨rfl,by omega,hundone⟩

end Setup

end Xv6Paging
