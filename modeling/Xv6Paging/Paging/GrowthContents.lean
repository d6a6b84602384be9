import Xv6Paging.Paging.GrowthAccounts
import Xv6Paging.Paging.UserMemory

/-! # Growing and shrinking as all or nothing

What `growproc` returns, compared with what it has done to the pages of the process. The
bytes of a page are those of its frame or of its slot in the swap file, so evictions on the
way do not count as changes. Nothing is assumed about the queue and the counters: a call
that follows a broken link may fault, but what returns has kept the pages.
-/
namespace Xv6Paging
open WordPage PageTree

/-- The bytes of the user page at `a`, from its frame or from the slot of `disk_pg_arr` that lists it. -/
def Kernel.userPage (s : Kernel) (a : ℕ) : Option Page :=
  if has (s.pte s.proc.pgdir (vpn a)) pteP then some (s.page s.proc.pgdir (vpn a))
  else if has (s.pte s.proc.pgdir (vpn a)) ptePG then
    ((List.finRange 16).find? fun i => s.proc.pages.diskVa i = some a).bind fun i =>
      s.proc.swapFile.map fun ip => ip.slotPage i.val
  else none

/-- After 0 the size has changed by `n` and the pages with it, new pages being cleared; after -1 nothing has
changed. -/
structure Honest (n : ℤ) (s : Kernel) (r : ℤ × Kernel) : Prop where
  done : r.1 = 0 → (r.2.proc.sz : ℤ) = s.proc.sz+n ∧ ∀ a, UserPage a → r.2.userPage a =
    if r.2.proc.sz ≤ a then none else if s.proc.sz ≤ a then some fun _ => 0 else s.userPage a
  undone : r.1 = -1 → r.2.proc.sz = s.proc.sz ∧ ∀ a, UserPage a → r.2.userPage a = s.userPage a

/-- The process has the pages in `P`, with the bytes `μ`: those that `disk_pg_arr` lists are in the swap
file, all others are present. The last page of the address space belongs to a device. -/
structure Holds (c : Config) (P : Set ℕ) (μ : ℕ → Page) (s : Kernel) : Prop where
  space : Space c {s.proc.pgdir} s.proc.pgdir (P \ s.proc.pages.swapped) μ (fun _ _ => false) s
  resident : ∀ i a, s.proc.pages.va i = some a → a ∈ P \ s.proc.pages.swapped
  swapped : ∀ i a, s.proc.pages.diskVa i = some a → a ∈ P ∧
    SwappedOut (s.pte s.proc.pgdir (vpn a)) s.proc.swapFile i a (μ a)
  once : ListedOnce s.proc.pages
  unused : c.build = .none → s.proc.pages.va = (fun _ => none) ∧ s.proc.pages.diskVa = fun _ => none
  top : pteAddr (s.pte s.proc.pgdir (vpn (2^32-1))) ∉ c.frames

section Basic
variable {c : Config} {P P' : Set ℕ} {μ μ' : ℕ → Page} {s s' : Kernel} {a : ℕ} {i : Slot}

section
variable (h : Holds c P μ s)
include h

theorem Holds.userPage_mem (ha : a ∈ P) : s.userPage a = some (μ a) := by
  unfold Kernel.userPage
  by_cases hs : a ∈ s.proc.pages.swapped
  · obtain ⟨i,hi⟩ := hs
    obtain ⟨-,habs,hflag,-,ip,hip,-,hslot⟩ := (h.swapped i a hi).2
    have hfind := find?_slot hi fun j hj => h.once.diskVa j i a hj hi
    rw [habs,hflag,if_neg Bool.false_ne_true,if_pos rfl,hfind,hip,← hslot]
    rfl
  · rw [h.space.present a ⟨ha,hs⟩,if_pos rfl,h.space.bytes a ⟨ha,hs⟩]

theorem Holds.userPage_notMem (hu : UserPage a) (ha : a ∉ P) : s.userPage a = none := by
  unfold Kernel.userPage
  rw [h.space.absent a hu fun hm => ha hm.1,if_neg Bool.false_ne_true]
  split_ifs
  · have hfind : ((List.finRange 16).find? fun i => s.proc.pages.diskVa i = some a) = none := by
      rw [List.find?_eq_none]
      intro i _ hi
      exact ha (h.swapped i a (of_decide_eq_true hi)).1
    rw [hfind]
    rfl
  · rfl

theorem Holds.user (ha : a ∈ P) : UserPage a := by
  by_cases hs : a ∈ s.proc.pages.swapped
  · obtain ⟨i,hi⟩ := hs
    exact (h.swapped i a hi).2.user
  · exact h.space.user a ⟨ha,hs⟩

theorem Holds.mono (hμ : ∀ a ∈ P, μ' a = μ a) : Holds c P μ' s where
  space := h.space.mono (fun a ha => hμ a ha.1) fun _ _ _ hst => hst
  resident := h.resident
  swapped i a hi := by
    obtain ⟨ha,hsw⟩ := h.swapped i a hi
    rw [hμ a ha]
    exact ⟨ha,hsw⟩
  once := h.once
  unused := h.unused
  top := h.top

theorem Holds.same (hw : Wf c {s.proc.pgdir} s') (hs : Same {s.proc.pgdir} ∅ s s')
    (hp : s'.proc = s.proc) : Holds c P μ s' := by
  have hpte : ∀ k, s'.pte s.proc.pgdir k = s.pte s.proc.pgdir k :=
    fun k => hs.entry _ rfl k (Set.notMem_empty _)
  refine ⟨?_,?_,?_,?_,?_,?_⟩
  · rw [hp]
    exact h.space.same hw hs
  · rw [hp]
    exact h.resident
  · rw [hp]
    intro i a hi
    rw [hpte]
    exact h.swapped i a hi
  · rw [hp]
    exact h.once
  · rw [hp]
    exact h.unused
  · rw [hp,hpte]
    exact h.top

theorem Holds.agree : ArraysAgree c s where
  once := h.once
  resident i a hi := ⟨h.space.user a (h.resident i a hi),h.space.present a (h.resident i a hi)⟩
  swapped i a hi := ⟨(h.swapped i a hi).2.user,(h.swapped i a hi).2.absent,(h.swapped i a hi).2.flag⟩
  unused := h.unused

theorem Holds.listsUser : s.proc.pages.listsUser :=
  fun i a hi => (h.space.user a (h.resident i a hi)).2

end

theorem top_of_same (hs : Same {s.proc.pgdir} {(s.proc.pgdir,vpn a)} s s') (hu : UserPage a)
    (htop : pteAddr (s.pte s.proc.pgdir (vpn (2^32-1))) ∉ c.frames) :
    pteAddr (s'.pte s.proc.pgdir (vpn (2^32-1))) ∉ c.frames := by
  have hpte : s'.pte s.proc.pgdir (vpn (2^32-1)) = s.pte s.proc.pgdir (vpn (2^32-1)) :=
    hs.entry _ rfl _ fun hm => vpn_top_ne hu (Prod.ext_iff.mp hm).2
  rw [hpte]
  exact htop

theorem Holds.map (h : Holds c P μ s) (hu : UserPage a) (ha : a ∉ P)
    (hsp : Space c {s.proc.pgdir} s.proc.pgdir (insert a (P \ s.proc.pages.swapped)) μ (fun _ _ => false) s')
    (hs : Same {s.proc.pgdir} {(s.proc.pgdir,vpn a)} s s') (hp : s'.proc = s.proc) : Holds c (insert a P) μ s' := by
  have hns : a ∉ s.proc.pages.swapped := by
    rintro ⟨i,hi⟩
    exact ha (h.swapped i a hi).1
  refine ⟨?_,?_,?_,?_,?_,?_⟩
  · rw [hp,Set.insert_sdiff_of_notMem _ hns]
    exact hsp
  · rw [hp]
    intro i b hi
    exact ⟨Or.inr (h.resident i b hi).1,(h.resident i b hi).2⟩
  · rw [hp]
    intro i b hi
    obtain ⟨hb,hsw⟩ := h.swapped i b hi
    have hne : b ≠ a := by
      rintro rfl
      exact ha hb
    rw [hs.pte_of_ne rfl hu hsw.user hne]
    exact ⟨Or.inr hb,hsw⟩
  · rw [hp]
    exact h.once
  · rw [hp]
    exact h.unused
  · rw [hp]
    exact top_of_same hs hu h.top

theorem Holds.dealloc {oldsz newsz : ℕ} (h : Holds c P μ s) (hP : ∀ a ∈ P, a < oldsz) (hsz : oldsz ≤ kernBase)
    (hlt : newsz < oldsz) :
    ∃ s', deallocuvm c s.proc.pgdir oldsz newsz s = .ok (newsz,s') ∧
      Holds c {a ∈ P | a < pgRoundUp newsz} μ s' ∧ OnlyPages s s' ∧
      ∀ f, FreshFrame c {s.proc.pgdir} s f → FreshFrame c {s.proc.pgdir} s' f := by
  obtain ⟨s',e,hr,he,hrel,hf⟩ := deallocuvm_forgotten h.agree h.space.wf hsz hlt
  have hlo := pgSize_dvd_pgRoundUp newsz
  have hdir : s'.proc.pgdir = s.proc.pgdir := by rw [hrel.only.proc]
  have hfile : s'.proc.swapFile = s.proc.swapFile := by rw [hrel.only.proc]
  have hva : ∀ i a, s'.proc.pages.va i = some a ↔ s.proc.pages.va i = some a ∧ a < pgRoundUp newsz := by
    intro i a
    rw [hf.va i a]
    refine and_congr_right fun hi => ?_
    have := hP a (h.resident i a hi).1
    omega
  have hdisk : ∀ i a, s'.proc.pages.diskVa i = some a ↔ s.proc.pages.diskVa i = some a ∧ a < pgRoundUp newsz := by
    intro i a
    rw [hf.diskVa i a]
    refine and_congr_right fun hi => ?_
    have := hP a (h.swapped i a hi).1
    omega
  have hsw : ∀ a, a ∈ s'.proc.pages.swapped ↔ a ∈ s.proc.pages.swapped ∧ a < pgRoundUp newsz := by
    intro a
    simp only [ProcPages.swapped,Set.mem_ofPred_eq,hdisk,exists_and_right]
  refine ⟨s',hr,⟨?_,fun i a hi => ?_,fun i a hi => ?_,⟨fun i j a hi hj => ?_,fun i j a hi hj => ?_⟩,fun hn => ?_,?_⟩,
    hrel.only,hrel.fresh⟩
  · have hsp := h.space.release hrel he hlo hsz
    have hZ : {a ∈ P \ s.proc.pages.swapped | a < pgRoundUp newsz ∨ oldsz ≤ a} =
        {a ∈ P | a < pgRoundUp newsz} \ s'.proc.pages.swapped := by
      ext a
      constructor
      · rintro ⟨⟨h1,h2⟩,h3⟩
        have := hP a h1
        exact ⟨⟨h1,by omega⟩,fun hm => h2 ((hsw a).mp hm).1⟩
      · rintro ⟨⟨h1,h2⟩,h3⟩
        exact ⟨⟨h1,fun hm => h3 ((hsw a).mpr ⟨hm,h2⟩)⟩,Or.inl h2⟩
    rw [hZ] at hsp
    rw [hdir]
    exact hsp
  · obtain ⟨hi',hlt'⟩ := (hva i a).mp hi
    obtain ⟨h1,h2⟩ := h.resident i a hi'
    exact ⟨⟨h1,hlt'⟩,fun hm => h2 ((hsw a).mp hm).1⟩
  · obtain ⟨hi',hlt'⟩ := (hdisk i a).mp hi
    obtain ⟨h1,h2⟩ := h.swapped i a hi'
    rw [hdir,hfile,(hrel.pte_kept rfl hlo hsz h2.user (Or.inl hlt')).1]
    exact ⟨⟨h1,hlt'⟩,h2⟩
  · exact h.once.va i j a ((hva i a).mp hi).1 ((hva j a).mp hj).1
  · exact h.once.diskVa i j a ((hdisk i a).mp hi).1 ((hdisk j a).mp hj).1
  · obtain ⟨h1,h2⟩ := h.unused hn
    constructor
    · funext i
      rw [Option.eq_none_iff_forall_ne_some]
      intro a hi
      have hi' := ((hva i a).mp hi).1
      rw [h1] at hi'
      cases hi'
    · funext i
      rw [Option.eq_none_iff_forall_ne_some]
      intro a hi
      have hi' := ((hdisk i a).mp hi).1
      rw [h2] at hi'
      cases hi'
  · have hpte : s'.pte s.proc.pgdir (vpn (2^32-1)) = s.pte s.proc.pgdir (vpn (2^32-1)) := by
      refine hrel.same.entry _ rfl _ ?_
      rintro ⟨-,b,-,-,hb,hk⟩
      have hq := (vpn_inj (by decide) (show b < 2^32 by simp only [kernBase] at hsz; omega)).mp hk
      simp only [pgSize,kernBase] at hq hsz
      omega
    rw [hdir,hpte]
    exact h.top

end Basic

/-! ## Moving a page to the swap file -/

section Evict
variable {c : Config} {P : Set ℕ} {μ : ℕ → Page} {s s' : Kernel} {a : ℕ} {i tmp : Slot} {ip : Inode}

theorem Holds.evict (h : Holds c P μ s) (hi : firstFree s.proc.pages.diskVa = some i)
    (hrun : insertToDisk c i tmp s = .ok s') :
    Holds c P μ s' ∧ OnlySwap s s' ∧ s'.proc.pages.listed ⊆ s.proc.pages.listed := by
  obtain ⟨a,-,-,htmp,hP,-,hfile,-⟩ := insertToDisk_run h.top h.listsUser hrun
  obtain ⟨ip,hip⟩ := Option.ne_none_iff_exists'.mp hfile
  have ha := h.resident tmp a htmp
  have hu := h.space.user a ha
  rw [insertToDisk_eq h.space.wf rfl rfl htmp hu hP hip
    (size_of_firstFree hi fun j b hj => ⟨_,_,hip ▸ (h.swapped j b hj).2⟩)] at hrun
  cases hrun
  obtain ⟨hsp,hsame,hpte⟩ := h.space.unmap ha (w := pteW ||| pteU ||| ptePG) (by decide)
  have hdisk : ∀ j b, (s.proc.pages.evict i tmp a).diskVa j = some b ↔
      j = i ∧ b = a ∨ j ≠ i ∧ s.proc.pages.diskVa j = some b := fun _ _ => update_some_eq_some
  have hva : ∀ j b, (s.proc.pages.evict i tmp a).va j = some b ↔ j ≠ tmp ∧ s.proc.pages.va j = some b :=
    fun _ _ => update_none_eq_some
  have hsw : (s.proc.pages.evict i tmp a).swapped = insert a s.proc.pages.swapped :=
    Set.ext fun _ => exists_update_some (firstFree_some hi)
  have hne : ∀ j b, s.proc.pages.diskVa j = some b → b ≠ a := by
    rintro j b hj rfl
    exact ha.2 ⟨j,hj⟩
  refine ⟨⟨?_,fun j b hj => ?_,fun j b hj => ?_,⟨once_update_none h.once.va,once_update_some h.once.diskVa ?_⟩,
    fun hn => ?_,?_⟩,⟨rfl,rfl⟩,?_⟩
  · have hZ : (P \ s.proc.pages.swapped) \ {a} = P \ (s.proc.pages.evict i tmp a).swapped := by
      rw [hsw,Set.sdiff_sdiff,Set.union_singleton]
    rw [hZ] at hsp
    exact hsp.congr rfl rfl
  · obtain ⟨hjt,hj'⟩ := (hva j b).mp hj
    refine ⟨(h.resident j b hj').1,?_⟩
    change b ∉ (s.proc.pages.evict i tmp a).swapped
    rw [hsw]
    rintro (rfl | hm)
    · exact hjt (h.once.va j tmp b hj' htmp)
    · exact (h.resident j b hj').2 hm
  · rcases (hdisk j b).mp hj with ⟨rfl,rfl⟩ | ⟨hji,hj'⟩
    · have hout : SwappedOut (pteW ||| pteU ||| ptePG) (some (ip.putPage j (s.page s.proc.pgdir (vpn b)))) j b (μ b) := by
        refine ⟨hu,by decide,by decide,by decide,_,rfl,?_,?_⟩
        · rw [Inode.putPage_size]
          exact le_max_right _ _
        · rw [Inode.slotPage_putPage_same,h.space.bytes b ha]
      rw [← hpte] at hout
      exact ⟨ha.1,hout⟩
    · obtain ⟨hb,hold⟩ := h.swapped j b hj'
      rw [hip] at hold
      have hout : SwappedOut (s.pte s.proc.pgdir (vpn b)) (some (ip.putPage i (s.page s.proc.pgdir (vpn a)))) j b (μ b) :=
        hold.grow (by rw [Inode.putPage_size]; exact le_max_left _ _) (Inode.slotPage_putPage_of_ne ip hji _)
      rw [← hsame.pte_of_ne rfl hu hold.user (hne j b hj')] at hout
      exact ⟨hb,hout⟩
  · exact fun j hj => hne j a hj rfl
  · rw [(h.unused hn).1] at htmp
    cases htmp
  · have htop := top_of_same hsame hu h.top
    exact htop
  · rintro b (⟨j,hj⟩ | hb)
    · exact Or.inl ⟨j,((hva j b).mp hj).2⟩
    · change b ∈ (s.proc.pages.evict i tmp a).swapped at hb
      rw [hsw] at hb
      rcases hb with rfl | hb
      · exact Or.inl ⟨tmp,htmp⟩
      · exact Or.inr hb

theorem Holds.select (h : Holds c P μ s) (hrun : selectPageToRemove c.build s = .ok (tmp,s')) :
    Holds c P μ s' ∧ OnlySwap s s' ∧ s'.proc.pages.va = s.proc.pages.va ∧ s'.proc.pages.diskVa = s.proc.pages.diskVa := by
  obtain ⟨hc,hlinks⟩ := (selectPageToRemove_keeps c.build h.space.wf rfl).of_ok hrun
  have hva : s'.proc.pages.va = s.proc.pages.va := by rw [hlinks]
  have hdisk : s'.proc.pages.diskVa = s.proc.pages.diskVa := by rw [hlinks]
  have hsw : s'.proc.pages.swapped = s.proc.pages.swapped := by simp only [ProcPages.swapped,hdisk]
  have hdir : s'.proc.pgdir = s.proc.pgdir := by rw [hc.only.proc]
  have hfile : s'.proc.swapFile = s.proc.swapFile := by rw [hc.only.proc]
  refine ⟨⟨?_,?_,fun i a hi => ?_,?_,?_,?_⟩,hc.only.onlySwap,hva,hdisk⟩
  · rw [hsw,hdir]
    exact h.space.cleared hc
  · rw [hva,hsw]
    exact h.resident
  · rw [hdisk] at hi
    obtain ⟨ha,hu,hP,hG,hA,hstored⟩ := h.swapped i a hi
    rw [hdir,hfile]
    refine ⟨ha,hu,?_,?_,?_,hstored⟩
    · rw [has_pteP,hc.bit rfl (by decide) (by decide),← has_pteP]
      exact hP
    · rw [has_ptePG,hc.bit rfl (by decide) (by decide),← has_ptePG]
      exact hG
    · rw [hc.pteAddr rfl]
      exact hA
  · constructor
    · rw [hva]
      exact h.once.va
    · rw [hdisk]
      exact h.once.diskVa
  · rw [hva,hdisk]
    exact h.unused
  · rw [hdir,hc.pteAddr rfl]
    exact h.top

theorem Holds.makeRoom (h : Holds c P μ s) (hrun : moveramToDisk c s = .ok s') :
    Holds c P μ s' ∧ OnlySwap s s' ∧ s'.proc.pages.listed ⊆ s.proc.pages.listed := by
  unfold moveramToDisk at hrun
  cases hi : firstFree s.proc.pages.diskVa with
  | none =>
    rw [hi] at hrun
    cases hrun
  | some i =>
    simp only [hi] at hrun
    split_ifs at hrun
    obtain ⟨⟨tmp,s₁⟩,hsel,hrun⟩ := bind_eq_ok hrun
    obtain ⟨h₁,ho₁,hva,hdisk⟩ := h.select hsel
    rw [← hdisk] at hi
    obtain ⟨h₂,ho₂,hsub⟩ := h₁.evict hi hrun
    have hlisted : s₁.proc.pages.listed = s.proc.pages.listed := by
      simp only [ProcPages.listed,ProcPages.residents,ProcPages.swapped,hva,hdisk]
    rw [hlisted] at hsub
    exact ⟨h₂,ho₁.trans ho₂,hsub⟩

theorem Holds.enter {j : Slot} {p : ProcPages} (h : Holds c P μ s) (ha : a ∈ P) (hns : a ∉ s.proc.pages.listed)
    (hrun : updateMemory c.build s.proc.pages a = .ok (j,p)) : Holds c P μ (s.setPages p) := by
  have hl := updateMemory_listedIn hrun
  have hsw : p.swapped = s.proc.pages.swapped := by simp only [ProcPages.swapped,hl.diskVa]
  refine ⟨?_,fun k b hk => ?_,fun k b hk => ?_,⟨?_,fun k m b hk hm => ?_⟩,fun hn => ?_,h.top⟩
  · have hsp := h.space
    rw [← hsw] at hsp
    exact hsp.congr rfl rfl
  · change b ∈ P \ p.swapped
    rw [hsw]
    have hk' : Function.update s.proc.pages.va j (some a) k = some b := hl.va ▸ hk
    rcases update_some_eq_some.mp hk' with ⟨-,rfl⟩ | ⟨-,hold⟩
    · exact ⟨ha,fun hm => hns (Or.inr hm)⟩
    · exact h.resident k b hold
  · exact h.swapped k b (hl.diskVa ▸ hk)
  · rw [Kernel.setPages,hl.va]
    exact once_update_some h.once.va fun k hk => hns (Or.inl ⟨k,hk⟩)
  · exact h.once.diskVa k m b (hl.diskVa ▸ hk) (hl.diskVa ▸ hm)
  · rw [hn] at hrun
    cases hrun

theorem Holds.list (h : Holds c P μ s) (ha : a ∈ P) (hns : a ∉ s.proc.pages.listed)
    (hrun : listPage c a s = .ok s') : Holds c P μ s' ∧ OnlySwap s s' := by
  obtain ⟨s₁,j,pages,hupdate,rfl,⟨-,hmove⟩ | ⟨-,rfl⟩⟩ := listPage_run hrun
  · obtain ⟨h₁,ho₁,hsub⟩ := h.makeRoom hmove
    exact ⟨h₁.enter ha (fun hm => hns (hsub hm)) hupdate,ho₁.trans ⟨rfl,rfl⟩⟩
  · exact ⟨h.enter ha hns hupdate,rfl,rfl⟩

end Evict

/-! ## The loops -/

section Grow
variable {c : Config} {P : Set ℕ} {μ : ℕ → Page} {s : Kernel} {a oldsz newsz : ℕ}

theorem Holds.newPage (h : Holds c P μ s) (hP : ∀ b ∈ P, b < newsz) (hu : UserPage a) (ha : a ∉ P)
    (hμ : μ a = fun _ => 0) (hsz : newsz ≤ kernBase) (hlt : oldsz < newsz) :
    (∃ s', allocPage c s.proc.pgdir oldsz newsz a s = .ok (0,s') ∧
      Holds c {b ∈ P | b < pgRoundUp oldsz} μ s' ∧ s'.proc.sz = s.proc.sz) ∨
    ∃ s', allocPage c s.proc.pgdir oldsz newsz a s = .ok (1,s') ∧ Holds c (insert a P) μ s' ∧ s'.proc = s.proc := by
  have hnZ : a ∉ P \ s.proc.pages.swapped := fun hm => ha hm.1
  obtain ⟨o,r,hr,-,he⟩ | ⟨f,r,t,s₁,hr,ho,he⟩ := allocPage_cases oldsz newsz h.space.wf rfl hu
  · obtain ⟨hproc,-⟩ := hr.rest
    have hdir : r.starve.proc.pgdir = s.proc.pgdir := congrArg Proc.pgdir hproc
    have h₁ : Holds c P μ r.starve := h.same hr.wf hr.same hproc
    obtain ⟨s',hrun,hs',honly,hfresh⟩ := h₁.dealloc hP hsz hlt
    rw [hdir] at hrun hfresh
    have hback : ∀ f ∈ o, FreshFrame c {s.proc.pgdir} s' f := fun f hf => hfresh f (hr.fresh f hf).1
    have hdir' : s'.proc.pgdir = s.proc.pgdir := by rw [honly.proc,← hdir]
    have hwf := hs'.space.wf
    rw [hdir'] at hwf
    obtain ⟨hwf',hsame',-⟩ := hwf.giveBack hback
    obtain ⟨hproc',-⟩ := giveBack_rest s' o
    refine Or.inl ⟨s'.giveBack o,by rw [he,hrun,putBack_bind _ hback],
      hs'.same (hdir' ▸ hwf') (hdir' ▸ hsame') hproc',?_⟩
    rw [hproc',honly.proc]
    exact congrArg (·.sz) hproc
  · rw [h.space.absent a hu hnZ,if_neg Bool.false_ne_true] at he
    obtain ⟨hsp,hsame,hproc,-⟩ := hr.map ho h.space hu hμ
    exact Or.inr ⟨_,he,h.map hu ha hsp hsame hproc,hproc⟩

def grownTo (P : Set ℕ) (oldsz a : ℕ) : Set ℕ := P ∪ (pagesBelow a \ pagesBelow oldsz)

theorem grownTo_succ (hP : P ⊆ pagesBelow oldsz) (ha : pgSize ∣ a) (hle : oldsz ≤ a) :
    grownTo P oldsz (a+pgSize) = insert a (grownTo P oldsz a) ∧ a ∉ grownTo P oldsz a := by
  have hnb : a ∉ pagesBelow oldsz := fun hm => absurd hm.2 (not_lt.mpr hle)
  constructor
  · rw [grownTo,pagesBelow_succ ha,Set.insert_sdiff_of_notMem _ hnb,Set.union_insert]
    rfl
  · rintro (hm | hm)
    · exact hnb (hP hm)
    · exact notMem_pagesBelow hm.1

theorem grownTo_undo (hP : P ⊆ pagesBelow oldsz) (hsz : oldsz ≤ kernBase) :
    {b ∈ grownTo P oldsz a | b < pgRoundUp oldsz} = P := by
  ext b
  constructor
  · rintro ⟨hm | hm,hlt⟩
    · exact hm
    · refine (hm.2 ?_).elim
      rw [← pagesBelow_roundUp hsz]
      exact ⟨hm.1.1,hlt⟩
  · intro hb
    exact ⟨Or.inl hb,(hP hb).2.trans_le (le_pgRoundUp hsz).1⟩

def GrewOrKept (c : Config) (P : Set ℕ) (μ : ℕ → Page) (oldsz newsz : ℕ) (s : Kernel) (r : ℕ × Kernel) : Prop :=
  r.2.proc.sz = s.proc.sz ∧
    (r.1 = 0 ∧ Holds c P μ r.2 ∨ r.1 = newsz ∧ Holds c (grownTo P oldsz newsz) μ r.2)

theorem growLoop_holds {list : ℕ → Kernel → Except Fault Kernel} {d : Frame}
    (hlist : ∀ P a s s', Holds c P μ s → a ∈ P → a ∉ s.proc.pages.listed → list a s = .ok s' →
      Holds c P μ s' ∧ OnlySwap s s')
    (hP : P ⊆ pagesBelow oldsz) (hsz : newsz ≤ kernBase) (hlt : oldsz < newsz)
    (hμ : ∀ b, oldsz ≤ b → μ b = fun _ => 0) (fuel : ℕ) (ha : pgSize ∣ a) (hle : oldsz ≤ a) (hb : a < newsz+pgSize)
    (hd : s.proc.pgdir = d) (h : Holds c (grownTo P oldsz a) μ s) :
    Outcome (growLoop c list d oldsz newsz fuel a s) (GrewOrKept c P μ oldsz newsz s) fun _ => True := by
  induction fuel generalizing a s with
  | zero => exact .error trivial
  | succ fuel ih =>
    rw [growLoop]
    by_cases hlt' : a < newsz
    · rw [if_pos hlt']
      obtain ⟨hsucc,hna⟩ := grownTo_succ hP ha hle
      have hbelow : ∀ b ∈ grownTo P oldsz a, b < newsz := by
        rintro b (hm | hm)
        · exact (hP hm).2.trans hlt
        · exact hm.1.2.trans hlt'
      rcases h.newPage hbelow ⟨ha,hlt'.trans_le hsz⟩ hna (hμ a hle) hsz hlt with ⟨s',hs',hh,hsame⟩ | ⟨s₁,hs₁,hh,hproc⟩
      · rw [hd] at hs'
        rw [grownTo_undo hP (hlt.le.trans hsz)] at hh
        rw [hs']
        exact .ok ⟨hsame,Or.inl ⟨rfl,hh⟩⟩
      · rw [hd] at hs₁
        rw [← hsucc] at hh
        rw [hs₁]
        change Outcome (list a s₁ >>= fun s => growLoop c list d oldsz newsz fuel (a+pgSize) s) _ _
        cases hs₂ : list a s₁ with
        | error e => exact .error trivial
        | ok s₂ =>
          have hnl : a ∉ s₁.proc.pages.listed := by
            rw [hproc]
            rintro (⟨i,hi⟩ | ⟨i,hi⟩)
            · exact hna (h.resident i a hi).1
            · exact hna (h.swapped i a hi).1
          obtain ⟨h₂,ho₂⟩ := hlist _ a s₁ s₂ hh (hsucc ▸ Set.mem_insert a _) hnl hs₂
          have hd₂ : s₂.proc.pgdir = d := by
            rw [ho₂.proc,hproc]
            exact hd
          have hsz₂ : s₂.proc.sz = s.proc.sz := by rw [ho₂.proc,hproc]
          refine (ih (Nat.dvd_add ha (Nat.dvd_refl _)) (by omega) (by omega) hd₂ h₂).post fun r hr => ?_
          exact ⟨hr.1.trans hsz₂,hr.2⟩
    · rw [if_neg hlt']
      rw [grownTo,pagesBelow_of_le ha (not_lt.mp hlt') hb] at h
      exact .ok ⟨rfl,Or.inr ⟨rfl,h⟩⟩

theorem Holds.grow (h : Holds c P μ s) (hP : P ⊆ pagesBelow oldsz) (hlt : oldsz < newsz)
    (hμ : ∀ b, oldsz ≤ b → μ b = fun _ => 0) :
    Outcome (allocuvm c s.proc.pgdir oldsz newsz s) (GrewOrKept c P μ oldsz newsz s) fun _ => True := by
  by_cases hk : kernBase ≤ newsz
  · have hzero : Outcome (.ok (0,s) : Except Fault (ℕ × Kernel)) (GrewOrKept c P μ oldsz newsz s) fun _ => True :=
      .ok ⟨rfl,Or.inl ⟨rfl,h⟩⟩
    unfold allocuvm oldallocuvm
    rw [if_pos hk]
    split_ifs
    · exact hzero
    · exact hzero
  · have hsz : newsz ≤ kernBase := by omega
    obtain ⟨hle,hlt'⟩ := le_pgRoundUp (hlt.le.trans hsz)
    have hstart : grownTo P oldsz (pgRoundUp oldsz) = P := by
      rw [grownTo,pagesBelow_roundUp (hlt.le.trans hsz),Set.sdiff_self,Set.union_empty]
    have h₀ := h
    rw [← hstart] at h₀
    have hloop {list : ℕ → Kernel → Except Fault Kernel}
        (hlist : ∀ P a s s', Holds c P μ s → a ∈ P → a ∉ s.proc.pages.listed → list a s = .ok s' →
          Holds c P μ s' ∧ OnlySwap s s') :=
      growLoop_holds hlist hP hsz hlt hμ (newsz/pgSize+2) (pgSize_dvd_pgRoundUp oldsz) hle (by omega) rfl h₀
    unfold allocuvm oldallocuvm
    simp only [if_neg hk,if_neg (not_lt.mpr hlt.le),oldallocuvmLoop_eq_growLoop,allocuvmLoop_eq_growLoop]
    split_ifs
    · refine hloop fun P a s s' hs _ _ he => ?_
      cases he
      exact ⟨hs,.refl s⟩
    · exact .ok ⟨rfl,Or.inl ⟨rfl,h⟩⟩
    · exact hloop fun P a s s' hs ha hn he => hs.list ha hn he

end Grow

/-! ## The results of `growproc` -/

section Growproc
variable {c : Config} {P P' : Set ℕ} {μ μ' : ℕ → Page} {s s' : Kernel} {n : ℤ}

section
variable (h : Holds c P μ s)
include h

theorem Holds.setSz (sz : ℕ) : Holds c P μ {s with proc := {s.proc with sz := sz}} :=
  ⟨h.space.congr rfl rfl,h.resident,h.swapped,h.once,h.unused,h.top⟩

theorem Holds.userPage_congr (h' : Holds c P μ s') (a : ℕ) (hu : UserPage a) :
    s'.userPage a = s.userPage a := by
  by_cases ha : a ∈ P
  · rw [h.userPage_mem ha,h'.userPage_mem ha]
  · rw [h.userPage_notMem hu ha,h'.userPage_notMem hu ha]

theorem Holds.honest_growth (hP : P ⊆ pagesBelow s.proc.sz) (hsz : s.proc.sz ≤ kernBase)
    (hn : 0 < n) (hn' : n < 2^31) {r : ℤ × Kernel} (hr : growproc c n s = .ok r) : Honest n s r := by
  have hk : kernBase = 2^31 := by decide
  obtain ⟨newsz,hnew⟩ : ∃ newsz, newsz = ((s.proc.sz+n)%2^32).toNat := ⟨_,rfl⟩
  have hint : (newsz : ℤ) = s.proc.sz+n := by omega
  have hlt : s.proc.sz < newsz := by omega
  -- the bytes that the process will have
  have h₀ : Holds c P (fun a => if a < s.proc.sz then μ a else fun _ => 0) s := h.mono fun a ha => if_pos (hP ha).2
  have hgrow := h₀.grow hP hlt fun b hb => if_neg (not_lt.mpr hb)
  simp only [growproc,if_pos hn,← hnew] at hr
  obtain ⟨⟨sz,s₁⟩,hrun,hr⟩ := bind_eq_ok hr
  obtain ⟨hsame,⟨hzero,h₁⟩ | ⟨hsz₁,h₁⟩⟩ := hgrow.of_ok hrun
  · dsimp only at hzero hr
    rw [if_pos hzero] at hr
    cases hr
    exact ⟨fun h0 => absurd h0 (show ¬ (-1 : ℤ) = 0 by decide),fun _ => ⟨hsame,h₀.userPage_congr h₁⟩⟩
  · dsimp only at hsz₁ hr
    rw [hsz₁,if_neg (by omega)] at hr
    cases hr
    refine ⟨fun _ => ⟨hint,fun a hu => ?_⟩,fun h0 => absurd h0 (show ¬ (0 : ℤ) = -1 by decide)⟩
    have h₂ := h₁.setSz newsz
    change Kernel.userPage {s₁ with proc := {s₁.proc with sz := newsz}} a = if newsz ≤ a then _ else _
    by_cases ha : newsz ≤ a
    · rw [if_pos ha]
      refine h₂.userPage_notMem hu ?_
      rintro (hm | hm)
      · exact absurd (hP hm).2 (by omega)
      · exact absurd hm.1.2 (by omega)
    · rw [if_neg ha]
      by_cases ha' : s.proc.sz ≤ a
      · rw [if_pos ha',h₂.userPage_mem (Or.inr ⟨⟨hu.1,not_le.mp ha⟩,fun hm => absurd hm.2 (not_lt.mpr ha')⟩),
          if_neg (not_lt.mpr ha')]
      · rw [if_neg ha']
        by_cases haP : a ∈ P
        · rw [h₂.userPage_mem (Or.inl haP),h₀.userPage_mem haP]
        · rw [h₀.userPage_notMem hu haP]
          refine h₂.userPage_notMem hu ?_
          rintro (hm | hm)
          · exact haP hm
          · exact hm.2 ⟨hu.1,not_le.mp ha'⟩

theorem Holds.honest_zero (hP : P ⊆ pagesBelow s.proc.sz) : Honest 0 s (0,s) := by
  refine ⟨fun _ => ⟨(Int.add_zero _).symm,fun a hu => ?_⟩,fun h0 => absurd h0 (show ¬ (0 : ℤ) = -1 by decide)⟩
  dsimp only
  by_cases ha : s.proc.sz ≤ a
  · rw [if_pos ha]
    exact h.userPage_notMem hu fun hm => absurd (hP hm).2 (not_lt.mpr ha)
  · rw [if_neg ha,if_neg ha]

theorem Holds.shrunk (hP : P ⊆ pagesBelow s.proc.sz) (hsz : s.proc.sz ≤ kernBase) (newsz : ℕ)
    (hlt : newsz < s.proc.sz) :
    ∃ s', deallocuvm c s.proc.pgdir s.proc.sz newsz s = .ok (newsz,s') ∧ s'.proc.sz = s.proc.sz ∧
      ∀ sz a, UserPage a → Kernel.userPage {s' with proc := {s'.proc with sz := sz}} a =
        if newsz ≤ a then none else s.userPage a := by
  obtain ⟨s',hr,h',honly,-⟩ := h.dealloc (fun a ha => (hP ha).2) hsz hlt
  have hround := pagesBelow_roundUp (hlt.le.trans hsz)
  refine ⟨s',hr,by rw [honly.proc],fun sz a hu => ?_⟩
  have h₂ := h'.setSz sz
  have hiff : a < pgRoundUp newsz ↔ a < newsz := by
    have hmem : a ∈ pagesBelow (pgRoundUp newsz) ↔ a ∈ pagesBelow newsz := by rw [hround]
    exact ⟨fun hm => (hmem.mp ⟨hu.1,hm⟩).2,fun hm => (hmem.mpr ⟨hu.1,hm⟩).2⟩
  by_cases ha : newsz ≤ a
  · rw [if_pos ha]
    exact h₂.userPage_notMem hu fun hm => absurd (hiff.mp hm.2) (not_lt.mpr ha)
  · rw [if_neg ha]
    by_cases haP : a ∈ P
    · rw [h.userPage_mem haP,h₂.userPage_mem ⟨haP,hiff.mpr (not_le.mp ha)⟩]
    · rw [h.userPage_notMem hu haP]
      exact h₂.userPage_notMem hu fun hm => haP hm.1

theorem Holds.honest_shrink (hP : P ⊆ pagesBelow s.proc.sz) (hsz : s.proc.sz ≤ kernBase)
    (hn : n < 0) (hn' : -(s.proc.sz : ℤ) < n) {r : ℤ × Kernel} (hr : growproc c n s = .ok r) : Honest n s r := by
  have hk : kernBase = 2^31 := by decide
  obtain ⟨newsz,hnew⟩ : ∃ newsz, newsz = ((s.proc.sz+n)%2^32).toNat := ⟨_,rfl⟩
  have hint : (newsz : ℤ) = s.proc.sz+n := by omega
  obtain ⟨s',hrun,-,hpages⟩ := h.shrunk hP hsz newsz (by omega)
  simp only [growproc,if_neg (not_lt.mpr hn.le),if_pos hn,← hnew,hrun,bind,Except.bind] at hr
  rw [if_neg (by omega)] at hr
  cases hr
  refine ⟨fun _ => ⟨hint,fun a hu => ?_⟩,fun h0 => absurd h0 (show ¬ (0 : ℤ) = -1 by decide)⟩
  change Kernel.userPage {s' with proc := {s'.proc with sz := newsz}} a = if newsz ≤ a then _ else _
  rw [hpages newsz a hu]
  by_cases ha : newsz ≤ a
  · rw [if_pos ha,if_pos ha]
  · rw [if_neg ha,if_neg ha,if_neg (by omega)]

end

end Growproc

/-- `growproc` is honest exactly if it does not take away all memory of the process or more, unless there
are no pages. -/
theorem growproc_honest_iff {c : Config} {P : Set ℕ} {μ : ℕ → Page} {s : Kernel} {n : ℤ} (h : Holds c P μ s)
    (hP : P ⊆ pagesBelow s.proc.sz) (hsz : s.proc.sz ≤ kernBase) (hn : -2^31 ≤ n) (hn' : n < 2^31) :
    (∀ r, growproc c n s = .ok r → Honest n s r) ↔
      -(s.proc.sz : ℤ) < n ∨ s.proc.sz = 0 ∨ n = -(s.proc.sz : ℤ) ∧ P = ∅ := by
  have hk : kernBase = 2^31 := by decide
  by_cases hpos : 0 < n
  · exact ⟨fun _ => Or.inl (by omega),fun _ _ hr => h.honest_growth hP hsz hpos hn' hr⟩
  by_cases hzero : n = 0
  · refine ⟨fun _ => by omega,fun _ r hr => ?_⟩
    subst hzero
    cases hr
    exact h.honest_zero hP
  have hneg : n < 0 := by omega
  obtain ⟨newsz,hnew⟩ : ∃ newsz, newsz = ((s.proc.sz+n)%2^32).toNat := ⟨_,rfl⟩
  have hdef : growproc c n s = (deallocuvm c s.proc.pgdir s.proc.sz newsz s >>= fun x =>
      if x.1 = 0 then .ok (-1,x.2) else .ok (0,{x.2 with proc := {x.2.proc with sz := x.1}})) := by
    simp only [growproc,if_neg hpos,if_pos hneg,← hnew]
    rfl
  rcases lt_trichotomy (-(s.proc.sz : ℤ)) n with hlt | heq | hgt
  · exact ⟨fun _ => Or.inl hlt,fun _ r hr => h.honest_shrink hP hsz hneg hlt hr⟩
  · -- everything is freed and -1 returned
    have hnz : newsz = 0 := by omega
    obtain ⟨s',hrun,hsz',hpages⟩ := h.shrunk hP hsz 0 (by omega)
    rw [hnz,hrun] at hdef
    have hgone (a : ℕ) (hu : UserPage a) : s'.userPage a = none := (hpages s'.proc.sz a hu).trans (if_pos (Nat.zero_le a))
    constructor
    · intro hall
      have hkept := ((hall _ hdef).undone rfl).2
      refine Or.inr (Or.inr ⟨heq.symm,Set.eq_empty_iff_forall_notMem.mpr fun a ha => ?_⟩)
      have hpage := hkept a (h.user ha)
      rw [h.userPage_mem ha] at hpage
      cases hpage.symm.trans (hgone a (h.user ha))
    · rintro (hlt | hz | ⟨-,rfl⟩)
      · omega
      · omega
      · intro r hr
        cases hdef.symm.trans hr
        refine ⟨fun h0 => absurd h0 (show ¬ (-1 : ℤ) = 0 by decide),fun _ => ⟨hsz',fun a hu => ?_⟩⟩
        exact (hgone a hu).trans (h.userPage_notMem hu (Set.notMem_empty a)).symm
  · -- the new size wraps around, and `deallocuvm` returns the old one
    have hle : s.proc.sz ≤ newsz := by omega
    rw [deallocuvm,if_pos hle] at hdef
    by_cases hz : s.proc.sz = 0
    · have hres : growproc c n s = .ok (-1,s) := hdef.trans (if_pos hz)
      refine ⟨fun _ => Or.inr (Or.inl hz),fun _ r hr => ?_⟩
      cases hres.symm.trans hr
      exact ⟨fun h0 => absurd h0 (show ¬ (-1 : ℤ) = 0 by decide),fun _ => ⟨rfl,fun _ _ => rfl⟩⟩
    · have hres : growproc c n s = .ok (0,s) := hdef.trans (if_neg hz)
      constructor
      · intro hall
        have hsize : (s.proc.sz : ℤ) = s.proc.sz+n := ((hall _ hres).done rfl).1
        omega
      · omega

theorem Consistent.holds {c : Config} {Y : Set ℕ} {μ : ℕ → Page} {α : ℕ → Bool → Bool} {s : Kernel}
    (h : Consistent c Y μ α s) (hb : c.build ≠ .none)
    (htop : pteAddr (s.pte s.proc.pgdir (vpn (2^32-1))) ∉ c.frames) : Holds c (s.proc.pages.listed ∪ Y) μ s := by
  have hns : ∀ a ∈ s.proc.pages.residents ∪ Y, a ∉ s.proc.pages.swapped := by
    rintro a ha ⟨i,hi⟩
    exact h.not_resident hi ha
  have hZ : (s.proc.pages.listed ∪ Y) \ s.proc.pages.swapped = s.proc.pages.residents ∪ Y := by
    ext a
    constructor
    · rintro ⟨(hr | hs) | hY,hn⟩
      · exact Or.inl hr
      · exact (hn hs).elim
      · exact Or.inr hY
    · rintro (hr | hY)
      · exact ⟨Or.inl (Or.inl hr),hns a (Or.inl hr)⟩
      · exact ⟨Or.inr hY,hns a (Or.inr hY)⟩
  refine ⟨?_,fun i a hi => ?_,fun i a hi => ⟨Or.inl (Or.inr ⟨i,hi⟩),h.swapped i a hi⟩,h.once,
    fun hn => (hb hn).elim,htop⟩
  · rw [hZ]
    exact h.space.mono (fun _ _ => rfl) fun _ _ _ hst => absurd hst Bool.false_ne_true
  · rw [hZ]
    exact Or.inl ⟨i,hi⟩

theorem holds_fullProcess : Holds (sampleConfig .nfua) (pagesBelow (16*pgSize)) (fun _ _ => 0)
    (fullProcess .nfua fun _ => userPerm) := by
  have hp : Paged (sampleConfig .nfua) (fullMemory fun _ => userPerm) (fullProcess .nfua fun _ => userPerm) :=
    full_paged .nfua fun _ => by decide
  have htop : pteAddr ((fullProcess .nfua fun _ => userPerm).pte 0x200 (vpn (2^32-1))) = 0 := by decide +kernel
  have hh := hp.consistent.holds (by decide) (by
    change pteAddr ((fullProcess .nfua fun _ => userPerm).pte 0x200 (vpn (2^32-1))) ∉ _
    rw [htop]
    rintro ⟨h1,-⟩
    exact absurd h1 (by decide))
  rw [Set.union_empty,hp.listed] at hh
  exact hh

/-- The process of sixteen pages, grown by a page, for which one of its own has to leave memory. -/
theorem growproc_honest_fullProcess : -((fullProcess .nfua fun _ => userPerm).proc.sz : ℤ) < 4096 ∧
    ∀ r, growproc (sampleConfig .nfua) 4096 (fullProcess .nfua fun _ => userPerm) = .ok r →
      Honest 4096 (fullProcess .nfua fun _ => userPerm) r := by
  have hn : -((fullProcess .nfua fun _ => userPerm).proc.sz : ℤ) < 4096 := by decide
  exact ⟨hn,(growproc_honest_iff holds_fullProcess subset_rfl (by decide) (by decide) (by decide)).mpr (Or.inl hn)⟩

def onePage : Kernel :=
  Kernel.wired 1 (fun _ => userPerm) [] {ProcPages.init .lapa with
    va := Function.update (fun _ => none) 0 (some 0)
    pagesInMemoryCounter := 1}

/-- Taking away all memory frees the page and returns -1, and taking away more returns 0 and leaves
the size as it was. -/
theorem growproc_dishonest_onePage :
    (∃ s, growproc (sampleConfig .lapa) (-4096) onePage = .ok (-1,s) ∧ onePage.userPage 0 ≠ none ∧
      s.userPage 0 = none) ∧
    ∃ s, growproc (sampleConfig .lapa) (-8192) onePage = .ok (0,s) ∧ s.proc.sz = onePage.proc.sz := by
  have hall : ((growproc (sampleConfig .lapa) (-4096) onePage).toOption.map fun r =>
      decide (r.1 = -1) && (onePage.userPage 0).isSome && (r.2.userPage 0).isNone) = some true := by decide +kernel
  have hmore : ((growproc (sampleConfig .lapa) (-8192) onePage).toOption.map fun r =>
      decide (r.1 = 0) && decide (r.2.proc.sz = onePage.proc.sz)) = some true := by decide +kernel
  obtain ⟨⟨r,s⟩,hr,htest⟩ := exists_eq_ok hall
  obtain ⟨⟨r',s'⟩,hr',htest'⟩ := exists_eq_ok hmore
  simp only [Bool.and_eq_true,decide_eq_true_eq,Option.isNone_iff_eq_none] at htest
  simp only [Bool.and_eq_true,decide_eq_true_eq] at htest'
  obtain ⟨⟨rfl,hsome⟩,hnone⟩ := htest
  obtain ⟨rfl,hsz⟩ := htest'
  exact ⟨⟨s,hr,Option.isSome_iff_ne_none.mp hsome,hnone⟩,s',hr',hsz⟩

end Xv6Paging
