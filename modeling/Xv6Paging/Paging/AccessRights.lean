import Xv6Paging.Library.Runs
import Xv6Paging.Paging.FaultSafety
import Xv6Paging.Paging.Transparency

/-! # Access rights

`insert_to_disk` overwrites the entry of the page that it moves to the swap file with `PTE_W|PTE_U|PTE_PG`, and
`fixPagedInPTE` sets `PTE_U` for the page that it brings back. So growth keeps the rights of the pages of a process
exactly if it evicts only pages that the user may access, and a page fault if it brings in only such pages.
-/
namespace Xv6Paging
open WordPage PageTree Function

def Kernel.userBit (s : Kernel) (a : ℕ) : Bool := has (s.pte s.proc.pgdir (vpn a)) pteU

/-! ## Growth -/

/-- The entries differ in the access bit at most. -/
def Unchanged (w w' : Word) : Prop := ∀ i < 32, i ≠ 5 → w'.getLsbD i = w.getLsbD i

structure Evicted (w w' : Word) : Prop where
  before : has w pteP = true
  user : has w' pteU = true
  flag : has w' ptePG = true
  absent : has w' pteP = false

abbrev pagesAbove (lo : ℕ) : Set Index := pagesFrom lo (2^32)

/-- Outside `N` pages have been evicted, which are in `V`, and nothing else has happened. -/
structure Grew (N V : Set Index) (s s' : Kernel) : Prop where
  pgdir : s'.proc.pgdir = s.proc.pgdir
  size : s'.proc.sz = s.proc.sz
  entry : ∀ k ∉ N, Unchanged (s.pte s.proc.pgdir k) (s'.pte s.proc.pgdir k) ∨
    Evicted (s.pte s.proc.pgdir k) (s'.pte s.proc.pgdir k) ∧ k ∈ V

section Grew
variable {c : Config} {N V N' V' : Set Index} {s s₁ s' : Kernel} {w w' w'' : Word} {k : Index}

theorem Unchanged.user (h : Unchanged w w') : has w' pteU = has w pteU := by
  rw [has_pteU,has_pteU,h 2 (by decide) (by decide)]

theorem Unchanged.present (h : Unchanged w w') : has w' pteP = has w pteP := by
  rw [has_pteP,has_pteP,h 0 (by decide) (by decide)]

theorem Unchanged.flag (h : Unchanged w w') : has w' ptePG = has w ptePG := by
  rw [has_ptePG,has_ptePG,h 9 (by decide) (by decide)]

theorem Grew.of_pte (hdir : s'.proc.pgdir = s.proc.pgdir) (hsz : s'.proc.sz = s.proc.sz)
    (hpte : ∀ k ∉ N, s'.pte s.proc.pgdir k = s.pte s.proc.pgdir k) : Grew N V s s' :=
  ⟨hdir,hsz,fun k hk => Or.inl fun i _ _ => by rw [hpte k hk]⟩

theorem Grew.refl (s : Kernel) : Grew N V s s := .of_pte rfl rfl fun _ _ => rfl

theorem Grew.mono (h : Grew N V s s') (hN : N ⊆ N') (hV : V ⊆ V' ∪ N') : Grew N' V' s s' := by
  refine ⟨h.pgdir,h.size,fun k hk => ?_⟩
  rcases h.entry k fun hm => hk (hN hm) with he | ⟨he,hv⟩
  · exact Or.inl he
  · exact Or.inr ⟨he,(hV hv).resolve_right hk⟩

theorem Grew.trans (h : Grew N V s s₁) (h' : Grew N V s₁ s') : Grew N V s s' := by
  refine ⟨h'.pgdir.trans h.pgdir,h'.size.trans h.size,fun k hk => ?_⟩
  have hmid := h'.entry k hk
  rw [h.pgdir] at hmid
  rcases h.entry k hk with h₁ | ⟨h₁,hv⟩ <;> rcases hmid with h₂ | ⟨h₂,hv₂⟩
  · exact Or.inl fun i hi h5 => (h₂ i hi h5).trans (h₁ i hi h5)
  · exact Or.inr ⟨⟨h₁.present ▸ h₂.before,h₂.user,h₂.flag,h₂.absent⟩,hv₂⟩
  · exact Or.inr ⟨⟨h₁.before,h₂.user.trans h₁.user,h₂.flag.trans h₁.flag,h₂.present.trans h₁.absent⟩,hv⟩
  · -- a page that is not present is not evicted again
    have hP := h₂.before
    rw [h₁.absent] at hP
    cases hP

theorem Grew.of_cleared (h : Cleared c {s.proc.pgdir} s.proc.pgdir s s') : Grew N V s s' :=
  ⟨by rw [h.only.proc],by rw [h.only.proc],fun _ _ => Or.inl fun _ hi h5 => h.bit rfl hi h5⟩

end Grew

section Pages
variable {c : Config} {s s' : Kernel} {a oldsz newsz : ℕ} {i j tmp : Slot} {f : Frame} {N V : Set Index}

theorem Described.released (hb : c.build ≠ .none) (h : Described c s) (hlt : oldsz < newsz) (hsz : newsz ≤ kernBase) {n : ℕ}
    (hrun : deallocuvm c s.proc.pgdir newsz oldsz s = .ok (n,s')) :
    ∃ e, newsz ≤ e ∧ Released c {s.proc.pgdir} s.proc.pgdir (pgRoundUp oldsz) newsz s e s' ∧
      ∀ i a, s'.proc.pages.va i = some a → s.proc.pages.va i = some a ∧ (pgRoundUp oldsz ≤ a → e ≤ a) := by
  have hspec := deallocuvm_spec (E := fun _ => True) (M := fun e p => ∀ i a, p.va i = some a →
    s.proc.pages.va i = some a ∧ (pgRoundUp oldsz ≤ a → e ≤ a)) h.wf rfl hsz hlt ?_ fun i a hi => ⟨hi,id⟩
  · exact (hspec.of_ok hrun).2
  · intro b p hdvd _ _ _ hp
    unfold checkFound
    split_ifs
    · exact .error trivial
    · refine .ok fun i a hi => ?_
      obtain ⟨hs,hle⟩ := hp i a (forgetPage_va i hi)
      refine ⟨hs,fun hlo => ?_⟩
      obtain ⟨hu,hP⟩ := h.resident i a hs
      have hne : a ≠ b := by
        rintro rfl
        simp only [forgetPage,if_neg hb,hP,if_true] at hi
        exact forgetResident_va_ne _ _ _ _ i hi
      have hba := hle hlo
      obtain ⟨q,rfl⟩ := hdvd
      obtain ⟨q',rfl⟩ := hu.1
      simp only [pgSize] at hne hba ⊢
      omega

theorem Described.dealloc (hb : c.build ≠ .none) (h : Described c s) (hlt : oldsz < newsz) (hsz : newsz ≤ kernBase) {n : ℕ}
    (hrun : deallocuvm c s.proc.pgdir newsz oldsz s = .ok (n,s')) :
    Described c s' ∧ Grew (pagesAbove (pgRoundUp oldsz)) V s s' ∧
      ∀ f, FreshFrame c {s.proc.pgdir} s f → FreshFrame c {s.proc.pgdir} s' f := by
  obtain ⟨e,he,hrel,hva⟩ := h.released hb hlt hsz hrun
  have hk : kernBase < 2^32 := by decide
  have hdir : s'.proc.pgdir = s.proc.pgdir := by rw [hrel.only.proc]
  have hsame : ∀ k, (∀ b, pgRoundUp oldsz ≤ b → b < e → b < newsz → k ≠ vpn b) →
      s'.pte s.proc.pgdir k = s.pte s.proc.pgdir k := by
    intro k hk'
    refine hrel.same.entry _ rfl k ?_
    rintro ⟨-,b,h1,h2,h3,hkb⟩
    exact hk' b h1 h2 h3 hkb
  have hin : ∀ a, s'.inFile a = true → s'.pte s.proc.pgdir (vpn a) = s.pte s.proc.pgdir (vpn a) := by
    intro a ha
    refine hsame _ fun b h1 h2 h3 hkb => ?_
    rw [Kernel.inFile,hdir,hkb,hrel.gone b h1 h2 h3,erased] at ha
    split_ifs at ha with hflag
    · cases ha
    · obtain ⟨-,hg⟩ := not_or.mp hflag
      rw [Bool.and_eq_true] at ha
      exact hg ⟨hb,ha.1⟩
  have hin' : ∀ a, s'.inFile a = true → s.inFile a = true := by
    intro a ha
    have hent := hin a ha
    rw [Kernel.inFile,hdir,hent] at ha
    exact ha
  have huser : ∀ b, b < newsz → x86.own (vpn b) = true := fun b hb' => (own_iff (by omega)).mpr (by omega)
  refine ⟨⟨hdir ▸ hrel.wf,fun i a hi => ?_,fun i j a hi hj => h.once i j a (hva i a hi).1 (hva j a hj).1,fun a ha => ?_,
    fun a hka hlt' => ?_,?_⟩,⟨hdir,by rw [hrel.only.proc],fun k hN => Or.inl fun i _ _ => ?_⟩,hrel.fresh⟩
  · obtain ⟨hs,hle⟩ := hva i a hi
    obtain ⟨hu,hP⟩ := h.resident i a hs
    rw [hdir,hsame]
    · exact ⟨hu,hP⟩
    · intro b h1 h2 h3 hkb
      have hq := (vpn_inj hu.lt (by omega)).mp hkb
      obtain ⟨q,rfl⟩ := hu.1
      obtain ⟨q',hq'⟩ := pgSize_dvd_pgRoundUp oldsz
      have hle' := hle
      simp only [pgSize] at hq hq' hle'
      omega
  · rw [hdir,hin a ha]
    exact h.clean a (hin' a ha)
  · by_contra hne
    have hbad := hin' a (by simpa using hne)
    rw [h.kernel a hka hlt'] at hbad
    cases hbad
  · rw [hdir,hsame]
    · exact h.top
    · intro b _ _ h3 hkb
      have ho := huser b h3
      rw [← hkb] at ho
      revert ho
      decide
  · rw [hsame k fun b h1 _ h3 hkb => hN ⟨b,h1,by omega,hkb⟩]

end Pages

section Grow
variable {c : Config} {s s₀ s₁ s' : Kernel} {a oldsz newsz : ℕ} {i j tmp : Slot} {f : Frame} {N V : Set Index}

theorem Described.newPage (hb : c.build ≠ .none) (h : Described c s) (hu : UserPage a) (hlo : pgRoundUp oldsz ≤ a)
    (hold : oldsz ≤ pgRoundUp oldsz) (hlt : a < newsz) (hsz : newsz ≤ kernBase) {r : ℤ}
    (hrun : allocPage c s.proc.pgdir oldsz newsz a s = .ok (r,s')) :
    Described c s' ∧ Grew (pagesAbove (pgRoundUp oldsz)) V s s' ∧ (r ≠ 0 → s'.proc = s.proc ∧
      has (s'.pte s.proc.pgdir (vpn a)) pteP = true ∧ ∀ i, s.proc.pages.va i ≠ some a) := by
  obtain ⟨o,q,hq,-,he⟩ | ⟨f,q,t,s₁,hq,ho,he⟩ := allocPage_cases oldsz newsz h.wf rfl hu
  · rw [he] at hrun
    obtain ⟨⟨n,s₁⟩,hdealloc,hrun⟩ := bind_eq_ok hrun
    obtain ⟨hproc,-⟩ := hq.rest
    have hdir : q.starve.proc.pgdir = s.proc.pgdir := congrArg Proc.pgdir hproc
    have hpte : ∀ k, q.starve.pte s.proc.pgdir k = s.pte s.proc.pgdir k := fun k =>
      hq.same.entry _ rfl k (Set.notMem_empty _)
    have h₁ : Described c q.starve := h.of_pte hq.wf hdir (fun i x hi => by rwa [← hproc]) hpte
    rw [← hdir] at hdealloc
    obtain ⟨h₂,hgrew₂,hfresh⟩ := h₁.dealloc (V := V) hb (show oldsz < newsz by omega) hsz hdealloc
    have hgrew := (Grew.of_pte hdir (congrArg Proc.sz hproc) fun k _ => hpte k).trans hgrew₂
    have hback : ∀ f ∈ o, FreshFrame c {s₁.proc.pgdir} s₁ f := by
      rw [hgrew.pgdir,← hdir]
      intro f hf
      exact hfresh f (hdir.symm ▸ (hq.fresh f hf).1)
    rw [putBack_eq hback] at hrun
    cases hrun
    obtain ⟨hwf,hsame,-⟩ := h₂.wf.giveBack hback
    obtain ⟨hproc',-⟩ := giveBack_rest s₁ o
    have hpte' : ∀ k, (s₁.giveBack o).pte s₁.proc.pgdir k = s₁.pte s₁.proc.pgdir k := fun k =>
      hsame.entry _ rfl k (Set.notMem_empty _)
    exact ⟨h₂.of_pte hwf (by rw [hproc']) (fun i x hi => by rwa [← hproc']) hpte',
      hgrew.trans (.of_pte (by rw [hproc']) (by rw [hproc']) fun k _ => hpte' k),fun h0 => absurd rfl h0⟩
  · rw [he] at hrun
    split_ifs at hrun with habsent
    obtain ⟨rfl,rfl⟩ := Prod.mk.inj (Except.ok.inj hrun)
    obtain ⟨hw,hproc,hself,hother,-⟩ := hq.entries ho rfl rfl
    generalize s₁.setPte s.proc.pgdir (vpn a) (frameAddr f ||| userPerm ||| pteP) = s' at *
    have hent : s'.pte s.proc.pgdir = update (s.pte s.proc.pgdir) (vpn a) (frameAddr f ||| userPerm ||| pteP) := by
      funext k
      by_cases hk : k = vpn a
      · rw [hk,update_self,hself]
      · rw [update_of_ne hk]
        exact hother _ rfl k fun he => hk (Prod.mk.inj he).2
    have hnot : ∀ i, s.proc.pages.va i ≠ some a := fun i hi => habsent (h.resident i a hi).2
    have hP := has_mapped f userPerm
    refine ⟨h.setEntry hu hw (by rw [hproc]) hent (fun _ hP' => ?_) (fun i x hi => ?_) ?_,?_,fun _ => ⟨hproc,?_,hnot⟩⟩
    · rw [hP] at hP'
      cases hP'
    · rw [hproc] at hi
      refine Or.inr ⟨?_,hi⟩
      rintro rfl
      exact hnot i hi
    · rw [hproc]
      exact h.once
    · refine .of_pte (by rw [hproc]) (by rw [hproc]) fun k hk => ?_
      rw [hent,update_of_ne]
      rintro rfl
      exact hk ⟨a,hlo,hu.lt,rfl⟩
    · rw [hself]
      exact hP

theorem Described.evict (h : Described c s) (hrun : insertToDisk c i tmp s = .ok s') :
    ∃ v, s.proc.pages.va tmp = some v ∧ Described c s' ∧ Grew ∅ {vpn v} s s' ∧
      s'.proc.pages.va = update s.proc.pages.va tmp none := by
  have hlists : s.proc.pages.listsUser := fun i a hi => (h.resident i a hi).1.2
  obtain ⟨v,t,q,hv,hp,ht,-,hqd,hqsz,hqva,-,rfl⟩ := insertToDisk_run h.top hlists hrun
  have hu := (h.resident tmp v hv).1
  have hw := h.wf.unmap rfl hu.own hp (show has (pteW ||| pteU ||| ptePG) pteP = false by decide)
  have hcomm := free_setPte_comm (w := pteW ||| pteU ||| ptePG) h.wf rfl hu.own hp ht
  have hent := h.wf.unmap_entries hu.own hp (show has (pteW ||| pteU ||| ptePG) pteP = false by decide)
  obtain ⟨hwf,-⟩ := hw.2.free (A := ∅) hw.1
  generalize hr : ({s with proc := {q with pages := q.pages.vacate tmp}}.free
    (pteAddr (s.pte s.proc.pgdir (vpn v)))).writePte (t,ptx v) (pteW ||| pteU ||| ptePG) = r
  have hmem : r.mem = ((s.setPte s.proc.pgdir (vpn v) (pteW ||| pteU ||| ptePG)).free
      (pteAddr (s.pte s.proc.pgdir (vpn v)))).mem := by
    rw [← hr,← hcomm]
    rfl
  have hfl : r.freelist = ((s.setPte s.proc.pgdir (vpn v) (pteW ||| pteU ||| ptePG)).free
      (pteAddr (s.pte s.proc.pgdir (vpn v)))).freelist := by
    rw [← hr,← hcomm]
    rfl
  have hproc : r.proc = {q with pages := q.pages.vacate tmp} := by
    rw [← hr]
    rfl
  have hva : r.proc.pages.va = update s.proc.pages.va tmp none := by
    rw [hproc,← hqva]
    rfl
  have hdir : r.proc.pgdir = s.proc.pgdir := by
    rw [hproc]
    exact hqd
  have hpte : r.pte s.proc.pgdir = _ := (congrArg (fun m => x86.entry m s.proc.pgdir) hmem).trans hent
  refine ⟨v,hv,h.setEntry hu ?_ hdir hpte (fun _ _ => by decide) (fun i x hi => ?_) (fun i j x hi hj => ?_),
    ⟨hdir,?_,fun k _ => ?_⟩,hva⟩
  · rw [Wf,hmem,hfl]
    exact hwf
  · rw [hva] at hi
    obtain ⟨hne,hx⟩ := update_none_eq_some.mp hi
    refine Or.inr ⟨?_,hx⟩
    rintro rfl
    exact hne (h.once i tmp x hx hv)
  · rw [hva] at hi hj
    exact h.once i j x (update_none_eq_some.mp hi).2 (update_none_eq_some.mp hj).2
  · rw [hproc]
    exact hqsz
  · rw [hpte]
    by_cases hk : k = vpn v
    · rw [hk,update_self]
      exact Or.inr ⟨⟨hp,by decide,by decide,by decide⟩,rfl⟩
    · rw [update_of_ne hk]
      exact Or.inl fun _ _ _ => rfl

theorem Described.makeRoom (h : Described c s) (hrun : moveramToDisk c s = .ok s') :
    ∃ tmp v, s.proc.pages.va tmp = some v ∧ (c.build = .aq → s.userBit v = true) ∧ Described c s' ∧ Grew ∅ {vpn v} s s' ∧
      s'.proc.pages.va = update s.proc.pages.va tmp none := by
  unfold moveramToDisk at hrun
  split at hrun
  · cases hrun
  · split_ifs at hrun
    obtain ⟨⟨tmp,s₁⟩,hsel,hrun⟩ := bind_eq_ok hrun
    obtain ⟨hc,hlinks⟩ := (selectPageToRemove_keeps c.build h.wf rfl).of_ok hsel
    have hva : s₁.proc.pages.va = s.proc.pages.va := by rw [hlinks]
    obtain ⟨h₁,-⟩ := h.congr s₁ hc.wf (by rw [hc.only.proc]) (fun i a hi => hva ▸ hi) (fun k i hi h5 => hc.bit rfl hi h5)
      fun k => hc.pteAddr rfl
    obtain ⟨v,hv,hdesc,hgrew,hva'⟩ := h₁.evict hrun
    rw [hva] at hv hva'
    refine ⟨tmp,v,hv,fun haq => ?_,hdesc,(Grew.of_cleared hc).trans hgrew,hva'⟩
    rw [haq] at hsel
    obtain ⟨⟨w,p⟩,halg,hret⟩ := bind_eq_ok hsel
    cases hret
    have huser := (getUserBit_cases _ s).1.mp (aqAlg_userBit halg)
    rw [hv] at huser
    exact huser

theorem Described.listed {p : ProcPages} (h : Described c s) (hu : UserPage a) (hP : has (s.pte s.proc.pgdir (vpn a)) pteP = true)
    (hnot : ∀ i, s.proc.pages.va i ≠ some a) (hl : ListedIn s.proc.pages j a p) : Described c (s.setPages p) := by
  have hcase : ∀ i x, p.va i = some x → i = j ∧ x = a ∨ i ≠ j ∧ s.proc.pages.va i = some x := by
    intro i x hi
    rw [hl.va,update_apply] at hi
    split_ifs at hi with hij
    · exact Or.inl ⟨hij,(Option.some.inj hi).symm⟩
    · exact Or.inr ⟨hij,hi⟩
  refine ⟨h.wf,fun i x hi => ?_,fun i k x hi hk => ?_,h.clean,h.kernel,h.top⟩
  · rcases hcase i x hi with ⟨-,rfl⟩ | ⟨-,hx⟩
    · exact ⟨hu,hP⟩
    · exact h.resident i x hx
  · rcases hcase i x hi with ⟨rfl,rfl⟩ | ⟨-,hx⟩ <;> rcases hcase k _ hk with ⟨rfl,hxa⟩ | ⟨-,hx'⟩
    · rfl
    · exact (hnot k hx').elim
    · exact (hnot i (hxa ▸ hx)).elim
    · exact h.once i k x hx hx'

end Grow

/-- What `listPage` does for the page at `a`: the page is listed, and if memory was full a page has been evicted. -/
structure NowListed (c : Config) (a : ℕ) (s s' : Kernel) : Prop where
  described : Described c s'
  lists : ∀ i b, s'.proc.pages.va i = some b → b = a ∨ s.proc.pages.va i = some b
  grew : s.proc.pages.pagesInMemoryCounter < maxPsycPages ∧
      s'.proc.pages.pagesInMemoryCounter = s.proc.pages.pagesInMemoryCounter+1 ∧ Grew ∅ ∅ s s' ∨
    (maxPsycPages : ℤ) ≤ s.proc.pages.pagesInMemoryCounter ∧ ∃ tmp v, s.proc.pages.va tmp = some v ∧
      (c.build = .aq → s.userBit v = true) ∧ Grew ∅ {vpn v} s s'

section List
variable {c : Config} {s s₀ s₁ s' : Kernel} {a oldsz newsz : ℕ} {V : Set Index}

theorem Described.list (h : Described c s) (hu : UserPage a) (hP : has (s.pte s.proc.pgdir (vpn a)) pteP = true)
    (hnot : ∀ i, s.proc.pages.va i ≠ some a) (hrun : listPage c a s = .ok s') : NowListed c a s s' := by
  have hlists : ∀ {p p' : ProcPages} {j : Slot}, ListedIn p j a p' → ∀ i b, p'.va i = some b → b = a ∨ p.va i = some b := by
    intro p p' j hl i b hi
    rw [hl.va,update_apply] at hi
    split_ifs at hi
    · exact Or.inl (Option.some.inj hi).symm
    · exact Or.inr hi
  obtain ⟨s₁,j,pages,hupd,rfl,⟨hfull,hmove⟩ | ⟨hroom,rfl⟩⟩ := listPage_run hrun
  · have hl := updateMemory_listedIn hupd
    obtain ⟨tmp,v,hv,haq,h₁,hgrew,hva⟩ := h.makeRoom hmove
    have hsub : ∀ i b, s₁.proc.pages.va i = some b → s.proc.pages.va i = some b := by
      intro i b hi
      rw [hva] at hi
      exact (update_none_eq_some.mp hi).2
    have hne : vpn a ≠ vpn v := by
      refine (h.resident tmp v hv).1.vpn_ne hu ?_
      rintro rfl
      exact hnot tmp hv
    have hP₁ : has (s₁.pte s₁.proc.pgdir (vpn a)) pteP = true := by
      rw [hgrew.pgdir]
      rcases hgrew.entry (vpn a) (Set.notMem_empty _) with he | ⟨-,hmem⟩
      · rw [he.present]
        exact hP
      · exact (hne hmem).elim
    refine ⟨h₁.listed hu hP₁ (fun i hi => hnot i (hsub i a hi)) hl,fun i b hi => (hlists hl i b hi).imp id (hsub i b),
      Or.inr ⟨hfull,tmp,v,hv,haq,hgrew.pgdir,hgrew.size,hgrew.entry⟩⟩
  · have hl := updateMemory_listedIn hupd
    exact ⟨h.listed hu hP hnot hl,hlists hl,Or.inl ⟨hroom,hl.count,.of_pte rfl rfl fun _ _ => rfl⟩⟩

theorem growLoop_grew {I : ℕ → ProcPages → Prop} {list : ℕ → Kernel → Except Fault Kernel} (hb : c.build ≠ .none)
    (hsz : newsz ≤ kernBase) (hold : oldsz ≤ pgRoundUp oldsz)
    (hlist : ∀ a s s', UserPage a → pgRoundUp oldsz ≤ a → a < newsz → Described c s →
      Grew (pagesAbove (pgRoundUp oldsz)) V s₀ s → I a s.proc.pages → has (s.pte s.proc.pgdir (vpn a)) pteP = true →
      (∀ i, s.proc.pages.va i ≠ some a) → list a s = .ok s' →
      Described c s' ∧ Grew (pagesAbove (pgRoundUp oldsz)) V s s' ∧ I (a+pgSize) s'.proc.pages)
    (fuel : ℕ) (h : Described c s) (hgrew : Grew (pagesAbove (pgRoundUp oldsz)) V s₀ s) (hI : I a s.proc.pages)
    (hal : pgSize ∣ a) (hlo : pgRoundUp oldsz ≤ a) {r : ℕ × Kernel}
    (hrun : growLoop c list s₀.proc.pgdir oldsz newsz fuel a s = .ok r) :
    Described c r.2 ∧ Grew (pagesAbove (pgRoundUp oldsz)) V s₀ r.2 ∧ (r.1 = 0 ∨ r.1 = newsz) := by
  induction fuel generalizing a s with
  | zero => cases hrun
  | succ fuel ih =>
    rw [growLoop] at hrun
    by_cases hlt : a < newsz
    · have hu : UserPage a := ⟨hal,by omega⟩
      rw [if_pos hlt,← hgrew.pgdir] at hrun
      obtain ⟨⟨r₁,s₁⟩,hpage,hrun⟩ := bind_eq_ok hrun
      obtain ⟨h₁,hgrew₁,hnew⟩ := h.newPage (V := V) hb hu hlo hold hlt hsz hpage
      dsimp only at hrun
      by_cases h0 : r₁ = 0
      · rw [if_pos h0] at hrun
        cases hrun
        exact ⟨h₁,hgrew.trans hgrew₁,Or.inl rfl⟩
      · rw [if_neg h0] at hrun
        obtain ⟨s₂,hl,hrun⟩ := bind_eq_ok hrun
        obtain ⟨hproc,hP,hnot⟩ := hnew h0
        obtain ⟨h₂,hgrew₂,hI₂⟩ := hlist a s₁ s₂ hu hlo hlt h₁ (hgrew.trans hgrew₁) (hproc ▸ hI) (hproc ▸ hP)
          (hproc ▸ hnot) hl
        rw [hgrew.pgdir] at hrun
        exact ih h₂ ((hgrew.trans hgrew₁).trans hgrew₂) hI₂ (Nat.dvd_add hal (Nat.dvd_refl _)) (by omega) hrun
    · rw [if_neg hlt] at hrun
      cases hrun
      exact ⟨h,hgrew,Or.inr rfl⟩

end List

def Proc.grownSize (p : Proc) (n : ℤ) : ℕ := ((p.sz+n)%2^32).toNat

/-- The pages that growth can evict are in `V`, or they lie beyond the old size. `I` is an invariant of the page arrays. -/
structure Victims (c : Config) (s₀ : Kernel) (newsz : ℕ) (V : Set Index) (I : ℕ → ProcPages → Prop) : Prop where
  start : I (pgRoundUp s₀.proc.sz) s₀.proc.pages
  step : ∀ a s s', UserPage a → pgRoundUp s₀.proc.sz ≤ a → a < newsz → Described c s →
    Grew (pagesAbove (pgRoundUp s₀.proc.sz)) V s₀ s → I a s.proc.pages → NowListed c a s s' → I (a+pgSize) s'.proc.pages
  evict : ∀ a s tmp v, a < newsz → pgSize ∣ a → Described c s → Grew (pagesAbove (pgRoundUp s₀.proc.sz)) V s₀ s →
    I a s.proc.pages → (maxPsycPages : ℤ) ≤ s.proc.pages.pagesInMemoryCounter → s.proc.pages.va tmp = some v →
    (c.build = .aq → s.userBit v = true) → vpn v ∈ V ∪ pagesAbove (pgRoundUp s₀.proc.sz)

section Growth
variable {c : Config} {s : Kernel} {V : Set Index} {I : ℕ → ProcPages → Prop} {n : ℤ} {r : ℤ × Kernel}

theorem Described.grow (hb : c.build ≠ .none) (h : Described c s) (hsz : s.proc.sz ≤ kernBase) (hn : 0 < n)
    (hV : s.proc.unpaged = false → s.proc.grownSize n < kernBase → Victims c s (s.proc.grownSize n) V I)
    (hrun : growproc c n s = .ok r) :
    Described c r.2 ∧ s.proc.sz ≤ r.2.proc.sz ∧ r.2.proc.sz ≤ kernBase ∧ r.2.proc.pgdir = s.proc.pgdir ∧
      ∀ a < s.proc.sz, Unchanged (s.pte s.proc.pgdir (vpn a)) (r.2.pte s.proc.pgdir (vpn a)) ∨
        Evicted (s.pte s.proc.pgdir (vpn a)) (r.2.pte s.proc.pgdir (vpn a)) ∧ vpn a ∈ V := by
  have hround := (le_pgRoundUp hsz).1
  have hal := pgSize_dvd_pgRoundUp s.proc.sz
  have hk : kernBase < 2^32 := by decide
  unfold growproc at hrun
  dsimp only at hrun
  rw [if_pos hn] at hrun
  obtain ⟨⟨sz,s₁⟩,halloc,hrun⟩ := bind_eq_ok hrun
  obtain ⟨h₁,hgrew,hs⟩ : Described c s₁ ∧ Grew (pagesAbove (pgRoundUp s.proc.sz)) V s s₁ ∧
      (sz = 0 ∨ s.proc.sz ≤ sz ∧ sz ≤ kernBase) := by
    simp only [allocuvm,oldallocuvm,oldallocuvmLoop_eq_growLoop,allocuvmLoop_eq_growLoop] at halloc
    have hsize : ∀ newsz ≤ kernBase, s.proc.sz ≤ newsz → ∀ {r : ℕ × Kernel}, Described c r.2 ∧
        Grew (pagesAbove (pgRoundUp s.proc.sz)) V s r.2 ∧ (r.1 = 0 ∨ r.1 = newsz) → Described c r.2 ∧
        Grew (pagesAbove (pgRoundUp s.proc.sz)) V s r.2 ∧ (r.1 = 0 ∨ s.proc.sz ≤ r.1 ∧ r.1 ≤ kernBase) := by
      rintro newsz hle hge r ⟨hd,hg,hr⟩
      exact ⟨hd,hg,hr.imp id fun he => by omega⟩
    cases hun : s.proc.unpaged with
    | true =>
      rw [if_pos (Or.inr hun)] at halloc
      split_ifs at halloc with hbig hless
      · cases halloc
        exact ⟨h,.refl s,Or.inl rfl⟩
      · cases halloc
        exact ⟨h,.refl s,Or.inr ⟨le_rfl,hsz⟩⟩
      · refine hsize _ (by omega) (by omega) (growLoop_grew (I := fun _ _ => True) hb (by omega) hround
          (fun a s s' _ _ _ hs _ _ _ _ he => ?_) _ h (.refl s) trivial hal le_rfl halloc)
        cases he
        exact ⟨hs,.refl s,trivial⟩
    | false =>
      rw [if_neg fun hor => hor.elim hb fun hun' => Bool.false_ne_true (hun.symm.trans hun')] at halloc
      split_ifs at halloc with hbig hless hmax
      · cases halloc
        exact ⟨h,.refl s,Or.inl rfl⟩
      · cases halloc
        exact ⟨h,.refl s,Or.inr ⟨le_rfl,hsz⟩⟩
      · cases halloc
        exact ⟨h,.refl s,Or.inl rfl⟩
      · have hvic := hV hun (not_le.mp hbig)
        refine hsize _ (by omega) (by omega) (growLoop_grew (I := I) hb (by omega) hround ?_ _ h (.refl s)
          hvic.start hal le_rfl halloc)
        intro a s₂ s₃ hu hlo hlt h₂ hgrew₂ hI hP hnot hl
        have hlisted := h₂.list hu hP hnot hl
        refine ⟨hlisted.described,?_,hvic.step a s₂ s₃ hu hlo hlt h₂ hgrew₂ hI hlisted⟩
        rcases hlisted.grew with ⟨-,-,hg⟩ | ⟨hfull,tmp,v,hv,haq,hg⟩
        · exact hg.mono (Set.empty_subset _) (Set.empty_subset _)
        · refine hg.mono (Set.empty_subset _) ?_
          rintro k rfl
          exact hvic.evict a s₂ tmp v hlt hu.1 h₂ hgrew₂ hI hfull hv haq
  have hentry : ∀ a < s.proc.sz, Unchanged (s.pte s.proc.pgdir (vpn a)) (s₁.pte s.proc.pgdir (vpn a)) ∨
      Evicted (s.pte s.proc.pgdir (vpn a)) (s₁.pte s.proc.pgdir (vpn a)) ∧ vpn a ∈ V := by
    intro a ha
    refine hgrew.entry (vpn a) ?_
    rintro ⟨b,h1,h2,hkb⟩
    have hq := (vpn_inj (by omega) h2).mp hkb
    obtain ⟨q,hq'⟩ := hal
    simp only [pgSize] at hq hq'
    omega
  dsimp only at hrun
  by_cases h0 : sz = 0
  · rw [if_pos h0] at hrun
    cases hrun
    exact ⟨h₁,hgrew.size.ge,hgrew.size.trans_le hsz,hgrew.pgdir,hentry⟩
  · rw [if_neg h0] at hrun
    cases hrun
    obtain ⟨hge,hle⟩ := hs.resolve_left h0
    exact ⟨⟨h₁.wf,h₁.resident,h₁.once,h₁.clean,h₁.kernel,h₁.top⟩,hge,hle,hgrew.pgdir,hentry⟩

end Growth

/-! ## Runs -/

inductive PagingOp
  | grow (n : ℤ)
  | fault (va : ℕ)

def pagingStep (c : Config) (s : Kernel) : PagingOp → Option Kernel
  | .grow n => (growproc c n s).toOption.map Prod.snd
  | .fault va => (trapPgflt c va s).toOption

def PagingOp.legal : PagingOp → Prop
  | .grow n => 0 < n
  | .fault va => va < 2^32

def FitsMemory (s : Kernel) (n : ℤ) : Prop :=
  s.proc.pages.pagesInMemoryCounter+((pgRoundUp (s.proc.grownSize n)-pgRoundUp s.proc.sz)/pgSize : ℕ) ≤ maxPsycPages

/-- The user may access the pages that the operation can move: growth evicts nothing if the process is not
paged or the new pages fit, under AQ only pages with `PTE_U`, and otherwise any listed page. -/
def MovesOpen (c : Config) (s : Kernel) : PagingOp → Prop
  | .grow n => s.proc.unpaged = true ∨ c.build = .aq ∨ FitsMemory s n ∨
      ∀ i a, s.proc.pages.va i = some a → a < s.proc.sz → s.userBit a = true
  | .fault va => pgRoundDown va < s.proc.sz → s.inFile va = true → s.userBit va = true

/-- The user could access the pages below the old size that growth has evicted, or that the page fault has brought in. -/
def MovedOpen (s : Kernel) (op : PagingOp) (t : Kernel) : Prop :=
  match op with
  | .grow _ => ∀ a < s.proc.sz, has (s.pte s.proc.pgdir (vpn a)) pteP = true → t.inFile a = true → s.userBit a = true
  | .fault va => pgRoundDown va < s.proc.sz → s.inFile va = true → s.userBit va = true

/-- All that the process has in `s` has the same rights in `t`. -/
def RightsKept (s t : Kernel) : Prop := ∀ a < s.proc.sz, t.userBit a = s.userBit a

/-- All pages that the process has in `s` are still in memory or in the swap file. -/
def PagesKept (s t : Kernel) : Prop :=
  ∀ a < s.proc.sz, Mapped (s.pte s.proc.pgdir (vpn a)) = true → Mapped (t.pte t.proc.pgdir (vpn a)) = true

section Victims
variable {c : Config} {s : Kernel} {n : ℤ}

theorem victims_any (s : Kernel) (newsz : ℕ) : Victims c s newsz Set.univ fun _ _ => True :=
  ⟨trivial,fun _ _ _ _ _ _ _ _ _ _ => trivial,fun _ _ _ _ _ _ _ _ _ _ _ _ => Or.inl trivial⟩

theorem Grew.user_before {N V : Set Index} {s₁ : Kernel} {v : ℕ} (h : Grew N V s s₁)
    (hP : has (s₁.pte s₁.proc.pgdir (vpn v)) pteP = true) (hU : s₁.userBit v = true) :
    vpn v ∈ {k | has (s.pte s.proc.pgdir k) pteU = true} ∪ N := by
  by_cases hN : vpn v ∈ N
  · exact Or.inr hN
  · refine Or.inl ?_
    rw [Kernel.userBit,h.pgdir] at hU
    rw [h.pgdir] at hP
    rcases h.entry _ hN with he | ⟨he,-⟩
    · exact he.user.symm.trans hU
    · rw [he.absent] at hP
      cases hP

theorem victims_open (hsz : s.proc.sz ≤ kernBase) (hnew : s.proc.grownSize n < kernBase) (hopen : c.build = .aq ∨ FitsMemory s n ∨
      ∀ i a, s.proc.pages.va i = some a → a < s.proc.sz → s.userBit a = true) :
    ∃ I, Victims c s (s.proc.grownSize n) {k | has (s.pte s.proc.pgdir k) pteU = true} I := by
  obtain ⟨hround,hround'⟩ := le_pgRoundUp hsz
  rcases hopen with haq | hfits | hopen
  · refine ⟨fun _ _ => True,trivial,fun _ _ _ _ _ _ _ _ _ _ => trivial,fun a s₁ tmp v _ _ h₁ hgrew _ _ hv hU => ?_⟩
    exact hgrew.user_before (h₁.resident tmp v hv).2 (hU haq)
  · -- each new page takes one of the places that are left
    have hleft : ∀ a, pgSize ∣ a → a < s.proc.grownSize n → ∃ m, (pgRoundUp (s.proc.grownSize n)-(a+pgSize))/pgSize = m ∧
        (pgRoundUp (s.proc.grownSize n)-a)/pgSize = m+1 := by
      rintro a ⟨q,rfl⟩ hlt
      refine ⟨_,rfl,?_⟩
      have hle := (le_pgRoundUp hnew.le).1
      obtain ⟨q',hq'⟩ := pgSize_dvd_pgRoundUp (s.proc.grownSize n)
      simp only [pgSize] at hq' hlt ⊢
      omega
    refine ⟨fun a p => p.pagesInMemoryCounter+((pgRoundUp (s.proc.grownSize n)-a)/pgSize : ℕ) ≤ maxPsycPages,hfits,?_,?_⟩
    · intro a s₁ s₂ hu _ hlt _ _ hI hl
      obtain ⟨m,hm,hm'⟩ := hleft a hu.1 hlt
      rw [hm'] at hI
      rw [hm]
      rcases hl.grew with ⟨-,hcount,-⟩ | ⟨hfull,-⟩ <;> omega
    · intro a s₁ tmp v hlt hal _ _ hI hfull
      obtain ⟨m,-,hm'⟩ := hleft a hal hlt
      rw [hm'] at hI
      omega
  · refine ⟨fun _ p => ∀ i a, p.va i = some a → a < s.proc.sz → s.userBit a = true,hopen,?_,?_⟩
    · intro a s₁ s₂ _ hlo _ _ _ hI hl i b hi hb
      rcases hl.lists i b hi with rfl | hi'
      · omega
      · exact hI i b hi' hb
    · intro a s₁ tmp v _ _ h₁ _ hI _ hv _
      by_cases hlt : v < s.proc.sz
      · exact Or.inl (hI tmp v hv hlt)
      · have hu := (h₁.resident tmp v hv).1
        refine Or.inr ⟨v,?_,hu.lt,rfl⟩
        obtain ⟨q,hq⟩ := pgSize_dvd_pgRoundUp s.proc.sz
        obtain ⟨q',rfl⟩ := hu.1
        simp only [pgSize] at hq hround' hlt ⊢
        omega

end Victims

section Runs
variable {c : Config} {s t : Kernel} {op : PagingOp} {va : ℕ}

theorem eq_ok_of_toOption {α : Type} {x : Except Fault α} {r : α} (h : x.toOption = some r) : x = .ok r := by
  cases x with
  | error e => cases h
  | ok y =>
    cases h
    rfl

structure Progressed (c : Config) (s t : Kernel) : Prop where
  described : Described c t
  grown : s.proc.sz ≤ t.proc.sz
  size : t.proc.sz ≤ kernBase
  pages : PagesKept s t

theorem progressed_of_entries {V : Set Index} (hdesc : Described c t) (hgrown : s.proc.sz ≤ t.proc.sz)
    (hsize : t.proc.sz ≤ kernBase) (hdir : t.proc.pgdir = s.proc.pgdir)
    (hentry : ∀ a < s.proc.sz, Unchanged (s.pte s.proc.pgdir (vpn a)) (t.pte s.proc.pgdir (vpn a)) ∨
      Evicted (s.pte s.proc.pgdir (vpn a)) (t.pte s.proc.pgdir (vpn a)) ∧ vpn a ∈ V) : Progressed c s t := by
  refine ⟨hdesc,hgrown,hsize,fun a ha hm => ?_⟩
  rw [hdir]
  rcases hentry a ha with he | ⟨he,-⟩
  · rw [Mapped,he.present,he.flag]
    exact hm
  · rw [Mapped,he.flag,Bool.or_true]

section
variable (hb : c.build ≠ .none) (h : Described c s) (hsz : s.proc.sz ≤ kernBase)
include hb h hsz

/-- Growth keeps the rights exactly if the pages that it has evicted had `PTE_U`. -/
theorem Described.grow_iff {n : ℤ} (hn : 0 < n)
    (hstep : pagingStep c s (.grow n) = some t) : Progressed c s t ∧ (RightsKept s t ↔ MovedOpen s (.grow n) t) := by
  obtain ⟨r,hr,rfl⟩ := Option.map_eq_some_iff.mp hstep
  obtain ⟨hdesc,hgrown,hsize,hdir,hentry⟩ := h.grow hb hsz hn (fun _ _ => victims_any s _) (eq_ok_of_toOption hr)
  refine ⟨progressed_of_entries hdesc hgrown hsize hdir hentry,fun hkept a ha hP hin => ?_,fun hopen a ha => ?_⟩
  · rw [← hkept a ha,Kernel.userBit,hdir]
    rcases hentry a ha with he | ⟨he,-⟩
    · rw [Kernel.inFile,hdir,he.present,hP,Bool.not_true,Bool.and_false] at hin
      cases hin
    · exact he.user
  · rw [Kernel.userBit,hdir]
    rcases hentry a ha with he | ⟨he,-⟩
    · exact he.user
    · refine he.user.trans (hopen a ha he.before ?_).symm
      rw [Kernel.inFile,hdir,he.flag,he.absent]
      rfl

theorem Described.grow_open {n : ℤ} (hn : 0 < n)
    (hopen : MovesOpen c s (.grow n)) (hstep : pagingStep c s (.grow n) = some t) : RightsKept s t := by
  obtain ⟨r,hr,rfl⟩ := Option.map_eq_some_iff.mp hstep
  have hrun := eq_ok_of_toOption hr
  have hkept : ∀ {I : ℕ → ProcPages → Prop}, (s.proc.unpaged = false → s.proc.grownSize n < kernBase →
      Victims c s (s.proc.grownSize n) {k | has (s.pte s.proc.pgdir k) pteU = true} I) → RightsKept s r.2 := by
    intro I hV a ha
    obtain ⟨-,-,-,hdir,hentry⟩ := h.grow hb hsz hn hV hrun
    rw [Kernel.userBit,hdir]
    rcases hentry a ha with he | ⟨he,hU⟩
    · exact he.user
    · exact he.user.trans hU.symm
  by_cases hcase : s.proc.unpaged = false ∧ s.proc.grownSize n < kernBase
  · obtain ⟨hun,hnew⟩ := hcase
    have hcond := hopen.resolve_left (by simp [hun])
    obtain ⟨I,hI⟩ := victims_open hsz hnew hcond
    exact hkept fun _ _ => hI
  · exact hkept (I := fun _ _ => True) fun hun hnew => (hcase ⟨hun,hnew⟩).elim

/-- A page fault keeps the rights exactly if the page that it brings in has `PTE_U`. -/
theorem Described.fault_iff (hva : va < 2^32)
    (hstep : pagingStep c s (.fault va) = some t) : Progressed c s t ∧ (RightsKept s t ↔ MovedOpen s (.fault va) t) := by
  have hrun : trapPgflt c va s = .ok t := eq_ok_of_toOption hstep
  have hk : kernBase < 2^32 := by decide
  cases hin : s.inFile va with
  | false =>
    have ht : ∃ f, s.table s.proc.pgdir (vpn va) = some f := by
      cases ht : s.table s.proc.pgdir (vpn va) with
      | none =>
        rw [trapPgflt_missing hb ht] at hrun
        cases hrun
      | some f => exact ⟨f,rfl⟩
    obtain ⟨f,ht⟩ := ht
    rw [trapPgflt_kill hb ht hin] at hrun
    cases hrun
    refine ⟨⟨h.of_pte h.wf rfl (fun _ _ hi => hi) fun _ => rfl,le_rfl,hsz,fun _ _ hm => hm⟩,
      iff_of_true (fun _ _ => rfl) fun _ hin' => ?_⟩
    rw [hin] at hin'
    cases hin'
  | true =>
    obtain ⟨hdesc,⟨hdir,hsize,hbits,hmapped⟩,hal,-⟩ := (h.fault_came hb hva hin hrun).1
    rw [accessAllowed,Bool.and_eq_true,Bool.and_eq_true] at hal
    rw [vpn_roundDown] at hbits hmapped hal
    have hother : ∀ a < s.proc.sz, vpn a ≠ vpn va → t.userBit a = s.userBit a := by
      intro a _ hne
      rw [Kernel.userBit,hdir]
      exact hbits _ hne
    refine ⟨⟨hdesc,hsize.ge,hsize.trans_le hsz,fun a ha hm => ?_⟩,fun hkept hlt _ => ?_,fun hopen a ha => ?_⟩
    · rw [hdir]
      by_cases he : vpn a = vpn va
      · rw [he,Mapped,hal.1.1]
        rfl
      · exact hmapped _ he hm
    · have hU := hkept (pgRoundDown va) hlt
      rw [Kernel.userBit,Kernel.userBit,hdir,vpn_roundDown] at hU
      exact hU.symm.trans hal.1.2
    · by_cases he : vpn a = vpn va
      · have hq := (vpn_inj (by omega) hva).mp he
        have hlt : pgRoundDown va < s.proc.sz := by
          rw [pgRoundDown,← hq]
          exact (Nat.div_mul_le_self a pgSize).trans_lt ha
        have hU := hopen hlt hin
        rw [Kernel.userBit] at hU
        rw [Kernel.userBit,Kernel.userBit,hdir,he,hU]
        exact hal.1.2
      · exact hother a ha he

/-- The step lemma. -/
theorem Described.step (hop : op.legal)
    (hstep : pagingStep c s op = some t) : Progressed c s t ∧ (RightsKept s t ↔ MovedOpen s op t) := by
  cases op with
  | grow n => exact h.grow_iff hb hsz hop hstep
  | fault va => exact h.fault_iff hb hsz hop hstep

/-- The run lemma. -/
theorem Described.run (hrun : Runs.Reaches (pagingStep c) (fun s op => op.legal ∧ MovesOpen c s op) s t) :
    Progressed c s t ∧ RightsKept s t := by
  refine hrun.invariant (I := fun t => Progressed c s t ∧ RightsKept s t) ⟨⟨h,le_rfl,hsz,fun _ _ hm => hm⟩,fun _ _ => rfl⟩ ?_
  rintro t op t' ⟨⟨ht,hgrown,hsize,hpages⟩,hkept⟩ ⟨hop,hopen⟩ hstep
  obtain ⟨⟨ht',hgrown',hsize',hpages'⟩,hiff⟩ := ht.step hb hsize hop hstep
  have hkept' : RightsKept t t' := by
    cases op with
    | grow n => exact ht.grow_open hb hsize hop hopen hstep
    | fault va => exact hiff.mpr hopen
  refine ⟨⟨ht',hgrown.trans hgrown',hsize',fun a ha hm => ?_⟩,fun a ha => ?_⟩
  · exact hpages' a (by omega) (hpages a ha hm)
  · rw [hkept' a (by omega),hkept a ha]

end

theorem userAccess_kills {st : Bool} (hb : c.build ≠ .none) (hU : s.userBit va = false) (hin : s.inFile va = false)
    (h0 : s.pte s.proc.pgdir (vpn va) ≠ 0) (fuel : ℕ) : userAccess c va st (fuel+1) s = .ok (none,s.kill) := by
  obtain ⟨t,ht⟩ := table_of_pte_ne h0
  have hal : accessAllowed (s.pte s.proc.pgdir (vpn va)) st = false := by
    rw [accessAllowed,show has (s.pte s.proc.pgdir (vpn va)) pteU = false from hU,Bool.and_false,Bool.false_and]
  rw [userAccess]
  simp only [walkpgdir_of_table ht,readPte_eq ht,hal,Bool.false_eq_true,if_false,trapPgflt_kill hb ht hin,bind,
    Except.bind]
  rfl

end Runs

/-- Growth keeps the rights exactly if the user could access the pages that it evicted, and a page fault
exactly if the user could access the page that it brings in. Runs that can move only such pages keep the
rights. -/
theorem access_rights_iff {c : Config} {s : Kernel} (hb : c.build ≠ .none) (h : Described c s)
    (hsz : s.proc.sz ≤ kernBase) :
    (∀ op t, op.legal → pagingStep c s op = some t → (RightsKept s t ↔ MovedOpen s op t)) ∧
    ∀ t, Runs.Reaches (pagingStep c) (fun s op => op.legal ∧ MovesOpen c s op) s t →
      RightsKept s t ∧ ∀ va st, va < s.proc.sz → Mapped (s.pte s.proc.pgdir (vpn va)) = true → s.userBit va = false →
        t.inFile va = false → userAccess c va st 2 t = .ok (none,t.kill) := by
  refine ⟨fun op t hop hstep => (h.step hb hsz hop hstep).2,fun t hrun => ?_⟩
  obtain ⟨hprog,hkept⟩ := h.run hb hsz hrun
  refine ⟨hkept,fun va st hlt hm hU hin => userAccess_kills hb ((hkept va hlt).trans hU) hin (fun h0 => ?_) 1⟩
  have hm' := hprog.pages va hlt hm
  rw [h0] at hm'
  cases hm'

section Sample
variable {perm : ℕ → Word}

theorem full_userBit (b : Build) (hperm : ∀ n, pteAddr (perm n) = 0) {a : ℕ} (ha : a < 16*pgSize) :
    (fullProcess b perm).userBit a = permAccess perm (pgRoundDown a) false := by
  have hb := built_full b hperm
  have hmem : pgRoundDown a ∈ pagesBelow (16*pgSize) :=
    ⟨Nat.dvd_mul_left _ _,(Nat.div_mul_le_self a pgSize).trans_lt ha⟩
  rw [← hb.exact hmem false]
  simp only [accessAllowed,hb.space.present _ hmem,Bool.true_and,Bool.not_false,Bool.true_or,Bool.and_true]
  rw [vpn_roundDown]
  rfl

theorem seventeenPages_fault (hperm : ∀ n, pteAddr (perm n) = 0) :
    ∃ t, pagingStep (sampleConfig .nfua) (seventeenPages perm ((fullPages .nfua).vacate 3) 7) (.fault (16*pgSize)) = some t ∧
      t.proc.pgdir = 0x200 ∧ t.pte 0x200 (vpn pgSize) = (fullProcess .nfua perm).pte 0x200 (vpn pgSize) := by
  have hround : pgRoundDown (16*pgSize) = 16*pgSize := by decide
  have hu : UserPage (16*pgSize) := ⟨Nat.dvd_mul_left _ _,by decide⟩
  obtain ⟨hdesc,hquiet,hin⟩ := seventeenPages_described hperm (p := (fullPages .nfua).vacate 3)
    (fun i a hi => (update_none_eq_some.mp hi).2) 7
  have hroom := seventeenPages_room hperm ((fullPages .nfua).vacate 3) 7 (fun _ => ⟨3,rfl⟩) fun hle => absurd hle (by decide)
  generalize hs : seventeenPages perm ((fullPages .nfua).vacate 3) 7 = s at hdesc hquiet hin hroom
  have hdir : s.proc.pgdir = 0x200 := by
    rw [← hs]
    rfl
  have hcount : s.proc.pages.pagesInMemoryCounter < maxPsycPages := by
    rw [← hs]
    exact (by decide : (15 : ℤ) < 16)
  have hb : (sampleConfig .nfua).build ≠ .none := by decide
  have hu' : UserPage (pgRoundDown (16*pgSize)) := by rwa [hround]
  have hin' : s.inFile (pgRoundDown (16*pgSize)) = true := by rwa [hround]
  rw [← hround] at hroom
  obtain ⟨-,s₁,hget⟩ := (hdesc.getPage_iff hb hquiet hu' hin').mpr hroom
  have hrun := trapPgflt_swapped (c := sampleConfig .nfua) hb hin
  rw [hget] at hrun
  obtain ⟨hcame,hother⟩ := hdesc.fault_came hb (by decide) hin hrun
  refine ⟨_,by rw [pagingStep,hrun]; rfl,hcame.rights.pgdir.trans hdir,?_⟩
  have hent := hother hcount (vpn pgSize) (by decide)
  rw [hdir] at hent
  rw [← hs,seventeenPages_pte hperm,update_of_ne (by decide)] at hent
  exact hent

end Sample

/-- A process with a guard page at 0x1000 gets a page from the swap file. Then an access to the guard page kills it. -/
theorem access_rights_guarded : ∃ perm t, (seventeenPages perm ((fullPages .nfua).vacate 3) 7).userBit pgSize = false ∧
    pagingStep (sampleConfig .nfua) (seventeenPages perm ((fullPages .nfua).vacate 3) 7) (.fault (16*pgSize)) = some t ∧
    RightsKept (seventeenPages perm ((fullPages .nfua).vacate 3) 7) t ∧
    ∀ st, userAccess (sampleConfig .nfua) pgSize st 2 t = .ok (none,t.kill) := by
  obtain ⟨perm,hperm,hguard⟩ : ∃ perm : ℕ → Word, (∀ n, pteAddr (perm n) = 0) ∧ permAccess perm pgSize false = false := by
    refine ⟨fun n => if n = 1 then pteW else userPerm,fun n => ?_,by decide⟩
    dsimp only
    split_ifs <;> decide
  obtain ⟨hdesc,-,hin⟩ := seventeenPages_described hperm (p := (fullPages .nfua).vacate 3)
    (fun i a hi => (update_none_eq_some.mp hi).2) 7
  obtain ⟨t,hstep,hdir,hent⟩ := seventeenPages_fault hperm
  have hpte := seventeenPages_pte hperm ((fullPages .nfua).vacate 3) 7
  obtain ⟨f,hf⟩ := full_entry .nfua hperm (n := 1) (by decide)
  rw [Nat.one_mul] at hf
  generalize hs : seventeenPages perm ((fullPages .nfua).vacate 3) 7 = s at hdesc hin hstep hpte
  have hd : s.proc.pgdir = 0x200 := by
    rw [← hs]
    rfl
  have hsz : s.proc.sz = 17*pgSize := by
    rw [← hs]
    rfl
  have hguard' : s.pte s.proc.pgdir (vpn pgSize) = (fullProcess .nfua perm).pte 0x200 (vpn pgSize) := by
    rw [hd,hpte,update_of_ne (by decide)]
  have hU : s.userBit pgSize = false := by
    rw [Kernel.userBit,hguard',← hguard]
    exact full_userBit .nfua hperm (a := pgSize) (by decide)
  have hbit : s.userBit (16*pgSize) = true := by
    rw [Kernel.userBit,hd,hpte,update_self]
    decide
  have hP : has (s.pte s.proc.pgdir (vpn pgSize)) pteP = true := by
    rw [hguard',hf]
    exact has_mapped f (perm 1)
  have hreach : Runs.Reaches (pagingStep (sampleConfig .nfua))
      (fun s op => op.legal ∧ MovesOpen (sampleConfig .nfua) s op) s t :=
    Relation.ReflTransGen.single ⟨.fault (16*pgSize),⟨(by decide : 16*pgSize < 2^32),fun _ _ => hbit⟩,hstep⟩
  obtain ⟨hkept,hkill⟩ := (access_rights_iff (by decide) hdesc (by rw [hsz]; decide)).2 t hreach
  refine ⟨perm,t,hs ▸ hU,hs ▸ hstep,hs ▸ hkept,fun st => hkill pgSize st (by rw [hsz]; decide) ?_ hU ?_⟩
  · rw [Mapped,hP]
    rfl
  · rw [Kernel.inFile,hdir,hent,← hguard',hP,Bool.not_true,Bool.and_false]

/-- The process grows by a page, which evicts the guard page at 0. When it comes back the user may access it. -/
theorem growth_opens_guard_page :
    Described (sampleConfig .nfua) (fullProcess .nfua Transparency.guardPerm) ∧
    (fullProcess .nfua Transparency.guardPerm).userBit 0 = false ∧
    ∃ s₁ s₂, pagingStep (sampleConfig .nfua) (fullProcess .nfua Transparency.guardPerm) (.grow 4096) = some s₁ ∧
      pagingStep (sampleConfig .nfua) s₁ (.fault 0) = some s₂ ∧ s₂.proc.killed = false ∧
      accessAllowed (s₂.pte s₂.proc.pgdir (vpn 0)) false = true := by
  obtain ⟨s₁,hgrow,hpaged,⟨j,hj⟩,hfree,-⟩ := full_grow Transparency.guardPerm_addr
  obtain ⟨f,l,hl⟩ := List.exists_cons_of_ne_nil hfree
  have hout := hpaged.consistent.swapped j 0 hj
  have hin : s₁.inFile 0 = true := by
    rw [Kernel.inFile,hout.flag,hout.absent]
    rfl
  have hmem : pgRoundDown 0 ∈ s₁.proc.pages.swapped := ⟨j,hj⟩
  obtain ⟨s₂,hget,hc₂,honly,hres,-⟩ := getPageFromFile_spec (Or.inl rfl) (hpaged.open_swapped hj).consistent hmem hl
  have hfault := trapPgflt_swapped (c := sampleConfig .nfua) (by decide) hin
  rw [hget] at hfault
  have hguard := full_userBit (a := 0) .nfua Transparency.guardPerm_addr (by decide)
  refine ⟨full_described .nfua Transparency.guardPerm_addr,hguard.trans (by decide),s₁,
    s₂.setPages {s₂.proc.pages with faultCounter := s₂.proc.pages.faultCounter+1},?_,?_,?_,?_⟩
  · rw [pagingStep,hgrow]
    rfl
  · rw [pagingStep,hfault]
    rfl
  · change s₂.proc.killed = false
    rw [honly.proc]
    exact hpaged.alive
  · refine hc₂.space.access 0 (Or.inl hres) false ?_
    dsimp only
    rw [update_self]

end Xv6Paging
