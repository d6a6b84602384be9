import Xv6Paging.Paging.GrowthAccounts

/-! # Moving pages in and out

What page faults and growth keep of a process and of the rights of the user when they return, in every paging build.
Nothing is assumed about the replacement queue, the counters and `disk_pg_arr`.
-/
namespace Xv6Paging
open WordPage PageTree Function

def Kernel.inFile (s : Kernel) (a : ℕ) : Bool :=
  has (s.pte s.proc.pgdir (vpn a)) ptePG && !has (s.pte s.proc.pgdir (vpn a)) pteP

/-- The pages that `memory_pg_arr` lists are present and listed once, an entry that is marked as swapped out
holds no frame, and none of the kernel's entries is marked so. The last page belongs to a device. -/
structure Described (c : Config) (s : Kernel) : Prop where
  wf : Wf c {s.proc.pgdir} s
  resident : ∀ i a, s.proc.pages.va i = some a → UserPage a ∧ has (s.pte s.proc.pgdir (vpn a)) pteP = true
  once : ∀ i j a, s.proc.pages.va i = some a → s.proc.pages.va j = some a → i = j
  clean : ∀ a, s.inFile a = true → pteAddr (s.pte s.proc.pgdir (vpn a)) = 0
  kernel : ∀ a, kernBase ≤ a → a < 2^32 → s.inFile a = false
  top : pteAddr (s.pte s.proc.pgdir (vpn (2^32-1))) ∉ c.frames

section Described
variable {c : Config} {s s' : Kernel} {a b : ℕ} {i : Slot} {w : Word}

theorem Described.not_listed (h : Described c s) (hin : s.inFile a = true) : s.proc.pages.va i ≠ some a := by
  intro hi
  have hP := (h.resident i a hi).2
  rw [Kernel.inFile,hP,Bool.not_true,Bool.and_false] at hin
  cases hin

theorem Described.congr (h : Described c s) (s' : Kernel) (hw : Wf c {s.proc.pgdir} s') (hdir : s'.proc.pgdir = s.proc.pgdir)
    (hva : ∀ i a, s'.proc.pages.va i = some a → s.proc.pages.va i = some a)
    (hbit : ∀ k i, i < 32 → i ≠ 5 → (s'.pte s.proc.pgdir k).getLsbD i = (s.pte s.proc.pgdir k).getLsbD i)
    (haddr : ∀ k, pteAddr (s'.pte s.proc.pgdir k) = pteAddr (s.pte s.proc.pgdir k)) :
    Described c s' ∧ ∀ a, s'.inFile a = s.inFile a := by
  have hP : ∀ k, has (s'.pte s.proc.pgdir k) pteP = has (s.pte s.proc.pgdir k) pteP := fun k => by
    rw [has_pteP,has_pteP,hbit k 0 (by decide) (by decide)]
  have hin : ∀ a, s'.inFile a = s.inFile a := fun a => by
    rw [Kernel.inFile,Kernel.inFile,hdir,hP,has_ptePG,has_ptePG,hbit _ 9 (by decide) (by decide)]
  refine ⟨⟨hdir ▸ hw,fun i a hi => ?_,fun i j a hi hj => h.once i j a (hva i a hi) (hva j a hj),fun a ha => ?_,
    fun a hk hlt => ?_,?_⟩,hin⟩
  · rw [hdir,hP]
    exact h.resident i a (hva i a hi)
  · rw [hin] at ha
    rw [hdir,haddr]
    exact h.clean a ha
  · rw [hin]
    exact h.kernel a hk hlt
  · rw [hdir,haddr]
    exact h.top

theorem Described.of_pte (h : Described c s) (hw : Wf c {s.proc.pgdir} s') (hdir : s'.proc.pgdir = s.proc.pgdir)
    (hva : ∀ i a, s'.proc.pages.va i = some a → s.proc.pages.va i = some a)
    (hpte : ∀ k, s'.pte s.proc.pgdir k = s.pte s.proc.pgdir k) : Described c s' :=
  (h.congr s' hw hdir hva (fun k i _ _ => by rw [hpte]) fun k => by rw [hpte]).1

theorem Described.setEntry (h : Described c s) (hb : UserPage b) (hw : Wf c {s.proc.pgdir} s')
    (hdir : s'.proc.pgdir = s.proc.pgdir)
    (hpte : s'.pte s.proc.pgdir = update (s.pte s.proc.pgdir) (vpn b) w)
    (hclean : has w ptePG = true → has w pteP = false → pteAddr w = 0)
    (hres : ∀ i a, s'.proc.pages.va i = some a → a = b ∧ has w pteP = true ∨ a ≠ b ∧ s.proc.pages.va i = some a)
    (honce : ∀ i j a, s'.proc.pages.va i = some a → s'.proc.pages.va j = some a → i = j) : Described c s' := by
  have hself : ∀ a, vpn a = vpn b → s'.pte s'.proc.pgdir (vpn a) = w := fun a ha => by
    rw [hdir,hpte,ha,update_self]
  have hother : ∀ a, vpn a ≠ vpn b → s'.pte s'.proc.pgdir (vpn a) = s.pte s.proc.pgdir (vpn a) := fun a ha => by
    rw [hdir,hpte,update_of_ne ha]
  have hkernel : ∀ a, kernBase ≤ a → a < 2^32 → vpn a ≠ vpn b := by
    intro a hk hlt he
    have ho := hb.own
    rw [← he,own_iff hlt] at ho
    omega
  refine ⟨hdir ▸ hw,fun i a hi => ?_,honce,fun a ha => ?_,fun a hk hlt => ?_,?_⟩
  · rcases hres i a hi with ⟨rfl,hP⟩ | ⟨hne,hi'⟩
    · rw [hself a rfl]
      exact ⟨hb,hP⟩
    · obtain ⟨hu,hP⟩ := h.resident i a hi'
      rw [hother a (hb.vpn_ne hu hne)]
      exact ⟨hu,hP⟩
  · unfold Kernel.inFile at ha
    by_cases he : vpn a = vpn b
    · rw [hself a he,Bool.and_eq_true,Bool.not_eq_true'] at ha
      rw [hself a he]
      exact hclean ha.1 ha.2
    · rw [hother a he] at ha ⊢
      exact h.clean a ha
  · rw [Kernel.inFile,hother a (hkernel a hk hlt)]
    exact h.kernel a hk hlt
  · rw [hother _ (vpn_top_ne hb)]
    exact h.top

end Described

/-! ## Rights -/

def Mapped (w : Word) : Bool := has w pteP || has w ptePG

/-- The user has the same rights to all pages outside `A`, and none of them has disappeared. -/
structure RightsOutside (A : Set Index) (s s' : Kernel) : Prop where
  pgdir : s'.proc.pgdir = s.proc.pgdir
  size : s'.proc.sz = s.proc.sz
  bits : ∀ k ∉ A, has (s'.pte s.proc.pgdir k) pteU = has (s.pte s.proc.pgdir k) pteU
  mapped : ∀ k ∉ A, Mapped (s.pte s.proc.pgdir k) = true → Mapped (s'.pte s.proc.pgdir k) = true

section Rights
variable {c : Config} {A : Set Index} {s s₁ s' : Kernel} {k : Index} {w : Word}

theorem RightsOutside.trans (h : RightsOutside A s s₁) (h' : RightsOutside A s₁ s') : RightsOutside A s s' := by
  refine ⟨h'.pgdir.trans h.pgdir,h'.size.trans h.size,fun k hk => ?_,fun k hk hm => ?_⟩
  · rw [← h.bits k hk,← h.pgdir]
    exact h'.bits k hk
  · rw [← h.pgdir]
    exact h'.mapped k hk (h.pgdir ▸ h.mapped k hk hm)

theorem RightsOutside.mono {B : Set Index} (h : RightsOutside A s s') (hA : A ⊆ B) : RightsOutside B s s' :=
  ⟨h.pgdir,h.size,fun k hk => h.bits k fun hm => hk (hA hm),fun k hk => h.mapped k fun hm => hk (hA hm)⟩

theorem RightsOutside.of_pte (hdir : s'.proc.pgdir = s.proc.pgdir) (hsz : s'.proc.sz = s.proc.sz)
    (hpte : ∀ k ∉ A, s'.pte s.proc.pgdir k = s.pte s.proc.pgdir k) : RightsOutside A s s' :=
  ⟨hdir,hsz,fun k hk => by rw [hpte k hk],fun k hk hm => by rwa [hpte k hk]⟩

theorem RightsOutside.of_update (hdir : s'.proc.pgdir = s.proc.pgdir) (hsz : s'.proc.sz = s.proc.sz)
    (hpte : s'.pte s.proc.pgdir = update (s.pte s.proc.pgdir) k w) : RightsOutside {k} s s' :=
  .of_pte hdir hsz fun k' hk => by rw [hpte,update_of_ne (by simpa using hk)]

theorem RightsOutside.insert (h : RightsOutside (insert k A) s s')
    (hU : has (s'.pte s.proc.pgdir k) pteU = has (s.pte s.proc.pgdir k) pteU)
    (hm : Mapped (s'.pte s.proc.pgdir k) = true) : RightsOutside A s s' := by
  refine ⟨h.pgdir,h.size,fun k' hk => ?_,fun k' hk hm' => ?_⟩
  · by_cases he : k' = k
    · exact he ▸ hU
    · exact h.bits k' (by simp [he,hk])
  · by_cases he : k' = k
    · exact he ▸ hm
    · exact h.mapped k' (by simp [he,hk]) hm'

theorem RightsOutside.of_cleared (h : Cleared c {s.proc.pgdir} s.proc.pgdir s s') : RightsOutside ∅ s s' := by
  have hbit : ∀ k i, i < 32 → i ≠ 5 → (s'.pte s.proc.pgdir k).getLsbD i = (s.pte s.proc.pgdir k).getLsbD i :=
    fun k i hi h5 => h.bit rfl hi h5
  refine ⟨by rw [h.only.proc],by rw [h.only.proc],fun k _ => ?_,fun k _ hm => ?_⟩
  · rw [has_pteU,has_pteU,hbit k 2 (by decide) (by decide)]
  · rw [Mapped,has_pteP,has_ptePG] at hm ⊢
    rwa [hbit k 0 (by decide) (by decide),hbit k 9 (by decide) (by decide)]

end Rights

/-! ## Bringing in a page -/

def FirstSlot (p : ProcPages) (a : ℕ) (j : Slot) : Prop := p.diskVa j = some a ∧ ∀ i < j, p.diskVa i ≠ some a

section Read
variable {b : Build} {p : ProcPages} {q q' : Proc} {s s' : Kernel} {a v : ℕ} {j : Slot} {buf pg : Page} {n : ℤ}

theorem find?_firstSlot :
    ((List.finRange 16).find? fun i => decide (p.diskVa i = some a)) = some j ↔ FirstSlot p a j := by
  rw [List.find?_eq_some_iff_getElem,FirstSlot,decide_eq_true_iff]
  refine and_congr_right fun _ => ?_
  constructor
  · rintro ⟨n,hn,hj,hlt⟩ i hi
    have hn' : n = j.val := by
      rw [← hj]
      simp
    have hin := hlt i.val (hn' ▸ hi)
    simpa using hin
  · intro hlt
    refine ⟨j.val,by simp,by simp,fun i hi => ?_⟩
    have hi' := hlt ⟨i,hi.trans j.isLt⟩ hi
    simpa using hi'

theorem readPageFromFile_run (h : readPageFromFile b q a buf = .ok (n,pg,q')) :
    q' = {q with pages := q'.pages} ∧
      (q'.pages.va = q.pages.va ∨ ∃ k, q'.pages.va = update q.pages.va k (some a)) ∧
      ∀ j, FirstSlot q.pages a j → a ∈ q'.pages.residents ∧
        ∀ ip, q.swapFile = some ip → (j.val+1)*pgSize ≤ ip.size → pg = ip.slotPage j.val := by
  unfold readPageFromFile at h
  split at h
  · next hnone =>
    cases h
    refine ⟨rfl,Or.inl rfl,fun j hj => ?_⟩
    rw [find?_firstSlot.mpr hj] at hnone
    cases hnone
  · next i hi =>
    obtain ⟨⟨read,page⟩,hread,h⟩ := bind_eq_ok h
    dsimp only at h
    split_ifs at h
    obtain ⟨⟨k,p⟩,hupd,h⟩ := bind_eq_ok h
    cases h
    have hva : p.va = update q.pages.va k (some a) := (updateMemory_listedIn hupd).va
    refine ⟨rfl,Or.inr ⟨k,hva⟩,fun j hj => ⟨⟨k,?_⟩,fun ip hip hsize => ?_⟩⟩
    · change p.va k = some a
      rw [hva,update_self]
    · rw [find?_firstSlot.mpr hj] at hi
      cases hi
      rw [readFromSwapFile_eq hip hsize] at hread
      cases hread
      rfl

theorem writePageToFile_run (h : writePageToFile v s = .ok (n,s')) :
    s' = {s with proc := {s.proc with pages := s'.proc.pages, swapFile := s'.proc.swapFile}} ∧
      s'.proc.pages.va = s.proc.pages.va := by
  unfold writePageToFile at h
  split at h
  · cases h
    exact ⟨rfl,rfl⟩
  · obtain ⟨page,-,h⟩ := bind_eq_ok h
    obtain ⟨⟨res,p⟩,hwrite,h⟩ := bind_eq_ok h
    have hp := writeToSwapFile_proc hwrite
    dsimp only at h
    split_ifs at h
    · cases h
      rw [hp]
      exact ⟨rfl,rfl⟩
    · cases h
      rw [hp]
      exact ⟨rfl,rfl⟩

end Read

/-- The user may use the page, and if `disk_pg_arr` listed it, it is listed in memory and has the bytes of
its slot. -/
structure CameIn (c : Config) (a : ℕ) (s s' : Kernel) : Prop where
  described : Described c s'
  rights : RightsOutside {vpn a} s s'
  allowed : accessAllowed (s'.pte s.proc.pgdir (vpn a)) true = true
  listed : ∀ j, FirstSlot s.proc.pages a j → a ∈ s'.proc.pages.residents ∧
    ∀ ip, s.proc.swapFile = some ip → (j.val+1)*pgSize ≤ ip.size → s'.page s.proc.pgdir (vpn a) = ip.slotPage j.val

section PageIn
variable {c : Config} {s s₁ s₂ s' : Kernel} {f g : Frame} {a v fault : ℕ} {b : Build} {n : ℤ} {q : Proc} {buf pg : Page}

theorem fixPagedInPTE_run {d : Frame} (h : fixPagedInPTE a f d s = .ok s') : s'.proc = s.proc ∧ s'.buff = s.buff := by
  rw [fixPagedInPTE,walkpgdir_false] at h
  cases ht : s.table d (vpn a) with
  | none =>
    rw [ht] at h
    cases h
  | some t =>
    rw [ht] at h
    dsimp only [Option.map_some] at h
    split_ifs at h
    cases h
    exact ⟨rfl,rfl⟩

theorem Wf.setPte_entries {d : Frame} {k : Index} {w : Word} (h : Wf c {d} s) (ht : s.table d k = some f) :
    (s.setPte d k w).pte d = update (s.pte d) k w := by
  funext k'
  by_cases hk : k' = k
  · rw [hk,update_self]
    exact h.setPte_same rfl ht
  · rw [update_of_ne hk]
    exact (h.same_setPte rfl).entry d rfl k' fun he => hk (Prod.mk.inj he).2

theorem Wf.unmap_entries {d : Frame} {k : Index} {w : Word} (h : Wf c {d} s) (ho : x86.own k = true)
    (hp : has (s.pte d k) pteP = true) (hw : has w pteP = false) :
    ((s.setPte d k w).free (pteAddr (s.pte d k))).pte d = update (s.pte d) k w := by
  obtain ⟨t,ht⟩ := table_of_has hp
  rw [← h.setPte_entries ht]
  exact funext fun _ => store_pte (h.unmap rfl ho hp hw).2.notTree rfl _

theorem has_pagedOut_pteU (w : Word) : has (pagedOut w) pteU = has w pteU := by
  simp only [pagedOut,has_pteU,BitVec.getLsbD_and,BitVec.getLsbD_or,pteFlags_getLsbD _ (show 2 < 12 by decide)]
  simp [pteP,ptePG]

theorem fixPagedInPTE_inFile (hin : s.inFile a = true) (f : Frame) :
    ∃ t, s.table s.proc.pgdir (vpn a) = some t ∧ fixPagedInPTE a f s.proc.pgdir s =
      .ok (s.setPte s.proc.pgdir (vpn a) (pagedIn (s.pte s.proc.pgdir (vpn a)) f)) := by
  rw [Kernel.inFile,Bool.and_eq_true,Bool.not_eq_true'] at hin
  obtain ⟨t,ht⟩ := table_of_has hin.1
  exact ⟨t,ht,fixPagedInPTE_eq ht hin.2⟩

theorem Described.pageIn (h : Described c s) (ha : UserPage a) (hin : s.inFile a = true)
    (hf : FreshFrame c {s.proc.pgdir} s f) (hfix : fixPagedInPTE a f s.proc.pgdir s = .ok s₁)
    (hread : readPageFromFile b s.proc a buf = .ok (n,pg,q)) {t : Kernel} (hmem : t.mem = (s₁.store f pg).mem)
    (hfree : t.freelist = s.freelist) (hproc : t.proc = q) :
    CameIn c a s t ∧ t.pte s.proc.pgdir = update (s.pte s.proc.pgdir) (vpn a)
      (pagedIn (s.pte s.proc.pgdir (vpn a)) f) := by
  obtain ⟨hq,hva,hlisted⟩ := readPageFromFile_run hread
  obtain ⟨t₁,ht,hfix'⟩ := fixPagedInPTE_inFile hin f
  rw [hfix'] at hfix
  cases hfix
  have haddr := pteAddr_pagedIn (h.clean a hin) f
  have hself := h.wf.setPte_same (w := pagedIn (s.pte s.proc.pgdir (vpn a)) f) rfl ht
  obtain ⟨hwf,-⟩ := hf.map h.wf rfl ht haddr
  have hleaf := hwf.leaf_notTree rfl ha.own (k := vpn a) (f := f) (by
    change x86.link ((s.setPte s.proc.pgdir (vpn a) _).pte s.proc.pgdir (vpn a)) = _
    rw [hself]
    exact link_eq_some.mpr ⟨has_pagedIn_pteP _ f,haddr⟩)
  have hpte : t.pte s.proc.pgdir = update (s.pte s.proc.pgdir) (vpn a)
      (pagedIn (s.pte s.proc.pgdir (vpn a)) f) := by
    rw [← h.wf.setPte_entries ht]
    funext k
    rw [Kernel.pte,hmem]
    exact store_pte hleaf rfl pg
  have hdir : t.proc.pgdir = s.proc.pgdir := by
    rw [hproc,hq]
  have hnot : ∀ i, s.proc.pages.va i ≠ some a := fun i => h.not_listed hin
  have hslot : ∀ i x, t.proc.pages.va i = some x → x = a ∨ s.proc.pages.va i = some x := by
    intro i x hi
    rw [hproc] at hi
    rcases hva with he | ⟨k,he⟩
    · rw [he] at hi
      exact Or.inr hi
    · rw [he,update_apply] at hi
      split_ifs at hi
      · exact Or.inl (Option.some.inj hi).symm
      · exact Or.inr hi
  refine ⟨⟨h.setEntry ha ?_ hdir hpte (fun _ hP => ?_) (fun i x hi => ?_) fun i j x hi hj => ?_,?_,?_,fun j hj => ?_⟩,hpte⟩
  · have hwf' := hwf.congr (frame_write hleaf pg)
    rw [Wf,hmem,hfree]
    exact hwf'
  · rw [has_pagedIn_pteP] at hP
    cases hP
  · by_cases hxa : x = a
    · exact Or.inl ⟨hxa,has_pagedIn_pteP _ f⟩
    · exact Or.inr ⟨hxa,(hslot i x hi).resolve_left hxa⟩
  · by_cases hxa : x = a
    · subst hxa
      rw [hproc] at hi hj
      rcases hva with he | ⟨k,he⟩
      · rw [he] at hi
        exact (hnot i hi).elim
      · have hk : ∀ i, q.pages.va i = some x → i = k := by
          intro i hi
          by_contra hne
          rw [he,update_of_ne hne] at hi
          exact hnot i hi
        rw [hk i hi,hk j hj]
    · exact h.once i j x ((hslot i x hi).resolve_left hxa) ((hslot j x hj).resolve_left hxa)
  · exact .of_update hdir (by rw [hproc,hq]) hpte
  · rw [hpte,update_self]
    exact accessAllowed_pagedIn _ f true
  · obtain ⟨hres,hbytes⟩ := hlisted j hj
    refine ⟨hproc ▸ hres,fun ip hip hsize => ?_⟩
    rw [← hbytes ip hip hsize,Kernel.page,hpte,update_self,haddr,hmem]
    exact update_self _ _ _

theorem Described.pageOut (h : Described c s) (hv : UserPage v)
    (hP : has (s.pte s.proc.pgdir (vpn v)) pteP = true) (hnot : ∀ i, s.proc.pages.va i ≠ some v)
    (hwrite : writePageToFile v s = .ok (n,s₁)) (hfix : fixPagedOutPTE s₁.proc.pgdir v false s₁ = .ok s₂)
    (hfree : kfree c (pteAddr (s.pte s.proc.pgdir (vpn v))) s₂ = .ok s') :
    Described c s' ∧ RightsOutside ∅ s s' ∧ s'.proc.pages.va = s.proc.pages.va ∧
      Same {s.proc.pgdir} {(s.proc.pgdir,vpn v)} s s' := by
  obtain ⟨hs₁,hva⟩ := writePageToFile_run hwrite
  have hdir : s₁.proc.pgdir = s.proc.pgdir := by rw [hs₁]
  have hsz : s₁.proc.sz = s.proc.sz := by rw [hs₁]
  have hmem : s₁.mem = s.mem := by rw [hs₁]
  have hfl : s₁.freelist = s.freelist := by rw [hs₁]
  obtain ⟨t,ht⟩ := table_of_has hP
  have ht₁ : s₁.table s.proc.pgdir (vpn v) = some t := by
    rw [Kernel.table,hmem]
    exact ht
  have hpte₁ : s₁.pte s.proc.pgdir (vpn v) = s.pte s.proc.pgdir (vpn v) := by
    rw [Kernel.pte,hmem]
    rfl
  rw [hdir,fixPagedOutPTE_eq ht₁,hpte₁] at hfix
  cases hfix
  obtain ⟨-,rfl⟩ := kfree_ok hfree
  obtain ⟨hwf,hfresh⟩ := h.wf.unmap rfl hv.own hP (has_pagedOut_pteP (s.pte s.proc.pgdir (vpn v)))
  obtain ⟨hwf',hsame⟩ := hfresh.free (A := {(s.proc.pgdir,vpn v)}) hwf
  have hent := h.wf.unmap_entries hv.own hP (has_pagedOut_pteP (s.pte s.proc.pgdir (vpn v)))
  have hsame' := ((h.wf.same_setPte (k := vpn v) (w := pagedOut (s.pte s.proc.pgdir (vpn v))) rfl).trans hsame)
  generalize hr : (s.setPte s.proc.pgdir (vpn v) (pagedOut (s.pte s.proc.pgdir (vpn v)))).free
    (pteAddr (s.pte s.proc.pgdir (vpn v))) = r at hwf' hent hsame'
  generalize hr' : (s₁.setPte s.proc.pgdir (vpn v) (pagedOut (s.pte s.proc.pgdir (vpn v)))).free
    (pteAddr (s.pte s.proc.pgdir (vpn v))) = r'
  have hm : r'.mem = r.mem := by
    rw [← hr,← hr',hs₁]
    rfl
  have hl : r'.freelist = r.freelist := by
    rw [← hr,← hr',hs₁]
    rfl
  have hp : r'.proc = s₁.proc := by
    rw [← hr']
    rfl
  have hpte : r'.pte s.proc.pgdir = _ := (congrArg (fun m => x86.entry m s.proc.pgdir) hm).trans hent
  have hvas : r'.proc.pages.va = s.proc.pages.va := by rw [hp,hva]
  have hdir' : r'.proc.pgdir = s.proc.pgdir := by rw [hp,hdir]
  refine ⟨h.setEntry hv ?_ hdir' hpte (fun _ _ => pteAddr_pagedOut _) (fun i x hi => ?_) (fun i j x hi hj => ?_),?_,hvas,?_⟩
  · rw [Wf,hm,hl]
    exact hwf'
  · rw [hvas] at hi
    refine Or.inr ⟨?_,hi⟩
    rintro rfl
    exact hnot i hi
  · rw [hvas] at hi hj
    exact h.once i j x hi hj
  · have hrights : RightsOutside {vpn v} s r' := .of_update hdir' (by rw [hp,hsz]) hpte
    refine RightsOutside.insert (k := vpn v) (by simpa using hrights) ?_ ?_
    · rw [hpte,update_self,has_pagedOut_pteU]
    · rw [hpte,update_self,Mapped,has_pagedOut_ptePG,Bool.or_true]
  · rw [Same,hm]
    exact hsame'

theorem CameIn.after (hr : RightsOutside ∅ s s₁) (hd : s₁.proc.pages.diskVa = s.proc.pages.diskVa)
    (hfile : s₁.proc.swapFile = s.proc.swapFile) (h : CameIn c a s₁ s') : CameIn c a s s' := by
  refine ⟨h.described,(hr.mono (Set.empty_subset _)).trans h.rights,?_,fun j hj => ?_⟩
  · rw [← hr.pgdir]
    exact h.allowed
  · rw [← hr.pgdir,← hfile]
    exact h.listed j (by rwa [FirstSlot,hd])

theorem CameIn.out (h : CameIn c a s s₁) (ha : UserPage a) (hv : UserPage v) (hva : a ≠ v)
    (hout : Described c s' ∧ RightsOutside ∅ s₁ s' ∧ s'.proc.pages.va = s₁.proc.pages.va ∧
      Same {s₁.proc.pgdir} {(s₁.proc.pgdir,vpn v)} s₁ s') : CameIn c a s s' := by
  obtain ⟨hdesc,hrights,hlist,hsame⟩ := hout
  rw [h.rights.pgdir] at hsame
  have hk : (s.proc.pgdir,vpn a) ∉ ({(s.proc.pgdir,vpn v)} : Set (Frame × Index)) :=
    fun hm => hv.vpn_ne ha hva (Prod.ext_iff.mp hm).2
  have hpte : s'.pte s.proc.pgdir (vpn a) = s₁.pte s.proc.pgdir (vpn a) := hsame.entry _ rfl _ hk
  refine ⟨hdesc,h.rights.trans (hrights.mono (Set.empty_subset _)),?_,fun j hj => ?_⟩
  · rw [hpte]
    exact h.allowed
  · obtain ⟨hres,hbytes⟩ := h.listed j hj
    refine ⟨by rwa [ProcPages.residents,hlist],fun ip hip hsize => ?_⟩
    have hP := h.allowed
    rw [accessAllowed,Bool.and_eq_true,Bool.and_eq_true] at hP
    rw [hsame.page rfl hk ha.own hP.1.1]
    exact hbytes ip hip hsize

theorem Described.selected {tmp : Slot} (h : Described c s) (hsel : selectPageToRemove b s = .ok (tmp,s₁)) :
    ∃ r, s₁.setPages (s₁.proc.pages.vacate tmp) = r ∧ Described c r ∧ (∀ a, r.inFile a = s.inFile a) ∧
      Cleared c {s.proc.pgdir} s.proc.pgdir s r ∧ r.proc.pages.va = update s.proc.pages.va tmp none ∧
      r.proc.pages.diskVa = s.proc.pages.diskVa ∧ s₁.proc.pages.va tmp = s.proc.pages.va tmp := by
  obtain ⟨hc,hlinks⟩ := (selectPageToRemove_keeps b h.wf rfl).of_ok hsel
  have hva : s₁.proc.pages.va = s.proc.pages.va := by rw [hlinks]
  have hdisk : s₁.proc.pages.diskVa = s.proc.pages.diskVa := by rw [hlinks]
  have hdir : s₁.proc.pgdir = s.proc.pgdir := by rw [hc.only.proc]
  obtain ⟨h₁,hin⟩ := h.congr (s₁.setPages (s₁.proc.pages.vacate tmp)) hc.wf hdir
    (fun i x hi => hva ▸ (update_none_eq_some.mp hi).2) (fun k i hi h5 => hc.bit rfl hi h5) fun k => hc.pteAddr rfl
  refine ⟨_,rfl,h₁,hin,hc.setPages _,?_,hdisk,by rw [hva]⟩
  rw [← hva]
  rfl

theorem getPagePAddr_of_some {d : Frame} (h : getPagePAddr v d s = some g) : g = pteAddr (s.pte d (vpn v)) := by
  cases ht : s.table d (vpn v) with
  | none =>
    simp only [getPagePAddr,walkpgdir_false,ht,Option.map_none] at h
    cases h
  | some t =>
    rw [getPagePAddr_eq ht] at h
    exact (Option.some.inj h).symm

theorem FreshFrame.cleared {S : Set Frame} {d : Frame} (hf : FreshFrame c S s f) (hc : Cleared c S d s s') :
    FreshFrame c S s' f := by
  refine ⟨hf.valid,by rw [hc.freelist]; exact hf.not_free,fun u hu => ?_⟩
  rw [hc.frame u hu]
  exact hf.unused u hu

/-- The page of `a` has been read into the frame `f` in the state `t`; `s₂` was the state when the entry had
been written. The page of the slot `tmp` is still in memory. -/
structure Entered (c : Config) (a : ℕ) (tmp : Slot) (s s₂ t : Kernel) : Prop where
  came : CameIn c a s t
  leaving : ∀ v, s.proc.pages.va tmp = some v → UserPage v ∧ a ≠ v ∧ (∀ i, t.proc.pages.va i ≠ some v) ∧
    has (t.pte t.proc.pgdir (vpn v)) pteP = true
  pte : s₂.pte t.proc.pgdir = t.pte t.proc.pgdir
  file : t.proc.swapFile = s.proc.swapFile

theorem Described.entered {tmp : Slot} (h : Described c s) (ha : UserPage a) (hin : s.inFile a = true)
    (hf : FreshFrame c {s.proc.pgdir} s f) (hsel : selectPageToRemove b s = .ok (tmp,s₁))
    (hread : readPageFromFile b (s₁.setPages (s₁.proc.pages.vacate tmp)).proc a s₁.buff = .ok (n,pg,q)) :
    ∃ s₂, fixPagedInPTE a f s₁.proc.pgdir (s₁.setPages (s₁.proc.pages.vacate tmp)) = .ok s₂ ∧
      s₂.proc = (s₁.setPages (s₁.proc.pages.vacate tmp)).proc ∧ s₂.buff = s₁.buff ∧
      Entered c a tmp s {s₂ with buff := pg, proc := q} ({s₂ with buff := pg, proc := q}.store f pg) := by
  obtain ⟨r,hr,h₁,hin₁,hc,hva,hdisk,htmp⟩ := h.selected hsel
  have hdir : r.proc.pgdir = s.proc.pgdir := by rw [hc.only.proc]
  have hbuff : s₁.buff = r.buff := by
    rw [← hr]
    rfl
  have hd₁ : s₁.proc.pgdir = r.proc.pgdir := by
    rw [← hr]
    rfl
  rw [hr,hbuff] at hread
  rw [hr,hd₁,hbuff]
  have hf₁ : FreshFrame c {r.proc.pgdir} r f := by
    rw [hdir]
    exact hf.cleared hc
  obtain ⟨t,ht,hfix⟩ := fixPagedInPTE_inFile ((hin₁ a).trans hin) f
  obtain ⟨hcame,hpte⟩ := h₁.pageIn ha ((hin₁ a).trans hin) hf₁ hfix hread
    (t := {r.setPte r.proc.pgdir (vpn a) (pagedIn (r.pte r.proc.pgdir (vpn a)) f) with buff := pg, proc := q}.store f pg)
    rfl rfl rfl
  have hqd : q.pgdir = r.proc.pgdir := hcame.rights.pgdir
  refine ⟨_,hfix,rfl,rfl,⟨?_,fun v hv => ?_,?_,?_⟩⟩
  · refine hcame.after (.of_cleared hc) hdisk ?_
    rw [hc.only.proc]
  · obtain ⟨hvu,hP⟩ := h.resident tmp v hv
    have hav : a ≠ v := fun he => h.not_listed hin (he ▸ hv)
    refine ⟨hvu,hav,fun i hi => ?_,?_⟩
    · have hi' : r.proc.pages.va i = some v := by
        rcases (readPageFromFile_run hread).2.1 with he | ⟨k',he⟩
        · exact he ▸ hi
        · have hik : update r.proc.pages.va k' (some a) i = some v := he ▸ hi
          rw [update_apply] at hik
          split_ifs at hik
          · exact (hav (Option.some.inj hik)).elim
          · exact hik
      rw [hva] at hi'
      obtain ⟨hne,hsv⟩ := update_none_eq_some.mp hi'
      exact hne (h.once i tmp v hsv hv)
    · change has (Kernel.pte _ q.pgdir (vpn v)) pteP = true
      rw [hqd,hpte,update_of_ne (ha.vpn_ne hvu hav.symm),hdir,has_pteP,hc.bit rfl (by decide) (by decide),
        ← has_pteP]
      exact hP
  · change Kernel.pte _ q.pgdir = Kernel.pte _ q.pgdir
    rw [hqd,hpte]
    exact h₁.wf.setPte_entries ht
  · have hq := congrArg Proc.swapFile (readPageFromFile_run hread).1
    exact hq.trans (by rw [hc.only.proc])

theorem Described.swapped_in (h : Described c s) (ha : UserPage a) (hin : s.inFile a = true)
    (hf : FreshFrame c {s.proc.pgdir} s f) (hrun : getPageSwapping c a f s = .ok s') :
    CameIn c a s s' ∧ ∃ tmp s₁, selectPageToRemove c.build s = .ok (tmp,s₁) ∧ s.proc.pages.va tmp ≠ none ∧
      ∃ r, readPageFromFile c.build (s₁.setPages (s₁.proc.pages.vacate tmp)).proc a s₁.buff = .ok r := by
  unfold getPageSwapping at hrun
  obtain ⟨⟨tmp,s₁⟩,hsel,hrun⟩ := bind_eq_ok hrun
  have hvas : s₁.proc.pages.va tmp = s.proc.pages.va tmp := by
    obtain ⟨-,-,-,-,-,-,-,hvas⟩ := h.selected hsel
    exact hvas
  dsimp only at hrun
  rw [hvas] at hrun
  obtain ⟨s₂,hfix,hrun⟩ := bind_eq_ok hrun
  obtain ⟨⟨k,pg,q⟩,hread,hrun⟩ := bind_eq_ok hrun
  have hread₁ : readPageFromFile c.build (s₁.setPages (s₁.proc.pages.vacate tmp)).proc a s₁.buff = .ok (k,pg,q) := by
    obtain ⟨hproc,hbuff⟩ := fixPagedInPTE_run hfix
    rw [hproc,hbuff] at hread
    exact hread
  obtain ⟨s₂',hfix',-,-,hent⟩ := h.entered ha hin hf hsel hread₁
  obtain rfl : s₂ = s₂' := Except.ok.inj (hfix.symm.trans hfix')
  dsimp only at hrun
  obtain ⟨⟨m,s₄⟩,hwrite,hrun⟩ := bind_eq_ok hrun
  dsimp only at hrun
  obtain ⟨s₅,hout,hrun⟩ := bind_eq_ok hrun
  cases hg : getPagePAddr (vaAddr (s.proc.pages.va tmp)) q.pgdir {s₂ with buff := pg, proc := q} with
  | none =>
    rw [hg] at hrun
    cases hrun
  | some g =>
    rw [hg] at hrun
    have hfree : kfree c g s₅ = .ok s' := hrun
    have hg' := getPagePAddr_of_some hg
    rw [show q.pgdir = ({s₂ with buff := pg, proc := q}.store f pg).proc.pgdir from rfl,hent.pte] at hg'
    cases hv : s.proc.pages.va tmp with
    | none =>
      -- an empty slot holds the address of the last page, whose frame `kfree` refuses
      rw [hv,show vaAddr none = 2^32-1 from rfl] at hg'
      exact (hent.came.described.top (hg' ▸ (kfree_ok hfree).1)).elim
    | some v =>
      rw [hv] at hg' hwrite hout
      obtain ⟨hvu,hav,hnot,hP⟩ := hent.leaving v hv
      refine ⟨hent.came.out ha hvu hav (hent.came.described.pageOut hvu hP hnot hwrite hout ?_),tmp,s₁,hsel,
        by simp [hv],_,hread₁⟩
      rw [hg'] at hfree
      exact hfree

theorem Described.direct_eq (h : Described c s) (hin : s.inFile a = true) (f : Frame) :
    ∃ s₁, fixPagedInPTE a f s.proc.pgdir s = .ok s₁ ∧ getPageDirectly c a f s =
      readPageFromFile c.build s.proc a (s₁.mem f) >>= fun r => .ok ({s₁ with proc := r.2.2}.store f r.2.1) := by
  obtain ⟨t,ht,hfix⟩ := fixPagedInPTE_inFile hin f
  have hself := h.wf.setPte_same (w := pagedIn (s.pte s.proc.pgdir (vpn a)) f) rfl ht
  refine ⟨_,hfix,?_⟩
  generalize hs₁ : s.setPte s.proc.pgdir (vpn a) (pagedIn (s.pte s.proc.pgdir (vpn a)) f) = s₁ at hfix hself
  have hproc : s₁.proc = s.proc := by
    rw [← hs₁]
    rfl
  have hdst : kernelAccess a s₁ = .ok f := by
    rw [kernelAccess_eq,hproc,hself,if_pos (has_pagedIn_pteP _ f),pteAddr_pagedIn (h.clean a hin)]
  simp only [getPageDirectly,hfix,hdst,hproc,bind,Except.bind]
  rfl

theorem Described.clearFrame {l : List Frame} (h : Described c s) (hl : s.freelist = f :: l) :
    ∃ r, s.take.store f (fun _ => 0) = r ∧ r.proc = s.proc ∧ Described c r ∧ FreshFrame c {r.proc.pgdir} r f ∧
      ∀ k, r.pte s.proc.pgdir k = s.pte s.proc.pgdir k := by
  obtain ⟨hw,hf⟩ := h.wf.take hl
  obtain ⟨hw',hf',-⟩ := hf.store (A := ∅) hw fun _ => 0
  have hpte : ∀ k, (s.take.store f fun _ => 0).pte s.proc.pgdir k = s.pte s.proc.pgdir k :=
    fun k => store_pte hf.notTree rfl _
  exact ⟨_,rfl,rfl,h.of_pte hw' rfl (fun _ _ hi => hi) hpte,hf',hpte⟩

theorem Described.getPage_came (h : Described c s) (ha : UserPage (pgRoundDown fault))
    (hin : s.inFile (pgRoundDown fault) = true) (hrun : getPageFromFile c fault s = .ok s') :
    CameIn c (pgRoundDown fault) s s' ∧ (s.proc.pages.pagesInMemoryCounter < maxPsycPages →
      ∀ k ≠ vpn (pgRoundDown fault), s'.pte s.proc.pgdir k = s.pte s.proc.pgdir k) := by
  unfold getPageFromFile at hrun
  cases hl : s.freelist with
  | nil =>
    rw [kalloc_nil hl] at hrun
    cases hrun
  | cons f l =>
    obtain ⟨r,hr,hproc,h₁,hf,hpte⟩ := h.clearFrame hl
    rw [kalloc_cons hl] at hrun
    dsimp only at hrun
    rw [hr] at hrun
    have hin₁ : r.inFile (pgRoundDown fault) = true := by
      rw [Kernel.inFile,hproc,hpte]
      exact hin
    have hafter : CameIn c (pgRoundDown fault) r s' → CameIn c (pgRoundDown fault) s s' :=
      CameIn.after (.of_pte (by rw [hproc]) (by rw [hproc]) fun k _ => hpte k) (by rw [hproc]) (by rw [hproc])
    split_ifs at hrun with hfull
    · refine ⟨hafter (h₁.swapped_in ha hin₁ hf hrun).1,fun hlt => ?_⟩
      rw [hproc] at hfull
      exact absurd hfull (not_le.mpr hlt)
    · obtain ⟨s₁,hfix,heq⟩ := h₁.direct_eq (c := c) hin₁ f
      rw [heq] at hrun
      obtain ⟨⟨n,pg,q⟩,hread,hret⟩ := bind_eq_ok hrun
      cases hret
      have hfl : s₁.freelist = r.freelist := by
        obtain ⟨t,-,hfix'⟩ := fixPagedInPTE_inFile hin₁ f
        rw [hfix'] at hfix
        cases hfix
        rfl
      obtain ⟨hcame,hent⟩ := h₁.pageIn ha hin₁ hf hfix hread (t := {s₁ with proc := q}.store f pg) rfl hfl rfl
      refine ⟨hafter hcame,fun _ k hk => ?_⟩
      rw [← hpte k,← hproc,hent,update_of_ne hk]

end PageIn

end Xv6Paging
