import Xv6Paging.Library.TreeFrames
import Xv6Paging.Paging.Growth

/-! # No frame is lost

Which frames are free or belong to an address space, and that the steps of the kernel's memory functions
move frames between the two without losing one. `freevm` returns what its directory holds.
-/
namespace Xv6Paging
open WordPage PageTree

variable {c : Config} {S : Set Frame} {s s' : Kernel} {d t f : Frame} {k : Index} {w : Word} {l : List Frame}

def Kernel.freeFrames (s : Kernel) : Set Frame := {f | f ∈ s.freelist}

/-- The frames of the address spaces in `S`: directories, page tables and user pages. -/
def Kernel.spaceFrames (s : Kernel) (S : Set Frame) : Set Frame := used x86 S s.mem

def Kernel.accounted (s : Kernel) (S : Set Frame) : Set Frame := PageTree.accounted x86 S s.freelist s.mem

theorem accounted_eq : s.accounted S = s.freeFrames ∪ s.spaceFrames S := rfl

theorem accounted_congr (hm : s'.mem = s.mem) (hf : s'.freelist = s.freelist) : s'.accounted S = s.accounted S := by
  rw [Kernel.accounted,Kernel.accounted,hm,hf]

theorem accounted_of_take (hl : s.freelist = f :: l) : s.accounted S = insert f (s.take.accounted S) := by
  have ht : s.take.freelist = l := by rw [Kernel.take,hl,List.tail_cons]
  rw [Kernel.accounted,Kernel.accounted,hl,ht]
  exact accounted_take

theorem accounted_store (hf : NotTree x86 S s.mem f) (pg : Page) : (s.store f pg).accounted S = s.accounted S := by
  have hu := used_congr (frame_write hf pg)
  rw [accounted_eq,accounted_eq]
  exact congrArg (s.freeFrames ∪ ·) hu

theorem Wf.accounted_grow (h : Wf c S s) (hd : d ∈ S) (ht : s.table d k = none) (hl : s.freelist = t :: l) :
    (s.grow d k t).accounted S = s.accounted S := by
  obtain ⟨hw,hf⟩ := h.take hl
  have hu := hw.used_linkTable hf hd ht (link_tableWord t)
  rw [accounted_of_take hl,accounted_eq,accounted_eq,← Set.union_insert]
  exact congrArg (s.take.freeFrames ∪ ·) hu

theorem Opened.accounted (ho : Opened c S d k t s s₁) {T : Set Frame} (h : Wf c T s) (hd : d ∈ T) :
    s₁.accounted T = s.accounted T := by
  obtain rfl | ⟨ht,l,hl,rfl⟩ := ho.origin
  · rfl
  · exact h.accounted_grow hd ht hl

theorem FreshFrame.accounted_free (hf : FreshFrame c S s f) : (s.free f).accounted S = insert f (s.accounted S) := by
  rw [← accounted_store hf.notTree fun _ => 1]
  exact accounted_take

section
variable (h : Wf c S s) (hd : d ∈ S)
include h hd

theorem Wf.accounted_setPte (ht : s.table d k = some t) (ho : x86.own k = true) :
    (s.setPte d k w).accounted S ∪ {f | x86.link (s.pte d k) = some f} = s.accounted S ∪ {f | x86.link w = some f} := by
  rw [accounted_eq,accounted_eq,Set.union_assoc,Set.union_assoc]
  exact congrArg (s.freeFrames ∪ ·) (h.used_setEntry hd ht ho)

theorem Wf.accounted_map (ht : s.table d k = some t) (ho : x86.own k = true)
    (hold : has (s.pte d k) pteP = false) (hnew : x86.link w = some f) :
    (s.setPte d k w).accounted S = insert f (s.accounted S) := by
  have heq := h.accounted_setPte hd ht ho (w := w)
  rw [link_eq_none.mpr hold,hnew] at heq
  simp only [reduceCtorEq,Set.ofPred_false,Set.union_empty,Option.some.injEq] at heq
  rw [heq,Set.insert_eq,Set.union_comm]
  congr 1
  ext g
  exact eq_comm

theorem Wf.accounted_flags (ht : s.table d k = some t)
    (hl : x86.link w = x86.link (s.pte d k)) : (s.setPte d k w).accounted S = s.accounted S := by
  rw [accounted_eq,accounted_eq]
  refine congrArg (s.freeFrames ∪ ·) (used_congr fun u hu => ?_)
  by_cases hne : u = .leaf d k
  · subst hne
    have hnew : x86.link (x86.entry (x86.setEntry s.mem d k w) d k) = x86.link (x86.entry s.mem d k) := by
      rw [h.entry_setEntry_same hd ht]
      exact hl
    simp only [Use.frame,Kernel.setPte,hnew]
  · exact h.frame_setEntry_of_ne hd hu hne

theorem Wf.accounted_foreign (ho : x86.own k = false) : (s.setPte d k w).accounted S = s.accounted S :=
  congrArg (s.freeFrames ∪ ·) (h.used_setEntry_foreign hd ho)

theorem Wf.accounted_unmap (ho : x86.own k = true) (hp : has (s.pte d k) pteP = true)
    (hw : has w pteP = false) :
    ((s.setPte d k w).free (pteAddr (s.pte d k))).accounted S = s.accounted S := by
  obtain ⟨t,ht⟩ := table_of_has hp
  obtain ⟨-,hf⟩ := h.unmap hd ho hp hw
  have hmem : pteAddr (s.pte d k) ∈ s.accounted S := by
    refine Or.inr ⟨.leaf d k,hd,?_⟩
    simp only [Use.frame,ho,if_true]
    exact link_eq_some.mpr ⟨hp,rfl⟩
  have heq := h.accounted_setPte hd ht ho (w := w)
  have hold : {f | x86.link (s.pte d k) = some f} = {pteAddr (s.pte d k)} := by
    ext f
    rw [link_eq_some.mpr ⟨hp,rfl⟩,Set.mem_singleton_iff,Set.mem_ofPred_eq,Option.some.injEq,eq_comm]
  rw [hold,link_eq_none.mpr hw] at heq
  simp only [reduceCtorEq,Set.ofPred_false,Set.union_empty] at heq
  rw [hf.accounted_free,Set.insert_eq,Set.union_comm,heq]

theorem Wf.accounted_release (ho : x86.own k = true) (b : Build) :
    (s.release b d k).accounted S = s.accounted S := by
  unfold Kernel.release
  split_ifs with hp hg
  · exact h.accounted_unmap hd ho hp (by decide)
  · obtain ⟨t,ht⟩ := table_of_has hg.2
    have hnone : x86.link (s.pte d k) = none := link_eq_none.mpr (by simpa using hp)
    exact h.accounted_flags hd ht (by rw [hnone]; decide)
  · rfl

end

def Returns (s s' : Kernel) : Prop := ∃ l, s'.freelist = l ++ s.freelist

theorem Returns.refl (s : Kernel) : Returns s s := ⟨[],rfl⟩

theorem Returns.trans {s₁ s₂ s₃ : Kernel} (h : Returns s₁ s₂) (h' : Returns s₂ s₃) : Returns s₁ s₃ := by
  obtain ⟨l,hl⟩ := h
  obtain ⟨l',hl'⟩ := h'
  exact ⟨l' ++ l,by rw [hl',hl,List.append_assoc]⟩

theorem release_returns (b : Build) : Returns s (s.release b d k) := by
  unfold Kernel.release
  split_ifs
  · exact ⟨[_],rfl⟩
  · exact .refl s
  · exact .refl s

section Dealloc
variable {oldsz newsz a : ℕ}

structure Conserved (c : Config) (S : Set Frame) (s s' : Kernel) : Prop where
  wf : Wf c S s'
  accounted : s'.accounted S = s.accounted S
  returns : Returns s s'

theorem deallocuvmLoop_conserved (hd : d ∈ S) (hsz : oldsz ≤ kernBase) (fuel : ℕ) (h : Wf c S s)
    (hrun : deallocuvmLoop c d oldsz fuel a s = .ok s') : Conserved c S s s' := by
  induction fuel generalizing a s with
  | zero =>
    unfold deallocuvmLoop at hrun
    cases hrun
  | succ fuel ih =>
    unfold deallocuvmLoop at hrun
    split_ifs at hrun with hlt
    · rw [walkpgdir_false] at hrun
      cases ht : s.table d (vpn a) with
      | none =>
        rw [ht] at hrun
        exact ih h hrun
      | some t =>
        have hk : kernBase < 2^32 := by decide
        have ho : x86.own (vpn a) = true := (own_iff (by omega)).mpr (by omega)
        rw [ht] at hrun
        simp only [Option.map_some] at hrun
        obtain ⟨s₁,hpage,hrun⟩ := bind_eq_ok hrun
        rw [deallocPage_eq h hd ho ht] at hpage
        unfold checkFound at hpage
        split_ifs at hpage
        cases hpage
        obtain ⟨hw,-,-,-,-⟩ := h.release hd ho c.build
        generalize (forgetPage c.build (decide (s.proc.pgdir = d)) a (s.pte d (vpn a)) s.proc.pages).1 = p at hrun
        have hw' : Wf c S ((s.release c.build d (vpn a)).setPages p) := hw
        have hrest := ih hw' hrun
        exact ⟨hrest.wf,hrest.accounted.trans (h.accounted_release hd ho c.build),
          (release_returns c.build).trans hrest.returns⟩
    · cases hrun
      exact ⟨h,rfl,.refl _⟩

theorem deallocuvm_conserved (hd : d ∈ S) (hsz : oldsz ≤ kernBase) (h : Wf c S s) {n : ℕ}
    (hrun : deallocuvm c d oldsz newsz s = .ok (n,s')) : Conserved c S s s' := by
  unfold deallocuvm at hrun
  split_ifs at hrun
  · cases hrun
    exact ⟨h,rfl,.refl s⟩
  · obtain ⟨s₁,hloop,hrun⟩ := bind_eq_ok hrun
    cases hrun
    exact deallocuvmLoop_conserved hd hsz _ h hloop

end Dealloc

section Freevm
variable {s₁ : Kernel}

theorem exists_vpn_eq (ho : x86.own k = true) : ∃ b, b < kernBase ∧ vpn b = k := by
  obtain ⟨i,j⟩ := k
  have hi : i.val < 512 := by simpa [x86] using ho
  refine ⟨i.val*2^22+j.val*2^12,?_,?_⟩
  · have hb : kernBase = 2^31 := by decide
    omega
  · refine Prod.ext (Fin.ext ?_) (Fin.ext ?_)
    · rw [vpn,pdx_val]
      dsimp only
      omega
    · rw [vpn,ptx_val]
      dsimp only
      omega

theorem freeTables_returns (is : List (Fin 1024)) (hdir : s.mem d = s₁.mem d)
    (hne : ∀ i, x86.table s₁.mem d i ≠ some d)
    (hrun : is.foldlM (fun s i =>
      if has (s.readPte (d,i)) pteP then kfree c (pteAddr (s.readPte (d,i))) s else .ok s) s = .ok s') :
    ∃ l, s'.freelist = l ++ s.freelist ∧ ∀ f, f ∈ l ↔ ∃ i ∈ is, x86.table s₁.mem d i = some f := by
  induction is generalizing s with
  | nil =>
    cases hrun
    exact ⟨[],rfl,by simp⟩
  | cons i is ih =>
    rw [List.foldlM_cons] at hrun
    have hread : s.readPte (d,i) = readWord (s₁.mem d) i := by rw [Kernel.readPte,hdir]
    rw [hread] at hrun
    by_cases hp : has (readWord (s₁.mem d) i) pteP = true
    · have ht : x86.table s₁.mem d i = some (pteAddr (readWord (s₁.mem d) i)) := link_eq_some.mpr ⟨hp,rfl⟩
      rw [if_pos hp] at hrun
      unfold kfree at hrun
      split_ifs at hrun
      · cases hrun
      · have hdne : d ≠ pteAddr (readWord (s₁.mem d) i) := by
          intro he
          rw [← he] at ht
          exact hne i ht
        obtain ⟨l,hl,hmem⟩ := ih (s := s.free (pteAddr (readWord (s₁.mem d) i)))
          ((Function.update_of_ne hdne _ _).trans hdir) hrun
        refine ⟨l ++ [pteAddr (readWord (s₁.mem d) i)],by rw [hl]; simp [Kernel.free],?_⟩
        intro f
        rw [List.mem_append,hmem,List.exists_mem_cons_iff,ht,List.mem_singleton,Option.some.injEq,or_comm,
          eq_comm (a := f)]
    · have ht : x86.table s₁.mem d i = none := link_eq_none.mpr (by simpa using hp)
      rw [if_neg hp] at hrun
      obtain ⟨l,hl,hmem⟩ := ih hdir hrun
      refine ⟨l,hl,?_⟩
      intro f
      rw [hmem,List.exists_mem_cons_iff,ht]
      simp

theorem freevm_returns (h : Wf c S s) (hd : d ∈ S) (hrun : freevm c d s = .ok s') :
    Wf c (S \ {d}) s' ∧ Same (S \ {d}) ∅ s s' ∧
      ∃ l, s'.freelist = l ++ s.freelist ∧ l.Nodup ∧ ∀ f, f ∈ l ↔ f ∈ s.spaceFrames {d} := by
  have hcheck : ∀ n (r : Kernel), Outcome (checkFound n r) (fun _ => True) (fun _ => True) := by
    intro n r
    unfold checkFound
    split_ifs
    · exact .error trivial
    · exact .ok trivial
  have hspec : Outcome (freevm c d s) (fun s' => Wf c (S \ {d}) s' ∧ Same (S \ {d}) ∅ s s' ∧ OnlyPages s s' ∧
      ∃ e, kernBase ≤ e ∧ True) (fun _ => True) := by
    refine freevm_spec (M := fun _ _ => True) h hd ?_ trivial
    intro b p _ _ _ _
    exact hcheck _ _
  obtain ⟨hw,hsame,-⟩ := hspec.of_ok hrun
  refine ⟨hw,hsame,?_⟩
  have h1 : Wf c {d} s := h.subset (Set.singleton_subset_iff.mpr hd)
  obtain ⟨⟨n,s₁⟩,hdealloc,hrun⟩ := bind_eq_ok hrun
  obtain ⟨s₂,htables,hrun⟩ := bind_eq_ok hrun
  obtain ⟨hwf₁,hacc₁,l₁,hl₁⟩ := deallocuvm_conserved (Set.mem_singleton d) le_rfl h1 hdealloc
  have hne : ∀ i, x86.table s₁.mem d i ≠ some d := by
    intro i ht
    exact hwf₁.dir_ne_table (Set.mem_singleton d) (Set.mem_singleton d) ht rfl
  obtain ⟨l₂,hl₂,hmem₂⟩ := freeTables_returns _ rfl hne htables
  have hlist : s'.freelist = d :: (l₂ ++ (l₁ ++ s.freelist)) := by
    unfold kfree at hrun
    split_ifs at hrun
    cases hrun
    rw [← hl₁,← hl₂]
    rfl
  have hnd := hw.free_nodup
  rw [hlist,show d :: (l₂ ++ (l₁ ++ s.freelist)) = (d :: (l₂ ++ l₁)) ++ s.freelist by simp] at hnd
  obtain ⟨hnodup,-,hdisj⟩ := List.nodup_append'.mp hnd
  refine ⟨d :: (l₂ ++ l₁),by rw [hlist]; simp,hnodup,?_⟩
  -- After the first loop the address space consists of the directory and the page tables.
  have hleft : s₁.spaceFrames {d} = {f | f = d ∨ f ∈ l₂} := by
    have hrel : Outcome (deallocuvm c d kernBase 0 s) (fun r => r.1 = 0 ∧ ∃ e, kernBase ≤ e ∧
        Released c {d} d (pgRoundUp 0) kernBase s e r.2 ∧ True) (fun _ => True) := by
      refine deallocuvm_spec (M := fun _ _ => True) h1 (Set.mem_singleton d) le_rfl (by decide) ?_ trivial
      intro b p _ _ _ _ _
      exact hcheck _ _
    obtain ⟨-,e,he,hreleased,-⟩ := hrel.of_ok hdealloc
    have hgone : ∀ k, x86.own k = true → has (s₁.pte d k) pteP = false := by
      intro k ho
      obtain ⟨b,hb,rfl⟩ := exists_vpn_eq ho
      have hzero : pgRoundUp 0 = 0 := by decide
      rw [hreleased.gone b (by rw [hzero]; exact Nat.zero_le b) (Nat.lt_of_lt_of_le hb he) hb]
      exact has_erased c.build _
    ext f
    constructor
    · rintro ⟨u,hu,hf⟩
      cases u with
      | dir d' =>
        cases hf
        exact Or.inl hu
      | table d' i =>
        obtain rfl : d' = d := hu
        exact Or.inr ((hmem₂ f).mpr ⟨i,List.mem_finRange i,hf⟩)
      | leaf d' k =>
        obtain rfl : d' = d := hu
        simp only [Use.frame] at hf
        split_ifs at hf with ho
        have hp : has (s₁.pte d' k) pteP = true := (link_eq_some.mp hf).1
        rw [hgone k ho] at hp
        cases hp
    · rintro (rfl | hf)
      · exact ⟨.dir f,rfl,rfl⟩
      · obtain ⟨i,-,hi⟩ := (hmem₂ f).mp hf
        exact ⟨.table d i,rfl,hi⟩
  intro f
  have hmem : f ∈ s₁.accounted {d} ↔ f ∈ s.accounted {d} := by rw [hacc₁]
  rw [accounted_eq,accounted_eq,hleft] at hmem
  have hfree₁ : f ∈ s₁.freeFrames ↔ f ∈ l₁ ∨ f ∈ s.freelist := by
    change f ∈ s₁.freelist ↔ _
    rw [hl₁,List.mem_append]
  have hout : f ∈ s.spaceFrames {d} → f ∉ s.freelist := by
    rintro ⟨u,hu,hf⟩
    exact h1.not_free u f hu hf
  have hfree : f ∈ s.freeFrames ↔ f ∈ s.freelist := Iff.rfl
  have hdis : f ∈ d :: (l₂ ++ l₁) → f ∉ s.freelist := fun hf => hdisj hf
  simp only [Set.mem_union,Set.mem_ofPred_eq,List.mem_cons,List.mem_append,hfree₁,hfree] at hmem hdis ⊢
  constructor
  · intro hf
    refine (hmem.mp ?_).resolve_left (hdis hf)
    obtain rfl | hf | hf := hf
    · exact Or.inr (Or.inl rfl)
    · exact Or.inr (Or.inr hf)
    · exact Or.inl (Or.inl hf)
  · intro hf
    obtain (hl | hl) | hl | hl := hmem.mpr (Or.inr hf)
    · exact Or.inr (Or.inr hl)
    · exact (hout hf hl).elim
    · exact Or.inl hl
    · exact Or.inr (Or.inl hl)

end Freevm

end Xv6Paging
