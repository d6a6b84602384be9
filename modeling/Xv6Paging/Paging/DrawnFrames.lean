import Xv6Paging.Library.Pool
import Xv6Paging.Paging.FrameAccounts

/-! # Which frames a growing address space writes

`allocuvm` without paging only writes to frames of its directory and to frames that it takes from the free list, also
when it fails and releases pages again. Each function is followed through one run, with the set of frames that the
directory and the running code hold.
-/
namespace Xv6Paging
open WordPage PageTree Pool

structure Held (c : Config) (S : Set Frame) (d : Frame) (X : Set Frame) (s : Kernel) : Prop where
  dir : d ∈ S
  wf : Wf c S s
  frames : s.spaceFrames {d} ⊆ X

/-- Code that holds the frames in `X`, and in the end those in `X'`, has changed the user part of `d`. -/
structure Alters (c : Config) (S : Set Frame) (d : Frame) (X X' : Set Frame) (s s' : Kernel) : Prop where
  draws : Draws X X' s.freelist s'.freelist s.mem s'.mem
  held : Held c S d X' s'
  kernel : ∀ k, x86.own k = false → s'.pte d k = s.pte d k
  others : Same (S \ {d}) ∅ s s'
  proc : s'.proc = {s.proc with pages := s'.proc.pages}

variable {c : Config} {S X X' X'' : Set Frame} {s s' s'' : Kernel} {d t f : Frame} {k : Index} {w : Word}
  {l : List Frame} {a : ℕ}

namespace Held

theorem dir_mem (h : Held c S d X s) : d ∈ X := h.frames ⟨.dir d,rfl,rfl⟩

theorem table_mem (h : Held c S d X s) (ht : s.table d k = some t) : t ∈ X := h.frames ⟨.table d k.1,rfl,ht⟩

theorem page_mem (h : Held c S d X s) (ho : x86.own k = true) (hp : has (s.pte d k) pteP = true) :
    pteAddr (s.pte d k) ∈ X := by
  refine h.frames ⟨.leaf d k,rfl,?_⟩
  simp only [Use.frame,ho,if_true]
  exact link_eq_some.mpr ⟨hp,rfl⟩

theorem alone (h : Held c S d X s) : Wf c {d} s := h.wf.subset (Set.singleton_subset_iff.mpr h.dir)

end Held

namespace Alters

theorem refl (h : Held c S d X s) : Alters c S d X X s s := ⟨.refl _ _ _,h,fun _ _ => rfl,Keeps.refl _,rfl⟩

theorem trans (h : Alters c S d X X' s s') (h' : Alters c S d X' X'' s' s'') : Alters c S d X X'' s s'' :=
  ⟨h.draws.trans h'.draws,h'.held,fun k hk => (h'.kernel k hk).trans (h.kernel k hk),h.others.trans h'.others,
    by rw [h'.proc,h.proc]⟩

theorem congr (h : Alters c S d X X' s s') (hm : s''.mem = s'.mem) (hf : s''.freelist = s'.freelist)
    (hp : s''.proc = {s'.proc with pages := s''.proc.pages}) : Alters c S d X X' s s'' := by
  refine ⟨?_,⟨h.held.dir,?_,?_⟩,fun k hk => ?_,?_,by rw [hp,h.proc]⟩
  · rw [hm,hf]
    exact h.draws
  · rw [Wf,hm,hf]
    exact h.held.wf
  · rw [Kernel.spaceFrames,hm]
    exact h.held.frames
  · rw [Kernel.pte,hm]
    exact h.kernel k hk
  · rw [Same,hm]
    exact h.others

end Alters

section Primitives

section
variable (h : Held c S d X s)
include h

theorem Held.take (hl : s.freelist = f :: l) : Alters c S d X (insert f X) s s.take := by
  obtain ⟨hw,-⟩ := h.wf.take hl
  refine ⟨?_,⟨h.dir,hw,h.frames.trans (Set.subset_insert f X)⟩,fun _ _ => rfl,Keeps.refl _,rfl⟩
  rw [hl,Kernel.take,hl]
  exact .take X f l s.mem

theorem Held.store (hf : FreshFrame c S s f) (hX : f ∈ X) (pg : Page) : Alters c S d X X s (s.store f pg) := by
  obtain ⟨hw,-,hsame⟩ := hf.store (A := ∅) h.wf pg
  refine ⟨.write hX _ _ pg,⟨h.dir,hw,?_⟩,fun k _ => store_pte hf.notTree h.dir pg,hsame.subset Set.sdiff_subset,rfl⟩
  have hfd := hf.subset (Set.singleton_subset_iff.mpr h.dir)
  have hu : (s.store f pg).spaceFrames {d} = s.spaceFrames {d} := used_congr (frame_write hfd.notTree pg)
  rw [hu]
  exact h.frames

theorem Held.free (hf : FreshFrame c S s f) (hX : f ∈ X) : Alters c S d X X s (s.free f) := by
  obtain ⟨hw,-⟩ := hf.free (A := ∅) h.wf
  have hst := h.store hf hX fun _ => 1
  exact ⟨hst.draws.trans (.give hX _ _),⟨h.dir,hw,hst.held.frames⟩,hst.kernel,hst.others,rfl⟩

theorem Held.grow (ht : s.table d k = none) (hl : s.freelist = t :: l) :
    Alters c S d X (insert t X) s (s.grow d k t) := by
  obtain ⟨hwt,hft⟩ := h.alone.take hl
  have hd : d ∈ insert t X := Set.mem_insert_of_mem t h.dir_mem
  have hsame : Same S ∅ s (s.grow d k t) := h.wf.same_grow h.dir ht hl
  refine ⟨?_,⟨h.dir,h.wf.grow h.dir ht hl,?_⟩,fun k' _ => hsame.entry d h.dir k' (Set.notMem_empty _),
    hsame.subset Set.sdiff_subset,rfl⟩
  · refine (h.take hl).draws.trans ?_
    exact (Draws.write (Set.mem_insert t X) _ _ fun _ => 0).trans (.write hd _ _ _)
  · have hu : (s.grow d k t).spaceFrames {d} = insert t (s.spaceFrames {d}) :=
      hwt.used_linkTable hft rfl ht (link_tableWord t)
    rw [hu]
    exact Set.insert_subset_insert h.frames

theorem Held.setPte (ho : x86.own k = true) (ht : s.table d k = some t)
    (hwf : Wf c S (s.setPte d k w)) (hw : ∀ f, x86.link w = some f → f ∈ X) :
    Alters c S d X X s (s.setPte d k w) := by
  have hsame : Same S {(d,k)} s (s.setPte d k w) := h.wf.same_setPte h.dir
  refine ⟨?_,⟨h.dir,hwf,?_⟩,fun k' hk' => hsame.entry d h.dir k' ?_,hsame.elsewhere,rfl⟩
  · simp only [Kernel.setPte]
    rw [setEntry_eq ht]
    exact .write (h.table_mem ht) _ _ _
  · intro f hf
    have heq := h.alone.used_setEntry rfl ht ho (w := w)
    have hmem : f ∈ s.spaceFrames {d} ∪ {f | x86.link w = some f} := by
      rw [Kernel.spaceFrames,← heq]
      exact Or.inl hf
    rcases hmem with hf | hf
    · exact h.frames hf
    · exact hw f hf
  · intro he
    rw [(Prod.mk.inj he).2,ho] at hk'
    cases hk'

theorem Held.storePage (ho : x86.own k = true) (hp : has (s.pte d k) pteP = true) (pg : Page) :
    Alters c S d X X s (s.store (pteAddr (s.pte d k)) pg) := by
  have hl : x86.link (x86.entry s.mem d k) = some (pteAddr (s.pte d k)) := link_eq_some.mpr ⟨hp,rfl⟩
  have hn : NotTree x86 S s.mem (pteAddr (s.pte d k)) := h.wf.leaf_notTree h.dir ho hl
  obtain ⟨hw,hsame,-,-⟩ := h.wf.store_page h.dir ho hp pg
  refine ⟨.write (h.page_mem ho hp) _ _ pg,⟨h.dir,hw,?_⟩,fun k _ => store_pte hn h.dir pg,hsame.elsewhere,rfl⟩
  have hnd : NotTree x86 {d} s.mem (pteAddr (s.pte d k)) := h.alone.leaf_notTree rfl ho hl
  have hu : (s.store (pteAddr (s.pte d k)) pg).spaceFrames {d} = s.spaceFrames {d} := used_congr (frame_write hnd pg)
  rw [hu]
  exact h.frames

theorem Held.release (ho : x86.own k = true) (b : Build) : Alters c S d X X s (s.release b d k) := by
  have hzero : ∀ f, x86.link 0#32 = some f → f ∈ X := by simp [x86.link_zero]
  unfold Kernel.release
  split_ifs with hp hg
  · obtain ⟨t,ht⟩ := table_of_has hp
    obtain ⟨hw,hf⟩ := h.wf.unmap h.dir ho hp (w := 0) (by decide)
    have hset := h.setPte ho ht hw hzero
    exact hset.trans (hset.held.free hf (h.page_mem ho hp))
  · obtain ⟨t,ht⟩ := table_of_has hg.2
    exact h.setPte ho ht (h.wf.setPte_flags h.dir ht (Or.inl (by decide))) hzero
  · exact .refl h

end

end Primitives

section Dealloc
variable {oldsz newsz : ℕ}

theorem deallocuvmLoop_alters (hsz : oldsz ≤ kernBase) (fuel : ℕ) (h : Held c S d X s)
    (hrun : deallocuvmLoop c d oldsz fuel a s = .ok s') :
    Alters c S d X X s s' ∧ ∀ f, FreshFrame c S s f → FreshFrame c S s' f := by
  induction fuel generalizing a s with
  | zero =>
    unfold deallocuvmLoop at hrun
    cases hrun
  | succ fuel ih =>
    unfold deallocuvmLoop at hrun
    split_ifs at hrun with hlt
    · rw [walkpgdir_false] at hrun
      cases ht : s.table d (vpn a) with
      | none =>
        rw [ht] at hrun
        exact ih h hrun
      | some t =>
        have hk : kernBase < 2^32 := by decide
        have ho : x86.own (vpn a) = true := (own_iff (by omega)).mpr (by omega)
        rw [ht] at hrun
        simp only [Option.map_some] at hrun
        obtain ⟨s₁,hpage,hrun⟩ := bind_eq_ok hrun
        rw [deallocPage_eq h.wf h.dir ho ht] at hpage
        unfold checkFound at hpage
        split_ifs at hpage
        cases hpage
        generalize (forgetPage c.build (decide (s.proc.pgdir = d)) a (s.pte d (vpn a)) s.proc.pages).1 = p at hrun
        have hrel : Alters c S d X X s ((s.release c.build d (vpn a)).setPages p) :=
          (h.release ho c.build).congr rfl rfl rfl
        obtain ⟨-,-,-,-,hfresh⟩ := h.wf.release h.dir ho c.build
        obtain ⟨hrest,hfresh'⟩ := ih hrel.held hrun
        exact ⟨hrel.trans hrest,fun f hf => hfresh' f (hfresh f hf)⟩
    · cases hrun
      exact ⟨.refl h,fun _ hf => hf⟩

theorem deallocuvm_alters (hsz : oldsz ≤ kernBase) (h : Held c S d X s) {n : ℕ}
    (hrun : deallocuvm c d oldsz newsz s = .ok (n,s')) :
    Alters c S d X X s s' ∧ ∀ f, FreshFrame c S s f → FreshFrame c S s' f := by
  unfold deallocuvm at hrun
  split_ifs at hrun
  · cases hrun
    exact ⟨.refl h,fun _ hf => hf⟩
  · obtain ⟨s₁,hloop,hrun⟩ := bind_eq_ok hrun
    cases hrun
    exact deallocuvmLoop_alters hsz _ h hloop

end Dealloc

section Alloc
variable {oldsz newsz : ℕ} {r : ℤ}

theorem Held.drawn {o : Option Frame} {q : Kernel} (h : Held c S d X s) (hq : Drawn c S s o q) :
    ∃ X', Alters c S d X X' s q ∧ ∀ f ∈ o, f ∈ X' := by
  obtain ⟨rfl,rfl⟩ | ⟨f,l,rfl,hl,rfl⟩ := hq.origin
  · exact ⟨X,.refl h,fun f hf => (Option.not_mem_none f hf).elim⟩
  · obtain ⟨-,hf⟩ := h.wf.take hl
    have htake := h.take hl
    refine ⟨insert f X,htake.trans (htake.held.store hf (Set.mem_insert f X) fun _ => 0),fun g hg => ?_⟩
    obtain rfl := Option.mem_some_iff.mp hg
    exact Set.mem_insert f X

theorem Held.opened (h : Held c S d X s) (ho : Opened c S d k t s s') : ∃ X', Alters c S d X X' s s' := by
  obtain rfl | ⟨ht,l,hl,rfl⟩ := ho.origin
  · exact ⟨X,.refl h⟩
  · exact ⟨insert t X,h.grow ht hl⟩

theorem Held.giveBack {o : Option Frame} (h : Held c S d X s) (hf : ∀ f ∈ o, FreshFrame c S s f) (hX : ∀ f ∈ o, f ∈ X) :
    Alters c S d X X s (s.giveBack o) := by
  cases o with
  | none => exact .refl h
  | some f => exact h.free (hf f rfl) (hX f rfl)

theorem allocPage_alters (hu : UserPage a) (hsz : newsz ≤ kernBase) (h : Held c S d X s)
    (hrun : allocPage c d oldsz newsz a s = .ok (r,s')) : ∃ X', Alters c S d X X' s s' := by
  obtain ⟨o,q,hq,-,he⟩ | ⟨f,q,t,s₁,hq,ho,he⟩ := allocPage_cases oldsz newsz h.wf h.dir hu
  · rw [he] at hrun
    obtain ⟨⟨n,s₁⟩,hdealloc,hrun⟩ := bind_eq_ok hrun
    obtain ⟨X',hdraw,hmem⟩ := h.drawn hq
    have hstarve : Alters c S d X X' s q.starve := hdraw.congr rfl rfl rfl
    obtain ⟨hdrop,hkept⟩ := deallocuvm_alters hsz hstarve.held hdealloc
    have hback : ∀ f ∈ o, FreshFrame c S s₁ f := fun f hf => hkept f (hq.fresh f hf).1
    rw [putBack_eq hback] at hrun
    cases hrun
    exact ⟨X',hstarve.trans (hdrop.trans (hdrop.held.giveBack hback hmem))⟩
  · rw [he] at hrun
    split_ifs at hrun
    cases hrun
    obtain ⟨X₁,hdraw,hmem⟩ := h.drawn hq
    obtain ⟨X',hopen⟩ := hdraw.held.opened ho
    obtain ⟨hwf,-⟩ := hq.entries ho h.dir rfl
    refine ⟨X',hdraw.trans (hopen.trans (hopen.held.setPte hu.own ho.table hwf fun g hg => ?_))⟩
    obtain ⟨-,rfl⟩ := link_eq_some.mp hg
    rw [addr_mapped]
    exact hopen.draws.subset (hmem f rfl)

theorem oldallocuvmLoop_alters (hsz : newsz ≤ kernBase) (fuel : ℕ) (ha : pgSize ∣ a) (h : Held c S d X s) {n : ℕ}
    (hrun : oldallocuvmLoop c d oldsz newsz fuel a s = .ok (n,s')) : ∃ X', Alters c S d X X' s s' := by
  induction fuel generalizing a s X with
  | zero => cases hrun
  | succ fuel ih =>
    rw [oldallocuvmLoop] at hrun
    split_ifs at hrun with hlt
    · obtain ⟨⟨r,s₁⟩,hpage,hrun⟩ := bind_eq_ok hrun
      obtain ⟨X',halt⟩ := allocPage_alters ⟨ha,hlt.trans_le hsz⟩ hsz h hpage
      dsimp only at hrun
      split_ifs at hrun
      · cases hrun
        exact ⟨X',halt⟩
      · obtain ⟨X'',hrest⟩ := ih (Nat.dvd_add ha (Nat.dvd_refl _)) halt.held hrun
        exact ⟨X'',halt.trans hrest⟩
    · cases hrun
      exact ⟨X,.refl h⟩

theorem oldallocuvm_alters (h : Held c S d X s) {n : ℕ} (hrun : oldallocuvm c d oldsz newsz s = .ok (n,s')) :
    ∃ X', Alters c S d X X' s s' := by
  unfold oldallocuvm at hrun
  split_ifs at hrun with hk hlt
  · cases hrun
    exact ⟨X,.refl h⟩
  · cases hrun
    exact ⟨X,.refl h⟩
  · exact oldallocuvmLoop_alters (not_le.mp hk).le _ (pgSize_dvd_pgRoundUp _) h hrun

end Alloc

end Xv6Paging
