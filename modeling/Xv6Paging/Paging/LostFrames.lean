import Xv6Paging.Library.Runs
import Xv6Paging.Paging.CopySpace
import Xv6Paging.Paging.GrowthAccounts

/-! # Failed calls and the free list

Runs of `setupkvm`, `allocuvm`, `copyuvm` and `freevm` for any processes, while the rest of the kernel takes
and returns frames, so that any of them can find the free list empty at any of its calls of `kalloc`. A call
that fails gives its frames back, but for one case: `copyuvm` has taken the frame of a page and then finds no
frame for the page table of the copy. That frame is in no address space yet and is not returned.
-/
namespace Xv6Paging
open WordPage PageTree

structure Spaces where
  kernel : Kernel
  dirs : Set Frame

/-- The calls; `kalloc` and `kfree` are those of the rest of the kernel. -/
inductive MemCall
  | setupkvm
  | allocuvm (pgdir : Frame) (oldsz newsz : ℕ)
  | copyuvm (pgdir : Frame) (sz : ℕ)
  | freevm (pgdir : Frame)
  | kalloc
  | kfree (f : Frame)

inductive Reply
  | pointer (f : Option Frame)
  | size (n : ℕ)
  | void

def MemCall.run (c : Config) : MemCall → Kernel → Except Fault (Reply × Kernel)
  | .setupkvm, s => do
    let (d,s) ← Xv6Paging.setupkvm c s
    return (.pointer d,s)
  | .allocuvm pgdir oldsz newsz, s => do
    let (n,s) ← Xv6Paging.allocuvm c pgdir oldsz newsz s
    return (.size n,s)
  | .copyuvm pgdir sz, s => do
    let (d,s) ← Xv6Paging.copyuvm c pgdir sz s
    return (.pointer d,s)
  | .freevm pgdir, s => do
    let s ← Xv6Paging.freevm c pgdir s
    return (.void,s)
  | .kalloc, s => .ok (.pointer (Xv6Paging.kalloc s).1,(Xv6Paging.kalloc s).2)
  | .kfree f, s => do
    let s ← Xv6Paging.kfree c f s
    return (.void,s)

def MemCall.dirs (S : Set Frame) : MemCall → Reply → Set Frame
  | .setupkvm, .pointer (some d) => insert d S
  | .copyuvm _ _, .pointer (some d) => insert d S
  | .freevm pgdir, _ => S \ {pgdir}
  | _, _ => S

structure Request where
  proc : Proc
  call : MemCall

namespace Spaces

/-- The memory as the process of the request finds it. -/
def entered (s : Spaces) (q : Request) : Kernel := {s.kernel with proc := q.proc}

def step (c : Config) (s : Spaces) (q : Request) : Option Spaces :=
  match q.call.run c (s.entered q) with
  | .ok (r,k) => some ⟨k,q.call.dirs s.dirs r⟩
  | .error _ => none

/-- The directories that a call needs exist, and the frame that is given back belongs to nobody. -/
def Allowed (c : Config) (S : Set Frame) (s : Kernel) : MemCall → Prop
  | .setupkvm => True
  | .allocuvm pgdir _ _ => pgdir ∈ S
  | .copyuvm pgdir sz => pgdir ∈ S ∧ sz ≤ kernBase
  | .freevm pgdir => pgdir ∈ S
  | .kalloc => True
  | .kfree f => FreshFrame c S s f

structure Proper (c : Config) (s : Spaces) (q : Request) : Prop where
  pgdir : q.proc.pgdir ∈ s.dirs
  lists : q.proc.pages.listsUser
  allowed : Allowed c s.dirs (s.entered q) q.call

/-- The address spaces own their frames, and the last page of none of them is a frame of the allocator. -/
structure Ok (c : Config) (s : Spaces) : Prop where
  wf : Wf c s.dirs s.kernel
  top : ∀ d ∈ s.dirs, pteAddr (s.kernel.pte d (vpn (2^32-1))) ∉ c.frames

end Spaces

/-- What a call that returned `r` owes the free list. -/
def MemCall.Repaid (s s' : Kernel) : MemCall → Reply → Prop
  | .setupkvm, .pointer none => s'.freeFrames = s.freeFrames
  | .copyuvm _ _, .pointer none => s'.freeFrames = s.freeFrames
  | .allocuvm pgdir _ _, .size 0 => ∀ f ∈ s.freelist, f ∈ s'.freelist ∨ ∃ k, s'.table pgdir k = some f
  | .freevm pgdir, _ => ∃ l, s'.freelist = l ++ s.freelist ∧ l.Nodup ∧ ∀ f, f ∈ l ↔ f ∈ s.spaceFrames {pgdir}
  | _, _ => True

/-- The call is a copy for which the free list ends at a page table. -/
def MemCall.leaks (s : Kernel) : MemCall → Prop
  | .copyuvm pgdir sz => s.shortOfTable pgdir sz
  | _ => False

variable {c : Config} {S : Set Frame} {s s' : Kernel} {d pgdir : Frame} {n sz : ℕ}

theorem Grown.repaid (hw : Wf c S s) (h : Grown c S d (s.accounted S) s 0 s') :
    ∀ f ∈ s.freelist, f ∈ s'.freelist ∨ ∃ k, s'.table d k = some f := by
  obtain ⟨N,hmoved,hN⟩ := h
  obtain rfl := hN rfl
  intro f hf
  have hacc : f ∈ s'.accounted S := by
    rw [hmoved.accounted]
    exact Or.inl hf
  obtain hfree | ⟨u,hu,hfu⟩ := hacc
  · exact Or.inl hfree
  · have hnot := fun hs => hw.not_free u f hu hs hf
    cases u with
    | dir d' => exact (hnot hfu).elim
    | table d' i =>
      by_cases hne : d' = d
      · subst hne
        exact Or.inr ⟨(i,0),hfu⟩
      · exact (hnot ((hmoved.tables d' hu hne (i,0)).symm.trans hfu)).elim
    | leaf d' k =>
      cases ho : x86.own k with
      | false =>
        rw [Use.frame,ho] at hfu
        cases hfu
      | true =>
        rw [Use.frame,if_pos ho] at hfu hnot
        obtain hold | ⟨-,hk⟩ := hmoved.leaves d' hu k ho f hfu
        · exact (hnot hold).elim
        · exact hk.elim

theorem Copying.not_shortOfTable (h : Copying c S d pgdir s (pagesIn sz) s') : ¬ s.shortOfTable pgdir sz := by
  rintro ⟨n,hn,hopens,hlen⟩
  have hlt := demand_lt hn (Xv6Paging.opens_iff.mp hopens).1
  have hcount := h.count
  rw [if_pos hopens] at hlt
  omega

theorem CopyFailed.repaid_iff (h : CopyFailed c S pgdir sz s s') :
    s'.freeFrames = s.freeFrames ↔ ¬ s.shortOfTable pgdir sz := by
  refine ⟨fun heq hshort => ?_,h.kept⟩
  obtain ⟨f,hf,hins⟩ := h.lost hshort
  refine hf ?_
  rw [heq,← hins]
  exact Set.mem_insert f _

theorem Same.top (h : Same S ∅ s s') (ht : ∀ d ∈ S, pteAddr (s.pte d (vpn (2^32-1))) ∉ c.frames) :
    ∀ d ∈ S, pteAddr (s'.pte d (vpn (2^32-1))) ∉ c.frames := by
  intro d hd
  rw [show s'.pte d (vpn (2^32-1)) = s.pte d (vpn (2^32-1)) from h.entry d hd _ (Set.notMem_empty _)]
  exact ht d hd

theorem top_insert (hd : pteAddr (s.pte d (vpn (2^32-1))) = topFrame)
    (ht : ∀ d ∈ S, pteAddr (s.pte d (vpn (2^32-1))) ∉ c.frames) :
    ∀ d' ∈ insert d S, pteAddr (s.pte d' (vpn (2^32-1))) ∉ c.frames := by
  rintro d' (rfl | hd')
  · rw [hd]
    exact topFrame_notMem c
  · exact ht d' hd'

theorem run_spec {t : Spaces} {q : Request} {r : Reply} (h : t.Ok c) (hq : t.Proper c q)
    (hrun : q.call.run c (t.entered q) = .ok (r,s')) :
    Spaces.Ok c ⟨s',q.call.dirs t.dirs r⟩ ∧ (q.call.Repaid (t.entered q) s' r ↔ ¬ q.call.leaks (t.entered q)) := by
  have hw : Wf c t.dirs (t.entered q) := h.wf
  have htop : ∀ d ∈ t.dirs, pteAddr ((t.entered q).pte d (vpn (2^32-1))) ∉ c.frames := h.top
  have hp : (t.entered q).proc.pgdir ∈ t.dirs := hq.pgdir
  have hl : (t.entered q).proc.pages.listsUser := hq.lists
  obtain ⟨p,call⟩ := q
  have hal := hq.allowed
  dsimp only at hal hrun ⊢
  generalize t.entered ⟨p,call⟩ = s at hw htop hp hl hal hrun ⊢
  cases call with
  | setupkvm =>
    obtain ⟨⟨d,s₁⟩,hcall,hrun⟩ := bind_eq_ok hrun
    cases hrun
    obtain ⟨d',rfl,-,hnew⟩ | ⟨rfl,-,hundone⟩ := (setupkvm_spec hw).of_ok hcall
    · exact ⟨⟨hnew.mapping.wf,top_insert hnew.top (hnew.mapping.same.top htop)⟩,by simp [MemCall.Repaid,MemCall.leaks]⟩
    · exact ⟨⟨hundone.wf,hundone.same.top htop⟩,iff_of_true hundone.frames id⟩
  | allocuvm pgdir oldsz newsz =>
    obtain ⟨⟨n,s₁⟩,hcall,hrun⟩ := bind_eq_ok hrun
    cases hrun
    have hgrown := allocuvm_moved hal hw hp (htop _ hp) hl hcall
    refine ⟨?_,iff_of_true ?_ id⟩
    · obtain ⟨N,hmoved,-⟩ := hgrown
      refine ⟨hmoved.wf,?_⟩
      intro d hd
      rw [hmoved.kernel d hd _ (by decide)]
      exact htop d hd
    · cases n with
      | zero => exact hgrown.repaid hw
      | succ n => exact trivial
  | copyuvm pgdir sz =>
    obtain ⟨⟨d,s₁⟩,hcall,hrun⟩ := bind_eq_ok hrun
    cases hrun
    obtain ⟨d',rfl,-,hcopy⟩ | ⟨rfl,hfailed⟩ := (copyuvm_spec hal.1 hal.2 hw).of_ok hcall
    · exact ⟨⟨hcopy.wf,top_insert hcopy.top (hcopy.same.top htop)⟩,iff_of_true trivial hcopy.not_shortOfTable⟩
    · exact ⟨⟨hfailed.wf,hfailed.same.top htop⟩,hfailed.repaid_iff⟩
  | freevm pgdir =>
    obtain ⟨s₁,hcall,hrun⟩ := bind_eq_ok hrun
    cases hrun
    obtain ⟨hw',hsame,hlist⟩ := freevm_returns hw hal hcall
    exact ⟨⟨hw',hsame.top fun d hd => htop d hd.1⟩,iff_of_true hlist id⟩
  | kalloc =>
    cases hrun
    refine ⟨?_,iff_of_true trivial id⟩
    cases hfree : s.freelist with
    | nil =>
      rw [kalloc_nil hfree]
      exact ⟨hw,htop⟩
    | cons f l =>
      rw [kalloc_cons hfree]
      exact ⟨(hw.take hfree).1,htop⟩
  | kfree f =>
    obtain ⟨s₁,hcall,hrun⟩ := bind_eq_ok hrun
    cases hrun
    obtain ⟨-,rfl⟩ := kfree_ok hcall
    obtain ⟨hw',hsame⟩ := FreshFrame.free (A := ∅) hal hw
    exact ⟨⟨hw',hsame.top htop⟩,iff_of_true trivial id⟩

theorem Spaces.Ok.reaches {t₀ t : Spaces} (h₀ : t₀.Ok c)
    (hrun : Runs.Reaches (Spaces.step c) (Spaces.Proper c) t₀ t) : t.Ok c := by
  refine hrun.invariant h₀ ?_
  intro t q t' h hq hstep
  unfold Spaces.step at hstep
  split at hstep
  · next r k hk =>
    cases hstep
    exact (run_spec h hq hk).1
  · cases hstep

/-- A call that returns gives the free list all it owes, unless it is a copy for which the list ends at a
page table: a failed `setupkvm` or `copyuvm` leaves the free frames as they were, a failed `allocuvm` keeps
page tables only, and `freevm` returns every frame of the address space once. -/
theorem calls_repay_iff {t₀ t : Spaces} (h₀ : t₀.Ok c) (hrun : Runs.Reaches (Spaces.step c) (Spaces.Proper c) t₀ t)
    {q : Request} (hq : t.Proper c q) {r : Reply} (hcall : q.call.run c (t.entered q) = .ok (r,s')) :
    q.call.Repaid (t.entered q) s' r ↔ ¬ q.call.leaks (t.entered q) :=
  (run_spec (h₀.reaches hrun) hq hcall).2

/-- In every run a directory, page table or user page of an address space has no other use in any of them,
and is not free. -/
theorem spaces_isolated {t₀ t : Spaces} (h₀ : t₀.Ok c) (hrun : Runs.Reaches (Spaces.step c) (Spaces.Proper c) t₀ t)
    {u : Use Frame} {f : Frame} (hu : u.root ∈ t.dirs) (hf : u.frame x86 t.kernel.mem = some f) :
    f ∉ t.kernel.freelist ∧ ∀ v : Use Frame, v.root ∈ t.dirs → v.frame x86 t.kernel.mem = some f → v = u := by
  have hok := h₀.reaches hrun
  exact ⟨hok.wf.not_free u f hu hf,fun v hv hvf => hok.wf.inj v u f hv hu hvf hf⟩

section Sample

def oneProcess (n : ℕ) : Spaces := ⟨presentParent n,{0x400}⟩

def copyRequest (n : ℕ) : Request := ⟨(presentParent n).proc,.copyuvm 0x400 4096⟩

theorem oneProcess_ok {b : Build} (hn : n ≤ 512) : (oneProcess n).Ok (sampleConfig b) := by
  refine ⟨wf_presentParent hn,?_⟩
  rintro d rfl
  have hblank := wf_frameRun (b := b) (n := n+2) (by omega) (ProcPages.init .none)
  have hgrown := hblank.grow (k := vpn 0) (t := 0x401) (l := frameRun 0x402 (n+1)) rfl blank_table rfl
  have htaken := (hgrown.take (f := 0x402) (l := frameRun 0x403 n) rfl).1
  have hgrow := (hblank.same_grow (A := ∅) (k := vpn 0) rfl blank_table rfl).entry 0x400 rfl (vpn (2^32-1))
    (Set.notMem_empty _)
  have hmapped : (presentParent n).pte 0x400 (vpn (2^32-1)) = 0 := by
    refine ((htaken.same_setPte rfl).entry 0x400 rfl (vpn (2^32-1)) ?_).trans (hgrow.trans ?_)
    · intro he
      exact absurd (Prod.mk.inj he).2 (by decide)
    · exact pte_of_no_table blank_table
  change pteAddr ((presentParent n).pte 0x400 (vpn (2^32-1))) ∉ _
  rw [hmapped]
  exact zero_notMem_frames _

theorem eq_zero_of_lt {m : ℕ} (h : m*pgSize < 4096) : m = 0 := by
  have hsize : pgSize = 4096 := rfl
  rw [hsize] at h
  omega

theorem presentParent_length : (presentParent n).freelist.length = n := by
  rw [show (presentParent n).freelist = frameRun 0x403 n from rfl,frameRun,List.length_map,List.length_range']

theorem copyRequest_proper {b : Build} : (oneProcess n).Proper (sampleConfig b) (copyRequest n) := by
  refine ⟨rfl,?_,rfl,by decide⟩
  intro i a h
  cases h

theorem copyRequest_fails {b : Build} (hn : n < 67) :
    ∃ s', (copyRequest n).call.run (sampleConfig b) ((oneProcess n).entered (copyRequest n)) = .ok (.pointer none,s') ∧
      CopyFailed (sampleConfig b) {0x400} 0x400 4096 (presentParent n) s' := by
  have hres := presentParent_resident (n := n) (by omega)
  have hone : pagesIn 4096 = 1 := by decide
  have hlen := presentParent_length (n := n)
  have hdemand : (presentParent n).demand 0x400 1 = 67 := by
    rw [demand_one,opens_zero,hres]
    rfl
  have hspec := copyuvm_spec (S := {0x400}) (Set.mem_singleton _) (by decide : 4096 ≤ kernBase)
    (wf_presentParent (b := b) (n := n) (by omega))
  cases hrun : copyuvm (sampleConfig b) 0x400 4096 (presentParent n) with
  | error e =>
    obtain ⟨m,hm,hno⟩ | ⟨-,hno⟩ := hspec.of_error hrun
    · obtain rfl := eq_zero_of_lt hm
      exact (hno (Or.inl hres)).elim
    · refine (hno (Or.inr ⟨?_,?_⟩)).elim
      · intro i j a h
        cases h
      · intro i j a h
        cases h
  | ok r =>
    obtain ⟨r,s'⟩ := r
    obtain ⟨d,-,-,hcopy⟩ | ⟨rfl,hfailed⟩ := hspec.of_ok hrun
    · have hcount := hcopy.count
      rw [hone] at hcount
      omega
    · refine ⟨s',?_,hfailed⟩
      change ((copyuvm (sampleConfig b) 0x400 4096 (presentParent n)) >>= _) = _
      rw [hrun]
      rfl

theorem shortOfTable_iff (hn : n < 67) : (presentParent n).shortOfTable 0x400 4096 ↔ n = 66 := by
  have hres := presentParent_resident (n := n) (by omega)
  have hlen := presentParent_length (n := n)
  have hzero : (presentParent n).demand 0x400 0 = 65 := rfl
  constructor
  · rintro ⟨m,hm,-,hshort⟩
    obtain rfl := eq_zero_of_lt hm
    omega
  · intro h66
    refine ⟨0,by decide,?_,?_⟩
    · rw [opens_zero]
      exact hres
    · omega

/-- A copy that finds no frame for the page of the child loses none. -/
theorem calls_repay_oneProcess : ∃ s',
    (copyRequest 65).call.run (sampleConfig .scfifo) ((oneProcess 65).entered (copyRequest 65)) =
      .ok (.pointer none,s') ∧ s'.freeFrames = (presentParent 65).freeFrames := by
  obtain ⟨s',hrun,-⟩ := copyRequest_fails (n := 65) (b := .scfifo) (by decide)
  refine ⟨s',hrun,(calls_repay_iff (oneProcess_ok (by decide)) .refl copyRequest_proper hrun).mpr ?_⟩
  intro hshort
  exact absurd ((shortOfTable_iff (by decide)).mp hshort) (by decide)

/-- With one frame more, the frame of the page is lost. -/
theorem copy_loses_frame : ∃ s', (oneProcess 66).Ok (sampleConfig .scfifo) ∧
    (oneProcess 66).Proper (sampleConfig .scfifo) (copyRequest 66) ∧
    (copyRequest 66).call.run (sampleConfig .scfifo) ((oneProcess 66).entered (copyRequest 66)) =
      .ok (.pointer none,s') ∧ s'.freeFrames ≠ (presentParent 66).freeFrames := by
  obtain ⟨s',hrun,hfailed⟩ := copyRequest_fails (n := 66) (b := .scfifo) (by decide)
  refine ⟨s',oneProcess_ok (by decide),copyRequest_proper,hrun,?_⟩
  intro heq
  exact hfailed.repaid_iff.mp heq ((shortOfTable_iff (by decide)).mpr rfl)

theorem copyRequest_succeeds {b : Build} (h67 : 67 ≤ n) (hn : n ≤ 512) : ∃ d s', d ≠ 0x400 ∧
    Runs.Next (Spaces.step (sampleConfig b)) (Spaces.Proper (sampleConfig b)) (oneProcess n) ⟨s',insert d {0x400}⟩ ∧
      has (s'.pte 0x400 (pageAt 0)) pteP = true ∧ has (s'.pte d (pageAt 0)) pteP = true := by
  have hres := presentParent_resident hn
  have hone : pagesIn 4096 = 1 := by decide
  have hfree : (presentParent n).demand 0x400 (pagesIn 4096) ≤ (presentParent n).freelist.length := by
    rw [presentParent_length,hone,demand_one,opens_zero,hres]
    exact h67
  obtain ⟨d,s',hrun,hne,hcopy⟩ := copyuvm_succeeds (S := {0x400}) (Set.mem_singleton _) (by decide : 4096 ≤ kernBase)
    (wf_presentParent (b := b) hn) (fun m hm => Or.inl (eq_zero_of_lt hm ▸ hres)) hfree
  have hcall : (copyRequest n).call.run (sampleConfig b) ((oneProcess n).entered (copyRequest n)) =
      .ok (.pointer (some d),s') := by
    change ((copyuvm (sampleConfig b) 0x400 4096 (presentParent n)) >>= _) = _
    rw [hrun]
    rfl
  have hstep : Spaces.step (sampleConfig b) (oneProcess n) (copyRequest n) = some ⟨s',insert d {0x400}⟩ := by
    rw [Spaces.step,hcall]
    rfl
  have hsame : s'.pte 0x400 (pageAt 0) = (presentParent n).pte 0x400 (pageAt 0) :=
    hcopy.same.entry 0x400 rfl (pageAt 0) (Set.notMem_empty _)
  refine ⟨d,s',hne,⟨copyRequest n,copyRequest_proper,hstep⟩,?_,(hcopy.copied 0 (hone ▸ one_pos) hres).1⟩
  rw [hsame]
  exact (Bool.and_eq_true_iff.mp hres).1

theorem frame_leaf {d : Frame} (hp : has (s.pte d (pageAt 0)) pteP = true) :
    (Use.leaf d (pageAt 0)).frame x86 s.mem = some (pteAddr (s.pte d (pageAt 0))) := by
  have hown : x86.own (pageAt 0) = true := by decide
  simp only [Use.frame,hown,if_true]
  exact link_eq_some.mpr ⟨hp,rfl⟩

/-- The page of the process and that of its copy are in different frames, and the frame of the copy is not free. -/
theorem spaces_isolated_copy : ∃ t d,
    Runs.Reaches (Spaces.step (sampleConfig .aq)) (Spaces.Proper (sampleConfig .aq)) (oneProcess 67) t ∧
      pteAddr (t.kernel.pte d (pageAt 0)) ≠ pteAddr (t.kernel.pte 0x400 (pageAt 0)) ∧
      pteAddr (t.kernel.pte d (pageAt 0)) ∉ t.kernel.freelist := by
  obtain ⟨d,s',hne,hnext,hp,hp'⟩ := copyRequest_succeeds (b := .aq) (n := 67) (by decide) (by decide)
  obtain ⟨hfree,hall⟩ := spaces_isolated (u := .leaf d (pageAt 0)) (oneProcess_ok (by decide)) (.single hnext)
    (Or.inl rfl) (frame_leaf hp')
  refine ⟨_,d,.single hnext,fun heq => hne ?_,hfree⟩
  have hsame := hall (.leaf 0x400 (pageAt 0)) (Or.inr rfl) (heq ▸ frame_leaf hp)
  exact ((Use.leaf.inj hsame).1).symm

end Sample

end Xv6Paging
