import Mathlib.Algebra.BigOperators.Ring.List
import Xv6Paging.Library.Runs
import Xv6Paging.User.HeapCalls

/-! # Programs that use the heap

Runs of a program that allocates memory, writes to it and frees it. At every point the free list and the
pointers that the program holds describe disjoint blocks, which together are all that `sbrk` has supplied.
-/
namespace Xv6Paging.Umalloc
open LinkedCells Tiling

/-- The heap with the pointers that `malloc` has returned and that are not freed, and the bytes asked for. -/
structure HeapState where
  heap : Heap
  live : List (ℕ × ℕ)

inductive HeapAction
  | malloc (nbytes : ℕ) (grant : ℕ → Bool)
  | free (ap : ℕ)
  | write (a : ℕ) (cell : Header)

namespace HeapState

def init (mem : ℕ → Header) (start : ℕ) : HeapState := ⟨⟨mem,none,start⟩,[]⟩

def step (base : ℕ) (s : HeapState) : HeapAction → Option HeapState
  | .malloc nbytes grant =>
    match Umalloc.malloc base grant nbytes s.heap with
    | .ok (some p,h) => some ⟨h,(p,nbytes) :: s.live⟩
    | .ok (none,h) => some ⟨h,s.live⟩
    | .error _ => none
  | .free ap =>
    match Umalloc.free ap s.heap with
    | .ok h => some ⟨h,s.live.filter fun q => q.1 ≠ ap⟩
    | .error _ => none
  | .write a cell => some ⟨s.heap.put a cell,s.live⟩

/-- The program asks for less than 2^30 bytes, frees what it holds and writes to what it asked for. -/
def Proper (s : HeapState) : HeapAction → Prop
  | .malloc nbytes _ => nbytes < 2^30
  | .free ap => ∃ n, (ap,n) ∈ s.live
  | .write a _ => ∃ q ∈ s.live, ∃ i, a = q.1+8*i ∧ 8*i < q.2

instance instDecidableProper (s : HeapState) (a : HeapAction) : Decidable (s.Proper a) :=
  match a with
  | .malloc nbytes _ => inferInstanceAs (Decidable (nbytes < 2^30))
  | .free ap => decidable_of_iff (ap ∈ s.live.map Prod.fst) (by simp [Proper])
  | .write a _ => decidable_of_iff (∃ q ∈ s.live, q.1 ≤ a ∧ 8 ∣ a-q.1 ∧ a-q.1 < q.2) (by
      refine exists_congr fun q => and_congr_right fun _ => ⟨?_,?_⟩
      · rintro ⟨h1,⟨i,hi⟩,h3⟩
        exact ⟨i,by omega,by omega⟩
      · rintro ⟨i,hi,h3⟩
        exact ⟨by omega,⟨i,by omega⟩,by omega⟩)

def sizeAt (s : HeapState) (a : ℕ) : ℕ := (s.heap.mem a).size

def header (q : ℕ × ℕ) : ℕ := q.1-8

def Disjoint (s : HeapState) (x y : ℕ) : Prop := x+8*s.sizeAt x ≤ y ∨ y+8*s.sizeAt y ≤ x

/-- What a reader of the memory sees: the circle of the free blocks `base :: l` and the live blocks. -/
structure WellFormed (base start : ℕ) (s : HeapState) (l : List ℕ) : Prop where
  circle : Circle s.heap.links (base :: l)
  increasing : (base :: l).Pairwise (· < ·)
  freep : ∃ f ∈ base :: l, s.heap.freep = some f
  apart : l.Pairwise fun x y => x+8*s.sizeAt x < y
  disjoint : ∀ x ∈ l, ∀ q ∈ s.live, s.Disjoint x (header q)
  live : s.live.Pairwise fun q q' => s.Disjoint (header q) (header q')
  room : ∀ q ∈ s.live, q.2 ≤ 8*(s.sizeAt (header q)-1)
  baseApart : ∀ x, x ∈ l ∨ x ∈ s.live.map header → base+8 < x ∧ x+8*s.sizeAt x ≤ s.heap.brk
  total : start+8*((l.map s.sizeAt).sum+(s.live.map fun q => s.sizeAt (header q)).sum) = s.heap.brk

end HeapState

structure Holds (base start : ℕ) (s : HeapState) (bs : List Block) : Prop where
  rep : Represents base start s.heap bs
  live : (s.live.map Prod.fst).Perm ((used bs).map fun b => b.addr+8)
  room : ∀ q ∈ s.live, ∃ b ∈ used bs, b.addr+8 = q.1 ∧ q.2 ≤ 8*(b.size-1)

variable {base start : ℕ} {s : HeapState} {bs : List Block}

theorem mem_used {b : Block} : b ∈ used bs ↔ b ∈ bs ∧ b.free = false := by
  rw [used,List.mem_filter,Bool.not_eq_true']

namespace Holds
variable (h : Holds base start s bs)
include h

theorem block {q : ℕ × ℕ} (hq : q ∈ s.live) :
    ∃ b ∈ bs, b.free = false ∧ HeapState.header q = b.addr ∧ s.sizeAt (HeapState.header q) = b.size ∧ b.addr+8 = q.1 ∧
      q.2 ≤ 8*(b.size-1) := by
  obtain ⟨b,hb,haddr,hroom⟩ := h.room q hq
  obtain ⟨hb,hf⟩ := mem_used.mp hb
  have hhead : HeapState.header q = b.addr := by
    rw [HeapState.header]
    omega
  refine ⟨b,hb,hf,hhead,?_,haddr,hroom⟩
  rw [hhead]
  exact h.rep.sizes b hb

theorem free_block {x : ℕ} (hx : x ∈ frees bs) : ∃ b ∈ bs, b.free = true ∧ b.addr = x ∧ s.sizeAt x = b.size := by
  obtain ⟨b,hb,hf,rfl⟩ := mem_frees.mp hx
  exact ⟨b,hb,hf,rfl,h.rep.sizes b hb⟩

theorem nodup : (s.live.map Prod.fst).Nodup := by
  refine h.live.nodup_iff.mpr (List.pairwise_map.mpr ?_)
  refine (h.rep.tiles.pairwise.filter _).imp_of_mem ?_
  intro b b' hb _ hle
  have hlt := (h.rep.tiles.mem (mem_used.mp hb).1).2.1
  omega

theorem total : start+8*(((frees bs).map s.sizeAt).sum+(s.live.map fun q => s.sizeAt (HeapState.header q)).sum) =
    s.heap.brk := by
  have hfrees : (frees bs).map s.sizeAt = (bs.filter (·.free)).map Block.size := by
    rw [frees,List.map_map]
    refine List.map_congr_left fun b hb => ?_
    exact h.rep.sizes b (List.mem_of_mem_filter hb)
  have hlive : (s.live.map fun q => s.sizeAt (HeapState.header q)).sum = ((used bs).map Block.size).sum := by
    have hperm := (h.live.map fun p => s.sizeAt (p-8)).sum_eq
    rw [List.map_map,List.map_map] at hperm
    refine hperm.trans (congrArg List.sum (List.map_congr_left fun b hb => ?_))
    exact h.rep.sizes b (mem_used.mp hb).1
  have hsum := h.rep.tiles.sum
  have hbytes : (bs.map fun b => b.stop-b.addr).sum = 8*(bs.map Block.size).sum := by
    rw [← List.sum_map_mul_left]
    refine congrArg List.sum (List.map_congr_left fun b _ => ?_)
    exact Nat.add_sub_cancel_left _ _
  have hsplit : ((bs.filter (·.free)).map Block.size).sum+((used bs).map Block.size).sum = (bs.map Block.size).sum := by
    rw [← List.sum_append,← List.map_append]
    exact ((List.filter_append_perm _ bs).map _).sum_eq
  rw [hfrees,hlive,hsplit,← hbytes]
  exact hsum

theorem wellFormed (hbase : base+8 < start) : s.WellFormed base start (frees bs) := by
  refine ⟨h.rep.circle,increasing h.rep.tiles hbase,h.rep.freep,?_,?_,?_,?_,?_,h.total⟩
  · refine List.pairwise_map.mpr ((h.rep.tiles.apart h.rep.apart).imp_of_mem ?_)
    intro b b' hb _ hlt
    rw [HeapState.sizeAt,h.rep.sizes b (List.mem_of_mem_filter hb)]
    exact hlt
  · intro x hx q hq
    obtain ⟨b,hb,hf,rfl,hsize⟩ := h.free_block hx
    obtain ⟨b',hb',hf',hhead,hsize',-⟩ := h.block hq
    rw [HeapState.Disjoint,hsize,hsize',hhead]
    refine h.rep.tiles.disjoint hb hb' ?_
    rintro rfl
    rw [hf] at hf'
    cases hf'
  · refine (List.pairwise_map.mp h.nodup).imp_of_mem ?_
    intro q q' hq hq' hne
    obtain ⟨b,hb,-,hhead,hsize,hp,-⟩ := h.block hq
    obtain ⟨b',hb',-,hhead',hsize',hp',-⟩ := h.block hq'
    rw [HeapState.Disjoint,hsize,hsize',hhead,hhead']
    refine h.rep.tiles.disjoint hb hb' ?_
    rintro rfl
    exact hne (hp.symm.trans hp')
  · intro q hq
    obtain ⟨b,-,-,-,hsize,-,hroom⟩ := h.block hq
    rw [hsize]
    exact hroom
  · intro x hx
    obtain ⟨b,hb,rfl,hsize⟩ : ∃ b ∈ bs, b.addr = x ∧ s.sizeAt x = b.size := by
      obtain hx | hx := hx
      · obtain ⟨b,hb,-,haddr,hsize⟩ := h.free_block hx
        exact ⟨b,hb,haddr,hsize⟩
      · obtain ⟨q,hq,rfl⟩ := List.mem_map.mp hx
        obtain ⟨b,hb,-,hhead,hsize,-⟩ := h.block hq
        exact ⟨b,hb,hhead.symm,hsize⟩
    obtain ⟨hb1,-,hb3⟩ := h.rep.tiles.mem hb
    rw [hsize]
    exact ⟨by omega,hb3⟩

theorem malloc (hbase : base+8 < start) (grant : ℕ → Bool) {nbytes : ℕ} (hn : nbytes < 2^30) :
    ∃ s' bs', s.step base (.malloc nbytes grant) = some s' ∧ Holds base start s' bs' := by
  have hmax : nbytes+16 ≤ 2^31 := by omega
  obtain ⟨r,s',bs',hrun,hrep,hcase⟩ := malloc_spec hbase grant h.rep hmax
  obtain ⟨rfl,hused⟩ | ⟨a,u₁,u₂,rfl,hold,hnew⟩ := hcase
  · refine ⟨⟨s',s.live⟩,bs',?_,hrep,?_,?_⟩
    · simp only [HeapState.step,hrun]
    · rw [hused]
      exact h.live
    · rw [hused]
      exact h.room
  · refine ⟨⟨s',(a+8,nbytes) :: s.live⟩,bs',?_,hrep,?_,?_⟩
    · simp only [HeapState.step,hrun]
    · rw [hnew]
      refine ((h.live.cons (a+8)).trans ?_).trans (List.perm_middle.map _).symm
      rw [hold,List.map_cons]
    · intro q hq
      rw [hnew]
      obtain rfl | hq := List.mem_cons.mp hq
      · refine ⟨⟨a,units nbytes,false⟩,List.mem_append_right _ List.mem_cons_self,rfl,?_⟩
        change nbytes ≤ 8*((nbytes+7)/8+1-1)
        omega
      · obtain ⟨b,hb,hbq⟩ := h.room q hq
        rw [hold] at hb
        exact ⟨b,List.perm_middle.symm.subset (List.mem_cons_of_mem _ hb),hbq⟩

theorem free (hbase : base+8 < start) {ap n : ℕ} (hlive : (ap,n) ∈ s.live) :
    ∃ s' bs', s.step base (.free ap) = some s' ∧ Holds base start s' bs' := by
  obtain ⟨⟨a,m,f⟩,hb,hf,-,-,hap,-⟩ := h.block hlive
  cases hf
  cases hap
  obtain ⟨b₁,b₂,rfl⟩ := List.append_of_mem hb
  obtain ⟨s',bs',hrun,hrep,hused,-⟩ := free_spec hbase h.rep
  have hold : used (b₁ ++ ⟨a,m,false⟩ :: b₂) = used b₁ ++ ⟨a,m,false⟩ :: used b₂ := by simp
  have hother : ∀ b ∈ used b₁ ++ used b₂, b.addr+8 ≠ a+8 := by
    intro b hb he
    obtain hb | hb := List.mem_append.mp hb
    · have hb' := h.rep.tiles_before.mem (mem_used.mp hb).1
      omega
    · have hb' := (h.rep.tiles_after.mem (mem_used.mp hb).1).1
      have hpos := h.rep.size_pos
      omega
  refine ⟨⟨s',s.live.filter fun q => q.1 ≠ a+8⟩,bs',?_,hrep,?_,?_⟩
  · simp only [HeapState.step,hrun]
  · have hkept : ((used b₁ ++ used b₂).map fun b => b.addr+8).filter (fun p => decide (p ≠ a+8)) =
        (used b₁ ++ used b₂).map fun b => b.addr+8 := by
      refine List.filter_eq_self.mpr fun p hp => ?_
      obtain ⟨b,hb,rfl⟩ := List.mem_map.mp hp
      exact decide_eq_true (hother b hb)
    have hperm := h.live.filter fun p => decide (p ≠ a+8)
    rw [List.filter_map,hold,List.map_append,List.map_cons,List.filter_append,
      List.filter_cons_of_neg (by simp),← List.filter_append,← List.map_append,hkept] at hperm
    rw [hused]
    exact hperm
  · intro q hq
    obtain ⟨hq,hne⟩ := List.mem_filter.mp hq
    have hne := of_decide_eq_true hne
    obtain ⟨b,hb,haddr,hroom⟩ := h.room q hq
    rw [hold] at hb
    refine ⟨b,?_,haddr,hroom⟩
    rw [hused]
    refine (List.mem_cons.mp (List.perm_middle.subset hb)).resolve_left ?_
    rintro rfl
    exact hne haddr.symm

theorem write (hbase : base+8 < start) {a : ℕ} {q : ℕ × ℕ} {i : ℕ} (cell : Header) (hq : q ∈ s.live)
    (ha : a = q.1+8*i) (hi : 8*i < q.2) : Holds base start ⟨s.heap.put a cell,s.live⟩ bs := by
  obtain ⟨b,hb,-,-,-,hp,hroom⟩ := h.block hq
  have hin : b.addr < a ∧ a < b.stop := by
    rw [Block.stop]
    omega
  have hne : ∀ b' ∈ bs, b'.addr ≠ a := by
    intro b' hb' he
    obtain rfl | hbb := eq_or_ne b b'
    · omega
    · have hdis := h.rep.tiles.disjoint hb hb' hbb
      have hlt := (h.rep.tiles.mem hb').2.1
      omega
  have hbne : base ≠ a := by
    have hle := (h.rep.tiles.mem hb).1
    omega
  refine ⟨⟨h.rep.tiles,h.rep.apart,?_,?_,?_,h.rep.freep,h.rep.limit⟩,h.live,h.room⟩
  · intro b' hb'
    exact (congrArg Header.size (put_of_ne (hne b' hb'))).trans (h.rep.sizes b' hb')
  · exact (congrArg Header.size (put_of_ne hbne)).trans h.rep.baseSize
  · refine seg_put h.rep.circle ?_
    intro hmem
    obtain rfl | hmem := List.mem_cons.mp hmem
    · exact hbne rfl
    · obtain ⟨b',hb',-,rfl⟩ := mem_frees.mp hmem
      exact hne b' hb' rfl

end Holds

/-- Before the first call there is no list; afterwards the heap consists of blocks. -/
def Inv (base start : ℕ) (s : HeapState) : Prop :=
  (s.heap.freep = none ∧ s.live = [] ∧ s.heap.brk = start) ∨ ∃ bs, Holds base start s bs

theorem represents_initBase {s : Heap} (hbrk : s.brk = start) (hstart : start < kernBase) :
    Represents base start (s.initBase base) [] := by
  refine ⟨hbrk.symm,.nil,?_,?_,?_,⟨base,List.mem_cons_self,rfl⟩,?_⟩
  · intro b hb
    cases hb
  · exact congrArg Header.size (put_self (s := s))
  · refine seg_singleton.mpr (congrArg some ?_)
    exact congrArg Header.ptr (put_self (s := s))
  · exact hbrk ▸ hstart

theorem malloc_initBase {s : Heap} (hfree : s.freep = none) (grant : ℕ → Bool) (nbytes : ℕ) :
    malloc base grant nbytes s = malloc base grant nbytes (s.initBase base) := by
  rw [malloc,hfree]
  rfl

section Runs
variable (hbase : base+8 < start) (hstart : start < kernBase)
include hbase hstart

omit hbase in
theorem holds_initBase (hfree : s.heap.freep = none) (hlive : s.live = []) (hbrk : s.heap.brk = start) :
    Holds base start ⟨s.heap.initBase base,s.live⟩ [] ∧ ∀ grant nbytes,
      s.step base (.malloc nbytes grant) = HeapState.step base ⟨s.heap.initBase base,s.live⟩ (.malloc nbytes grant) := by
  refine ⟨⟨represents_initBase hbrk hstart,?_,?_⟩,?_⟩
  · rw [hlive]
    exact .refl _
  · rw [hlive]
    intro q hq
    cases hq
  · intro grant nbytes
    simp only [HeapState.step,malloc_initBase hfree]

theorem step_inv (h : Inv base start s) {a : HeapAction} (ha : s.Proper a) :
    ∃ s', s.step base a = some s' ∧ Inv base start s' := by
  obtain ⟨hfree,hlive,hbrk⟩ | ⟨bs,h⟩ := h
  · cases a with
    | malloc nbytes grant =>
      obtain ⟨hholds,heq⟩ := holds_initBase hstart hfree hlive hbrk
      obtain ⟨s',bs',hstep,h'⟩ := hholds.malloc hbase grant ha
      exact ⟨s',(heq grant nbytes).trans hstep,Or.inr ⟨bs',h'⟩⟩
    | free ap =>
      obtain ⟨n,hn⟩ := ha
      rw [hlive] at hn
      cases hn
    | write a cell =>
      obtain ⟨q,hq,-⟩ := ha
      rw [hlive] at hq
      cases hq
  · cases a with
    | malloc nbytes grant =>
      obtain ⟨s',bs',hstep,h'⟩ := h.malloc hbase grant ha
      exact ⟨s',hstep,Or.inr ⟨bs',h'⟩⟩
    | free ap =>
      obtain ⟨n,hn⟩ := ha
      obtain ⟨s',bs',hstep,h'⟩ := h.free hbase hn
      exact ⟨s',hstep,Or.inr ⟨bs',h'⟩⟩
    | write a cell =>
      obtain ⟨q,hq,i,hai,hi⟩ := ha
      exact ⟨_,rfl,Or.inr ⟨bs,h.write hbase cell hq hai hi⟩⟩

theorem inv_reaches {mem : ℕ → Header}
    (h : Runs.Reaches (HeapState.step base) HeapState.Proper (HeapState.init mem start) s) : Inv base start s := by
  refine Runs.Reaches.invariant h (Or.inl ⟨rfl,rfl,rfl⟩) ?_
  intro s a t hs ha hstep
  obtain ⟨s',hs',h'⟩ := step_inv hbase hstart hs ha
  rw [hstep] at hs'
  cases hs'
  exact h'

/-- Whatever a program asks for, frees and writes, and whenever `sbrk` fails: the list is a circle in the
order of the addresses, its blocks and the live ones are apart and add up to the memory supplied, and every
call returns. -/
theorem heap_wellFormed {mem : ℕ → Header}
    (h : Runs.Reaches (HeapState.step base) HeapState.Proper (HeapState.init mem start) s) :
    ((s.heap.freep = none ∧ s.live = [] ∧ s.heap.brk = start) ∨ ∃ l, s.WellFormed base start l) ∧
    (∀ a, s.Proper a → ∃ s', s.step base a = some s') ∧
    ∀ nbytes grant p heap, nbytes < 2^30 → malloc base grant nbytes s.heap = .ok (some p,heap) →
      nbytes ≤ 8*((heap.mem (p-8)).size-1) ∧ ∀ q ∈ s.live, HeapState.Disjoint ⟨heap,s.live⟩ (p-8) (HeapState.header q) := by
  have hinv := inv_reaches hbase hstart h
  refine ⟨hinv.imp id fun hex => ?_,fun a ha => ?_,?_⟩
  · obtain ⟨bs,hholds⟩ := hex
    exact ⟨frees bs,hholds.wellFormed hbase⟩
  · obtain ⟨s',hstep,-⟩ := step_inv hbase hstart hinv ha
    exact ⟨s',hstep⟩
  · intro nbytes grant p heap hn hrun
    obtain ⟨s',hstep,hinv'⟩ := step_inv hbase hstart hinv (a := .malloc nbytes grant) hn
    simp only [HeapState.step,hrun] at hstep
    cases hstep
    obtain ⟨-,hlive,-⟩ | ⟨bs,hholds⟩ := hinv'
    · cases hlive
    · have hwf := hholds.wellFormed hbase
      exact ⟨hwf.room _ List.mem_cons_self,(List.pairwise_cons.mp hwf.live).1⟩

end Runs

def sampleRun : List HeapAction :=
  [.malloc 10 fun _ => true,.malloc 100 fun _ => true,.write 36736 ⟨1,2⟩,.free 36736,.malloc 40000 fun _ => false]

theorem heap_wellFormed_sampleRun : ∃ s, Runs.Reaches (HeapState.step 64) HeapState.Proper
      (HeapState.init (fun _ => ⟨0,0⟩) 4096) s ∧ s.live = [(36848,10)] ∧ s.heap.brk = 36864 ∧
      ∃ l, s.WellFormed 64 4096 l := by
  have hrun : (Runs.exec (HeapState.step 64) HeapState.Proper sampleRun (HeapState.init (fun _ => ⟨0,0⟩) 4096)).map
      (fun s => decide (s.live = [(36848,10)] ∧ s.heap.brk = 36864 ∧ s.heap.freep = some 4096)) = some true := by
    decide +kernel
  obtain ⟨s,hs,hf⟩ := Runs.exists_reaches hrun
  obtain ⟨hlive,hbrk,hfree⟩ := of_decide_eq_true hf
  refine ⟨s,hs,hlive,hbrk,?_⟩
  obtain ⟨hnone,-⟩ | hwf := (heap_wellFormed (by decide) (by decide) hs).1
  · rw [hfree] at hnone
    cases hnone
  · exact hwf

end Xv6Paging.Umalloc
