import Xv6Paging.Library.Circle
import Xv6Paging.Library.Tiling
import Xv6Paging.User.Umalloc

/-! # The blocks of the heap

Free and used blocks tile what `sbrk` has supplied, in the order of their addresses and with no two free blocks
next to each other. The free ones and `base` form a circle. `free` turns a used block into a free one and joins
it to its free neighbours; `carve` turns a free block, or its end, into a used one.
-/
namespace Xv6Paging.Umalloc
open LinkedCells Tiling

structure Block where
  addr : ℕ
  size : ℕ
  free : Bool

def Block.stop (b : Block) : ℕ := b.addr+8*b.size

def frees (bs : List Block) : List ℕ := (bs.filter (·.free)).map Block.addr

def used (bs : List Block) : List Block := bs.filter fun b => !b.free

def Apart (b b' : Block) : Prop := ¬ (b.free = true ∧ b'.free = true)

def Heap.links (s : Heap) (a : ℕ) : ℕ := (s.mem a).ptr

structure Represents (base start : ℕ) (s : Heap) (bs : List Block) : Prop where
  tiles : Tiles Block.addr Block.stop start bs s.brk
  apart : bs.IsChain Apart
  sizes : ∀ b ∈ bs, (s.mem b.addr).size = b.size
  baseSize : (s.mem base).size = 0
  circle : Circle s.links (base :: frees bs)
  freep : ∃ f ∈ base :: frees bs, s.freep = some f
  limit : s.brk < kernBase

section Lists
variable {b : Block} {bs bs' : List Block} {a n : ℕ}

@[simp] theorem frees_nil : frees [] = [] := rfl
@[simp] theorem frees_append : frees (bs ++ bs') = frees bs ++ frees bs' := by simp [frees]
@[simp] theorem frees_cons_free : frees (⟨a,n,true⟩ :: bs) = a :: frees bs := rfl
@[simp] theorem frees_cons_used : frees (⟨a,n,false⟩ :: bs) = frees bs := rfl
@[simp] theorem used_append : used (bs ++ bs') = used bs ++ used bs' := List.filter_append _ _
@[simp] theorem used_cons_free : used (⟨a,n,true⟩ :: bs) = used bs := rfl
@[simp] theorem used_cons_used : used (⟨a,n,false⟩ :: bs) = ⟨a,n,false⟩ :: used bs := rfl
@[simp] theorem used_nil : used [] = [] := rfl

theorem mem_frees : a ∈ frees bs ↔ ∃ b ∈ bs, b.free = true ∧ b.addr = a := by
  simp [frees,and_assoc]

theorem frees_length_le (bs : List Block) : (frees bs).length ≤ bs.length := by
  rw [frees,List.length_map]
  exact List.length_filter_le _ _

end Lists

section Cells
variable {s : Heap} {p q x : ℕ} {h : Header}

@[simp] theorem put_brk : (s.put p h).brk = s.brk := rfl
@[simp] theorem put_self : (s.put p h).mem p = h := Function.update_self _ _ _
theorem put_of_ne (hx : x ≠ p) : (s.put p h).mem x = s.mem x := Function.update_of_ne hx _ _

theorem put_put {h' : Header} : (s.put p h).put p h' = s.put p h' := by
  simp [Heap.put]

@[simp] theorem setSize_size : ((s.setSize p q).mem p).size = q := congrArg Header.size put_self
theorem setSize_of_ne (hx : x ≠ p) : (s.setSize p q).mem x = s.mem x := put_of_ne hx

theorem links_setSize : (s.setSize p q).links = s.links := by
  funext x
  by_cases hx : x = p
  · rw [hx,Heap.links,Heap.setSize,put_self]
    rfl
  · rw [Heap.links,setSize_of_ne hx]
    rfl

theorem size_setPtr (x : ℕ) : ((s.setPtr p q).mem x).size = (s.mem x).size := by
  by_cases hx : x = p
  · rw [hx,Heap.setPtr,put_self]
  · rw [Heap.setPtr,put_of_ne hx]

theorem joinNext_eq {bp : ℕ} (hp : p ≠ bp) (hq : (s.mem p).ptr ≠ bp) :
    joinNext bp p s =
      if plus bp (s.mem bp).size = (s.mem p).ptr then
        s.put bp ⟨(s.mem (s.mem p).ptr).ptr,((s.mem bp).size+(s.mem (s.mem p).ptr).size)%2^32⟩
      else s.put bp ⟨(s.mem p).ptr,(s.mem bp).size⟩ := by
  unfold joinNext
  refine if_congr Iff.rfl ?_ rfl
  simp only [Heap.setSize,Heap.setPtr,put_put,put_self,put_of_ne hp,put_of_ne hq]

theorem joinPrev_eq {bp : ℕ} (hp : bp ≠ p) :
    joinPrev bp p s =
      if plus p (s.mem p).size = bp then s.put p ⟨(s.mem bp).ptr,((s.mem p).size+(s.mem bp).size)%2^32⟩
      else s.put p ⟨bp,(s.mem p).size⟩ := by
  unfold joinPrev
  refine if_congr Iff.rfl ?_ rfl
  simp only [Heap.setSize,Heap.setPtr,put_put,put_self,put_of_ne hp]

end Cells

variable {base start : ℕ} {s : Heap} {bs b₁ b₂ : List Block} {a n p x : ℕ}

theorem kernBase_lt : kernBase < 2^32 := by decide

theorem plus_eq (h : p+8*n ≤ s.brk) (hl : s.brk < kernBase) : plus p n = p+8*n := by
  have hk := kernBase_lt
  exact Nat.mod_eq_of_lt (by omega)

theorem seg_put {e : Option ℕ} {l : List ℕ} {h : Header} (hs : Seg (total s.links) e l) (hp : p ∉ l) :
    Seg (total (s.put p h).links) e l := by
  refine hs.congr ?_
  intro i hi
  rw [total,total,Heap.links,Heap.links,put_of_ne]
  rintro rfl
  exact hp hi

theorem seg_put_last {e e' : Option ℕ} {l : List ℕ} {h : Header} (hs : Seg (total s.links) e (l ++ [p])) (hp : p ∉ l)
    (he : some h.ptr = e') : Seg (total (s.put p h).links) e' (l ++ [p]) := by
  obtain ⟨hl,-⟩ := seg_append.mp hs
  refine seg_append.mpr ⟨seg_put hl hp,seg_singleton.mpr ?_⟩
  rw [total,Heap.links,put_self]
  exact he

section Order
variable {e : ℕ}

theorem increasing (h : Tiles Block.addr Block.stop start bs e) (hbase : base+8 < start) :
    (base :: frees bs).Pairwise (· < ·) := by
  refine .cons ?_ ?_
  · intro x hx
    obtain ⟨b,hb,-,rfl⟩ := mem_frees.mp hx
    have hle := (h.mem hb).1
    omega
  · rw [frees,List.pairwise_map]
    refine ((h.pairwise.filter _).imp_of_mem ?_)
    intro b b' hb hb' hle
    have hlt := (h.mem (List.mem_of_mem_filter hb)).2.1
    omega

theorem front_bounds (h : Tiles Block.addr Block.stop start bs e) (hbase : base+8 < start)
    (hx : x ∈ base :: frees bs) : base ≤ x ∧ x < e := by
  have hle := h.le
  obtain rfl | hx := List.mem_cons.mp hx
  · omega
  · obtain ⟨b,hb,-,rfl⟩ := mem_frees.mp hx
    have hb' := h.mem hb
    omega

theorem back_bounds (h : Tiles Block.addr Block.stop a bs e) (hx : x ∈ frees bs) : a ≤ x := by
  obtain ⟨b,hb,-,rfl⟩ := mem_frees.mp hx
  exact (h.mem hb).1

end Order

namespace Represents
variable {f : Bool} (h : Represents base start s (b₁ ++ ⟨a,n,f⟩ :: b₂))
include h

theorem tiles_before : Tiles Block.addr Block.stop start b₁ a := by
  obtain ⟨m,h1,rfl,-⟩ := tiles_append.mp h.tiles
  exact h1

theorem tiles_after : Tiles Block.addr Block.stop (a+8*n) b₂ s.brk := by
  obtain ⟨m,-,-,-,h2⟩ := tiles_append.mp h.tiles
  exact h2

theorem size_pos : 0 < n := by
  obtain ⟨m,-,-,hlt,-⟩ := tiles_append.mp h.tiles
  have hlt' : a < a+8*n := hlt
  omega

end Represents

section Search

def Stops (bp : ℕ) (s : Heap) (p : ℕ) : Prop :=
  (p < bp ∧ bp < (s.mem p).ptr) ∨ ((s.mem p).ptr ≤ p ∧ (p < bp ∨ bp < (s.mem p).ptr))

instance (bp : ℕ) (s : Heap) (p : ℕ) : Decidable (Stops bp s p) := by unfold Stops; infer_instance

theorem freeLoop_succ (bp fuel p : ℕ) (s : Heap) :
    freeLoop bp s (fuel+1) p = if Stops bp s p then .ok p else freeLoop bp s fuel (s.mem p).ptr := by
  rw [freeLoop]
  by_cases h1 : p < bp ∧ bp < (s.mem p).ptr
  · have hstop : Stops bp s p := Or.inl h1
    rw [if_pos h1,if_pos hstop]
  · rw [if_neg h1]
    refine if_congr ⟨Or.inr,?_⟩ rfl rfl
    exact fun hstop => hstop.resolve_left h1

theorem filter_lt {l₁ l₂ : List ℕ} (h₁ : ∀ x ∈ l₁, x < a) (h₂ : ∀ x ∈ l₂, a ≤ x) :
    (l₁ ++ l₂).filter (· < a) = l₁ := by
  rw [List.filter_append,List.filter_eq_self.mpr (by simpa using h₁),List.filter_eq_nil_iff.mpr,List.append_nil]
  intro x hx
  have hlt := h₂ x hx
  simp only [decide_eq_true_eq]
  omega

variable {A : List ℕ} {f : Bool} (h : Represents base start s (b₁ ++ ⟨a,n,f⟩ :: b₂)) (hbase : base+8 < start)
include h hbase

section
variable (hR : frees (b₁ ++ ⟨a,n,f⟩ :: b₂) = frees b₁ ++ frees b₂) (hA : base :: frees b₁ = A ++ [p])
include hR hA

theorem stops_iff (hx : x ∈ A ++ [p] ++ frees b₂) : Stops a s x ↔ x = p := by
  have hpos := h.size_pos
  have hlow : ∀ y ∈ A ++ [p], y < a := fun y hy => (front_bounds h.tiles_before hbase (hA ▸ hy)).2
  have hhigh : ∀ y ∈ frees b₂, a < y := by
    intro y hy
    have hle := back_bounds h.tiles_after hy
    omega
  have hinc := increasing h.tiles hbase
  have hcirc := h.circle
  have hhead : (A ++ [p] ++ frees b₂).head? = some base := by rw [← hA]; rfl
  rw [hR,← List.cons_append,hA] at hinc hcirc
  have hbasea : base < a := hlow base (hA ▸ List.mem_cons_self)
  constructor
  · intro hstop
    obtain ⟨pre,post,hsplit⟩ := List.append_of_mem hx
    have hlink := (hsplit ▸ hcirc).link_eq
    rw [← hsplit,hhead] at hlink
    rw [hsplit,List.pairwise_append,List.pairwise_cons] at hinc
    obtain ⟨-,⟨hpost,hrest⟩,hpre⟩ := hinc
    -- The cells up to `x` are those below the address.
    have hxa : x < a ∧ ∀ y ∈ post, a < y := by
      cases post with
      | nil =>
        have hq : (s.mem x).ptr = base := Option.some.inj hlink
        refine ⟨?_,fun y hy => (List.not_mem_nil hy).elim⟩
        rw [Stops,hq] at hstop
        omega
      | cons q post =>
        have hq : (s.mem x).ptr = q := Option.some.inj hlink
        have hxq := hpost q List.mem_cons_self
        rw [Stops,hq] at hstop
        refine ⟨by omega,?_⟩
        intro y hy
        obtain rfl | hy := List.mem_cons.mp hy
        · omega
        · have hqy := (List.pairwise_cons.mp hrest).1 y hy
          omega
    have hbefore : ∀ y ∈ pre ++ [x], y < a := by
      intro y hy
      obtain hy | hy := List.mem_append.mp hy
      · exact (hpre y hy x List.mem_cons_self).trans hxa.1
      · rw [List.mem_singleton.mp hy]
        exact hxa.1
    have heq : pre ++ [x] = A ++ [p] := by
      rw [← filter_lt hlow fun y hy => (hhigh y hy).le,hsplit,← filter_lt hbefore fun y hy => (hxa.2 y hy).le,
        List.append_assoc]
      rfl
    exact (List.cons.inj (List.append_inj' heq rfl).2).1
  · rintro rfl
    have hxa := hlow x (List.mem_append_right A List.mem_cons_self)
    rw [← List.append_cons] at hcirc hhead
    have hlink := hcirc.link_eq
    rw [hhead] at hlink
    cases hq : frees b₂ with
    | nil =>
      rw [hq] at hlink
      have hptr : (s.mem x).ptr = base := Option.some.inj hlink
      have hle := (front_bounds h.tiles_before hbase (hA ▸ List.mem_append_right A List.mem_cons_self : x ∈ _)).1
      right
      omega
    | cons q l =>
      rw [hq] at hlink
      have hptr : (s.mem x).ptr = q := Option.some.inj hlink
      have haq := hhigh q (by rw [hq]; exact List.mem_cons_self)
      left
      omega

theorem freeLoop_finds {z : ℕ} (hz : s.freep = some z) : freeLoop a s (s.brk+1) z = .ok p := by
  have hcirc := h.circle
  rw [hR,← List.cons_append,hA] at hcirc
  obtain ⟨z',hz',hfree⟩ := h.freep
  rw [hz] at hfree
  cases hfree
  rw [hR,← List.cons_append,hA] at hz'
  obtain ⟨pre,post,hsplit⟩ := List.append_of_mem hz'
  have hrot := (hsplit ▸ hcirc).rotate
  have hmem : ∀ y, y ∈ z :: post ++ pre ↔ y ∈ A ++ [p] ++ frees b₂ := by
    intro y
    rw [hsplit,List.mem_append,List.mem_append]
    exact or_comm
  -- Before the end of the search no cell stops it.
  obtain ⟨x,hx⟩ : ∃ x, (z :: post ++ pre).find? (fun y => decide (Stops a s y)) = some x := by
    refine Option.isSome_iff_exists.mp (List.find?_isSome.mpr ⟨p,?_,?_⟩)
    · rw [hmem]
      simp
    · exact decide_eq_true ((stops_iff h hbase hR hA (by simp)).mpr rfl)
  obtain ⟨hstop,l,r,hl,hno⟩ := List.find?_eq_some_iff_append.mp hx
  have hxp : x = p := by
    refine (stops_iff h hbase hR hA ?_).mp (of_decide_eq_true hstop)
    rw [← hmem,hl]
    simp
  have hhead : (l ++ [x]).head? = some z := by
    have hfirst := congrArg List.head? hl
    cases l with
    | nil => exact hfirst.symm
    | cons y l => exact hfirst.symm
  have hlen : l.length < s.brk+1 := by
    have h1 := congrArg List.length hl
    have h2 := congrArg List.length hsplit
    have h3 := congrArg List.length hA
    have h4 := congrArg List.length hR
    have h5 := frees_length_le (b₁ ++ ⟨a,n,f⟩ :: b₂)
    have h6 := h.tiles.length_le
    simp only [List.length_append,List.length_cons,List.length_nil] at h1 h2 h3 h4 h5 h6
    omega
  have hskip := Seg.skip (F := freeLoop a s) (hl ▸ hrot : Seg _ _ (l ++ x :: r)) hhead ?_ (s.brk-l.length+1)
  · rw [show s.brk-l.length+1+l.length = s.brk+1 by omega,freeLoop_succ a _ x,if_pos (of_decide_eq_true hstop),hxp] at hskip
    exact hskip
  · intro m y hy
    rw [freeLoop_succ,if_neg (by simpa using hno y hy)]
    rfl

end

end Search

structure Hole (base start : ℕ) (s : Heap) (b₁ : List Block) (a n : ℕ) (b₂ : List Block) : Prop where
  before : Tiles Block.addr Block.stop start b₁ a
  pos : 0 < n
  after : Tiles Block.addr Block.stop (a+8*n) b₂ s.brk
  apart₁ : b₁.IsChain Apart
  apart₂ : b₂.IsChain Apart
  closed : ∀ b ∈ b₂.head?, b.free = false
  sizes₁ : ∀ b ∈ b₁, (s.mem b.addr).size = b.size
  size : (s.mem a).size = n
  sizes₂ : ∀ b ∈ b₂, (s.mem b.addr).size = b.size
  baseSize : (s.mem base).size = 0
  front : ∃ e, Seg (total s.links) e (base :: frees b₁)
  next : some (s.mem a).ptr = (frees b₂).head?.or (some base)
  back : Seg (total s.links) (some base) (frees b₂)
  limit : s.brk < kernBase

section Join
variable {A : List ℕ}

theorem joinNext_hole (h : Represents base start s (b₁ ++ ⟨a,n,false⟩ :: b₂)) (hbase : base+8 < start)
    (hA : base :: frees b₁ = A ++ [p]) :
    ∃ n' b₂', n ≤ n' ∧ used b₂' = used b₂ ∧ (frees b₂').length ≤ (frees b₂).length ∧
      Hole base start (joinNext a p s) b₁ a n' b₂' := by
  have hpa : p < a := (front_bounds h.tiles_before hbase (hA ▸ List.mem_append_right A List.mem_cons_self)).2
  have hpos := h.size_pos
  have hcirc : Seg (total s.links) (some base) (base :: frees b₁ ++ frees b₂) := by
    have hc := h.circle
    rw [frees_append,frees_cons_used] at hc
    exact hc
  obtain ⟨hfront,hback⟩ := seg_append.mp hcirc
  have hptr : some (s.mem p).ptr = (frees b₂).head?.or (some base) := (hA ▸ hfront).link_last
  have hsize : (s.mem a).size = n := h.sizes ⟨a,n,false⟩ (by simp)
  obtain ⟨hap₁,hap₂,-⟩ := List.isChain_append.mp h.apart
  have hap₂ := (List.isChain_cons.mp hap₂).2
  have hmem : a ∉ base :: frees b₁ ∧ a ∉ frees b₂ := by
    refine ⟨fun ha => lt_irrefl a (front_bounds h.tiles_before hbase ha).2,fun ha => ?_⟩
    have hle := back_bounds h.tiles_after ha
    omega
  have hne : ∀ b ∈ b₁ ++ b₂, b.addr ≠ a := by
    intro b hb he
    obtain hb | hb := List.mem_append.mp hb
    · have hb' := h.tiles_before.mem hb
      omega
    · have hb' := (h.tiles_after.mem hb).1
      omega
  have hbasea : base ≠ a := (front_bounds h.tiles_before hbase List.mem_cons_self).2.ne
  have hhole : ∀ n' b₂' q, n ≤ n' → Tiles Block.addr Block.stop (a+8*n') b₂' s.brk → (∀ b ∈ b₂', b ∈ b₂) →
      b₂'.IsChain Apart → (∀ b ∈ b₂'.head?, b.free = false) → some q = (frees b₂').head?.or (some base) →
      Seg (total s.links) (some base) (frees b₂') → Hole base start (s.put a ⟨q,n'⟩) b₁ a n' b₂' := by
    intro n' b₂' q hn hafter hsub hchain hclosed hq hseg
    have hnot : a ∉ frees b₂' := by
      intro ha
      obtain ⟨b,hb,-,he⟩ := mem_frees.mp ha
      exact hne b (List.mem_append_right b₁ (hsub b hb)) he
    refine ⟨h.tiles_before,by omega,hafter,hap₁,hchain,hclosed,?_,?_,?_,?_,⟨_,seg_put hfront hmem.1⟩,?_,
      seg_put hseg hnot,h.limit⟩
    · intro b hb
      rw [put_of_ne (hne b (List.mem_append_left b₂ hb))]
      exact h.sizes b (List.mem_append_left _ hb)
    · rw [put_self]
    · intro b hb
      rw [put_of_ne (hne b (List.mem_append_right b₁ (hsub b hb)))]
      exact h.sizes b (List.mem_append_right _ (List.mem_cons_of_mem _ (hsub b hb)))
    · rw [put_of_ne hbasea]
      exact h.baseSize
    · rw [put_self]
      exact hq
  have hqa : (s.mem p).ptr ≠ a := by
    rintro he
    rw [he] at hptr
    cases hl : frees b₂ with
    | nil =>
      rw [hl] at hptr
      exact hbasea (Option.some.inj hptr).symm
    | cons q l =>
      rw [hl] at hptr
      refine hmem.2 ?_
      rw [hl,Option.some.inj hptr]
      exact List.mem_cons_self
  rw [joinNext_eq hpa.ne hqa,hsize,plus_eq h.tiles_after.le h.limit]
  by_cases hnext : ∃ m b₃, b₂ = ⟨a+8*n,m,true⟩ :: b₃
  · obtain ⟨m,b₃,rfl⟩ := hnext
    obtain ⟨-,hm,hafter⟩ := h.tiles_after
    have hq : (s.mem p).ptr = a+8*n := Option.some.inj hptr
    have hmsize : (s.mem (a+8*n)).size = m := h.sizes ⟨a+8*n,m,true⟩ (by simp)
    have hsum : (n+m)%2^32 = n+m := by
      have hle := hafter.le
      have hlim := h.limit
      have hk := kernBase_lt
      have hstop : (⟨a+8*n,m,true⟩ : Block).stop = a+8*n+8*m := rfl
      refine Nat.mod_eq_of_lt ?_
      omega
    obtain ⟨hclosed,hchain⟩ := List.isChain_cons.mp hap₂
    obtain ⟨hlink,hseg⟩ := seg_cons.mp hback
    rw [hq,if_pos rfl,hmsize,hsum]
    refine ⟨n+m,b₃,by omega,rfl,Nat.le_succ _,hhole _ _ _ (by omega) ?_ ?_ hchain ?_ hlink hseg⟩
    · rw [show a+8*(n+m) = a+8*n+8*m by omega]
      exact hafter
    · exact fun b hb => List.mem_cons_of_mem _ hb
    · intro b hb
      refine Bool.eq_false_iff.mpr fun hf => ?_
      exact hclosed b hb ⟨rfl,hf⟩
  · -- Whatever the block before points to is not the block behind.
    have hclosed : ∀ b ∈ b₂.head?, b.free = false := by
      intro b hb
      refine Bool.eq_false_iff.mpr fun hf => hnext ?_
      cases b₂ with
      | nil => cases hb
      | cons t b₃ =>
        cases hb
        obtain ⟨m,k,f⟩ := b
        obtain ⟨hm,-⟩ := h.tiles_after
        cases hm
        cases hf
        exact ⟨k,b₃,rfl⟩
    have hq : a+8*n ≠ (s.mem p).ptr := by
      intro he
      rw [← he] at hptr
      cases hl : frees b₂ with
      | nil =>
        rw [hl] at hptr
        have hb := Option.some.inj hptr
        have hba := (front_bounds h.tiles_before hbase List.mem_cons_self).2
        omega
      | cons q l =>
        rw [hl] at hptr
        obtain ⟨b,hb,hf,hba⟩ := mem_frees.mp (hl ▸ List.mem_cons_self : q ∈ frees b₂)
        have hqa : a+8*n = q := Option.some.inj hptr
        cases b₂ with
        | nil => cases hb
        | cons t b₃ =>
          have ht : t.addr = a+8*n := h.tiles_after.1
          have hbt : b = t := h.tiles_after.inj hb List.mem_cons_self (by omega)
          rw [hbt,hclosed t rfl] at hf
          cases hf
    rw [if_neg hq]
    exact ⟨n,b₂,le_rfl,rfl,le_rfl,hhole _ _ _ le_rfl h.tiles_after (fun b hb => hb) hap₂ hclosed hptr hback⟩

theorem joinPrev_represents (h : Hole base start s b₁ a n b₂) (hbase : base+8 < start)
    (hA : base :: frees b₁ = A ++ [p]) :
    ∃ bs, Represents base start ((joinPrev a p s).setFreep p) bs ∧ used bs = used b₁ ++ used b₂ ∧
      (frees bs).length ≤ (frees b₁).length+(frees b₂).length+1 ∧ ∃ b ∈ bs, b.free = true ∧ n ≤ b.size := by
  have hinc := increasing h.before hbase
  rw [hA] at hinc
  have hpA : p ∉ A := fun hp => lt_irrefl p ((List.pairwise_append.mp hinc).2.2 p hp p List.mem_cons_self)
  have hpa : p < a := (front_bounds h.before hbase (hA ▸ List.mem_append_right A List.mem_cons_self)).2
  have hpos := h.pos
  obtain ⟨e,hfront⟩ := h.front
  rw [hA] at hfront
  -- Whatever is written at `p`, the blocks after the hole keep their headers.
  have hback : ∀ hd, Seg (total (s.put p hd).links) (some base) (frees b₂) := by
    intro hd
    refine seg_put h.back fun hp => ?_
    have hle := back_bounds h.after hp
    omega
  have hsizes₂ : ∀ hd, ∀ b ∈ b₂, ((s.put p hd).mem b.addr).size = b.size := by
    intro hd b hb
    rw [put_of_ne]
    · exact h.sizes₂ b hb
    · have hle := (h.after.mem hb).1
      omega
  rw [joinPrev_eq hpa.ne',h.size]
  by_cases hprev : ∃ m b₀, b₁ = b₀ ++ [⟨p,m,true⟩]
  · obtain ⟨m,b₀,rfl⟩ := hprev
    obtain ⟨k,hb₀,rfl,-,hpstop⟩ := tiles_append.mp h.before
    have hb₀ : Tiles Block.addr Block.stop start b₀ p := hb₀
    have hpstop : p+8*m = a := hpstop
    have hmsize : (s.mem p).size = m := h.sizes₁ ⟨p,m,true⟩ (by simp)
    have hle := h.after.le
    have hlim := h.limit
    have hsum : (m+n)%2^32 = m+n := by
      have hk := kernBase_lt
      exact Nat.mod_eq_of_lt (by omega)
    have hA₀ : A = base :: frees b₀ := by
      rw [frees_append,frees_cons_free,frees_nil,← List.cons_append] at hA
      exact (List.append_inj' hA rfl).1.symm
    rw [hmsize,plus_eq (s := s) (p := p) (n := m) (by omega) hlim,if_pos hpstop,hsum]
    refine ⟨b₀ ++ ⟨p,m+n,true⟩ :: b₂,⟨?_,?_,?_,?_,?_,?_,hlim⟩,by simp,?_,⟨p,m+n,true⟩,by simp,rfl,Nat.le_add_left n m⟩
    · refine tiles_append.mpr ⟨p,hb₀,rfl,show p < p+8*(m+n) by omega,?_⟩
      have hstop : (⟨p,m+n,true⟩ : Block).stop = a+8*n := by
        change p+8*(m+n) = _
        omega
      rw [hstop]
      exact h.after
    · obtain ⟨hc₀,-,hlast⟩ := List.isChain_append.mp h.apart₁
      refine List.isChain_append.mpr ⟨hc₀,List.isChain_cons.mpr ⟨?_,h.apart₂⟩,?_⟩
      · intro b hb hf
        rw [h.closed b hb] at hf
        cases hf.2
      · intro b hb b' hb' hf
        cases hb'
        exact hlast b hb ⟨p,m,true⟩ rfl hf
    · intro b hb
      obtain hb | hb := List.mem_append.mp hb
      · have hb' := hb₀.mem hb
        refine (congrArg Header.size (put_of_ne ?_)).trans (h.sizes₁ b (List.mem_append_left _ hb))
        omega
      · obtain rfl | hb := List.mem_cons.mp hb
        · exact congrArg Header.size put_self
        · exact hsizes₂ _ b hb
    · refine (congrArg Header.size (put_of_ne ?_)).trans h.baseSize
      have hstart := hb₀.le
      omega
    · have hring : base :: frees (b₀ ++ ⟨p,m+n,true⟩ :: b₂) = A ++ [p] ++ frees b₂ := by simp [hA₀]
      have hseg := seg_append.mpr ⟨seg_put_last (h := ⟨(s.mem a).ptr,m+n⟩) hfront hpA h.next,hback _⟩
      rw [← hring] at hseg
      exact hseg
    · exact ⟨p,by simp,rfl⟩
    · simp only [frees_append,frees_cons_free,frees_nil,List.length_append,List.length_cons,List.length_nil]
      omega
  · -- The block at `p` ends before the hole.
    have hnot : plus p (s.mem p).size ≠ a := by
      obtain hp | hp := List.mem_cons.mp (hA ▸ List.mem_append_right A List.mem_cons_self : p ∈ base :: frees b₁)
      · have hk := kernBase_lt
        have hlim := h.limit
        have hle := h.after.le
        rw [hp,h.baseSize,plus,Nat.mul_zero,Nat.add_zero,Nat.mod_eq_of_lt (by omega)]
        omega
      · obtain ⟨b,hb,hf,rfl⟩ := mem_frees.mp hp
        obtain ⟨hb1,hb2,hb3⟩ := h.before.mem hb
        have hstop : b.stop = b.addr+8*b.size := rfl
        have hle := h.after.le
        rw [h.sizes₁ b hb,plus_eq (s := s) (by omega) h.limit]
        intro he
        obtain ⟨c₁,c₂,hsplit⟩ := List.append_of_mem hb
        obtain ⟨m,-,-,-,hc₂⟩ := tiles_append.mp (hsplit ▸ h.before)
        have hlen := hc₂.length_le
        have hnil : c₂ = [] := List.eq_nil_of_length_eq_zero (by omega)
        refine hprev ⟨b.size,c₁,?_⟩
        rw [hsplit,hnil,← hf]
    rw [if_neg hnot]
    have hsame : ∀ x, ((s.put p ⟨a,(s.mem p).size⟩).mem x).size = (s.mem x).size := size_setPtr
    refine ⟨b₁ ++ ⟨a,n,true⟩ :: b₂,⟨?_,?_,?_,?_,?_,?_,h.limit⟩,by simp,?_,⟨a,n,true⟩,by simp,rfl,le_rfl⟩
    · exact tiles_append.mpr ⟨a,h.before,rfl,show a < a+8*n by omega,h.after⟩
    · refine List.isChain_append.mpr ⟨h.apart₁,List.isChain_cons.mpr ⟨?_,h.apart₂⟩,?_⟩
      · intro b hb hf
        rw [h.closed b hb] at hf
        cases hf.2
      · intro b hb b' hb' hf
        obtain ⟨b₀,hb₀⟩ := List.getLast?_eq_some_iff.mp hb
        refine hprev ⟨b.size,b₀,?_⟩
        rw [hb₀,frees_append,show frees [b] = [b.addr] by rw [frees,List.filter_singleton,hf.1]; rfl,
          ← List.cons_append] at hA
        rw [hb₀,← (List.cons.inj (List.append_inj' hA rfl).2).1,← hf.1]
    · intro b hb
      refine (hsame _).trans ?_
      obtain hb | hb := List.mem_append.mp hb
      · exact h.sizes₁ b hb
      · obtain rfl | hb := List.mem_cons.mp hb
        · exact h.size
        · exact h.sizes₂ b hb
    · exact (hsame base).trans h.baseSize
    · have hring : base :: frees (b₁ ++ ⟨a,n,true⟩ :: b₂) = A ++ [p] ++ a :: frees b₂ := by
        rw [frees_append,← List.cons_append,hA,frees_cons_free]
      have hlink : total (s.put p ⟨a,(s.mem p).size⟩).links a = (frees b₂).head?.or (some base) := by
        rw [total,Heap.links,put_of_ne hpa.ne']
        exact h.next
      have hseg := seg_append.mpr ⟨seg_put_last (h := ⟨a,(s.mem p).size⟩) hfront hpA rfl,
        seg_cons.mpr ⟨hlink,hback _⟩⟩
      rw [← hring] at hseg
      exact hseg
    · refine ⟨p,?_,rfl⟩
      rw [frees_append,← List.cons_append,hA]
      simp
    · simp only [frees_append,frees_cons_free,List.length_append,List.length_cons]
      omega

end Join

end Xv6Paging.Umalloc
