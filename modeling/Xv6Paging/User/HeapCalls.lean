import Xv6Paging.User.HeapBlocks

/-! # The calls of the allocator

What `free`, `morecore` and `malloc` do to the blocks of a heap. Each of them returns: the search of `free` ends
at the block before the one that is freed, and the loop of `malloc` asks for more memory at most once, since
what `morecore` adds is large enough.
-/
namespace Xv6Paging.Umalloc
open LinkedCells Tiling

variable {base start : ℕ} {s : Heap} {bs b₁ b₂ : List Block} {a n p x : ℕ}

theorem exists_last (base : ℕ) (bs : List Block) : ∃ A p, base :: frees bs = A ++ [p] := by
  obtain hnil | ⟨A,p,hA⟩ := List.eq_nil_or_concat (base :: frees bs)
  · cases hnil
  · exact ⟨A,p,hA.trans List.concat_eq_append⟩

variable (hbase : base+8 < start)
include hbase

/-- `free` of a used block. -/
theorem free_spec (h : Represents base start s (b₁ ++ ⟨a,n,false⟩ :: b₂)) :
    ∃ s' bs', free (a+8) s = .ok s' ∧ Represents base start s' bs' ∧ used bs' = used b₁ ++ used b₂ ∧
      (frees bs').length ≤ (frees b₁).length+(frees b₂).length+1 ∧ ∃ b ∈ bs', b.free = true ∧ n ≤ b.size := by
  obtain ⟨A,p,hA⟩ := exists_last base b₁
  have hbp : (a+8+2^32-8)%2^32 = a := by
    have hle := h.tiles_after.le
    have hlim := h.limit
    have hk := kernBase_lt
    omega
  obtain ⟨z,-,hz⟩ := h.freep
  have hfind := freeLoop_finds h hbase (by simp) hA hz
  obtain ⟨n',b₂',hn,hused,hlen,hhole⟩ := joinNext_hole h hbase hA
  obtain ⟨bs',hrep,hused',hlen',b,hb,hfree,hsize⟩ := joinPrev_represents hhole hbase hA
  refine ⟨_,bs',?_,hrep,by rw [hused',hused],by omega,b,hb,hfree,by omega⟩
  rw [free,hz]
  dsimp only
  rw [hbp,hfind]
  rfl

theorem extend (h : Represents base start s bs) (hn : 0 < n) (hlim : s.brk+8*n < kernBase) :
    Represents base start ({s with brk := s.brk+8*n}.setSize s.brk n) (bs ++ [⟨s.brk,n,false⟩]) := by
  have hother : ∀ x, x ≠ s.brk → ({s with brk := s.brk+8*n}.setSize s.brk n).mem x = s.mem x := fun x hx =>
    setSize_of_ne hx
  refine ⟨?_,?_,?_,?_,?_,?_,hlim⟩
  · exact tiles_append.mpr ⟨s.brk,h.tiles,rfl,show s.brk < s.brk+8*n by omega,rfl⟩
  · refine List.isChain_append.mpr ⟨h.apart,.singleton _,?_⟩
    intro b hb b' hb' hf
    cases hb'
    cases hf.2
  · intro b hb
    obtain hb | hb := List.mem_append.mp hb
    · have hb' := h.tiles.mem hb
      rw [hother _ (by omega)]
      exact h.sizes b hb
    · rw [List.mem_singleton.mp hb]
      exact setSize_size
  · have hle := h.tiles.le
    rw [hother _ (by omega)]
    exact h.baseSize
  · rw [links_setSize,frees_append,frees_cons_used,frees_nil,List.append_nil]
    exact h.circle
  · rw [frees_append,frees_cons_used,frees_nil,List.append_nil]
    exact h.freep

def Granted (grant : ℕ → Bool) (n : ℕ) (s : Heap) : Prop :=
  grant s.brk = true ∧ s.brk+8*(if n < 4096 then 4096 else n) < kernBase

theorem morecore_spec (grant : ℕ → Bool) (h : Represents base start s bs) (hn : n < 2^28) :
    (¬ Granted grant n s ∧ morecore grant n s = .ok (none,s)) ∨
    Granted grant n s ∧
    ∃ p s' bs', morecore grant n s = .ok (some p,s') ∧ s'.freep = some p ∧ Represents base start s' bs' ∧
      used bs' = used bs ∧ (frees bs').length ≤ (frees bs).length+1 ∧ ∃ b ∈ bs', b.free = true ∧ n ≤ b.size := by
  unfold morecore Granted
  dsimp only
  obtain ⟨m,hm,hnm,hpos,hmax⟩ : ∃ m, (if n < 4096 then 4096 else n) = m ∧ n ≤ m ∧ 0 < m ∧ m < 2^28 := by
    split_ifs with hsmall
    · exact ⟨4096,rfl,hsmall.le,by decide,by decide⟩
    · exact ⟨n,rfl,le_rfl,by omega,hn⟩
  rw [hm,show m*8%2^32 = 8*m by omega,sbrk,if_neg (by omega),if_pos (by omega)]
  by_cases hgrant : grant s.brk = true ∧ s.brk+8*m < kernBase
  · right
    have hk := kernBase_lt
    have hplus : plus s.brk 1 = s.brk+8 := Nat.mod_eq_of_lt (by omega)
    obtain ⟨s',bs',hfree,hrep,hused,hlen,hfits⟩ := free_spec hbase (extend hbase h hpos hgrant.2)
    obtain ⟨p,-,hp⟩ := hrep.freep
    obtain ⟨b,hb,hf,hb'⟩ := hfits
    refine ⟨hgrant,p,s',bs',?_,hp,hrep,?_,?_,b,hb,hf,by omega⟩
    · have hpage : ¬ pgRoundUp (s.brk+8*m) < s.brk+8 := by
        have hlt : s.brk+8*m < 2^31 := hgrant.2
        simp only [pgRoundUp,pgSize]
        omega
      rw [if_pos hgrant]
      dsimp only
      rw [if_neg hpage,hplus,hfree,← hp]
      rfl
    · rw [hused,used_nil,List.append_nil]
    · simpa using hlen
  · left
    rw [if_neg hgrant]
    exact ⟨hgrant,rfl⟩

section Carve
variable {A : List ℕ} {y m nunits : ℕ} {f : Bool}

/-- The units are taken from the end of a larger block, or the block is taken out of the list. -/
theorem carve_spec (h : Represents base start s (b₁ ++ ⟨x,m,true⟩ :: b₂)) (hA : base :: frees b₁ = A ++ [y])
    (hpos : 0 < nunits) (hfit : nunits ≤ m) :
    ∃ a s' bs', carve nunits y x s = (some (a+8),s') ∧ Represents base start s' bs' ∧
      used bs' = used b₁ ++ ⟨a,nunits,false⟩ :: used b₂ := by
  have hsize : (s.mem x).size = m := h.sizes ⟨x,m,true⟩ (by simp)
  have hafter := h.tiles_after
  have hle := hafter.le
  have hlim := h.limit
  have hymem : y ∈ base :: frees b₁ := hA ▸ List.mem_append_right A List.mem_cons_self
  have hyx := (front_bounds h.tiles_before hbase hymem).2
  have hring : Seg (total s.links) (some base) (base :: frees (b₁ ++ ⟨x,m,true⟩ :: b₂)) := h.circle
  obtain ⟨hap₁,hap₂,hap⟩ := List.isChain_append.mp h.apart
  obtain ⟨hclosed,hap₂⟩ := List.isChain_cons.mp hap₂
  -- A used block has any neighbours.
  have hchain : ∀ k u, (⟨k,u,false⟩ :: b₂ : List Block).IsChain Apart := by
    intro k u
    refine List.isChain_cons.mpr ⟨?_,hap₂⟩
    intro b _ hf
    cases hf.1
  obtain rfl | hlt := Nat.eq_or_lt_of_le hfit
  · have hplus : plus x 1 = x+8 := plus_eq (s := s) (by omega) hlim
    have hyA : y ∉ A := by
      intro hy
      have hinc := increasing h.tiles_before hbase
      rw [hA] at hinc
      exact lt_irrefl y ((List.pairwise_append.mp hinc).2.2 y hy y List.mem_cons_self)
    have hyb : y ∉ frees b₂ := by
      intro hy
      have hb := back_bounds hafter hy
      omega
    rw [frees_append,frees_cons_free,← List.cons_append,hA] at hring
    obtain ⟨hfront,hrest⟩ := seg_append.mp hring
    obtain ⟨hlink,hback⟩ := seg_cons.mp hrest
    refine ⟨x,(s.setPtr y (s.mem x).ptr).setFreep y,b₁ ++ ⟨x,nunits,false⟩ :: b₂,?_,⟨?_,?_,?_,?_,?_,?_,hlim⟩,by simp⟩
    · rw [carve,if_pos hsize,hplus]
    · exact tiles_append.mpr ⟨x,h.tiles_before,rfl,show x < x+8*nunits by omega,hafter⟩
    · refine List.isChain_append.mpr ⟨hap₁,hchain x nunits,?_⟩
      intro b _ b' hb' hf
      cases hb'
      cases hf.2
    · intro b hb
      refine (size_setPtr _).trans ?_
      obtain hb | hb := List.mem_append.mp hb
      · exact h.sizes b (List.mem_append_left _ hb)
      · obtain rfl | hb := List.mem_cons.mp hb
        · exact hsize
        · exact h.sizes b (List.mem_append_right _ (List.mem_cons_of_mem _ hb))
    · exact (size_setPtr base).trans h.baseSize
    · have hseg := seg_append.mpr ⟨seg_put_last (h := ⟨(s.mem x).ptr,(s.mem y).size⟩) hfront hyA hlink,
        seg_put hback hyb⟩
      have hlist : base :: frees (b₁ ++ ⟨x,nunits,false⟩ :: b₂) = A ++ [y] ++ frees b₂ := by
        rw [frees_append,frees_cons_used,← List.cons_append,hA]
      rw [← hlist] at hseg
      exact hseg
    · refine ⟨y,?_,rfl⟩
      rw [frees_append,← List.cons_append]
      exact List.mem_append_left _ hymem
  · have hplus : plus x (m-nunits) = x+8*(m-nunits) := plus_eq (s := s) (by omega) hlim
    have hplus' : plus (x+8*(m-nunits)) 1 = x+8*(m-nunits)+8 := plus_eq (s := s) (by omega) hlim
    have hxx : x ≠ x+8*(m-nunits) := by omega
    refine ⟨x+8*(m-nunits),((s.setSize x (m-nunits)).setSize (x+8*(m-nunits)) nunits).setFreep y,
      b₁ ++ ⟨x,m-nunits,true⟩ :: ⟨x+8*(m-nunits),nunits,false⟩ :: b₂,?_,⟨?_,?_,?_,?_,?_,?_,hlim⟩,by simp⟩
    · rw [carve,if_neg (by omega)]
      dsimp only
      rw [hsize,setSize_size,hplus,hplus']
    · refine tiles_append.mpr ⟨x,h.tiles_before,rfl,show x < x+8*(m-nunits) by omega,rfl,?_,?_⟩
      · change x+8*(m-nunits) < x+8*(m-nunits)+8*nunits
        omega
      · have hstop : (⟨x+8*(m-nunits),nunits,false⟩ : Block).stop = x+8*m := by
          change x+8*(m-nunits)+8*nunits = _
          omega
        rw [hstop]
        exact hafter
    · refine List.isChain_append.mpr ⟨hap₁,List.isChain_cons.mpr ⟨?_,hchain _ _⟩,?_⟩
      · intro b hb hf
        cases hb
        cases hf.2
      · intro b hb b' hb' hf
        cases hb'
        exact hap b hb _ rfl ⟨hf.1,rfl⟩
    · have hkeep : ∀ z, z ≠ x → z ≠ x+8*(m-nunits) →
          (((s.setSize x (m-nunits)).setSize (x+8*(m-nunits)) nunits).mem z).size = (s.mem z).size := by
        intro z h1 h2
        rw [setSize_of_ne h2,setSize_of_ne h1]
      intro b hb
      obtain hb | hb := List.mem_append.mp hb
      · have hb' := h.tiles_before.mem hb
        refine (hkeep _ (by omega) (by omega)).trans (h.sizes b (List.mem_append_left _ hb))
      · obtain rfl | hb := List.mem_cons.mp hb
        · exact (congrArg Header.size (setSize_of_ne hxx)).trans setSize_size
        · obtain rfl | hb := List.mem_cons.mp hb
          · exact setSize_size
          · have hb' := (hafter.mem hb).1
            refine (hkeep _ (by omega) (by omega)).trans (h.sizes b ?_)
            exact List.mem_append_right _ (List.mem_cons_of_mem _ hb)
    · have hstart := h.tiles_before.le
      refine Eq.trans (congrArg Header.size ?_) h.baseSize
      exact (setSize_of_ne (by omega)).trans (setSize_of_ne (by omega))
    · change Circle ((s.setSize x (m-nunits)).setSize (x+8*(m-nunits)) nunits).links _
      rw [links_setSize,links_setSize]
      rw [frees_append,frees_cons_free] at hring ⊢
      exact hring
    · refine ⟨y,?_,rfl⟩
      rw [frees_append,← List.cons_append]
      exact List.mem_append_left _ hymem

end Carve

section Malloc
variable {grant : ℕ → Bool} {nunits z : ℕ}

omit hbase in
theorem mallocLoop_next {fuel y : ℕ} (hno : (s.mem (s.links y)).size < nunits) (hz : s.freep ≠ some (s.links y)) :
    mallocLoop grant nunits (fuel+1) y (s.links y) s =
      mallocLoop grant nunits fuel (s.links y) (s.links (s.links y)) s := by
  rw [mallocLoop,if_neg (not_le.mpr hno),if_neg hz]
  rfl

theorem exists_rotated (h : Represents base start s bs) (hz : s.freep = some z) :
    ∃ w, Circle s.links (z :: w) ∧ z ∉ w ∧ (∀ x, x ∈ z :: w ↔ x ∈ base :: frees bs) ∧
      w.length = (frees bs).length := by
  obtain ⟨z',hmem,hfree⟩ := h.freep
  rw [hz] at hfree
  cases hfree
  obtain ⟨pre,post,hsplit⟩ := List.append_of_mem hmem
  have hnodup : (base :: frees bs).Nodup := (increasing h.tiles hbase).imp fun hlt => hlt.ne
  rw [hsplit,List.nodup_append_comm,List.cons_append,List.nodup_cons] at hnodup
  refine ⟨post ++ pre,(hsplit ▸ h.circle).rotate,hnodup.1,?_,?_⟩
  · intro x
    rw [hsplit,← List.cons_append,List.mem_append,List.mem_append]
    exact or_comm
  · have hlen := congrArg List.length hsplit
    simp only [List.length_cons,List.length_append] at hlen ⊢
    omega

section Walk
variable {α : Type*} {F : ℕ → ℕ → α}
variable (hF : ∀ k y, (s.mem (s.links y)).size < nunits → s.freep ≠ some (s.links y) → F (k+1) y = F k (s.links y))
include hF

omit hbase in
theorem circle_walk {w l r : List ℕ} {y : ℕ} (hcirc : Circle s.links (z :: w)) (hzw : z ∉ w)
    (hz : s.freep = some z) (hl : z :: w = l ++ y :: r) (hno : ∀ y' ∈ l, (s.mem (s.links y')).size < nunits) (k : ℕ) :
    F (k+l.length) z = F k y := by
  have hseg : Seg (total s.links) (some z) (l ++ y :: r) := hl ▸ hcirc
  have hhead : (l ++ [y]).head? = some z := by
    have hfirst := congrArg List.head? hl
    cases l with
    | nil => exact hfirst.symm
    | cons y l => exact hfirst.symm
  refine Seg.skip hseg hhead ?_ k
  intro k y' hy'
  refine hF k y' (hno y' hy') fun he => hzw ?_
  rw [hz] at he
  rw [Option.some.inj he]
  have htail := hseg.link_mem_tail hy'
  rw [← hl] at htail
  exact htail

theorem circle_end (h : Represents base start s bs) (hz : s.freep = some z) (hpos : 0 < nunits)
    (hno : ∀ b ∈ bs, b.free = true → b.size < nunits) (k : ℕ) :
    ∃ y, s.links y = z ∧ (s.mem z).size < nunits ∧ F (k+(frees bs).length) z = F k y := by
  obtain ⟨w,hcirc,hzw,hmem,hlen⟩ := exists_rotated hbase h hz
  have hsmall : ∀ x ∈ z :: w, (s.mem x).size < nunits := by
    intro x hx
    obtain rfl | hx := List.mem_cons.mp ((hmem x).mp hx)
    · rw [h.baseSize]
      exact hpos
    · obtain ⟨b,hb,hf,rfl⟩ := mem_frees.mp hx
      rw [h.sizes b hb]
      exact hno b hb hf
  obtain ⟨l,y,hl⟩ : ∃ l y, z :: w = l ++ [y] := by
    obtain hnil | ⟨l,y,hl⟩ := List.eq_nil_or_concat (z :: w)
    · cases hnil
    · exact ⟨l,y,hl.trans List.concat_eq_append⟩
  have hseg : Seg (total s.links) (some z) (l ++ [y]) := hl ▸ hcirc
  have hll : l.length = (frees bs).length := by
    have h1 := congrArg List.length hl
    simp only [List.length_cons,List.length_append,List.length_nil] at h1
    omega
  have hpass : ∀ y' ∈ l, (s.mem (s.links y')).size < nunits := by
    intro y' hy'
    have htail := hseg.link_mem_tail hy'
    rw [← hl] at htail
    exact hsmall _ (List.mem_cons_of_mem z htail)
  refine ⟨y,Option.some.inj hseg.link_last,hsmall z List.mem_cons_self,?_⟩
  rw [← hll,circle_walk hF hcirc hzw hz hl hpass k]

end Walk

theorem block_of_link {y : ℕ} (h : Represents base start s bs) (hy : y ∈ base :: frees bs) (hx : s.links y ≠ base) :
    ∃ b₁ m b₂ A, bs = b₁ ++ ⟨s.links y,m,true⟩ :: b₂ ∧ base :: frees b₁ = A ++ [y] := by
  obtain ⟨pre,post,hsplit⟩ := List.append_of_mem hy
  have hlink := (hsplit ▸ h.circle).link_eq
  rw [← hsplit] at hlink
  cases post with
  | nil => exact (hx (Option.some.inj hlink)).elim
  | cons x post =>
    rw [Option.some.inj hlink] at hx ⊢
    have hmem : x ∈ base :: frees bs := by
      rw [hsplit]
      simp
    obtain ⟨⟨x',m,f⟩,hb,hf,hbx⟩ := mem_frees.mp ((List.mem_cons.mp hmem).resolve_left hx)
    cases hbx
    cases hf
    obtain ⟨b₁,b₂,rfl⟩ := List.append_of_mem hb
    refine ⟨b₁,m,b₂,pre,rfl,?_⟩
    -- Both lists are the cells below the block.
    have hinc := increasing h.tiles hbase
    rw [hsplit,List.append_cons,List.pairwise_append] at hinc
    obtain ⟨-,hpost,hpre⟩ := hinc
    have h1 : (base :: frees b₁ ++ x' :: frees b₂).filter (· < x') = base :: frees b₁ := by
      refine filter_lt (fun v hv => (front_bounds h.tiles_before hbase hv).2) fun v hv => ?_
      obtain rfl | hv := List.mem_cons.mp hv
      · exact le_rfl
      · have hle := back_bounds h.tiles_after hv
        omega
    have h2 : (pre ++ [y] ++ x' :: post).filter (· < x') = pre ++ [y] := by
      refine filter_lt (fun v hv => hpre v hv x' List.mem_cons_self) fun v hv => ?_
      obtain rfl | hv := List.mem_cons.mp hv
      · exact le_rfl
      · exact ((List.pairwise_cons.mp hpost).1 v hv).le
    rw [← h1,← h2,← List.append_cons,List.cons_append,← frees_cons_free (n := m),← frees_append]
    exact congrArg _ hsplit

theorem mallocLoop_fits (h : Represents base start s bs) (hz : s.freep = some z) (hpos : 0 < nunits)
    (hfits : ∃ b ∈ bs, b.free = true ∧ nunits ≤ b.size) {fuel : ℕ} (hfuel : (frees bs).length < fuel) :
    ∃ b₁ x m b₂ A y, bs = b₁ ++ ⟨x,m,true⟩ :: b₂ ∧ nunits ≤ m ∧ base :: frees b₁ = A ++ [y] ∧
      mallocLoop grant nunits fuel z (s.links z) s = .ok (carve nunits y x s) := by
  obtain ⟨w,hcirc,hzw,hmem,hlen⟩ := exists_rotated hbase h hz
  -- The first block whose successor is large enough.
  obtain ⟨y,hy⟩ : ∃ y, (z :: w).find? (fun y => decide (nunits ≤ (s.mem (s.links y)).size)) = some y := by
    obtain ⟨b,hb,hf,hle⟩ := hfits
    have hcell : b.addr ∈ z :: w := (hmem b.addr).mpr (List.mem_cons_of_mem _ (mem_frees.mpr ⟨b,hb,hf,rfl⟩))
    obtain ⟨y,hy,hlink⟩ := hcirc.exists_link hcell
    refine Option.isSome_iff_exists.mp (List.find?_isSome.mpr ⟨y,hy,?_⟩)
    rw [hlink,h.sizes b hb]
    exact decide_eq_true hle
  obtain ⟨hfit,l,r,hl,hno⟩ := List.find?_eq_some_iff_append.mp hy
  have hfit := of_decide_eq_true hfit
  obtain ⟨b₁,m,b₂,A,hbs,hA⟩ := block_of_link hbase h ((hmem y).mp (hl ▸ List.mem_append_right l List.mem_cons_self)) (by
    intro he
    rw [he,h.baseSize] at hfit
    omega)
  have hm : (s.mem (s.links y)).size = m := h.sizes ⟨s.links y,m,true⟩ (by simp [hbs])
  obtain ⟨k,hk⟩ : ∃ k, fuel = k+1+l.length := by
    have h1 := congrArg List.length hl
    simp only [List.length_cons,List.length_append] at h1
    exact ⟨fuel-1-l.length,by omega⟩
  refine ⟨b₁,s.links y,m,b₂,A,y,hbs,hm ▸ hfit,hA,?_⟩
  have hwalk := circle_walk (F := fun k y => mallocLoop grant nunits k y (s.links y) s) (fun _ _ => mallocLoop_next)
    hcirc hzw hz hl (fun y' hy' => by simpa using hno y' hy') (k+1)
  rw [hk,hwalk,mallocLoop,if_pos hfit]

theorem mallocLoop_grows (h : Represents base start s bs) (hz : s.freep = some z) (hpos : 0 < nunits)
    (hno : ∀ b ∈ bs, b.free = true → b.size < nunits) (fuel : ℕ) :
    (morecore grant nunits s = .ok (none,s) →
      mallocLoop grant nunits (fuel+1+(frees bs).length) z (s.links z) s = .ok (none,s)) ∧
    ∀ p s', morecore grant nunits s = .ok (some p,s') →
      mallocLoop grant nunits (fuel+1+(frees bs).length) z (s.links z) s =
        mallocLoop grant nunits fuel p (s'.links p) s' := by
  obtain ⟨y,hlast,hsmall,hend⟩ := circle_end hbase (F := fun k y => mallocLoop grant nunits k y (s.links y) s)
    (fun _ _ => mallocLoop_next) h hz hpos hno (fuel+1)
  rw [hend,hlast,mallocLoop,if_neg (not_le.mpr hsmall),if_pos hz]
  constructor
  · intro hmore
    rw [hmore]
    rfl
  · intro p s' hmore
    rw [hmore]
    rfl

def nunitsOf (nbytes : ℕ) : ℕ := (nbytes+8-1)%2^32/8+1
def units (nbytes : ℕ) : ℕ := (nbytes+7)/8+1

theorem malloc_nunits (grant : ℕ → Bool) {nbytes : ℕ} (h : Represents base start s bs) (hn : nunitsOf nbytes = n)
    (hmax : n < 2^28) :
    ∃ r s' bs', malloc base grant nbytes s = .ok (r,s') ∧ Represents base start s' bs' ∧
      (r = none ∧ used bs' = used bs ∧ (∀ b ∈ bs, b.free = true → b.size < n) ∧ ¬ Granted grant n s ∨
        ((∃ b ∈ bs, b.free = true ∧ n ≤ b.size) ∨ Granted grant n s) ∧
        ∃ a u₁ u₂, r = some (a+8) ∧ used bs = u₁ ++ u₂ ∧ used bs' = u₁ ++ ⟨a,n,false⟩ :: u₂) := by
  obtain ⟨z,-,hz⟩ := h.freep
  have hpos : 0 < n := hn ▸ Nat.succ_pos _
  have hlen := frees_length_le bs
  have hbrk := h.tiles.length_le
  -- A pass that finds a block.
  have htake : ∀ s₁ bs₁ z₁ fuel, Represents base start s₁ bs₁ → s₁.freep = some z₁ → used bs₁ = used bs →
      (∃ b ∈ bs₁, b.free = true ∧ n ≤ b.size) → (frees bs₁).length < fuel →
      ∃ r s' bs', mallocLoop grant n fuel z₁ (s₁.links z₁) s₁ = .ok (r,s') ∧ Represents base start s' bs' ∧
        ∃ a u₁ u₂, r = some (a+8) ∧ used bs = u₁ ++ u₂ ∧ used bs' = u₁ ++ ⟨a,n,false⟩ :: u₂ := by
    intro s₁ bs₁ z₁ fuel hrep hz₁ hused hfits hfuel
    obtain ⟨b₁,x,m,b₂,A,y,rfl,hm,hA,hloop⟩ := mallocLoop_fits hbase hrep hz₁ hpos hfits hfuel
    obtain ⟨a,s',bs',hcarve,hrep',hused'⟩ := carve_spec hbase hrep hA hpos hm
    refine ⟨some (a+8),s',bs',?_,hrep',a,used b₁,used b₂,rfl,?_,hused'⟩
    · rw [hloop,hcarve]
    · rw [← hused,used_append,used_cons_free]
  have hstart : malloc base grant nbytes s = mallocLoop grant n (2*s.brk+4) z (s.links z) s := by
    rw [malloc,hz,← hn]
    rfl
  rw [hstart]
  by_cases hfits : ∃ b ∈ bs, b.free = true ∧ n ≤ b.size
  · obtain ⟨r,s',bs',hrun,hrep,htaken⟩ := htake s bs z (2*s.brk+4) h hz rfl hfits (by omega)
    exact ⟨r,s',bs',hrun,hrep,Or.inr ⟨Or.inl hfits,htaken⟩⟩
  · have hsmall : ∀ b ∈ bs, b.free = true → b.size < n := by
      intro b hb hf
      by_contra hle
      exact hfits ⟨b,hb,hf,not_lt.mp hle⟩
    obtain ⟨fuel,hfuel⟩ : ∃ fuel, 2*s.brk+4 = fuel+1+(frees bs).length := ⟨2*s.brk+3-(frees bs).length,by omega⟩
    obtain ⟨hnone,hsome⟩ := mallocLoop_grows hbase h hz hpos hsmall fuel
    rw [hfuel]
    obtain ⟨hrefused,hfail⟩ | ⟨hgrant,p,s₁,bs₁,hmore,hp,hrep,hused,hlen₁,hfits₁⟩ := morecore_spec hbase grant h hmax
    · exact ⟨none,s,bs,hnone hfail,h,Or.inl ⟨rfl,rfl,hsmall,hrefused⟩⟩
    · rw [hsome p s₁ hmore]
      obtain ⟨r,s',bs',hrun,hrep',htaken⟩ := htake s₁ bs₁ p fuel hrep hp hused hfits₁ (by omega)
      exact ⟨r,s',bs',hrun,hrep',Or.inr ⟨Or.inr hgrant,htaken⟩⟩

omit hbase in
theorem nunitsOf_eq_units {nbytes : ℕ} (hn : nbytes+7 < 2^32) : nunitsOf nbytes = units nbytes := by
  rw [nunitsOf,units]
  omega

/-- `malloc` returns: a block has become used, or there was no memory and the used blocks are as before. -/
theorem malloc_spec (grant : ℕ → Bool) {nbytes : ℕ} (h : Represents base start s bs) (hn : nbytes+16 ≤ 2^31) :
    ∃ r s' bs', malloc base grant nbytes s = .ok (r,s') ∧ Represents base start s' bs' ∧
      (r = none ∧ used bs' = used bs ∨
        ∃ a u₁ u₂, r = some (a+8) ∧ used bs = u₁ ++ u₂ ∧ used bs' = u₁ ++ ⟨a,units nbytes,false⟩ :: u₂) := by
  obtain ⟨r,s',bs',hrun,hrep,hres⟩ :=
    malloc_nunits hbase grant h (nunitsOf_eq_units (by omega)) (show units nbytes < 2^28 by rw [units]; omega)
  exact ⟨r,s',bs',hrun,hrep,hres.imp (fun hnone => ⟨hnone.1,hnone.2.1⟩) And.right⟩

end Malloc

end Xv6Paging.Umalloc
