import Xv6Paging.User.HeapRuns

/-! # The sizes that the allocator computes

`malloc` computes units modulo 2^32, and `sbrk` takes the number of bytes as an `int`. Both are right for fewer than
2^31-15 bytes. For more, the number of bytes that `morecore` asks for is zero or negative, and it writes to memory
that the process does not have; for the last seven values of a `uint` the block has one unit.
-/
namespace Xv6Paging.Umalloc
open LinkedCells Tiling

def asksForCore (nunits : ℕ) (s : Heap) : ℕ → ℕ → Bool
  | 0, _ => false
  | fuel+1, p =>
    if nunits ≤ (s.mem p).size then false
    else if s.freep = some p then true
    else asksForCore nunits s fuel (s.mem p).ptr

def callsMorecore (base nbytes : ℕ) (s : Heap) : Bool :=
  match s.freep with
  | none => asksForCore (nunitsOf nbytes) (s.initBase base) (2*s.brk+4) ((s.initBase base).mem base).ptr
  | some prevp => asksForCore (nunitsOf nbytes) s (2*s.brk+4) (s.mem prevp).ptr

def coreUnits (nu : ℕ) : ℕ := if nu < 4096 then 4096 else nu

def coreArg (nu : ℕ) : ℤ := (BitVec.ofNat 32 (coreUnits nu*8)).toInt

/-- The call fails, or returns a block with room for the bytes; and `sbrk` is asked for a positive number of
bytes that are all the units. -/
structure SoundCall (base start : ℕ) (grant : ℕ → Bool) (nbytes : ℕ) (s : Heap) : Prop where
  result : ∃ r s', malloc base grant nbytes s = .ok (r,s') ∧ ∀ p, r = some p →
    nbytes ≤ 8*((s'.mem (p-8)).size-1) ∧ start+8 ≤ p ∧ p-8+8*(s'.mem (p-8)).size ≤ s'.brk
  request : callsMorecore base nbytes s = true →
    0 < coreArg (nunitsOf nbytes) ∧ coreUnits (nunitsOf nbytes)*8 ≤ coreArg (nunitsOf nbytes)

/-- The states of the allocator, with the blocks: before the first call there are none. -/
def Allocator (base start : ℕ) (s : Heap) (bs : List Block) : Prop :=
  Represents base start s bs ∨ s.freep = none ∧ s.brk = start ∧ start < kernBase ∧ bs = []

section
variable {base start n nbytes z : ℕ} {grant : ℕ → Bool} {s : Heap} {bs : List Block}

theorem coreArg_pos_iff (hn : n ≤ 2^29) : (0 < coreArg n ∧ coreUnits n*8 ≤ coreArg n) ↔ n < 2^28 := by
  have hunits : coreUnits n = 4096 ∧ n < 4096 ∨ coreUnits n = n ∧ 4096 ≤ n := by
    unfold coreUnits
    split_ifs with h
    · exact Or.inl ⟨rfl,h⟩
    · exact Or.inr ⟨rfl,not_lt.mp h⟩
  rw [coreArg,BitVec.toInt_eq_toNat_cond,BitVec.toNat_ofNat]
  split_ifs <;> omega

theorem size_lt (h : Represents base start s bs) {b : Block} (hb : b ∈ bs) : b.size < 2^28 := by
  have hlim := h.limit
  have hstop := (h.tiles.mem hb).2.2
  have hk : kernBase = 2^31 := by decide
  simp only [Block.stop] at hstop
  omega

theorem frees_eq_nil_iff (h : Represents base start s bs) : frees bs = [] ↔ ∀ b ∈ bs, b.free = true → b.size < 1 := by
  constructor
  · intro hnil b hb hf
    have hmem := mem_frees.mpr ⟨b,hb,hf,rfl⟩
    rw [hnil] at hmem
    cases hmem
  · intro hsmall
    refine List.eq_nil_iff_forall_not_mem.mpr fun a ha => ?_
    obtain ⟨b,hb,hf,-⟩ := mem_frees.mp ha
    have hlt := (h.tiles.mem hb).2.1
    have hsize := hsmall b hb hf
    simp only [Block.stop] at hlt
    omega

theorem Allocator.represents (h : Allocator base start s bs) : ∃ s₀, Represents base start s₀ bs ∧ s₀.brk = s.brk ∧
    (∀ grant nbytes, malloc base grant nbytes s = malloc base grant nbytes s₀) ∧
    ∀ nbytes, callsMorecore base nbytes s = callsMorecore base nbytes s₀ := by
  obtain h | ⟨hfree,hbrk,hstart,rfl⟩ := h
  · exact ⟨s,h,rfl,fun _ _ => rfl,fun _ => rfl⟩
  · refine ⟨s.initBase base,represents_initBase hbrk hstart,rfl,malloc_initBase hfree,fun nbytes => ?_⟩
    rw [callsMorecore,hfree]
    rfl

variable (hbase : base+8 < start)
include hbase

theorem malloc_result (grant : ℕ → Bool) (h : Represents base start s bs) (hn : nunitsOf nbytes = n) (hmax : n < 2^28) :
    ∃ r s', malloc base grant nbytes s = .ok (r,s') ∧
      (r = none ↔ (∀ b ∈ bs, b.free = true → b.size < n) ∧ ¬ Granted grant n s) ∧
      ∀ p, r = some p → (s'.mem (p-8)).size = n ∧ start+8 ≤ p ∧ p-8+8*n ≤ s'.brk := by
  obtain ⟨r,s',bs',hrun,hrep,hres⟩ := malloc_nunits hbase grant h hn hmax
  refine ⟨r,s',hrun,?_⟩
  obtain ⟨rfl,-,hsmall,hrefused⟩ | ⟨hroom,a,u₁,u₂,rfl,-,hused⟩ := hres
  · refine ⟨iff_of_true rfl ⟨hsmall,hrefused⟩,fun p hp => ?_⟩
    cases hp
  · have hmem : (⟨a,n,false⟩ : Block) ∈ bs' := (mem_used.mp (hused ▸ List.mem_append_right u₁ List.mem_cons_self)).1
    obtain ⟨hlo,-,hhi⟩ := hrep.tiles.mem hmem
    refine ⟨iff_of_false (Option.some_ne_none _) fun hno => ?_,fun p hp => ?_⟩
    · obtain ⟨b,hb,hf,hle⟩ | hgrant := hroom
      · exact absurd (hno.1 b hb hf) (not_lt.mpr hle)
      · exact hno.2 hgrant
    · cases hp
      exact ⟨hrep.sizes _ hmem,Nat.add_le_add_right hlo 8,hhi⟩

theorem callsMorecore_of_small (h : Represents base start s bs)
    (hno : ∀ b ∈ bs, b.free = true → b.size < nunitsOf nbytes) : callsMorecore base nbytes s = true := by
  obtain ⟨z,-,hz⟩ := h.freep
  have hlen := frees_length_le bs
  have hbrk := h.tiles.length_le
  obtain ⟨fuel,hfuel⟩ : ∃ fuel, 2*s.brk+4 = fuel+1+(frees bs).length := ⟨2*s.brk+3-(frees bs).length,by omega⟩
  have hpos : 0 < nunitsOf nbytes := Nat.succ_pos _
  obtain ⟨y,hlast,hsmall,hend⟩ := circle_end hbase (F := fun k y => asksForCore (nunitsOf nbytes) s k (s.links y))
    (fun k y hlt hne => by
      rw [asksForCore,if_neg (not_le.mpr hlt),if_neg hne]
      rfl) h hz hpos hno (fuel+1)
  rw [callsMorecore,hz,hfuel]
  change asksForCore _ s _ (s.links z) = true
  rw [hend,hlast,asksForCore,if_neg (not_le.mpr hsmall),if_pos hz]

/-- `malloc` is sound exactly for sizes whose block has fewer than 2^31 bytes, and for the last seven sizes
if it finds no memory. -/
theorem malloc_sound_iff (h : Allocator base start s bs) (hn : nbytes < 2^32) :
    SoundCall base start grant nbytes s ↔
      nbytes+16 ≤ 2^31 ∨ 2^32 < nbytes+8 ∧ frees bs = [] ∧ ¬ Granted grant 1 s := by
  obtain ⟨s₀,hrep,hbrk,hmalloc,hcalls⟩ := h.represents
  have hgranted : Granted grant 1 s₀ ↔ Granted grant 1 s := by
    rw [Granted,Granted,hbrk]
  have hmax : nunitsOf nbytes ≤ 2^29 := by
    rw [nunitsOf]
    omega
  by_cases hlast : 2^32 < nbytes+8
  · -- The sum has wrapped, and the block has one unit.
    have hone : nunitsOf nbytes = 1 := by
      rw [nunitsOf]
      omega
    obtain ⟨r,s',hrun,hnone,hsome⟩ := malloc_result hbase grant hrep hone (by decide)
    constructor
    · intro hsound
      obtain ⟨r',s'',hrun',hroom⟩ := hsound.result
      rw [hmalloc,hrun] at hrun'
      cases hrun'
      cases r with
      | none =>
        obtain ⟨hsmall,hrefused⟩ := hnone.mp rfl
        refine Or.inr ⟨hlast,?_,fun hgrant => hrefused (hgranted.mpr hgrant)⟩
        exact (frees_eq_nil_iff hrep).mpr hsmall
      | some p =>
        have hbytes := (hroom p rfl).1
        rw [(hsome p rfl).1] at hbytes
        omega
    · rintro (hfew | ⟨-,hfrees,hrefused⟩)
      · omega
      · have hr := hnone.mpr ⟨(frees_eq_nil_iff hrep).mp hfrees,fun hgrant => hrefused (hgranted.mp hgrant)⟩
        refine ⟨⟨r,s',(hmalloc grant nbytes).trans hrun,fun p hp => ?_⟩,fun _ => (coreArg_pos_iff hmax).mpr ?_⟩
        · rw [hr] at hp
          cases hp
        · rw [hone]
          decide
  · have hunits : nunitsOf nbytes = units nbytes := nunitsOf_eq_units (by omega)
    have hpos := coreArg_pos_iff hmax
    have hiff : nunitsOf nbytes < 2^28 ↔ nbytes+16 ≤ 2^31 := by
      rw [hunits,units]
      omega
    constructor
    · intro hsound
      by_contra hcond
      have hmany : ¬ nunitsOf nbytes < 2^28 := fun hfew => hcond (Or.inl (hiff.mp hfew))
      -- No block of the heap is so large, so `morecore` is called.
      have hcall : callsMorecore base nbytes s₀ = true := callsMorecore_of_small hbase hrep fun b hb _ =>
        (size_lt hrep hb).trans_le (not_lt.mp hmany)
      rw [← hcalls] at hcall
      exact hmany (hpos.mp (hsound.request hcall))
    · intro hcond
      have hfew := hiff.mpr (hcond.resolve_right fun hwrap => hlast hwrap.1)
      obtain ⟨r,s',hrun,-,hsome⟩ := malloc_result hbase grant hrep rfl hfew
      refine ⟨⟨r,s',(hmalloc grant nbytes).trans hrun,fun p hp => ?_⟩,fun _ => hpos.mpr hfew⟩
      obtain ⟨hsize,hlo,hhi⟩ := hsome p hp
      rw [hsize]
      refine ⟨?_,hlo,hhi⟩
      rw [hunits,units]
      omega

end

def freshHeap : Heap := ⟨fun _ => ⟨0,0⟩,none,4096⟩

theorem malloc_sound_hundred : Allocator 64 4096 freshHeap [] ∧ SoundCall 64 4096 (fun _ => true) 100 freshHeap := by
  have hfresh : Allocator 64 4096 freshHeap [] := Or.inr ⟨rfl,rfl,by decide,rfl⟩
  exact ⟨hfresh,(malloc_sound_iff (by decide) hfresh (by decide)).mpr (Or.inl (by decide))⟩

/-- A call for 2^32-1 bytes returns a header without bytes. One for 2^31 bytes passes a negative number to
`sbrk`, and the store of the header faults. -/
theorem malloc_unsound :
    ¬ SoundCall 64 4096 (fun _ => true) (2^31) freshHeap ∧
    callsMorecore 64 (2^31) freshHeap = true ∧ coreArg (nunitsOf (2^31)) = 8-2^31 ∧
    (malloc 64 (fun _ => true) (2^31) freshHeap).map (fun r => r.1) = .error .outOfBounds ∧
    ((malloc 64 (fun _ => true) (2^32-1) freshHeap).toOption.map
      fun r => (r.1,(r.2.mem 36856).size)) = some (some 36864,1) := by
  have hcalls : callsMorecore 64 (2^31) freshHeap = true := by decide +kernel
  have harg : coreArg (nunitsOf (2^31)) = 8-2^31 := by decide +kernel
  refine ⟨fun hsound => ?_,hcalls,harg,?_,?_⟩
  · have hpos := (hsound.request hcalls).1
    rw [harg] at hpos
    exact absurd hpos (by decide)
  · decide +kernel
  · decide +kernel

end Xv6Paging.Umalloc
