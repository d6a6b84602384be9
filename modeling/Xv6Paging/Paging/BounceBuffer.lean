import Xv6Paging.Kernel.State

/-! # The shared bounce buffer

On its swap path `getPageFromFile` reads the faulted page into the static `buff` and then
moves `buff` to the new frame. `readi` may sleep before each block, so page-ins of
different processes interleave at block granularity while the buffer is shared. A
process that copies a block over bytes another process has already read, and not yet
moved out, spoils that process's page unless the bytes agree.
-/
namespace Xv6Paging.BounceBuffer
open WordPage Function

/-- A page-in on the swap path: the process's swap file and the slot that stores its page. -/
structure PageIn where
  file : Inode
  slot : Slot
  stored : (slot.val+1)*pgSize ≤ file.size

def PageIn.page (r : PageIn) : Page := r.file.slotPage r.slot.val

/-- Where a process is: in `readi`'s loop at the given offsets, or past the `memmove` to its
new frame. -/
inductive Phase
  | reading (off tot : ℕ)
  | copied (newPg : Page)

structure System (ι : Type) where
  buff : Page
  phase : ι → Phase

variable {ι : Type} [DecidableEq ι] (req : ι → PageIn)

def start (buff : Page) : System ι := ⟨buff,fun i => .reading ((req i).slot.val*pgSize) 0⟩

/-- From one sleep to the next: one block is copied, and behind the last one the buffer is moved to the new
frame. -/
def step (i : ι) (s : System ι) : System ι :=
  match s.phase i with
  | .reading off tot =>
    let r := readiStep (req i).file pgSize ⟨s.buff,off,tot⟩
    {buff := r.dst
     phase := update s.phase i
      (if r.tot < pgSize then .reading r.off r.tot else .copied r.dst)}
  | .copied _ => s

def blockLength (off tot : ℕ) : ℕ := min (pgSize-tot) (bSize-off%bSize)

/-- No other process that is still reading has already copied the bytes that `i` copies next,
unless they are the same bytes. -/
def Undisturbing (i : ι) (s : System ι) : Prop :=
  ∀ off tot, s.phase i = .reading off tot →
    ∀ j, j ≠ i → ∀ off' tot', s.phase j = .reading off' tot' →
      ∀ k : Fin 4096, tot ≤ k.val → k.val < tot+blockLength off tot → k.val < tot' →
        (req j).page k = (req i).page k

def GuardedStep (s s' : System ι) : Prop := ∃ i, Undisturbing req i s ∧ s' = step req i s

/-- The part of its page that process `j` has read is in the buffer, or the whole page is in
its new frame. -/
def Sound (j : ι) (s : System ι) : Prop :=
  match s.phase j with
  | .reading off tot => off = (req j).slot.val*pgSize+tot ∧ tot < pgSize ∧
      ∀ k : Fin 4096, k.val < tot → s.buff k = (req j).page k
  | .copied pg => pg = (req j).page

variable {req} {i j : ι} {s : System ι} {off tot : ℕ}

omit [DecidableEq ι] in
theorem sound_start (buff : Page) (j : ι) : Sound req j (start req buff) :=
  ⟨by simp,by decide,fun k hk => (Nat.not_lt_zero _ hk).elim⟩

theorem blockLength_pos (off : ℕ) (h : tot < pgSize) : 0 < blockLength off tot := by
  have hb : 0 < bSize-off%bSize := Nat.sub_pos_of_lt (Nat.mod_lt _ (by decide))
  unfold blockLength
  omega

theorem step_buff (h : s.phase i = .reading off tot) (hoff : off = (req i).slot.val*pgSize+tot)
    (k : Fin 4096) : (step req i s).buff k =
      if tot ≤ k.val ∧ k.val < tot+blockLength off tot then (req i).page k else s.buff k := by
  have he : (step req i s).buff = blit Fin.val s.buff tot (blockLength off tot)
      fun k => (req i).file.data (off+k) := by
    simp only [step,h,readiStep,blockLength]
  rw [he,blit]
  by_cases hk : tot ≤ k.val ∧ k.val < tot+blockLength off tot
  · have ha : off+(k.val-tot) = (req i).slot.val*pgSize+k.val := by omega
    rw [if_pos hk,if_pos hk,ha]
    rfl
  · rw [if_neg hk,if_neg hk]

theorem step_phase (h : s.phase i = .reading off tot) : (step req i s).phase =
    update s.phase i (if tot+blockLength off tot < pgSize
      then .reading (off+blockLength off tot) (tot+blockLength off tot)
      else .copied (step req i s).buff) := by
  simp only [step,h,readiStep,blockLength]
  rfl

theorem sound_step_self (hs : Sound req i s) : Sound req i (step req i s) := by
  cases h : s.phase i with
  | copied pg =>
    have he : step req i s = s := by simp only [step,h]
    rwa [he]
  | reading off tot =>
    simp only [Sound,h] at hs
    obtain ⟨hoff,ht,hb⟩ := hs
    have hbuff : ∀ k : Fin 4096, k.val < tot+blockLength off tot →
        (step req i s).buff k = (req i).page k := by
      intro k hk
      rw [step_buff h hoff]
      by_cases hk' : tot ≤ k.val
      · rw [if_pos ⟨hk',hk⟩]
      · rw [if_neg (by omega)]
        exact hb k (by omega)
    simp only [Sound,step_phase h,update_self]
    by_cases hlt : tot+blockLength off tot < pgSize
    · simp only [if_pos hlt]
      exact ⟨by omega,hlt,hbuff⟩
    · simp only [if_neg hlt]
      funext k
      have hk : k.val < pgSize := k.isLt
      exact hbuff k (by omega)

theorem sound_step_of_ne (hi : Sound req i s) (hu : Undisturbing req i s) (hne : j ≠ i)
    (hs : Sound req j s) : Sound req j (step req i s) := by
  cases h : s.phase i with
  | copied pg =>
    have he : step req i s = s := by simp only [step,h]
    rwa [he]
  | reading off tot =>
    simp only [Sound,h] at hi
    simp only [Sound,step_phase h,update_of_ne hne]
    cases hj : s.phase j with
    | copied pg =>
      simp only [Sound,hj] at hs
      exact hs
    | reading off' tot' =>
      simp only [Sound,hj] at hs
      refine ⟨hs.1,hs.2.1,fun k hk => ?_⟩
      rw [step_buff h hi.1]
      by_cases hk' : tot ≤ k.val ∧ k.val < tot+blockLength off tot
      · rw [if_pos hk']
        exact (hu off tot h j hne off' tot' hj k hk'.1 hk'.2 hk).symm
      · rw [if_neg hk']
        exact hs.2.2 k hk

theorem sound_run {buff : Page} (hr : Relation.ReflTransGen (GuardedStep req) (start req buff) s) :
    ∀ j, Sound req j s := by
  induction hr with
  | refl => exact sound_start buff
  | tail _ hst ih =>
    obtain ⟨i,hu,rfl⟩ := hst
    intro j
    by_cases hji : j = i
    · subst hji
      exact sound_step_self (ih j)
    · exact sound_step_of_ne (ih i) hu hji (ih j)

theorem sound_iterate (hs : Sound req j s) (n : ℕ) : Sound req j ((step req j)^[n] s) := by
  induction n generalizing s with
  | zero => exact hs
  | succ n ih => exact ih (sound_step_self hs)

theorem run_alone (h : s.phase j = .reading off tot)
    (hoff : off = (req j).slot.val*pgSize+tot) (ht : tot < pgSize) :
    ∃ n pg, ((step req j)^[n] s).phase j = .copied pg ∧
      ∀ k : Fin 4096, k.val < tot → pg k = s.buff k := by
  obtain ⟨d,hd⟩ : ∃ d, pgSize-tot ≤ d := ⟨_,le_rfl⟩
  induction d generalizing s off tot with
  | zero => omega
  | succ d ih =>
    have hpos := blockLength_pos off ht
    have hkeep : ∀ k : Fin 4096, k.val < tot → (step req j s).buff k = s.buff k := by
      intro k hk
      rw [step_buff h hoff,if_neg (by omega)]
    by_cases hlt : tot+blockLength off tot < pgSize
    · have hp : (step req j s).phase j =
          .reading (off+blockLength off tot) (tot+blockLength off tot) := by
        rw [step_phase h,update_self,if_pos hlt]
      obtain ⟨n,pg,hn,hpg⟩ := ih hp (by omega) hlt (by omega)
      refine ⟨n+1,pg,hn,fun k hk => ?_⟩
      rw [hpg k (by omega),hkeep k hk]
    · refine ⟨1,(step req j s).buff,?_,hkeep⟩
      rw [Function.iterate_one,step_phase h,update_self,if_neg hlt]

theorem exists_spoiled (hs : ∀ j, Sound req j s) (hu : ¬ Undisturbing req i s) :
    ∃ j n pg, ((step req j)^[n] (step req i s)).phase j = .copied pg ∧ pg ≠ (req j).page := by
  simp only [Undisturbing,not_forall] at hu
  obtain ⟨off,tot,h,j,hne,off',tot',hj,k,hk1,hk2,hk3,hdiff⟩ := hu
  have hi := hs i
  have hsj := hs j
  simp only [Sound,h] at hi
  simp only [Sound,hj] at hsj
  have hj' : (step req i s).phase j = .reading off' tot' := by
    rw [step_phase h,update_of_ne hne,hj]
  obtain ⟨n,pg,hn,hpg⟩ := run_alone hj' hsj.1 hsj.2.1
  refine ⟨j,n,pg,hn,fun he => hdiff ?_⟩
  rw [← he,hpg k hk3,step_buff h hi.1,if_pos ⟨hk1,hk2⟩]

/-- If all steps meet the condition, each finished page is the one stored in the process's own slot. The
condition is exact: a step meets it just when each process that then runs alone to its end still gets its
own page. -/
theorem pageIn_own_page (req : ι → PageIn) (buff : Page) (s : System ι)
    (hr : Relation.ReflTransGen (GuardedStep req) (start req buff) s) :
    (∀ i pg, s.phase i = .copied pg → pg = (req i).page) ∧
    ∀ i, Undisturbing req i s ↔
      ∀ j n pg, ((step req j)^[n] (step req i s)).phase j = .copied pg → pg = (req j).page := by
  have hs := sound_run hr
  refine ⟨fun i pg h => ?_,fun i => ⟨fun hu j n pg h => ?_,fun hall => ?_⟩⟩
  · have hi := hs i
    simp only [Sound,h] at hi
    exact hi
  · have hst := sound_run (hr.tail ⟨i,hu,rfl⟩) j
    have hn := sound_iterate hst n
    simp only [Sound,h] at hn
    exact hn
  · by_contra hu
    obtain ⟨j,n,pg,hn,hne⟩ := exists_spoiled hs hu
    exact hne (hall j n pg hn)

def twoPages (b : Bool) : PageIn where
  file := {size := pgSize, data := fun _ => if b then 1 else 0}
  slot := 0
  stored := le_rfl

theorem twoPages_alone (n : ℕ) :
    Relation.ReflTransGen (GuardedStep twoPages) (start twoPages fun _ => 0)
      ((step twoPages false)^[n] (start twoPages fun _ => 0)) ∧
    ((step twoPages false)^[n] (start twoPages fun _ => 0)).phase true = .reading 0 0 := by
  induction n with
  | zero => exact ⟨.refl,rfl⟩
  | succ n ih =>
    rw [Function.iterate_succ_apply']
    generalize (step twoPages false)^[n] (start twoPages fun _ => 0) = s at ih ⊢
    obtain ⟨hr,ht⟩ := ih
    refine ⟨hr.tail ⟨false,?_,rfl⟩,?_⟩
    · intro off tot h j hj off' tot' hj' k _ _ hk
      obtain rfl : j = true := by simpa using hj
      rw [ht] at hj'
      cases hj'
      omega
    · unfold step
      cases h : s.phase false with
      | reading off tot =>
        dsimp only
        rw [update_of_ne (by decide),ht]
      | copied pg => exact ht

/-- A process that reads its eight blocks without interruption gets its page. -/
theorem pageIn_own_page_alone :
    ∃ pg, ((step twoPages false)^[8] (start twoPages fun _ => 0)).phase false = .copied pg ∧
      pg = (twoPages false).page := by
  refine ⟨_,rfl,(pageIn_own_page twoPages (fun _ => 0) _ (twoPages_alone 8).1).1 false _ rfl⟩

/-- The page of the first process starts with the second one's bytes. -/
theorem pageIn_interleaved_mixes :
    ∃ pg, (([false,true] ++ List.replicate 7 false).foldl (fun s i => step twoPages i s)
        (start twoPages fun _ => 0)).phase false = .copied pg ∧
      pg 0 = 1 ∧ (twoPages false).page 0 = 0 ∧ pg ≠ (twoPages false).page := by
  refine ⟨_,rfl,by decide,by decide,fun h => ?_⟩
  exact absurd (congrFun h 0) (by decide)

end Xv6Paging.BounceBuffer
