import Mathlib.Data.Fintype.Card
import Xv6Paging.Kernel.Replacement

/-! # Slots of the two page arrays

One specification for each loop over `memory_pg_arr` or `disk_pg_arr`: the search for a
free slot, and the two scans of `deallocuvm`. The linking code changes links only, so
every other field is read through it unchanged.
-/
namespace Xv6Paging
open WordPage ArrayScan LinkedCells Function

theorem firstFree_some {va : Slot → Option ℕ} {i : Slot} (h : firstFree va = some i) : va i = none := by
  have hi := List.find?_some h
  simpa using hi

theorem firstFree_none {va : Slot → Option ℕ} : firstFree va = none ↔ ∀ i, va i ≠ none := by
  simp [firstFree,List.find?_eq_none]

section Update
variable {v : Slot → Option ℕ} {i j : Slot} {a b : ℕ}

theorem update_some_eq_some :
    update v i (some a) j = some b ↔ j = i ∧ b = a ∨ j ≠ i ∧ v j = some b := by
  by_cases h : j = i
  · subst h
    simp [eq_comm]
  · simp [h]

theorem update_none_eq_some : update v i none j = some b ↔ j ≠ i ∧ v j = some b := by
  by_cases h : j = i
  · subst h
    simp
  · simp [h]

theorem exists_update_some (hi : v i = none) :
    (∃ j, update v i (some a) j = some b) ↔ b = a ∨ ∃ j, v j = some b := by
  constructor
  · rintro ⟨j,hj⟩
    exact (update_some_eq_some.mp hj).imp And.right fun hj' => ⟨j,hj'.2⟩
  · rintro (rfl | ⟨j,hj⟩)
    · exact ⟨i,update_self _ _ _⟩
    · refine ⟨j,update_some_eq_some.mpr (Or.inr ⟨?_,hj⟩)⟩
      rintro rfl
      rw [hi] at hj
      cases hj

section Once
variable (h : ∀ i j a, v i = some a → v j = some a → i = j)
include h

theorem exists_update_none (hi : v i = some a) :
    (∃ j, update v i none j = some b) ↔ (∃ j, v j = some b) ∧ b ≠ a := by
  constructor
  · rintro ⟨j,hj⟩
    obtain ⟨hne,hj'⟩ := update_none_eq_some.mp hj
    refine ⟨⟨j,hj'⟩,?_⟩
    rintro rfl
    exact hne (h j i b hj' hi)
  · rintro ⟨⟨j,hj⟩,hne⟩
    refine ⟨j,update_none_eq_some.mpr ⟨?_,hj⟩⟩
    rintro rfl
    rw [hi] at hj
    exact hne (Option.some.inj hj).symm

theorem once_update_none (j k : Slot) (b : ℕ) (hj : update v i none j = some b)
    (hk : update v i none k = some b) : j = k :=
  h j k b (update_none_eq_some.mp hj).2 (update_none_eq_some.mp hk).2

theorem once_update_some (ha : ∀ j, v j ≠ some a) (j k : Slot) (b : ℕ) (hj : update v i (some a) j = some b)
    (hk : update v i (some a) k = some b) : j = k := by
  rcases update_some_eq_some.mp hj with ⟨rfl,rfl⟩ | ⟨-,hj'⟩
  · rcases update_some_eq_some.mp hk with ⟨rfl,-⟩ | ⟨-,hk'⟩
    · rfl
    · exact (ha k hk').elim
  · rcases update_some_eq_some.mp hk with ⟨-,rfl⟩ | ⟨-,hk'⟩
    · exact (ha j hj').elim
    · exact h j k b hj' hk'

end Once

end Update

theorem find?_slot {v : Slot → Option ℕ} {a : ℕ} {j : Slot} (hj : v j = some a) (huniq : ∀ i, v i = some a → i = j) :
    ((List.finRange 16).find? fun i => decide (v i = some a)) = some j := by
  cases hf : (List.finRange 16).find? fun i => decide (v i = some a) with
  | none => simpa [hj] using List.find?_eq_none.mp hf j (List.mem_finRange j)
  | some i =>
    have hi := List.find?_some hf
    rw [decide_eq_true_eq] at hi
    rw [huniq i hi]

theorem exists_firstFree {va : Slot → Option ℕ} {i : Slot} (h : va i = none) :
    ∃ j, firstFree va = some j := by
  cases hf : firstFree va with
  | none => exact (firstFree_none.mp hf i h).elim
  | some j => exact ⟨j,rfl⟩

section Occupied
variable {v : Slot → Option ℕ} {i : Slot} {a : ℕ}

def occupied (v : Slot → Option ℕ) : ℕ := (Finset.univ.filter fun i => v i ≠ none).card

theorem occupied_update_some (h : v i = none) (a : ℕ) :
    occupied (update v i (some a)) = occupied v+1 := by
  have hs : (Finset.univ.filter fun j => update v i (some a) j ≠ none) =
      insert i (Finset.univ.filter fun j => v j ≠ none) := by
    ext j
    by_cases hj : j = i
    · simp [hj]
    · simp [hj]
  rw [occupied,hs,Finset.card_insert_of_notMem (by simp [h])]
  rfl

theorem occupied_update_none (h : v i = some a) :
    occupied (update v i none)+1 = occupied v := by
  have h' := occupied_update_some (v := update v i none) (update_self i none v) a
  rw [update_idem,← h,update_eq_self] at h'
  exact h'.symm

theorem ne_none_of_occupied (h : 16 ≤ occupied v) (i : Slot) : v i ≠ none := by
  intro hi
  have hlt : occupied v < (Finset.univ : Finset Slot).card :=
    Finset.card_lt_card (Finset.filter_ssubset.mpr ⟨i,Finset.mem_univ i,by simpa using hi⟩)
  rw [Finset.card_univ,Fintype.card_fin] at hlt
  omega

theorem exists_free_of_occupied (h : occupied v < 16) : ∃ i, v i = none := by
  by_contra hn
  have hall : (Finset.univ.filter fun i => v i ≠ none) = Finset.univ :=
    Finset.filter_true_of_mem fun i _ hi => hn ⟨i,hi⟩
  rw [occupied,hall,Finset.card_univ,Fintype.card_fin] at h
  omega

end Occupied

section Links
variable (p : ProcPages) (i : Slot)

@[simp] theorem unlinkFreed_va : (unlinkFreed p i).va = p.va := by
  unfold unlinkFreed
  dsimp only
  split <;> split <;> rfl
@[simp] theorem unlinkFreed_counter :
    (unlinkFreed p i).pagesInMemoryCounter = p.pagesInMemoryCounter := by
  unfold unlinkFreed
  dsimp only
  split <;> split <;> rfl
@[simp] theorem unlinkFreed_diskVa : (unlinkFreed p i).diskVa = p.diskVa := by
  unfold unlinkFreed
  dsimp only
  split <;> split <;> rfl
@[simp] theorem unlinkFreed_swapCounter :
    (unlinkFreed p i).pagesInSwapfileCounter = p.pagesInSwapfileCounter := by
  unfold unlinkFreed
  dsimp only
  split <;> split <;> rfl

variable (age : Word) (own : Bool)

@[simp] theorem freeSlot_va : (freeSlot age own p i).va = update p.va i none := by
  simp [freeSlot]
@[simp] theorem freeSlot_counter : (freeSlot age own p i).pagesInMemoryCounter =
    if own then p.pagesInMemoryCounter-1 else p.pagesInMemoryCounter := by
  simp [freeSlot]
@[simp] theorem freeSlot_diskVa : (freeSlot age own p i).diskVa = p.diskVa := by
  simp [freeSlot]
@[simp] theorem freeSlot_swapCounter :
    (freeSlot age own p i).pagesInSwapfileCounter = p.pagesInSwapfileCounter := by
  simp [freeSlot]

end Links

theorem freeSlot_va_of_ne (age : Word) (own : Bool) (p : ProcPages) (i j : Slot) (h : j ≠ i) :
    (freeSlot age own p i).va j = p.va j := by
  rw [freeSlot_va,update_of_ne h]

theorem freeDiskSlot_diskVa_of_ne (own : Bool) (p : ProcPages) (i j : Slot) (h : j ≠ i) :
    (freeDiskSlot own p i).diskVa j = p.diskVa j := update_of_ne h _ _

structure Removed (p : ProcPages) (i : Slot) (p' : ProcPages) : Prop where
  va : p'.va = update p.va i none
  head : p'.head = if p.head = some i then p.next i else p.head
  tail : p'.tail = if p.tail = some i then p.prev i else p.tail
  next : ∀ j, j ≠ i → p'.next j = storeAt p.next (p.prev i) (p.next i) j
  prev : ∀ j, j ≠ i → p'.prev j = storeAt p.prev (p.next i) (p.prev i) j

theorem unlinkTmp_eq (p : ProcPages) (i : Slot) : unlinkTmp p i = {p with
    next := storeAt p.next (p.prev i) (p.next i)
    prev := storeAt p.prev (p.next i) (p.prev i)
    head := if p.head = some i then p.next i else p.head
    tail := if p.tail = some i then p.prev i else p.tail} := by
  rw [unlinkTmp]
  by_cases hh : p.head = some i <;> by_cases ht : p.tail = some i <;> simp [hh,ht,storeAt_self]

theorem unlinkFreed_eq (p : ProcPages) (i : Slot) : unlinkFreed p i = {p with
    next := storeAt p.next (p.prev i) (p.next i)
    prev := storeAt p.prev (p.next i) (p.prev i)
    head := if p.head = some i then p.next i else p.head
    tail := if p.tail = some i then p.prev i else p.tail} := by
  rw [unlinkFreed]
  by_cases hh : p.head = some i <;> by_cases ht : p.tail = some i <;> simp [hh,ht,storeAt_self]

theorem unlinkTmp_removed (p : ProcPages) (i : Slot) (n : ℤ) : Removed p i {unlinkTmp p i with
    va := update (unlinkTmp p i).va i none, pagesInMemoryCounter := n} := by
  rw [unlinkTmp_eq]
  exact ⟨rfl,rfl,rfl,fun _ _ => rfl,fun _ _ => rfl⟩

theorem freeSlot_removed (age : Word) (own : Bool) (p : ProcPages) (i : Slot) :
    Removed p i (freeSlot age own p i) := by
  refine ⟨freeSlot_va p i age own,?_,?_,fun j hj => ?_,fun j hj => ?_⟩
  · simp only [freeSlot,unlinkFreed_eq]
  · simp only [freeSlot,unlinkFreed_eq]
  · simp only [freeSlot,unlinkFreed_eq,update_of_ne hj]
  · simp only [freeSlot,unlinkFreed_eq,update_of_ne hj]

section Forget
variable (age : Word) (own : Bool) (a : ℕ) (p : ProcPages)

@[simp] theorem forgetResident_diskVa : (forgetResident age own a p).1.diskVa = p.diskVa :=
  scan_unchanged (fun p i => freeSlot_diskVa p i age own) _ _

@[simp] theorem forgetSwapped_va : (forgetSwapped own a p).1.va = p.va :=
  scan_unchanged (fun p i => show (freeDiskSlot own p i).va = p.va from rfl) _ _

theorem freeSlot_va_self (p : ProcPages) (i : Slot) : (freeSlot age own p i).va i = none := by
  rw [freeSlot_va,update_self]

theorem freeDiskSlot_diskVa_self (p : ProcPages) (i : Slot) : (freeDiskSlot own p i).diskVa i = none :=
  update_self _ _ _

theorem forgetResident_va (i : Slot) : (forgetResident age own a p).1.va i = p.va i ∨
    p.va i = some a ∧ (forgetResident age own a p).1.va i = none :=
  scan_content (freeSlot_va_of_ne age own) (freeSlot_va_self age own) (by simp) _ _ i

theorem forgetResident_va_ne (i : Slot) : (forgetResident age own a p).1.va i ≠ some a :=
  scan_content_ne (freeSlot_va_of_ne age own) (freeSlot_va_self age own) (by simp) _
    (List.mem_finRange i)

theorem forgetSwapped_diskVa (i : Slot) : (forgetSwapped own a p).1.diskVa i = p.diskVa i ∨
    p.diskVa i = some a ∧ (forgetSwapped own a p).1.diskVa i = none :=
  scan_content (freeDiskSlot_diskVa_of_ne own) (freeDiskSlot_diskVa_self own) (by simp) _ _ i

theorem forgetSwapped_diskVa_ne (i : Slot) : (forgetSwapped own a p).1.diskVa i ≠ some a :=
  scan_content_ne (freeDiskSlot_diskVa_of_ne own) (freeDiskSlot_diskVa_self own) (by simp) _
    (List.mem_finRange i)

variable {age own a p}

theorem forgetResident_of_unlisted (h : ∀ i, p.va i ≠ some a) : forgetResident age own a p = (p,0) :=
  scan_of_forall_ne fun i _ => h i

theorem forgetSwapped_of_unlisted (h : ∀ i, p.diskVa i ≠ some a) : forgetSwapped own a p = (p,0) :=
  scan_of_forall_ne fun i _ => h i

theorem forgetResident_of_unique {i : Slot} (h : p.va i = some a)
    (hu : ∀ j, p.va j = some a → j = i) :
    forgetResident age own a p = (freeSlot age own p i,1) :=
  scan_of_unique (freeSlot_va_of_ne age own) (List.nodup_finRange 16) (List.mem_finRange i) h
    fun j _ => hu j

theorem forgetSwapped_of_unique {i : Slot} (h : p.diskVa i = some a)
    (hu : ∀ j, p.diskVa j = some a → j = i) :
    forgetSwapped own a p = (freeDiskSlot own p i,1) :=
  scan_of_unique (freeDiskSlot_diskVa_of_ne own) (List.nodup_finRange 16) (List.mem_finRange i) h
    fun j _ => hu j

end Forget

theorem forgetResident_cases {age : Word} {own : Bool} {a : ℕ} {p : ProcPages}
    (h : (forgetResident age own a p).2 ≤ 1) :
    (forgetResident age own a p = (p,0) ∧ ∀ i, p.va i ≠ some a) ∨
    ∃ i, p.va i = some a ∧ (∀ j, p.va j = some a → j = i) ∧
      forgetResident age own a p = (freeSlot age own p i,1) := by
  rcases scan_cases (freeSlot_va_of_ne age own) (List.nodup_finRange 16) (s := (p,0)) h with h | h
  · exact Or.inl ⟨h.1,fun i => h.2 i (List.mem_finRange i)⟩
  · obtain ⟨i,-,hi,hu,he⟩ := h
    exact Or.inr ⟨i,hi,fun j => hu j (List.mem_finRange j),he⟩

theorem slots_length_le {l : List Slot} (h : l.Nodup) : l.length ≤ maxPsycPages := by
  have hcard := h.length_le_card
  rwa [Fintype.card_fin] at hcard

def tableBit (va : ℕ) (t : ℕ → Bool) : Except Fault (Bool × (ℕ → Bool)) :=
  .ok (t va,update t va false)

end Xv6Paging
