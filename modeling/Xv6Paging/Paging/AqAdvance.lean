import Xv6Paging.Library.AdvancePass
import Xv6Paging.Paging.Slots

/-! # The AQ pass advances accessed pages by one place

The scheduler's traversal of the AQ queue is the walk of `AdvancePass` over the pages'
addresses and ages. It is stated for queues through cells of any kind first, and then
for the queue that the slots of `memory_pg_arr` can hold.
-/
namespace Xv6Paging.AqAdvance
open WordPage AdvancePass Function

abbrev Page := Option ℕ × Word

def accessed (x : Page) : Bool := x.2 = 1

def due (x y : Page) : Bool := x.2 = 0 ∧ y.2 = 1

def pageAt (p : ProcPages) (i : Slot) : Page := (p.va i,p.age i)

def putPages (p : ProcPages) (f : Slot → Page) : ProcPages :=
  {p with
    va := fun i => (f i).1
    age := fun i => (f i).2}

theorem exchange_eq (p : ProcPages) (i j : Slot) : p.exchange i j =
    putPages p (update (update (pageAt p) j (pageAt p i)) i (pageAt p j)) := by
  have hva : (p.exchange i j).va =
      fun k => (update (update (pageAt p) j (pageAt p i)) i (pageAt p j) k).1 := by
    funext k
    simp only [ProcPages.exchange,pageAt,update_apply]
    split_ifs <;> rfl
  have hage : (p.exchange i j).age =
      fun k => (update (update (pageAt p) j (pageAt p i)) i (pageAt p j) k).2 := by
    funext k
    simp only [ProcPages.exchange,pageAt,update_apply]
    split_ifs <;> rfl
  rw [putPages,← hva,← hage]
  rfl

theorem aqAdvance_eq_walk (fuel : ℕ) (p : ProcPages) (cur : Option Slot) : aqAdvance fuel p cur =
    (walk due p.next p.prev fuel (pageAt p) cur).elim (.error .diverges) fun f => .ok (putPages p f) := by
  induction fuel generalizing p cur with
  | zero =>
    cases cur with
    | none => rfl
    | some cur => rfl
  | succ fuel ih =>
    cases cur with
    | none => rfl
    | some cur =>
      rw [aqAdvance,walk]
      cases p.prev cur with
      | none => exact ih p (p.next cur)
      | some q =>
        dsimp only
        by_cases hdue : p.age q = 0 ∧ p.age cur = 1
        · have htest : due (pageAt p q) (pageAt p cur) = true := decide_eq_true hdue
          rw [if_pos hdue,if_pos htest,ih,exchange_eq]
          rfl
        · have htest : ¬due (pageAt p q) (pageAt p cur) = true := fun h => hdue (of_decide_eq_true h)
          rw [if_neg hdue,if_neg htest]
          exact ih p (p.next cur)

section Sampled
variable {ι : Type} {next prev : ι → Option ι} {f : ι → Page} {l : List ι}

theorem due_eq {x y : Page} (hx : x.2 = 0 ∨ x.2 = 1) : due x y = (!accessed x && accessed y) := by
  rcases hx with hx | hx
  · simp [due,accessed,hx]
  · simp [due,accessed,hx]

theorem walk_advances [DecidableEq ι] {fuel : ℕ} (hl : Linked next prev l)
    (hages : ∀ i ∈ l, (f i).2 = 0 ∨ (f i).2 = 1) (hfuel : l.length ≤ fuel) :
    ∃ g, walk due next prev fuel f l.head? = some g ∧ Advanced accessed (l.map f) (l.map g) ∧
      ∀ i, i ∉ l → g i = f i := by
  have hdue : ∀ i ∈ l, ∀ j ∈ l, due (f i) (f j) = (!accessed (f i) && accessed (f j)) :=
    fun i hi _ _ => due_eq (hages i hi)
  obtain ⟨g,hg,hmap,hrest⟩ := walk_pass hl hdue hfuel
  refine ⟨g,hg,?_,hrest⟩
  rw [hmap]
  exact pass_advanced _

end Sampled

/-- The traversal advances every accessed page that has one before it that was not accessed, and leaves the
links and the other slots alone. The loop does the same over linked cells of any kind. -/
theorem aqAdvance_advances :
    (∀ (p : ProcPages) (l : List Slot), Linked p.next p.prev l → p.head = l.head? → p.tail = l.getLast? →
      (∀ i ∈ l, p.age i = 0 ∨ p.age i = 1) → ∃ f, aqAdvance maxPsycPages p p.head = .ok (putPages p f) ∧
        Advanced accessed (l.map (pageAt p)) (l.map f) ∧ ∀ i, i ∉ l → f i = pageAt p i) ∧
    ∀ (ι : Type) [DecidableEq ι] (next prev : ι → Option ι) (f : ι → Page) (l : List ι), Linked next prev l →
      (∀ i ∈ l, (f i).2 = 0 ∨ (f i).2 = 1) → ∃ g, walk due next prev l.length f l.head? = some g ∧
        Advanced accessed (l.map f) (l.map g) ∧ ∀ i, i ∉ l → g i = f i := by
  refine ⟨fun p l hl hhead _ hages => ?_,fun ι _ next prev f l hl hages => walk_advances hl hages le_rfl⟩
  obtain ⟨f,hf,hadv,hrest⟩ := walk_advances (f := pageAt p) hl hages (slots_length_le hl.nodup)
  refine ⟨f,?_,hadv,hrest⟩
  rw [aqAdvance_eq_walk,hhead,hf]
  rfl

def threePages : ProcPages :=
  {ProcPages.init .aq with
    va := fun i => if i < 3 then some (4096*i.val) else none
    age := fun i => if i = 0 then 0 else 1
    next := fun i => if i < 2 then some (i+1) else none
    prev := fun i => if i = 1 then some 0 else if i = 2 then some 1 else none
    head := some 0
    tail := some 2}

theorem threePages_linked : Linked threePages.next threePages.prev [0,1,2] :=
  ⟨by decide,⟨rfl,rfl,rfl,trivial⟩,⟨rfl,rfl,rfl,trivial⟩⟩

theorem aqAdvance_advances_threePages :
    (∃ f, aqAdvance maxPsycPages threePages threePages.head = .ok (putPages threePages f) ∧
      Advanced accessed ([0,1,2].map (pageAt threePages)) ([0,1,2].map f)) ∧
    ∃ g, walk due threePages.next threePages.prev 3 (pageAt threePages) (some 0) = some g ∧
      Advanced accessed ([0,1,2].map (pageAt threePages)) ([0,1,2].map g) := by
  have hages : ∀ i ∈ ([0,1,2] : List Slot), threePages.age i = 0 ∨ threePages.age i = 1 := by decide
  obtain ⟨f,hf,hadv,-⟩ := aqAdvance_advances.1 threePages [0,1,2] threePages_linked rfl rfl hages
  obtain ⟨g,hg,hwalk,-⟩ := aqAdvance_advances.2 Slot _ _ (pageAt threePages) [0,1,2] threePages_linked hages
  exact ⟨⟨f,hf,hadv⟩,g,hg,hwalk⟩

end Xv6Paging.AqAdvance
