import Xv6Paging.Paging.SecondChance

/-! # Queues that give up a page

When `select_page_to_remove` finds a page and `update_memory` takes one, for any links. SCFIFO reads its queue along
`next` from the head, AQ along `prev` from the tail. One round of AQ's loop is a second chance of SCFIFO on the queue
read in the other direction, so both loops keep the same invariant: the slots that have moved behind the tail are linked
among themselves, and all others as they were.
-/
namespace Xv6Paging
open WordPage PageTree LinkedCells Relation Function

def ProcPages.mirror (p : ProcPages) : ProcPages :=
  {p with next := p.prev, prev := p.next, head := p.tail, tail := p.head}

/-- A walk from `first` along `link` goes on from `x` to `z`: it passes only the slots of `pass` and ends at `last`. -/
def Onward (link : Slot → Option Slot) (last : Option Slot) (pass : Slot → Prop) (first x z : Slot) : Prop :=
  pass x ∧ (x = first ∨ last ≠ some x) ∧ link x = some z

def Visits (link : Slot → Option Slot) (last : Option Slot) (pass : Slot → Prop) (first : Slot) : Slot → Prop :=
  ReflTransGen (Onward link last pass first) first

/-! ## Taking a page -/

def ScfifoEnds (p : ProcPages) : Prop :=
  p.head = none ∧ p.tail = none ∨ ∃ h t, p.head = some h ∧ p.tail = some t ∧ p.prev h = none ∧ p.next t = none

def AqEnds (p : ProcPages) : Prop :=
  p.head = none ∧ p.tail = none ∨ ∃ h t, p.head = some h ∧ p.tail = some t ∧ p.prev h = none

structure TakesPage (b : Build) (p : ProcPages) : Prop where
  free : ∃ i, p.va i = none
  scfifo : b = .scfifo → ScfifoEnds p
  aq : b = .aq → AqEnds p

section Take
variable {p : ProcPages} {b : Build}

theorem updateMemoryScfifo_iff {age : Word} {a : ℕ} {k : Slot} (hk : firstFree p.va = some k) :
    (∃ r, updateMemoryScfifo age p a = .ok r) ↔ ScfifoEnds p := by
  unfold updateMemoryScfifo ScfifoEnds
  cases hh : p.head with
  | none => cases ht : p.tail <;> simp [hk]
  | some h =>
    cases ht : p.tail with
    | none => simp
    | some t => cases hp : p.prev h <;> cases hn : p.next t <;> simp [hk,hp,hn]

theorem updateMemoryAq_iff {age : Word} {a : ℕ} {k : Slot} (hk : firstFree p.va = some k) :
    (∃ r, updateMemoryAq age p a = .ok r) ↔ AqEnds p := by
  unfold updateMemoryAq AqEnds
  cases hh : p.head with
  | none => cases ht : p.tail <;> simp [hk]
  | some h =>
    cases ht : p.tail with
    | none => simp
    | some t => cases hp : p.prev h <;> simp [hk,hp]

/-- `update_memory` takes a page exactly if there is a free slot and the ends are as it expects them. -/
theorem updateMemory_iff (hb : b ≠ .none) (a : ℕ) : (∃ r, updateMemory b p a = .ok r) ↔ TakesPage b p := by
  constructor
  · rintro ⟨⟨k,q⟩,hr⟩
    have hfree : p.va k = none := (updateMemory_listedIn hr).free
    obtain ⟨j,hj⟩ := exists_firstFree hfree
    refine ⟨⟨k,hfree⟩,?_,?_⟩
    · rintro rfl
      exact (updateMemoryScfifo_iff hj).mp ⟨_,hr⟩
    · rintro rfl
      exact (updateMemoryAq_iff hj).mp ⟨_,hr⟩
  · rintro ⟨⟨i,hi⟩,hsc,haq⟩
    obtain ⟨k,hk⟩ := exists_firstFree hi
    cases b with
    | none => exact (hb rfl).elim
    | scfifo => exact (updateMemoryScfifo_iff hk).mpr (hsc rfl)
    | aq => exact (updateMemoryAq_iff hk).mpr (haq rfl)
    | nfua =>
      obtain ⟨j,q,hq,-⟩ := updateMemory_aging (Or.inl rfl) hi a
      exact ⟨_,hq⟩
    | lapa =>
      obtain ⟨j,q,hq,-⟩ := updateMemory_aging (Or.inr rfl) hi a
      exact ⟨_,hq⟩

end Take

/-! ## Second chances -/

/-- The queue `p` from `h` to `t`, with second slot `y`, after the slots of `l` and then `w` have moved
behind the tail. The head is `x` now. -/
structure Rotated (p : ProcPages) (h t y w : Slot) (l : List Slot) (x : Slot) (q : ProcPages) : Prop where
  va : q.va = p.va
  head : q.head = some x
  tail : q.tail = some w
  nodup : (w :: l).Nodup
  first : h ∈ w :: l
  start : l = [] → x = y
  second : l ≠ [] → y ∈ w :: l
  other : ∀ z ∉ w :: l, q.next z = if z = t then some h else p.next z
  inner : ∀ z ∈ l, ∃ z' ∈ w :: l, q.next z = some z'
  last : q.next w = if l = [] ∧ t = h then some h else none
  prev : x ≠ w → q.prev x = none

section Rotate
variable {p q : ProcPages} {h t y w x z : Slot} {l : List Slot}

theorem Rotated.first_chance (ht : p.tail = some t) (hy : p.next h = some y) :
    ∃ q, scfifoRotate p h = .ok q ∧ Rotated p h t y h [] y q ∧ q.prev h = some t := by
  have hrot : scfifoRotate p h = .ok {p with
      head := some y
      prev := update (update p.prev y none) h (some t)
      next := update (update p.next h none) t (some h)
      tail := some h} := by simp only [scfifoRotate,hy,ht]
  refine ⟨_,hrot,⟨rfl,rfl,rfl,by simp,by simp,fun _ => rfl,fun hl => (hl rfl).elim,fun z hz => ?_,by simp,?_,
    fun hne => ?_⟩,update_self _ _ _⟩
  · have hz' : z ≠ h := by simpa using hz
    by_cases hzt : z = t
    · simp [hzt]
    · simp [hzt,hz']
  · by_cases hth : t = h
    · simp [hth]
    · simp [hth,update_of_ne (Ne.symm hth)]
  · simp [hne]

theorem Rotated.chance (hq : Rotated p h t y w l x q) (hx : x ∉ w :: l) (hz : q.next x = some z) :
    ∃ q', scfifoRotate q x = .ok q' ∧ Rotated p h t y x (w :: l) z q' := by
  have hxw : x ≠ w := fun he => hx (he ▸ List.mem_cons_self)
  have hrot : scfifoRotate q x = .ok {q with
      head := some z
      prev := update (update q.prev z none) x (some w)
      next := update (update q.next x none) w (some x)
      tail := some x} := by simp only [scfifoRotate,hz,hq.tail]
  refine ⟨_,hrot,⟨hq.va,rfl,rfl,List.nodup_cons.mpr ⟨hx,hq.nodup⟩,List.mem_cons_of_mem _ hq.first,by simp,fun _ => ?_,
    fun v hv => ?_,fun v hv => ?_,?_,fun hne => ?_⟩⟩
  · by_cases hl : l = []
    · rw [hq.start hl]
      exact List.mem_cons_self
    · exact List.mem_cons_of_mem _ (hq.second hl)
  · obtain ⟨hvx,hvl⟩ := not_or.mp (fun hm => hv (List.mem_cons.mpr hm))
    have hvw : v ≠ w := fun he => hvl (he ▸ List.mem_cons_self)
    rw [← hq.other v hvl]
    simp [hvx,hvw]
  · have hvx : v ≠ x := fun he => hx (he ▸ hv)
    by_cases hvw : v = w
    · exact ⟨x,List.mem_cons_self,by simp [hvw]⟩
    · obtain ⟨v',hv',hnext⟩ := hq.inner v (List.mem_of_ne_of_mem hvw hv)
      exact ⟨v',List.mem_cons_of_mem _ hv',by simp [hvw,hvx,hnext]⟩
  · simp [hxw]
  · simp [hne]

theorem Rotated.next_eq (hq : Rotated p h t y w l x q) (hx : x ∉ w :: l) (hxt : x ≠ t) : q.next x = p.next x := by
  rw [hq.other x hx,if_neg hxt]

theorem Rotated.unlink (hq : Rotated p h t y w l x q) (hx : x ≠ w) :
    unlinkTmp q x = {q with prev := storeAt q.prev (q.next x) none, head := q.next x} := by
  have hw : q.tail ≠ some x := by
    rw [hq.tail]
    exact fun he => hx (Option.some.inj he).symm
  rw [unlinkTmp_eq,hq.prev hx,if_pos hq.head,if_neg hw]
  rfl

theorem Rotated.scfifoEnds_iff (hq : Rotated p h t y w l x q) (hx : x ≠ w) :
    ScfifoEnds (unlinkTmp q x) ↔ q.next x ≠ none ∧ q.next w = none := by
  rw [hq.unlink hx]
  cases hn : q.next x <;> simp [ScfifoEnds,hq.tail]

theorem Rotated.aqEnds_iff {q : ProcPages} (hq : Rotated p h t y w l x q.mirror) (hx : x ≠ w) :
    AqEnds (unlinkTmp q x) ↔ q.mirror.next x ≠ none ∧ q.mirror.next w = none := by
  have hm : unlinkTmp q x = (unlinkTmp q.mirror x).mirror := by
    rw [unlinkTmp_eq,unlinkTmp_eq]
    rfl
  rw [hm,hq.unlink hx]
  have htail : q.head = some w := hq.tail
  cases hn : q.mirror.next x <;> simp [AqEnds,ProcPages.mirror,htail]

/-- When the head that has not moved yet leaves the queue with its ends in order. -/
theorem Rotated.gives_iff (hq : Rotated p h t y w l x q) (hx : x ∉ w :: l) :
    q.next x ≠ none ∧ q.next w = none ↔ (x = t ∨ p.next x ≠ none) ∧ (x = y → t ≠ h) := by
  have hxy : x = y ↔ l = [] := by
    refine ⟨fun he => ?_,hq.start⟩
    by_contra hl
    exact hx (he ▸ hq.second hl)
  rw [hq.other x hx,hq.last,hxy]
  rcases eq_or_ne x t with hxt | hxt
  · simp [hxt]
  · simp [hxt]

end Rotate

/-- The walk has passed the slots of `K` and has come to `x`. -/
structure Passed (link : Slot → Option Slot) (last : Option Slot) (pass : Slot → Prop) (h x : Slot) (K : List Slot) :
    Prop where
  through : ∀ v ∈ K, pass v
  onward : ∀ v ∈ K, ∀ z, Onward link last pass h v z → z ∈ x :: K

section Passed
variable {link : Slot → Option Slot} {last : Option Slot} {pass : Slot → Prop} {h x z v : Slot} {K : List Slot}

theorem Passed.visits (hp : Passed link last pass h x K) (hh : h ∈ K)
    (hgo : ∀ z, Onward link last pass h x z → z ∈ x :: K) (hv : Visits link last pass h v) : v ∈ x :: K := by
  induction hv with
  | refl => exact List.mem_cons_of_mem _ hh
  | tail _ hstep ih =>
    rcases List.mem_cons.mp ih with rfl | hmem
    · exact hgo _ hstep
    · exact hp.onward _ hmem _ hstep

theorem Passed.step (hp : Passed link last pass h x K) (hx : pass x)
    (hgo : ∀ z', Onward link last pass h x z' → z' = z) : Passed link last pass h z (x :: K) := by
  refine ⟨List.forall_mem_cons.mpr ⟨hx,hp.through⟩,List.forall_mem_cons.mpr ⟨fun z' hz' => ?_,fun v hv z' hz' => ?_⟩⟩
  · rw [hgo z' hz']
    exact List.mem_cons_self
  · exact List.mem_cons_of_mem _ (hp.onward v hv z' hz')

end Passed

theorem Rotated.onward {p q : ProcPages} {h t y w x z : Slot} {l : List Slot} {pass : Slot → Prop}
    (hq : Rotated p h t y w l x q) (ht : p.tail = some t) (hx : x ∉ w :: l) (hz : Onward p.next p.tail pass h x z) :
    q.next x = some z := by
  have hxh : x ≠ h := fun he => hx (he ▸ hq.first)
  have hxt : x ≠ t := fun he => hz.2.1.resolve_left hxh (he ▸ ht)
  rw [hq.next_eq hx hxt,hz.2.2]

/-! ## SCFIFO -/

def Leads (p : ProcPages) (t x : Slot) : Prop := p.va x ≠ none ∧ (x = t ∨ p.next x ≠ none)

/-- Every slot that the walk from `h` visits leads on, and if the queue starts at its own tail, the walk
passes `y`. -/
def AllLead (acc : Slot → Bool) (p : ProcPages) (h t y : Slot) : Prop :=
  (t = h → acc y = true) ∧ ∀ x, Visits p.next p.tail (acc · = true) h x → Leads p t x

/-- The queues on which `scfifo_alg` finds a page and which then have ends that `update_memory` accepts. A
head that has not been accessed leaves. Otherwise the walk through accessed pages decides. -/
def ScfifoGives (acc : Slot → Bool) (p : ProcPages) : Prop :=
  ∃ h, p.head = some h ∧ p.va h ≠ none ∧
    (acc h = false ∧ (p.tail = some h ∨ p.tail = none ∧ p.next h = none ∨
      p.prev h = none ∧ p.next h ≠ none ∧ ∃ t, p.tail = some t ∧ p.next t = none) ∨
    acc h = true ∧ ∃ t y, p.tail = some t ∧ p.next h = some y ∧ y ≠ h ∧ AllLead acc p h t y)

section Loop
variable {σ : Type} {accessBit : ℕ → σ → Except Fault (Bool × σ)} {acc : Slot → Bool} {world : List Slot → σ → Prop}
  {q q' : ProcPages} {x z : Slot} {l : List Slot} {u u' : σ}

/-- Sampling an occupied slot finds the bit `acc`, or no bit if it has been sampled before. The page whose
address an empty slot holds has no bit. -/
structure Sampler (accessBit : ℕ → σ → Except Fault (Bool × σ)) (va : Slot → Option ℕ) (acc : Slot → Bool)
    (world : List Slot → σ → Prop) : Prop where
  page : ∀ l u i, world l u → va i ≠ none →
    ∃ u', accessBit (vaAddr (va i)) u = .ok (acc i && decide (i ∉ l),u') ∧ world (i :: l) u'
  empty : ∀ l u i u', world l u → va i = none → accessBit (vaAddr (va i)) u ≠ .ok (true,u')

def ScfifoFinds (accessBit : ℕ → σ → Except Fault (Bool × σ)) (oldhead : Option Slot) (fuel : ℕ) (q : ProcPages) (u : σ) :
    Prop :=
  ∃ v q' u', scfifoLoop accessBit oldhead fuel q u = .ok (v,q',u') ∧ q.va v ≠ none ∧ ScfifoEnds (unlinkTmp q' v)

section
variable (oldhead : Option Slot) (fuel : ℕ) (hx : q.head = some x)
include oldhead fuel hx

theorem scfifoLoop_stop (hbit : accessBit (vaAddr (q.va x)) u = .ok (false,u')) :
    scfifoLoop accessBit oldhead (fuel+1) q u = .ok (x,if q.tail = some x then
      {q with next := update q.next x none, prev := update q.prev x none} else q,u') := by
  rw [scfifoLoop,hx]
  simp only [hbit]
  by_cases ht : q.tail = some x
  · rw [if_pos ht.symm,if_pos ht]
  · rw [if_neg (Ne.symm ht),if_neg ht]

theorem scfifoFinds_stop (hocc : q.va x ≠ none) (hbit : accessBit (vaAddr (q.va x)) u = .ok (false,u')) :
    ScfifoFinds accessBit oldhead (fuel+1) q u ↔ q.tail = some x ∨ ScfifoEnds (unlinkTmp q x) := by
  unfold ScfifoFinds
  rw [scfifoLoop_stop oldhead fuel hx hbit]
  by_cases ht : q.tail = some x
  · have hends : ScfifoEnds (unlinkTmp {q with next := update q.next x none
                                               prev := update q.prev x none} x) := by
      rw [unlinkTmp_eq]
      simp [ScfifoEnds,hx,ht]
    simp only [if_pos ht]
    exact iff_of_true ⟨x,_,u',rfl,hocc,hends⟩ (Or.inl ht)
  · simp only [if_neg ht]
    constructor
    · rintro ⟨v,q',u'',he,-,hends⟩
      cases he
      exact Or.inr hends
    · intro hends
      exact ⟨x,q,u',rfl,hocc,hends.resolve_left ht⟩

theorem scfifoLoop_chance
    (hbit : accessBit (vaAddr (q.va x)) u = .ok (true,u')) (hrot : scfifoRotate q x = .ok q') (hz : q'.head = some z) :
    scfifoLoop accessBit oldhead (fuel+1) q u =
      if some z ≠ oldhead then scfifoLoop accessBit oldhead fuel q' u' else .ok (z,q',u') := by
  rw [scfifoLoop,hx]
  simp only [hbit,hrot,hz]

theorem not_scfifoFinds_of_rotate
    (hbit : accessBit (vaAddr (q.va x)) u = .ok (true,u')) (hn : q.next x = none ∨ q.tail = none) : ¬ScfifoFinds accessBit oldhead (fuel+1) q u := by
  rintro ⟨v,q',u'',hrun,-⟩
  rw [scfifoLoop,hx] at hrun
  simp only [hbit,scfifoRotate] at hrun
  rcases hn with hn | hn
  · simp [hn] at hrun
  · cases hnx : q.next x <;> simp [hn,hnx] at hrun

end

theorem not_scfifoFinds_of_empty (oldhead : Option Slot) (fuel : ℕ) (hs : Sampler accessBit q.va acc world)
    (hu : world l u) (hx : q.head = some x) (hocc : q.va x = none) : ¬ScfifoFinds accessBit oldhead (fuel+1) q u := by
  rintro ⟨v,q',u',hrun,hv,-⟩
  cases hbit : accessBit (vaAddr (q.va x)) u with
  | error e =>
    rw [scfifoLoop,hx] at hrun
    simp [hbit] at hrun
  | ok r =>
    obtain ⟨b,u₁⟩ := r
    cases b with
    | true => exact hs.empty l u x u₁ hu hocc hbit
    | false =>
      rw [scfifoLoop_stop oldhead fuel hx hbit] at hrun
      cases hrun
      exact hv hocc

end Loop

/-- The loop of `scfifo_alg` from its second round on: it has passed the slots that have moved, all of which lead on. -/
structure Walking (acc : Slot → Bool) (p : ProcPages) (h t y w : Slot) (l : List Slot) (x : Slot) (q : ProcPages) : Prop
    extends Rotated p h t y w l x q where
  ends : p.tail = some t
  ne : x ≠ h
  visited : Visits p.next p.tail (acc · = true) h x
  passed : Passed p.next p.tail (acc · = true) h x (w :: l)
  leads : ∀ v ∈ w :: l, Leads p t v

section Walk
variable {σ : Type} {accessBit : ℕ → σ → Except Fault (Bool × σ)} {acc : Slot → Bool} {world : List Slot → σ → Prop}
  {p q : ProcPages} {h t y w x z : Slot} {l : List Slot} {u : σ}

theorem Walking.allLead (hw : Walking acc p h t y w l x q) (hx : Leads p t x) (hy : x = y → t = h → acc y = true)
    (hgo : ∀ z, Onward p.next p.tail (acc · = true) h x z → z ∈ x :: w :: l) : AllLead acc p h t y := by
  refine ⟨fun hth => ?_,fun v hv => ?_⟩
  · by_cases hl : l = []
    · exact hy (hw.start hl) hth
    · exact hw.passed.through y (hw.second hl)
  · rcases List.mem_cons.mp (hw.passed.visits hw.first hgo hv) with rfl | hmem
    · exact hx
    · exact hw.leads v hmem

theorem Walking.moved (oldhead : Option Slot) (fuel : ℕ) (hs : Sampler accessBit q.va acc world)
    (hw : Walking acc p h t y w l x q) (hu : world (w :: l) u) (hx : x ∈ w :: l) :
    ScfifoFinds accessBit oldhead (fuel+1) q u ∧ AllLead acc p h t y := by
  have hl : l ≠ [] := by
    rintro rfl
    exact hw.ne ((List.mem_singleton.mp hx).trans (List.mem_singleton.mp hw.first).symm)
  have hocc : q.va x ≠ none := hw.va ▸ (hw.leads x hx).1
  obtain ⟨u',hbit,-⟩ := hs.page _ _ x hu hocc
  rw [decide_eq_false (not_not_intro hx),Bool.and_false] at hbit
  refine ⟨(scfifoFinds_stop oldhead fuel hw.head hocc hbit).mpr ?_,hw.allLead (hw.leads x hx) (fun hxy _ => ?_) (hw.passed.onward x hx)⟩
  · by_cases hxw : x = w
    · exact Or.inl (hxw ▸ hw.tail)
    · obtain ⟨z,-,hz⟩ := hw.inner x (List.mem_of_ne_of_mem hxw hx)
      refine Or.inr ((hw.scfifoEnds_iff hxw).mpr ⟨by simp [hz],?_⟩)
      rw [hw.last,if_neg fun hc => hl hc.1]
  · exact hxy ▸ hw.passed.through x hx

theorem Walking.stops (oldhead : Option Slot) (fuel : ℕ) (hs : Sampler accessBit q.va acc world)
    (hw : Walking acc p h t y w l x q) (hu : world (w :: l) u) (hx : x ∉ w :: l) (hocc : q.va x ≠ none) (hacc : acc x = false) :
    ScfifoFinds accessBit oldhead (fuel+1) q u ↔ AllLead acc p h t y := by
  have hxw : x ≠ w := fun he => hx (he ▸ List.mem_cons_self)
  have hnt : q.tail ≠ some x := by
    rw [hw.tail]
    exact fun he => hxw (Option.some.inj he).symm
  obtain ⟨u',hbit,-⟩ := hs.page _ _ x hu hocc
  rw [hacc,Bool.false_and] at hbit
  rw [scfifoFinds_stop oldhead fuel hw.head hocc hbit,or_iff_right hnt,hw.scfifoEnds_iff hxw,hw.gives_iff hx]
  constructor
  · rintro ⟨hlead,hend⟩
    refine hw.allLead ⟨hw.va ▸ hocc,hlead⟩ (fun hxy hth => (hend hxy hth).elim) fun z hz => ?_
    have hpass : acc x = true := hz.1
    rw [hacc] at hpass
    cases hpass
  · rintro ⟨hth,hall⟩
    refine ⟨(hall x hw.visited).2,fun hxy he => ?_⟩
    rw [← hxy,hacc] at hth
    cases hth he

theorem Walking.passes (hw : Walking acc p h t y w l x q) (hx : x ∉ w :: l) (hocc : q.va x ≠ none) (hacc : acc x = true)
    (hz : q.next x = some z) :
    ∃ q', scfifoRotate q x = .ok q' ∧ q'.head = some z ∧ q'.va = p.va ∧
      (z = h → ScfifoEnds (unlinkTmp q' z) ∧ AllLead acc p h t y) ∧
      (z ≠ h → Walking acc p h t y x (w :: l) z q') := by
  obtain ⟨q',hrot,hq'⟩ := hw.chance hx hz
  have hgo : ∀ z', Onward p.next p.tail (acc · = true) h x z' → z' = z := by
    intro z' hz'
    have hsame := hw.onward hw.ends hx hz'
    rw [hz] at hsame
    exact (Option.some.inj hsame).symm
  have hlead : Leads p t x := by
    refine ⟨hw.va ▸ hocc,?_⟩
    by_cases hxt : x = t
    · exact Or.inl hxt
    · rw [hw.next_eq hx hxt] at hz
      exact Or.inr (by simp [hz])
  refine ⟨q',hrot,hq'.head,hq'.va,?_,fun hzh => ?_⟩
  · rintro rfl
    obtain ⟨z',-,hz'⟩ := hq'.inner z hw.first
    refine ⟨(hq'.scfifoEnds_iff hw.ne.symm).mpr ⟨by simp [hz'],by rw [hq'.last,if_neg (by simp)]⟩,
      hw.allLead hlead (fun hxy _ => hxy ▸ hacc) fun z' hz' => ?_⟩
    rw [hgo z' hz']
    exact List.mem_cons_of_mem _ hw.first
  · have hxt : x ≠ t := by
      rintro rfl
      rw [hw.other x hx,if_pos rfl] at hz
      exact hzh (Option.some.inj hz).symm
    have hstep : Onward p.next p.tail (acc · = true) h x z := by
      refine ⟨hacc,Or.inr ?_,by rw [← hw.next_eq hx hxt,hz]⟩
      rw [hw.ends]
      exact fun he => hxt (Option.some.inj he).symm
    exact ⟨hq',hw.ends,hzh,hw.visited.tail hstep,hw.passed.step hacc hgo,List.forall_mem_cons.mpr ⟨hlead,hw.leads⟩⟩

/-- From the second round on, a page is found exactly if all slots that the walk visits lead on. -/
theorem Walking.finds_iff (hs : Sampler accessBit p.va acc world) (hw : Walking acc p h t y w l x q)
    (hu : world (w :: l) u) {fuel : ℕ} (hfuel : maxPsycPages < (w :: l).length+fuel) :
    ScfifoFinds accessBit (some h) fuel q u ↔ AllLead acc p h t y := by
  induction fuel generalizing w l x q u with
  | zero =>
    have hle := slots_length_le hw.nodup
    omega
  | succ fuel ih =>
    have hsq : Sampler accessBit q.va acc world := hw.va ▸ hs
    by_cases hx : x ∈ w :: l
    · obtain ⟨hfinds,hall⟩ := hw.moved (some h) fuel hsq hu hx
      exact iff_of_true hfinds hall
    by_cases hocc : q.va x = none
    · refine iff_of_false (not_scfifoFinds_of_empty _ fuel hsq hu hw.head hocc) fun hall => ?_
      exact (hall.2 x hw.visited).1 (hw.va ▸ hocc)
    cases hacc : acc x with
    | false => exact hw.stops (some h) fuel hsq hu hx hocc hacc
    | true =>
      obtain ⟨u',hbit,hu'⟩ := hsq.page _ _ x hu hocc
      rw [decide_eq_true hx,Bool.and_true,hacc] at hbit
      cases hz : q.next x with
      | none =>
        refine iff_of_false (not_scfifoFinds_of_rotate _ fuel hw.head hbit (Or.inl hz)) fun hall => ?_
        rw [hw.other x hx] at hz
        rcases (hall.2 x hw.visited).2 with hxt | hxt
        · rw [if_pos hxt] at hz
          cases hz
        · split_ifs at hz
          exact hxt hz
      | some z =>
        obtain ⟨q',hrot,hhead,hva,hback,hgo⟩ := hw.passes hx hocc hacc hz
        have hrun := scfifoLoop_chance (some h) fuel hw.head hbit hrot hhead
        by_cases hzh : z = h
        · obtain ⟨hends,hall⟩ := hback hzh
          refine iff_of_true ⟨z,q',u',?_,?_,hends⟩ hall
          · rw [hrun,if_neg (by simpa using hzh)]
          · rw [hw.va,hzh]
            exact (hw.leads h hw.first).1
        · rw [← ih (hgo hzh) hu' (by simp only [List.length_cons] at hfuel ⊢; omega)]
          unfold ScfifoFinds
          rw [hrun,if_pos (by simpa using hzh),hva,hw.va]

end Walk

section Start
variable {σ : Type} {accessBit : ℕ → σ → Except Fault (Bool × σ)} {acc : Slot → Bool} {world : List Slot → σ → Prop}
  {p : ProcPages} {h : Slot} {u : σ}

theorem scfifoEnds_unlink_head (hh : p.head = some h) (ht : p.tail ≠ some h) :
    ScfifoEnds (unlinkTmp p h) ↔ p.tail = none ∧ p.next h = none ∨
      p.prev h = none ∧ p.next h ≠ none ∧ ∃ t, p.tail = some t ∧ p.next t = none := by
  rw [unlinkTmp_eq,if_pos hh,if_neg ht]
  cases htl : p.tail <;> cases hn : p.next h <;> cases hp : p.prev h <;> simp [ScfifoEnds]

theorem scfifoAlg_finds :
    (∃ v p' u', scfifoAlg accessBit p u = .ok (v,p',u') ∧ p.va v ≠ none ∧ ScfifoEnds p') ↔
      ScfifoFinds accessBit p.head (maxPsycPages+1) p u := by
  unfold scfifoAlg ScfifoFinds
  cases scfifoLoop accessBit p.head (maxPsycPages+1) p u with
  | error e => simp
  | ok r =>
    obtain ⟨v,q,u'⟩ := r
    constructor
    · rintro ⟨v,p',u',he,hv,hends⟩
      cases he
      exact ⟨v,q,u',rfl,hv,hends⟩
    · rintro ⟨v,p',u',he,hv,hends⟩
      cases he
      exact ⟨v,_,u',rfl,hv,hends⟩

theorem scfifoAlg_gives_iff (hs : Sampler accessBit p.va acc world) (hu : world [] u) :
    (∃ v p' u', scfifoAlg accessBit p u = .ok (v,p',u') ∧ p.va v ≠ none ∧ ScfifoEnds p') ↔ ScfifoGives acc p := by
  rw [scfifoAlg_finds,ScfifoGives]
  cases hh : p.head with
  | none =>
    refine iff_of_false ?_ ?_
    · rintro ⟨v,q,u',hrun,-⟩
      rw [scfifoLoop,hh] at hrun
      cases hrun
    · rintro ⟨h,⟨⟩,-⟩
  | some h =>
    simp only [Option.some.injEq,exists_eq_left']
    by_cases hocc : p.va h = none
    · exact iff_of_false (not_scfifoFinds_of_empty _ _ hs hu hh hocc) fun hg => hg.1 hocc
    obtain ⟨u',hbit,hu'⟩ := hs.page [] u h hu hocc
    rw [decide_eq_true List.not_mem_nil,Bool.and_true] at hbit
    cases hacc : acc h with
    | false =>
      rw [hacc] at hbit
      rw [scfifoFinds_stop _ _ hh hocc hbit]
      by_cases ht : p.tail = some h
      · simp [ht,hocc]
      · rw [scfifoEnds_unlink_head hh ht]
        simp [ht,hocc]
    | true =>
      rw [hacc] at hbit
      cases hy : p.next h with
      | none =>
        refine iff_of_false (not_scfifoFinds_of_rotate _ _ hh hbit (Or.inl hy)) ?_
        simp
      | some y =>
        cases ht : p.tail with
        | none =>
          refine iff_of_false (not_scfifoFinds_of_rotate _ _ hh hbit (Or.inr ht)) ?_
          simp
        | some t =>
          obtain ⟨q,hrot,hq,hprev⟩ := Rotated.first_chance ht hy
          have hrun := scfifoLoop_chance (some h) maxPsycPages hh hbit hrot hq.head
          by_cases hyh : y = h
          · -- the head is its own successor: it leaves with a link to the old tail
            subst hyh
            refine iff_of_false ?_ (by simp)
            rintro ⟨v,q',u'',hloop,-,hends⟩
            rw [hrun,if_neg (by simp)] at hloop
            cases hloop
            rw [unlinkTmp_eq,if_pos hq.head,if_pos hq.tail,hprev,hq.last] at hends
            by_cases hty : t = y <;> simp [ScfifoEnds,hty] at hends
          · have hlead : Leads p t h := ⟨hocc,Or.inr (by simp [hy])⟩
            have hstep : Onward p.next p.tail (acc · = true) h h y := ⟨hacc,Or.inl rfl,hy⟩
            have hw : Walking acc p h t y h [] y q := by
              refine ⟨hq,ht,hyh,.single hstep,⟨by simpa using hacc,?_⟩,by simpa using hlead⟩
              simp only [List.mem_singleton,forall_eq]
              intro z hz
              rw [Option.some.inj (hz.2.2.symm.trans hy)]
              exact List.mem_cons_self
            have hfinds : ScfifoFinds accessBit (some h) maxPsycPages q u' ↔ AllLead acc p h t y :=
              hw.finds_iff hs hu' (by simp)
            have hnext : ScfifoFinds accessBit (some h) (maxPsycPages+1) p u ↔
                ScfifoFinds accessBit (some h) maxPsycPages q u' := by
              unfold ScfifoFinds
              rw [hrun,if_pos (by simpa using hyh),hq.va]
            rw [hnext,hfinds]
            simp [hocc,hyh]

end Start

/-! ## AQ -/

def TailLeaves (p : ProcPages) (v : Slot) : Prop :=
  p.prev v = none ∧ (p.head = none ∨ p.head = some v ∧ p.next v = none) ∨
    p.prev v ≠ none ∧ ∃ a, a ≠ v ∧ p.head = some a ∧ p.prev a = none ∧ p.next v ≠ some a

/-- The slot `v` leaves after the slots from the tail `t` up to it have moved in front of the head. -/
def InnerLeaves (p : ProcPages) (t v : Slot) : Prop :=
  ∃ a, p.head = some a ∧ (v = a ∨ p.prev v ≠ none) ∧ (p.prev t = some v → a ≠ t)

/-- The walk from the tail through the slots of `pass`, whose pages the user may not access, comes to a slot
of `user`. -/
def AqGives (pass user : Slot → Prop) (p : ProcPages) : Prop :=
  ∃ t v, p.tail = some t ∧ Visits p.prev p.head pass t v ∧ user v ∧
    (v = t ∧ TailLeaves p v ∨ v ≠ t ∧ InnerLeaves p t v)

/-- The loop of `aq_alg` from its second round on: it has passed the slots that have moved, from the tail `h` on. -/
structure AqWalking (pass : Slot → Prop) (p : ProcPages) (h a y w : Slot) (l : List Slot) (x : Slot) (q : ProcPages) :
    Prop extends Rotated p.mirror h a y w l x q.mirror where
  ends : p.head = some a
  ne : x ≠ h
  visited : Visits p.prev p.head pass h x
  passed : Passed p.prev p.head pass h x (w :: l)

structure ReadsUser (userBit : ℕ → Except Fault Bool) (va : Slot → Option ℕ) (pass user : Slot → Prop) : Prop where
  pass : ∀ i, pass i ↔ userBit (vaAddr (va i)) = .ok false
  user : ∀ i, user i ↔ userBit (vaAddr (va i)) = .ok true

def AqFinds (userBit : ℕ → Except Fault Bool) (oldtail : Slot) (fuel : ℕ) (q : ProcPages) (tmp : Slot) : Prop :=
  ∃ v q', aqLoop userBit oldtail fuel q tmp = .ok (v,q') ∧ AqEnds (unlinkTmp q' v)

def ProcPages.moveUp (q : ProcPages) (x z a : Slot) : ProcPages :=
  {q with
    tail := some z
    next := update (update q.next z none) x (some a)
    prev := update (update q.prev x none) a (some x)
    head := some x}

section Aq
variable {p q p' : ProcPages} {userBit : ℕ → Except Fault Bool} {pass user : Slot → Prop}
  {h a t y w x z v oldtail : Slot} {l K : List Slot} {fuel : ℕ}

theorem aqLoop_chance (oldtail : Slot) (fuel : ℕ) (hu : userBit (vaAddr (q.va x)) = .ok false) (hz : q.prev x = some z)
    (ha : q.head = some a) :
    scfifoRotate q.mirror x = .ok (q.moveUp x z a).mirror ∧ aqLoop userBit oldtail (fuel+1) q x =
      if z = oldtail then .error (.panic "all pages in memory are with user bit off\n")
      else aqLoop userBit oldtail fuel (q.moveUp x z a) z := by
  constructor
  · have hn : q.mirror.next x = some z := hz
    have ht : q.mirror.tail = some a := ha
    simp only [scfifoRotate,hn,ht]
    rfl
  · rw [aqLoop]
    simp only [hu,hz,ha]
    rfl

theorem not_aqFinds_of_rotate (oldtail : Slot) (fuel : ℕ) (hu : userBit (vaAddr (q.va x)) = .ok false)
    (hn : q.prev x = none ∨ q.head = none) : ¬AqFinds userBit oldtail (fuel+1) q x := by
  rintro ⟨v,q',hrun,-⟩
  rw [aqLoop] at hrun
  rcases hn with hn | hn <;> simp [hu,hn] at hrun

theorem aqFinds_stop (oldtail : Slot) (fuel : ℕ) (hu : userBit (vaAddr (q.va x)) = .ok true) :
    AqFinds userBit oldtail (fuel+1) q x ↔ AqEnds (unlinkTmp q x) := by
  simp [AqFinds,aqLoop,hu]

theorem not_aqFinds_of_error (oldtail : Slot) (fuel : ℕ) {e : Fault} (hu : userBit (vaAddr (q.va x)) = .error e) :
    ¬AqFinds userBit oldtail (fuel+1) q x := by
  simp [AqFinds,aqLoop,hu]

theorem not_aqFinds_of_closed (hx : x ∈ K) (hu : ∀ v ∈ K, userBit (vaAddr (q.va v)) = .ok false)
    (hprev : ∀ v ∈ K, ∀ z, q.prev v = some z → z ∈ K) (hhead : ∀ a, q.head = some a → a ∈ K) :
    ¬AqFinds userBit oldtail fuel q x := by
  induction fuel generalizing q x with
  | zero =>
    rintro ⟨v,q',hrun,-⟩
    cases hrun
  | succ fuel ih =>
    cases hz : q.prev x with
    | none => exact not_aqFinds_of_rotate oldtail fuel (hu x hx) (Or.inl hz)
    | some z =>
      cases ha : q.head with
      | none => exact not_aqFinds_of_rotate oldtail fuel (hu x hx) (Or.inr ha)
      | some a =>
        obtain ⟨-,hrun⟩ := aqLoop_chance oldtail fuel (hu x hx) hz ha
        unfold AqFinds
        rw [hrun]
        split_ifs
        · simp
        · refine ih (hprev x hx z hz) hu (fun v hv z' hz' => ?_) fun b hb => ?_
          · simp only [ProcPages.moveUp,update_apply] at hz'
            split_ifs at hz'
            · exact Option.some.inj hz' ▸ hx
            · exact hprev v hv z' hz'
          · exact Option.some.inj hb ▸ hx

theorem AqWalking.only (hr : ReadsUser userBit p.va pass user) (hw : AqWalking pass p h a y w l x q)
    (hgo : ∀ z, Onward p.prev p.head pass h x z → z ∈ x :: w :: l) (hv : Visits p.prev p.head pass h v) (hu : user v) :
    v = x := by
  rcases List.mem_cons.mp (hw.passed.visits (List.mem_cons.mpr (List.mem_cons.mp hw.first)) hgo hv) with hvx | hmem
  · exact hvx
  · have hno := (hr.pass v).mp (hw.passed.through v hmem)
    rw [(hr.user v).mp hu] at hno
    cases hno

theorem AqWalking.moved (oldtail : Slot) (fuel : ℕ) (hr : ReadsUser userBit p.va pass user)
    (hw : AqWalking pass p h a y w l x q) (hx : x ∈ w :: l) : ¬AqFinds userBit oldtail fuel q x ∧ ∀ v, Visits p.prev p.head pass h v → ¬user v := by
  have hva : q.va = p.va := hw.va
  constructor
  · refine not_aqFinds_of_closed hx (fun v hv => ?_) (fun v hv z hz => ?_) fun b hb => ?_
    · rw [hva]
      exact (hr.pass v).mp (hw.passed.through v hv)
    · rcases List.mem_cons.mp hv with rfl | hv
      · have hlast : q.prev v = _ := hw.last
        rw [hlast] at hz
        split_ifs at hz
        exact Option.some.inj hz ▸ hw.first
      · obtain ⟨z',hz',hnext⟩ := hw.inner v hv
        exact Option.some.inj (hnext.symm.trans hz) ▸ hz'
    · exact Option.some.inj (hw.tail.symm.trans hb) ▸ List.mem_cons_self
  · intro v hv hu
    have hvx := hw.only hr (hw.passed.onward x hx) hv hu
    have hno := (hr.pass v).mp (hw.passed.through v (hvx ▸ hx))
    rw [(hr.user v).mp hu] at hno
    cases hno

theorem AqWalking.passes (hw : AqWalking pass p h a y w l x q) (hx : x ∉ w :: l) (hpass : pass x)
    (hz : q.prev x = some z) (hzh : z ≠ h) : AqWalking pass p h a y x (w :: l) z (q.moveUp x z w) := by
  have hn : q.mirror.next x = some z := hz
  obtain ⟨q',hrot,hq'⟩ := hw.chance hx hn
  have ht : q.mirror.tail = some w := hw.tail
  have hsame : q' = (q.moveUp x z w).mirror := by
    simp only [scfifoRotate,hn,ht] at hrot
    exact (Except.ok.inj hrot).symm
  have hxa : x ≠ a := by
    rintro rfl
    rw [hw.other x hx,if_pos rfl] at hn
    exact hzh (Option.some.inj hn).symm
  have hstep : Onward p.prev p.head pass h x z := by
    refine ⟨hpass,Or.inr ?_,(hw.next_eq hx hxa).symm.trans hn⟩
    rw [hw.ends]
    exact fun he => hxa (Option.some.inj he).symm
  refine ⟨hsame ▸ hq',hw.ends,hzh,hw.visited.tail hstep,hw.passed.step hpass fun z' hz' => ?_⟩
  exact Option.some.inj ((hz'.2.2.symm.trans hstep.2.2))

theorem AqWalking.finds_iff (hr : ReadsUser userBit p.va pass user) (hw : AqWalking pass p h a y w l x q)
    (hfuel : maxPsycPages < (w :: l).length+fuel) :
    AqFinds userBit h fuel q x ↔ ∃ v, Visits p.prev p.head pass h v ∧ user v ∧ (v = a ∨ p.prev v ≠ none) ∧
      (v = y → a ≠ h) := by
  induction fuel generalizing w l x q with
  | zero =>
    have hle := slots_length_le hw.nodup
    omega
  | succ fuel ih =>
    have hva : q.va = p.va := hw.va
    by_cases hx : x ∈ w :: l
    · obtain ⟨hno,hnone⟩ := hw.moved h (fuel+1) hr hx
      exact iff_of_false hno fun hex => hnone _ hex.choose_spec.1 hex.choose_spec.2.1
    have hxh : x ≠ h := hw.ne
    have hxw : x ≠ w := fun he => hx (he ▸ List.mem_cons_self)
    -- the walk does not go on from `x`, so no page behind it is found
    have hends : ¬AqFinds userBit h (fuel+1) q x → ¬user x →
        (∀ z, Onward p.prev p.head pass h x z → z ∈ x :: w :: l) →
        (AqFinds userBit h (fuel+1) q x ↔ ∃ v, Visits p.prev p.head pass h v ∧ user v ∧
          (v = a ∨ p.prev v ≠ none) ∧ (v = y → a ≠ h)) := by
      intro hno hnu hgo
      refine iff_of_false hno ?_
      rintro ⟨v,hv,hu,-⟩
      exact hnu (hw.only hr hgo hv hu ▸ hu)
    cases hbit : userBit (vaAddr (p.va x)) with
    | error e =>
      refine hends (not_aqFinds_of_error h fuel (hva ▸ hbit)) (fun hu => ?_) fun z hz => ?_
      · rw [(hr.user x).mp hu] at hbit
        cases hbit
      · rw [(hr.pass x).mp hz.1] at hbit
        cases hbit
    | ok b =>
      cases b with
      | true =>
        have hgo : ∀ z, Onward p.prev p.head pass h x z → z ∈ x :: w :: l := by
          intro z hz
          rw [(hr.pass x).mp hz.1] at hbit
          cases hbit
        rw [aqFinds_stop h fuel (hva ▸ hbit),hw.aqEnds_iff hxw,hw.gives_iff hx]
        constructor
        · rintro ⟨h1,h2⟩
          exact ⟨x,hw.visited,(hr.user x).mpr hbit,h1,h2⟩
        · rintro ⟨v,hv,hu,h1,h2⟩
          obtain rfl := hw.only hr hgo hv hu
          exact ⟨h1,h2⟩
      | false =>
        have hnu : ¬user x := by
          intro hu
          rw [(hr.user x).mp hu] at hbit
          cases hbit
        have hpass : pass x := (hr.pass x).mpr hbit
        have hgo : ∀ z, Onward p.prev p.head pass h x z → q.prev x = some z := fun z hz => hw.onward hw.ends hx hz
        cases hz : q.prev x with
        | none =>
          refine hends (not_aqFinds_of_rotate h fuel (hva ▸ hbit) (Or.inl hz)) hnu fun z hz' => ?_
          rw [hgo z hz'] at hz
          cases hz
        | some z =>
          obtain ⟨-,hrun⟩ := aqLoop_chance h fuel (hva ▸ hbit) hz hw.tail
          by_cases hzh : z = h
          · refine hends ?_ hnu fun z' hz' => ?_
            · unfold AqFinds
              rw [hrun,if_pos hzh]
              simp
            · rw [hgo z' hz'] at hz
              rw [Option.some.inj hz,hzh]
              exact List.mem_cons_of_mem _ hw.first
          · rw [← ih (hw.passes hx hpass hz hzh) (by simp only [List.length_cons] at hfuel ⊢; omega)]
            unfold AqFinds
            rw [hrun,if_neg hzh]

theorem Visits.eq_of_stays {link : Slot → Option Slot} {last : Option Slot} (hv : Visits link last pass t v)
    (hgo : ∀ z, Onward link last pass t t z → z = t) : v = t := by
  induction hv with
  | refl => rfl
  | tail _ hstep ih =>
    subst ih
    exact hgo _ hstep

theorem aqEnds_unlink_tail (ht : p.tail = some v) : AqEnds (unlinkTmp p v) ↔ TailLeaves p v := by
  rw [unlinkTmp_eq,if_pos ht]
  unfold TailLeaves AqEnds
  cases hh : p.head with
  | none => cases hp : p.prev v <;> simp
  | some a =>
    by_cases hav : a = v
    · subst hav
      cases hp : p.prev a <;> cases hn : p.next a <;> simp
    · cases hp : p.prev v with
      | none => simp [hav]
      | some r =>
        cases hn : p.next v with
        | none => simp [hav]
        | some n =>
          by_cases han : n = a
          · simp [hav,han]
          · simp [hav,Ne.symm han,han]

theorem aqAlg_finds (ht : p.tail = some t) :
    (∃ v p', aqAlg userBit p = .ok (v,p') ∧ AqEnds p') ↔ AqFinds userBit t 64 p t := by
  unfold aqAlg AqFinds
  rw [ht]
  dsimp only
  cases aqLoop userBit t 64 p t with
  | error e => simp
  | ok r =>
    obtain ⟨v,q⟩ := r
    constructor
    · rintro ⟨v,p',he,hends⟩
      cases he
      exact ⟨v,q,rfl,hends⟩
    · rintro ⟨v,p',he,hends⟩
      cases he
      exact ⟨v,_,rfl,hends⟩

theorem aqAlg_gives_iff (hr : ReadsUser userBit p.va pass user) :
    (∃ v p', aqAlg userBit p = .ok (v,p') ∧ AqEnds p') ↔ AqGives pass user p := by
  unfold AqGives
  cases ht : p.tail with
  | none =>
    refine iff_of_false ?_ ?_
    · rintro ⟨v,p',hrun,-⟩
      rw [aqAlg,ht] at hrun
      cases hrun
    · rintro ⟨t,v,⟨⟩,-⟩
  | some t =>
    rw [aqAlg_finds ht]
    simp only [Option.some.injEq,exists_and_left,exists_eq_left']
    -- a walk that does not leave a tail without the user bit finds nothing
    have hstay : ¬AqFinds userBit t 64 p t → ¬user t → (∀ z, Onward p.prev p.head pass t t z → z = t) →
        (AqFinds userBit t 64 p t ↔ ∃ v, Visits p.prev p.head pass t v ∧ user v ∧
          (v = t ∧ TailLeaves p v ∨ v ≠ t ∧ InnerLeaves p t v)) := by
      intro hno hnu hgo
      refine iff_of_false hno ?_
      rintro ⟨v,hv,hu,-⟩
      exact hnu (hv.eq_of_stays hgo ▸ hu)
    cases hbit : userBit (vaAddr (p.va t)) with
    | error e =>
      refine hstay (not_aqFinds_of_error t 63 hbit) (fun hu => ?_) fun z hz => ?_
      · rw [(hr.user t).mp hu] at hbit
        cases hbit
      · rw [(hr.pass t).mp hz.1] at hbit
        cases hbit
    | ok b =>
      cases b with
      | true =>
        rw [aqFinds_stop t 63 hbit,aqEnds_unlink_tail ht]
        constructor
        · exact fun htl => ⟨t,.refl,(hr.user t).mpr hbit,Or.inl ⟨rfl,htl⟩⟩
        · rintro ⟨v,hv,-,hleave⟩
          obtain rfl : v = t := hv.eq_of_stays fun z hz => by
            rw [(hr.pass t).mp hz.1] at hbit
            cases hbit
          exact (hleave.resolve_right fun hne => hne.1 rfl).2
      | false =>
        have hnu : ¬user t := by
          intro hu
          rw [(hr.user t).mp hu] at hbit
          cases hbit
        have hpass : pass t := (hr.pass t).mpr hbit
        cases hy : p.prev t with
        | none =>
          refine hstay (not_aqFinds_of_rotate t 63 hbit (Or.inl hy)) hnu fun z hz => ?_
          rw [hz.2.2] at hy
          cases hy
        | some y =>
          cases ha : p.head with
          | none =>
            refine iff_of_false (not_aqFinds_of_rotate t 63 hbit (Or.inr ha)) ?_
            rintro ⟨v,-,hu,⟨rfl,-⟩ | ⟨-,a,ha',-⟩⟩
            · exact hnu hu
            · rw [ha] at ha'
              cases ha'
          | some a =>
            obtain ⟨hrot,hrun⟩ := aqLoop_chance t 63 hbit hy ha
            have hstep : Onward p.prev p.head pass t t y := ⟨hpass,Or.inl rfl,hy⟩
            by_cases hyt : y = t
            · rw [← ha]
              refine hstay ?_ hnu fun z hz => ?_
              · unfold AqFinds
                rw [hrun,if_pos hyt]
                simp
              · exact (Option.some.inj (hz.2.2.symm.trans hy)).trans hyt
            · obtain ⟨q,hq,hrotated,-⟩ := Rotated.first_chance (p := p.mirror) ha hy
              obtain rfl : q = (p.moveUp t y a).mirror := Except.ok.inj (hq.symm.trans hrot)
              have hw : AqWalking pass p t a y t [] y (p.moveUp t y a) := by
                refine ⟨hrotated,ha,hyt,.single hstep,⟨by simpa using hpass,?_⟩⟩
                simp only [List.mem_singleton,forall_eq]
                intro z hz
                rw [Option.some.inj (hz.2.2.symm.trans hy)]
                exact List.mem_cons_self
              have hfinds : AqFinds userBit t 63 (p.moveUp t y a) y ↔ _ := hw.finds_iff hr (by simp [maxPsycPages])
              have hnext : AqFinds userBit t 64 p t ↔ AqFinds userBit t 63 (p.moveUp t y a) y := by
                unfold AqFinds
                rw [hrun,if_neg hyt]
              rw [hnext,hfinds,← ha]
              refine exists_congr fun v => and_congr_right fun hv => and_congr_right fun hu => ?_
              have hvt : v ≠ t := by
                rintro rfl
                exact hnu hu
              simp [InnerLeaves,hvt,ha,hy,eq_comm]

theorem aqLoop_userBit (hrun : aqLoop userBit oldtail fuel p x = .ok (v,p')) : userBit (vaAddr (p.va v)) = .ok true := by
  induction fuel generalizing p x with
  | zero => cases hrun
  | succ fuel ih =>
    rw [aqLoop] at hrun
    cases hu : userBit (vaAddr (p.va x)) with
    | error e =>
      simp only [hu] at hrun
      cases hrun
    | ok u =>
      cases u with
      | true =>
        simp only [hu] at hrun
        cases hrun
        exact hu
      | false =>
        simp only [hu] at hrun
        split at hrun
        · split_ifs at hrun
          exact ih (p := p.moveUp x _ _) hrun
        · cases hrun

theorem aqAlg_userBit (hrun : aqAlg userBit p = .ok (v,p')) : userBit (vaAddr (p.va v)) = .ok true := by
  rw [aqAlg] at hrun
  split at hrun
  · cases hrun
  · split at hrun
    · cases hrun
    · next hloop =>
      cases hrun
      exact aqLoop_userBit hloop

end Aq

end Xv6Paging
