import Mathlib.Data.List.MinMax
import Mathlib.Data.Prod.Lex
import Xv6Paging.Paging.Release

/-! # Selecting a page to remove

The four selection algorithms relink the queue and clear access bits, and touch nothing
else. The two minimum searches return the first of the occupied slots with the least key.
-/
namespace Xv6Paging
open WordPage PageTree

namespace Aging
variable {p : ProcPages}

def occupiedSlots (p : ProcPages) : List Slot := (List.finRange 16).filter fun i => (p.va i).isSome

theorem mem_occupiedSlots {i : Slot} : i ∈ occupiedSlots p ↔ p.va i ≠ none := by
  rw [occupiedSlots,List.mem_filter,Option.isSome_iff_ne_none]
  exact and_iff_right (List.mem_finRange i)

theorem occupiedSlots_nodup : (occupiedSlots p).Nodup := (List.nodup_finRange 16).filter _

/-- `i` is the first of the slots in use with the least key. -/
structure FirstMin {α : Type} [LT α] [LE α] (p : ProcPages) (key : Slot → α) (i : Slot) : Prop where
  used : p.va i ≠ none
  least : ∀ j, p.va j ≠ none → key i ≤ key j
  first : ∀ j < i, p.va j ≠ none → key i < key j

theorem firstMin_of_argmin {α : Type} [LinearOrder α] {key : Slot → α} {i : Slot}
    (h : (occupiedSlots p).argmin key = some i) : FirstMin p key i := by
  obtain ⟨hmem,hleast,hfirst⟩ := List.argmin_eq_some_iff.mp h
  refine ⟨mem_occupiedSlots.mp hmem,fun j hj => hleast j (mem_occupiedSlots.mpr hj),fun j hlt hj => ?_⟩
  by_contra hle
  have hj' := mem_occupiedSlots.mpr hj
  have hidx := hfirst j hj' (not_lt.mp hle)
  have hsorted : (occupiedSlots p).Pairwise (· < ·) := (List.pairwise_lt_finRange 16).filter _
  obtain heq | hidx := hidx.eq_or_lt
  · exact hlt.ne ((List.idxOf_inj hmem).mp heq).symm
  · have hltij := List.pairwise_iff_getElem.mp hsorted _ _ (List.idxOf_lt_length_of_mem hmem)
      (List.idxOf_lt_length_of_mem hj') hidx
    rw [List.getElem_idxOf,List.getElem_idxOf] at hltij
    exact lt_asymm hlt hltij

theorem foldl_slots {β : Type} (d : Slot → β) {f : Option β → Slot → Option β} {g : Option Slot → Slot → Option Slot}
    (hskip : ∀ m i, p.va i = none → f m i = m)
    (htake : ∀ m i, p.va i ≠ none → f (m.map d) i = (g m i).map d) :
    (List.finRange 16).foldl f none = ((occupiedSlots p).foldl g none).map d := by
  have hgen (l : List Slot) (m : Option Slot) :
      l.foldl f (m.map d) = ((l.filter fun i => (p.va i).isSome).foldl g m).map d := by
    induction l generalizing m with
    | nil => rfl
    | cons i l ih =>
      cases hi : p.va i with
      | none =>
        rw [List.foldl_cons,hskip _ i hi,List.filter_cons_of_neg (by simp [hi])]
        exact ih m
      | some a =>
        rw [List.foldl_cons,htake m i (by simp [hi]),List.filter_cons_of_pos (by simp [hi]),List.foldl_cons]
        exact ih (g m i)
  exact hgen _ none

theorem nfuAlg_firstMin (h : ∃ i, p.va i ≠ none) :
    ∃ i, nfuAlg p = .ok i ∧ FirstMin p (fun i => (p.age i).toNat) i := by
  obtain ⟨i₀,hi₀⟩ := h
  have hne : (occupiedSlots p).argmin (fun i => (p.age i).toNat) ≠ none := by
    rw [ne_eq,List.argmin_eq_none]
    exact List.ne_nil_of_mem (mem_occupiedSlots.mpr hi₀)
  obtain ⟨i,hi⟩ := Option.ne_none_iff_exists'.mp hne
  refine ⟨i,?_,firstMin_of_argmin hi⟩
  unfold nfuAlg
  rw [foldl_slots (fun i => (i,p.age i))
    (g := List.argAux fun b c => (p.age b).toNat < (p.age c).toNat) ?_ ?_]
  · rw [List.argmin] at hi
    rw [hi]
    rfl
  · intro m j hj
    simp [hj]
  · intro m j hj
    have hsome : (p.va j).isSome = true := Option.isSome_iff_ne_none.mpr hj
    rw [if_pos hsome]
    cases m with
    | none => rfl
    | some k =>
      simp only [Option.map_some,List.argAux,BitVec.lt_def]
      split <;> rfl

theorem lapaAlg_firstMin (h : ∃ i, p.va i ≠ none) :
    ∃ i, lapaAlg p = .ok i ∧ FirstMin p (fun i => toLex (countOnes (p.age i),(p.age i).toNat)) i := by
  obtain ⟨i₀,hi₀⟩ := h
  have hne : (occupiedSlots p).argmin (fun i => toLex (countOnes (p.age i),(p.age i).toNat)) ≠ none := by
    rw [ne_eq,List.argmin_eq_none]
    exact List.ne_nil_of_mem (mem_occupiedSlots.mpr hi₀)
  obtain ⟨i,hi⟩ := Option.ne_none_iff_exists'.mp hne
  refine ⟨i,?_,firstMin_of_argmin hi⟩
  unfold lapaAlg
  rw [foldl_slots (fun i => (i,p.age i,countOnes (p.age i)))
    (g := List.argAux fun b c => toLex (countOnes (p.age b),(p.age b).toNat) <
      toLex (countOnes (p.age c),(p.age c).toNat)) ?_ ?_]
  · rw [List.argmin] at hi
    rw [hi]
    rfl
  · intro m j hj
    simp [hj]
  · intro m j hj
    have hsome : (p.va j).isSome = true := Option.isSome_iff_ne_none.mpr hj
    rw [if_pos hsome]
    cases m with
    | none => rfl
    | some k =>
      simp only [Option.map_some,List.argAux,BitVec.lt_def,Prod.Lex.toLex_lt_toLex]
      by_cases hones : countOnes (p.age j) = countOnes (p.age k)
      · by_cases hlt : (p.age j).toNat < (p.age k).toNat
        · simp [hones,hlt]
        · simp [hones,hlt]
      · by_cases hlt : countOnes (p.age j) < countOnes (p.age k)
        · simp [hones,hlt]
        · simp [hones,hlt]

end Aging

def LinksOnly (p p' : ProcPages) : Prop :=
  p' = {p with next := p'.next, prev := p'.prev, head := p'.head, tail := p'.tail}

theorem LinksOnly.refl (p : ProcPages) : LinksOnly p p := rfl

theorem LinksOnly.trans {p p' p'' : ProcPages} (h : LinksOnly p p') (h' : LinksOnly p' p'') :
    LinksOnly p p'' := by
  unfold LinksOnly at *
  rw [h',h]

theorem unlinkTmp_linksOnly (p : ProcPages) (i : Slot) : LinksOnly p (unlinkTmp p i) := by
  rw [unlinkTmp_eq]
  rfl

theorem scfifoRotate_linksOnly {p p' : ProcPages} {i : Slot} (h : scfifoRotate p i = .ok p') :
    LinksOnly p p' := by
  unfold scfifoRotate at h
  split at h
  · cases h
  · split at h
    · cases h
    · cases h
      rfl

section Loops
variable {σ : Type} {accessBit : ℕ → σ → Except Fault (Bool × σ)} {I : σ → Prop}

theorem scfifoLoop_keeps (hI : ∀ va t b t', I t → accessBit va t = .ok (b,t') → I t')
    (oldhead : Option Slot) (fuel : ℕ) {p : ProcPages} {t : σ} (ht : I t) :
    Outcome (scfifoLoop accessBit oldhead fuel p t) (fun r => LinksOnly p r.2.1 ∧ I r.2.2)
      fun _ => True := by
  induction fuel generalizing p t with
  | zero => exact .error trivial
  | succ fuel ih =>
    unfold scfifoLoop
    cases p.head with
    | none => exact .error trivial
    | some tmp =>
      dsimp only
      cases hb : accessBit (vaAddr (p.va tmp)) t with
      | error e => exact .error trivial
      | ok r =>
        obtain ⟨b,t'⟩ := r
        have ht' := hI _ _ _ _ ht hb
        cases b with
        | false =>
          dsimp only
          split
          · exact .ok ⟨rfl,ht'⟩
          · exact .ok ⟨rfl,ht'⟩
        | true =>
          dsimp only
          cases hr : scfifoRotate p tmp with
          | error e => exact .error trivial
          | ok p' =>
            have hl := scfifoRotate_linksOnly hr
            dsimp only
            cases p'.head with
            | none => exact .error trivial
            | some h =>
              dsimp only
              split
              · exact (ih (p := p') ht').post fun r hr => ⟨hl.trans hr.1,hr.2⟩
              · exact .ok ⟨hl,ht'⟩

theorem scfifoAlg_keeps (hI : ∀ va t b t', I t → accessBit va t = .ok (b,t') → I t')
    {p : ProcPages} {t : σ} (ht : I t) :
    Outcome (scfifoAlg accessBit p t) (fun r => LinksOnly p r.2.1 ∧ I r.2.2) fun _ => True := by
  have h := scfifoLoop_keeps hI p.head (maxPsycPages+1) (p := p) ht
  unfold scfifoAlg
  cases hs : scfifoLoop accessBit p.head (maxPsycPages+1) p t with
  | error e => exact .error trivial
  | ok r =>
    have hr := h.of_ok hs
    exact .ok ⟨hr.1.trans (unlinkTmp_linksOnly _ _),hr.2⟩

theorem aqLoop_linksOnly {userBit : ℕ → Except Fault Bool} {oldtail : Slot} (fuel : ℕ)
    {p : ProcPages} {tmp : Slot} :
    Outcome (aqLoop userBit oldtail fuel p tmp) (fun r => LinksOnly p r.2) fun _ => True := by
  induction fuel generalizing p tmp with
  | zero => exact .error trivial
  | succ fuel ih =>
    unfold aqLoop
    cases userBit (vaAddr (p.va tmp)) with
    | error e => exact .error trivial
    | ok b =>
      cases b with
      | true => exact .ok rfl
      | false =>
        dsimp only
        split
        · split
          · exact .error trivial
          · refine ih.post fun r hr => LinksOnly.trans ?_ hr
            rfl
        · exact .error trivial

theorem aqAlg_linksOnly {userBit : ℕ → Except Fault Bool} {p : ProcPages} :
    Outcome (aqAlg userBit p) (fun r => LinksOnly p r.2) fun _ => True := by
  unfold aqAlg
  cases p.tail with
  | none => exact .error trivial
  | some tmp =>
    dsimp only
    cases hs : aqLoop userBit tmp 64 p tmp with
    | error e => exact .error trivial
    | ok r =>
      have hl := (aqLoop_linksOnly 64).of_ok hs
      exact .ok (hl.trans (unlinkTmp_linksOnly _ _))

end Loops

/-- Apart from the page arrays, only access bits of the directory `d` have been cleared. -/
structure Cleared (c : Config) (S : Set Frame) (d : Frame) (s s' : Kernel) : Prop where
  wf : Wf c S s'
  table : ∀ d' ∈ S, ∀ k, s'.table d' k = s.table d' k
  pte : ∀ d' ∈ S, ∀ k, s'.pte d' k = s.pte d' k ∨ d' = d ∧ s'.pte d' k = s.pte d' k &&& ~~~pteA
  leaf : ∀ f, NotTree x86 S s.mem f → s'.mem f = s.mem f
  freelist : s'.freelist = s.freelist
  only : OnlyPages s s'

section Cleared
variable {c : Config} {S : Set Frame} {d d' : Frame} {s s' s'' : Kernel} {k : Index} {w : Word}

theorem has_and_not_pteA (w : Word) {i : ℕ} (hi : i < 32) (h5 : i ≠ 5) :
    (w &&& ~~~pteA).getLsbD i = w.getLsbD i := by
  have hb : ∀ i, i < 32 → i ≠ 5 → (~~~pteA).getLsbD i = true := by decide
  simp [hb i hi h5]

theorem pteAddr_and_not_pteA (w : Word) : pteAddr (w &&& ~~~pteA) = pteAddr w := by
  rw [pteAddr_and,pteAddr_not_pteA,BitVec.and_allOnes]

theorem link_and_not_pteA (w : Word) : x86.link (w &&& ~~~pteA) = x86.link w := by
  simp only [x86,has_pteP,has_and_not_pteA w (show 0 < 32 by decide) (by decide),
    pteAddr_and_not_pteA]

theorem Cleared.refl (h : Wf c S s) : Cleared c S d s s :=
  ⟨h,fun _ _ _ => rfl,fun _ _ _ => Or.inl rfl,fun _ _ => rfl,rfl,.refl s⟩

section
variable (h : Cleared c S d s s')
include h

theorem Cleared.notTree {f : Frame} (hf : NotTree x86 S s.mem f) : NotTree x86 S s'.mem f :=
  ⟨hf.1,fun d' hd' i ht => hf.2 d' hd' i ((h.table d' hd' (i,0)).symm.trans ht)⟩

theorem Cleared.trans (h' : Cleared c S d s' s'') : Cleared c S d s s'' := by
  refine ⟨h'.wf,fun e he k => (h'.table e he k).trans (h.table e he k),fun e he k => ?_,
    fun f hf => (h'.leaf f (h.notTree hf)).trans (h.leaf f hf),h'.freelist.trans h.freelist,
    h.only.trans h'.only⟩
  rcases h'.pte e he k with h1 | ⟨hd,h1⟩
  · rw [h1]
    exact h.pte e he k
  · right
    refine ⟨hd,?_⟩
    rcases h.pte e he k with h2 | ⟨-,h2⟩
    · rw [h1,h2]
    · rw [h1,h2,BitVec.and_assoc,BitVec.and_self]

theorem Cleared.setPages (p : ProcPages) : Cleared c S d s (s'.setPages p) :=
  ⟨h.wf,h.table,h.pte,h.leaf,h.freelist,h.only.trans (.setPages s' p)⟩

theorem Cleared.bit (hd' : d' ∈ S) {i : ℕ} (hi : i < 32) (h5 : i ≠ 5) :
    (s'.pte d' k).getLsbD i = (s.pte d' k).getLsbD i := by
  rcases h.pte d' hd' k with h1 | ⟨-,h1⟩
  · rw [h1]
  · rw [h1,has_and_not_pteA _ hi h5]

theorem Cleared.pteAddr (hd' : d' ∈ S) : pteAddr (s'.pte d' k) = pteAddr (s.pte d' k) := by
  rcases h.pte d' hd' k with h1 | ⟨-,h1⟩
  · rw [h1]
  · rw [h1,pteAddr_and_not_pteA]

theorem Cleared.page (hw : Wf c S s) (hd' : d' ∈ S)
    (ho : x86.own k = true) (hp : has (s.pte d' k) pteP = true) : s'.page d' k = s.page d' k := by
  rw [Kernel.page,h.pteAddr hd']
  exact h.leaf _ (hw.leaf_notTree hd' ho (link_eq_some.mpr ⟨hp,rfl⟩))

theorem Cleared.frame (u : Use Frame) (hu : u.root ∈ S) : u.frame x86 s'.mem = u.frame x86 s.mem := by
  cases u with
  | dir e => rfl
  | table e i => exact h.table e hu (i,0)
  | leaf e k =>
    have hlink : x86.link (s'.pte e k) = x86.link (s.pte e k) := by
      obtain he | ⟨-,he⟩ := h.pte e hu k
      · rw [he]
      · rw [he,link_and_not_pteA]
    exact congrArg (fun o => if x86.own k then o else none) hlink

end

theorem Wf.clear (h : Wf c S s) (hd : d ∈ S) {t : Frame} (ht : s.table d k = some t) :
    Cleared c S d s (s.setPte d k (s.pte d k &&& ~~~pteA)) := by
  refine ⟨h.setPte_flags hd ht (Or.inr (link_and_not_pteA _)),fun e he k' => h.setPte_table hd he,
    fun e he k' => ?_,fun f hf => ?_,rfl,⟨rfl,rfl,rfl⟩⟩
  · by_cases hk : (e,k') = (d,k)
    · cases hk
      exact Or.inr ⟨rfl,h.setPte_same hd ht⟩
    · exact Or.inl ((h.same_setPte hd).entry e he k' hk)
  · have hne : f ≠ t := fun hft => hf.2 d hd k.1 (hft ▸ ht)
    simp only [Kernel.setPte]
    rw [setEntry_eq ht]
    exact Function.update_of_ne hne _ _

theorem updateAccessBit_cleared (h : Wf c S s) (hd : s.proc.pgdir ∈ S) {va : ℕ} {b : Bool}
    (hu : updateAccessBit va s = .ok (b,s')) : Cleared c S s.proc.pgdir s s' := by
  cases ht : s.table s.proc.pgdir (vpn va) with
  | none => simp [updateAccessBit,walkpgdir_false,ht] at hu
  | some t =>
    simp only [updateAccessBit,walkpgdir_of_table ht,readPte_eq ht,writePte_eq ht] at hu
    split at hu
    · cases hu
    · simp only [Except.ok.injEq,Prod.mk.injEq] at hu
      obtain ⟨-,rfl⟩ := hu
      exact h.clear hd ht

theorem selectPageToRemove_keeps (b : Build) (h : Wf c S s) (hd : s.proc.pgdir ∈ S) :
    Outcome (selectPageToRemove b s) (fun r => Cleared c S s.proc.pgdir s r.2 ∧
      LinksOnly s.proc.pages r.2.proc.pages) fun _ => True := by
  unfold selectPageToRemove
  cases b with
  | none => exact .error trivial
  | scfifo =>
    have hI : ∀ va t b t', Cleared c S s.proc.pgdir s t → updateAccessBit va t = .ok (b,t') →
        Cleared c S s.proc.pgdir s t' := by
      intro va t b t' ht hu
      have hp : t.proc.pgdir = s.proc.pgdir := by rw [ht.only.proc]
      have hu' := updateAccessBit_cleared ht.wf (hp ▸ hd) hu
      rw [hp] at hu'
      exact ht.trans hu'
    exact (scfifoAlg_keeps hI (.refl h)).bind fun r hr => .ok ⟨hr.2.setPages _,hr.1⟩
  | nfua =>
    refine Outcome.bind (Q := fun _ => True) ?_ fun i _ => .ok ⟨.refl h,.refl _⟩
    cases nfuAlg s.proc.pages <;> simp
  | lapa =>
    refine Outcome.bind (Q := fun _ => True) ?_ fun i _ => .ok ⟨.refl h,.refl _⟩
    cases lapaAlg s.proc.pages <;> simp
  | aq =>
    exact aqAlg_linksOnly.bind fun r hr => .ok ⟨(Cleared.refl h).setPages _,hr⟩

end Cleared

end Xv6Paging
