import Xv6Paging.Library.WordPage

/-! # Two-level page trees in memory

A memory maps frames to pages. A tree is a directory frame whose words link to table
frames, and the words of a table are the tree's entries. Entries of the owned part link to
leaf frames that belong to the tree alone. `Owned` says that the directories, tables and
leaves of a set of trees are pairwise distinct frames and none of them is on a free list.
From it follow the two kinds of facts that programs on such trees need: an update changes
one entry and nothing else, and no update breaks the ownership of frames.
-/
namespace Xv6Paging.PageTree
open WordPage Function

abbrev Index := Fin 1024 × Fin 1024

/-- How words link to frames, and which entries own the frame they link to. -/
structure Format (F : Type) where
  link : Word → Option F
  own : Index → Bool
  link_zero : link 0#32 = none

variable {F : Type}

namespace Format
variable (fmt : Format F)

def table (m : F → Page) (d : F) (i : Fin 1024) : Option F := fmt.link (readWord (m d) i)

/-- The entry at an index; without a table it reads as zero. -/
def entry (m : F → Page) (d : F) (k : Index) : Word :=
  match fmt.table m d k.1 with
  | none => 0#32
  | some t => readWord (m t) k.2

def setEntry [DecidableEq F] (m : F → Page) (d : F) (k : Index) (w : Word) : F → Page :=
  match fmt.table m d k.1 with
  | none => m
  | some t => update m t (writeWord (m t) k.2 w)

end Format

def linkTable [DecidableEq F] (m : F → Page) (d : F) (i : Fin 1024) (t : F) (w : Word) : F → Page :=
  update (update m t fun _ => 0#8) d
    (writeWord (update m t (fun _ => 0#8) d) i w)

inductive Use (F : Type)
  | dir (d : F)
  | table (d : F) (i : Fin 1024)
  | leaf (d : F) (k : Index)

def Use.root : Use F → F
  | .dir d => d
  | .table d _ => d
  | .leaf d _ => d

def Use.frame (fmt : Format F) (m : F → Page) : Use F → Option F
  | .dir d => some d
  | .table d i => fmt.table m d i
  | .leaf d k => if fmt.own k then fmt.link (fmt.entry m d k) else none

/-- The trees of `S` use pairwise distinct frames of `V`, and the free list holds other ones. -/
structure Owned (fmt : Format F) (V S : Set F) (free : List F) (m : F → Page) : Prop where
  inj : ∀ (u v : Use F) f, u.root ∈ S → v.root ∈ S → u.frame fmt m = some f → v.frame fmt m = some f → u = v
  not_free : ∀ (u : Use F) f, u.root ∈ S → u.frame fmt m = some f → f ∉ free
  valid : ∀ (u : Use F) f, u.root ∈ S → u.frame fmt m = some f → f ∈ V
  free_nodup : free.Nodup
  free_valid : ∀ f ∈ free, f ∈ V

structure Fresh (fmt : Format F) (V S : Set F) (free : List F) (m : F → Page) (f : F) : Prop where
  valid : f ∈ V
  not_free : f ∉ free
  unused : ∀ u : Use F, u.root ∈ S → u.frame fmt m ≠ some f

def NotTree (fmt : Format F) (S : Set F) (m : F → Page) (f : F) : Prop :=
  f ∉ S ∧ ∀ d ∈ S, ∀ i, fmt.table m d i ≠ some f

/-- Outside `A` the trees of `S` read the same; tables may have been added. -/
structure Keeps (fmt : Format F) (S : Set F) (A : Set (F × Index)) (m m' : F → Page) : Prop where
  table : ∀ d ∈ S, ∀ i t, fmt.table m d i = some t → fmt.table m' d i = some t
  entry : ∀ d ∈ S, ∀ k, (d,k) ∉ A → fmt.entry m' d k = fmt.entry m d k
  leaf : ∀ d ∈ S, ∀ k, (d,k) ∉ A → fmt.own k → ∀ f, fmt.link (fmt.entry m d k) = some f → m' f = m f

section Basic
variable {fmt : Format F} {V S T : Set F} {A B : Set (F × Index)} {free : List F}
  {m m' m'' : F → Page} {d t f g : F} {i : Fin 1024} {k : Index} {w : Word}

theorem entry_of_table (h : fmt.table m d k.1 = some t) : fmt.entry m d k = readWord (m t) k.2 := by
  simp only [Format.entry,h]

theorem entry_of_no_table (h : fmt.table m d k.1 = none) : fmt.entry m d k = 0#32 := by
  simp only [Format.entry,h]

theorem Keeps.refl (m : F → Page) : Keeps fmt S A m m :=
  ⟨fun _ _ _ _ h => h,fun _ _ _ _ => rfl,fun _ _ _ _ _ _ _ => rfl⟩

theorem Keeps.mono (h : Keeps fmt S A m m') (hA : A ⊆ B) : Keeps fmt S B m m' :=
  ⟨h.table,fun d hd k hk => h.entry d hd k fun hm => hk (hA hm),
    fun d hd k hk => h.leaf d hd k fun hm => hk (hA hm)⟩

theorem Keeps.subset (h : Keeps fmt S A m m') (hT : T ⊆ S) : Keeps fmt T A m m' :=
  ⟨fun d hd => h.table d (hT hd),fun d hd => h.entry d (hT hd),fun d hd => h.leaf d (hT hd)⟩

/-- Trees that the changed entries do not belong to are unchanged. -/
theorem Keeps.others (h : Keeps fmt S A m m') (hT : T ⊆ S) (hA : ∀ q ∈ A, q.1 ∉ T) :
    Keeps fmt T B m m' :=
  ⟨fun d hd => h.table d (hT hd),fun d hd k _ => h.entry d (hT hd) k fun hq => hA _ hq hd,
    fun d hd k _ => h.leaf d (hT hd) k fun hq => hA _ hq hd⟩

theorem Keeps.trans (h : Keeps fmt S A m m') (h' : Keeps fmt S A m' m'') : Keeps fmt S A m m'' := by
  refine ⟨fun d hd i t ht => h'.table d hd i t (h.table d hd i t ht),fun d hd k hk => ?_,
    fun d hd k hk ho f hf => ?_⟩
  · rw [h'.entry d hd k hk,h.entry d hd k hk]
  · rw [h'.leaf d hd k hk ho f (by rw [h.entry d hd k hk]; exact hf),h.leaf d hd k hk ho f hf]

theorem Owned.subset (h : Owned fmt V S free m) (hT : T ⊆ S) : Owned fmt V T free m :=
  ⟨fun u v f hu hv => h.inj u v f (hT hu) (hT hv),fun u f hu => h.not_free u f (hT hu),
    fun u f hu => h.valid u f (hT hu),h.free_nodup,h.free_valid⟩

theorem Owned.congr (h : Owned fmt V S free m)
    (hm : ∀ u : Use F, u.root ∈ S → u.frame fmt m' = u.frame fmt m) : Owned fmt V S free m' := by
  refine ⟨fun u v f hu hv => ?_,fun u f hu => ?_,fun u f hu => ?_,h.free_nodup,h.free_valid⟩
  · rw [hm u hu,hm v hv]
    exact h.inj u v f hu hv
  · rw [hm u hu]
    exact h.not_free u f hu
  · rw [hm u hu]
    exact h.valid u f hu

theorem Fresh.congr (h : Fresh fmt V S free m f)
    (hm : ∀ u : Use F, u.root ∈ S → u.frame fmt m' = u.frame fmt m) : Fresh fmt V S free m' f :=
  ⟨h.valid,h.not_free,fun u hu => by rw [hm u hu]; exact h.unused u hu⟩

theorem Owned.take (h : Owned fmt V S (f :: free) m) :
    Owned fmt V S free m ∧ Fresh fmt V S free m f := by
  obtain ⟨hf,hnd⟩ := List.nodup_cons.mp h.free_nodup
  refine ⟨⟨h.inj,?_,h.valid,hnd,fun g hg => h.free_valid g (List.mem_cons_of_mem _ hg)⟩,
    h.free_valid f List.mem_cons_self,hf,?_⟩
  · intro u g hu hg hmem
    exact h.not_free u g hu hg (List.mem_cons_of_mem _ hmem)
  · intro u hu huf
    exact h.not_free u f hu huf List.mem_cons_self

theorem Owned.give (h : Owned fmt V S free m) (hf : Fresh fmt V S free m f) :
    Owned fmt V S (f :: free) m := by
  refine ⟨h.inj,fun u g hu hg hmem => ?_,h.valid,List.nodup_cons.mpr ⟨hf.not_free,h.free_nodup⟩,?_⟩
  · rcases List.mem_cons.mp hmem with rfl | hmem
    · exact hf.unused u hu hg
    · exact h.not_free u g hu hg hmem
  · intro g hg
    rcases List.mem_cons.mp hg with rfl | hg
    · exact hf.valid
    · exact h.free_valid g hg

theorem Owned.fresh_of_use (h : Owned fmt V S free m) {u : Use F} (hu : u.root ∈ S)
    (hf : u.frame fmt m = some f) : Fresh fmt V (S \ {u.root}) free m f := by
  refine ⟨h.valid u f hu hf,h.not_free u f hu hf,fun v hv hvf => hv.2 ?_⟩
  rw [h.inj v u f hv.1 hu hvf hf]
  rfl

theorem Fresh.subset (h : Fresh fmt V S free m f) (hT : T ⊆ S) : Fresh fmt V T free m f :=
  ⟨h.valid,h.not_free,fun u hu => h.unused u (hT hu)⟩

theorem Fresh.notTree (h : Fresh fmt V S free m f) : NotTree fmt S m f :=
  ⟨fun hf => h.unused (.dir f) hf rfl,fun d hd i => h.unused (.table d i) hd⟩

theorem Fresh.give (h : Fresh fmt V S free m f) (hne : f ≠ g) : Fresh fmt V S (g :: free) m f :=
  ⟨h.valid,by simp [hne,h.not_free],h.unused⟩

/-- A cleared fresh frame can become the directory of a new, empty tree. -/
theorem Owned.insertDir (h : Owned fmt V S free m) (hf : Fresh fmt V S free m d)
    (hz : m d = fun _ => 0#8) : Owned fmt V (insert d S) free m := by
  have htab : ∀ i, fmt.table m d i = none := by
    intro i
    rw [Format.table,hz,readWord_zero,fmt.link_zero]
  have hroot : ∀ u : Use F, u.root ∈ insert d S → ∀ g, u.frame fmt m = some g →
      u.root ∈ S ∨ u = .dir d := by
    intro u hu g hg
    rcases hu with hu | hu
    · right
      cases u with
      | dir d' => exact congrArg Use.dir hu
      | table d' i =>
        obtain rfl : d' = d := hu
        simp only [Use.frame,htab] at hg
        cases hg
      | leaf d' k =>
        obtain rfl : d' = d := hu
        simp only [Use.frame,entry_of_no_table (htab k.1),fmt.link_zero] at hg
        split at hg <;> cases hg
    · exact Or.inl hu
  refine ⟨fun u v g hu hv hug hvg => ?_,fun u g hu hug => ?_,fun u g hu hug => ?_,
    h.free_nodup,h.free_valid⟩
  · rcases hroot u hu g hug with hu | rfl
    · rcases hroot v hv g hvg with hv | rfl
      · exact h.inj u v g hu hv hug hvg
      · cases hvg
        exact (hf.unused u hu hug).elim
    · cases hug
      rcases hroot v hv d hvg with hv | rfl
      · exact (hf.unused v hv hvg).elim
      · rfl
  · rcases hroot u hu g hug with hu | rfl
    · exact h.not_free u g hu hug
    · cases hug
      exact hf.not_free
  · rcases hroot u hu g hug with hu | rfl
    · exact h.valid u g hu hug
    · cases hug
      exact hf.valid

theorem Owned.free_notTree (h : Owned fmt V S free m) (hf : f ∈ free) : NotTree fmt S m f :=
  ⟨fun hS => h.not_free (.dir f) f hS rfl hf,
    fun d hd i ht => h.not_free (.table d i) f hd ht hf⟩

theorem Owned.leaf_notTree (h : Owned fmt V S free m) (hd : d ∈ S) (ho : fmt.own k)
    (hf : fmt.link (fmt.entry m d k) = some f) : NotTree fmt S m f := by
  have hu : (Use.leaf d k).frame fmt m = some f := by simp only [Use.frame,ho,if_true,hf]
  refine ⟨fun hS => ?_,fun d' hd' i ht => ?_⟩
  · cases h.inj (.leaf d k) (.dir f) f hd hS hu rfl
  · cases h.inj (.leaf d k) (.table d' i) f hd hd' hu ht

end Basic

section Write
variable [DecidableEq F] {fmt : Format F} {V S : Set F} {free : List F} {m : F → Page} {d t f : F}
  {i : Fin 1024} {k : Index} {w : Word}

theorem table_write (hf : NotTree fmt S m f) (hd : d ∈ S) (pg : Page) :
    fmt.table (update m f pg) d i = fmt.table m d i := by
  have hne : d ≠ f := fun h => hf.1 (h ▸ hd)
  simp only [Format.table,update_of_ne hne]

theorem entry_write (hf : NotTree fmt S m f) (hd : d ∈ S) (pg : Page) :
    fmt.entry (update m f pg) d k = fmt.entry m d k := by
  simp only [Format.entry,table_write hf hd]
  cases h : fmt.table m d k.1 with
  | none => rfl
  | some t =>
    have hne : t ≠ f := fun he => hf.2 d hd k.1 (he ▸ h)
    simp only [update_of_ne hne]

theorem frame_write (hf : NotTree fmt S m f) (pg : Page) (u : Use F) (hu : u.root ∈ S) :
    u.frame fmt (update m f pg) = u.frame fmt m := by
  cases u with
  | dir d => rfl
  | table d i => exact table_write hf hu pg
  | leaf d k => simp only [Use.frame,entry_write hf (show d ∈ S from hu) pg]

theorem Keeps.write (hf : NotTree fmt S m f) (pg : Page) {A : Set (F × Index)}
    (hA : ∀ d ∈ S, ∀ k, fmt.own k → fmt.link (fmt.entry m d k) = some f → (d,k) ∈ A) :
    Keeps fmt S A m (update m f pg) := by
  refine ⟨fun d hd i t ht => ?_,fun d hd k _ => entry_write hf hd pg,fun d hd k hk ho g hg => ?_⟩
  · rw [table_write hf hd]
    exact ht
  · refine update_of_ne ?_ _ _
    rintro rfl
    exact hk (hA d hd k ho hg)

theorem Fresh.keeps_write (h : Fresh fmt V S free m f) (pg : Page) (A : Set (F × Index)) :
    Keeps fmt S A m (update m f pg) := by
  refine Keeps.write h.notTree pg fun d hd k ho hk => ?_
  exact (h.unused (.leaf d k) hd (by simp only [Use.frame,ho,if_true,hk])).elim

end Write

section SetEntry
variable [DecidableEq F] {fmt : Format F} {V S : Set F} {free : List F} {m : F → Page} {d d' t f : F}
  {i : Fin 1024} {k k' : Index} {w : Word}

theorem setEntry_eq (ht : fmt.table m d k.1 = some t) :
    fmt.setEntry m d k w = update m t (writeWord (m t) k.2 w) := by
  simp only [Format.setEntry,ht]

omit [DecidableEq F] in
theorem Owned.dir_ne_table (h : Owned fmt V S free m) (hd : d ∈ S) (hd' : d' ∈ S)
    (ht : fmt.table m d i = some t) : d' ≠ t := by
  rintro rfl
  cases h.inj (.table d i) (.dir d') d' hd hd' ht rfl

section
variable (h : Owned fmt V S free m) (hd : d ∈ S)
include h hd

theorem Owned.table_setEntry (hd' : d' ∈ S) : fmt.table (fmt.setEntry m d k w) d' i = fmt.table m d' i := by
  cases ht : fmt.table m d k.1 with
  | none => simp only [Format.setEntry,ht]
  | some t =>
    rw [setEntry_eq ht]
    simp only [Format.table,update_of_ne (h.dir_ne_table hd hd' ht)]

theorem Owned.entry_setEntry_same
    (ht : fmt.table m d k.1 = some t) : fmt.entry (fmt.setEntry m d k w) d k = w := by
  have ht' : fmt.table (fmt.setEntry m d k w) d k.1 = some t := by rw [h.table_setEntry hd hd,ht]
  rw [entry_of_table ht',setEntry_eq ht,update_self,readWord_writeWord_same]

theorem Owned.entry_setEntry_of_ne (hd' : d' ∈ S)
    (hne : (d',k') ≠ (d,k)) : fmt.entry (fmt.setEntry m d k w) d' k' = fmt.entry m d' k' := by
  cases ht : fmt.table m d k.1 with
  | none => simp only [Format.setEntry,ht]
  | some t =>
    cases ht' : fmt.table m d' k'.1 with
    | none => rw [entry_of_no_table ht',entry_of_no_table (by rw [h.table_setEntry hd hd',ht'])]
    | some t' =>
      have hs : fmt.table (fmt.setEntry m d k w) d' k'.1 = some t' := by
        rw [h.table_setEntry hd hd',ht']
      rw [entry_of_table ht',entry_of_table hs,setEntry_eq ht]
      by_cases htt : t' = t
      · subst htt
        obtain ⟨rfl,hi⟩ : d' = d ∧ k'.1 = k.1 := by
          have hu := h.inj (.table d' k'.1) (.table d k.1) t' hd' hd ht' ht
          simpa using hu
        have hj : k'.2 ≠ k.2 := fun hj => hne (by rw [Prod.ext hi hj])
        rw [update_self,readWord_writeWord_of_ne _ hj]
      · rw [update_of_ne htt]

theorem Owned.frame_setEntry_of_ne {u : Use F} (hu : u.root ∈ S) (hne : u ≠ .leaf d k) :
    u.frame fmt (fmt.setEntry m d k w) = u.frame fmt m := by
  cases u with
  | dir d' => rfl
  | table d' i => exact h.table_setEntry hd hu
  | leaf d' k' =>
    have hk : (d',k') ≠ (d,k) := fun he => hne (by cases he; rfl)
    simp only [Use.frame,h.entry_setEntry_of_ne hd (show d' ∈ S from hu) hk]

theorem Owned.keeps_setEntry : Keeps fmt S {(d,k)} m (fmt.setEntry m d k w) := by
  refine ⟨fun d' hd' i t' ht' => ?_,fun d' hd' k' hk' => h.entry_setEntry_of_ne hd hd' hk',
    fun d' hd' k' _ ho f hf => ?_⟩
  · rw [h.table_setEntry hd hd',ht']
  · cases ht : fmt.table m d k.1 with
    | none => simp only [Format.setEntry,ht]
    | some t =>
      rw [setEntry_eq ht]
      refine update_of_ne ?_ _ _
      rintro rfl
      exact (h.leaf_notTree hd' ho hf).2 d hd k.1 ht

/-- An entry may be rewritten to link to no frame, to its old frame or to a fresh one. -/
theorem Owned.setEntry (ht : fmt.table m d k.1 = some t) (hw : fmt.own k → ∀ f, fmt.link w = some f →
      fmt.link (fmt.entry m d k) = some f ∨ Fresh fmt V S free m f) :
    Owned fmt V S free (fmt.setEntry m d k w) := by
  have hother : ∀ u : Use F, u.root ∈ S → u ≠ .leaf d k →
      u.frame fmt (fmt.setEntry m d k w) = u.frame fmt m :=
    fun u hu hne => h.frame_setEntry_of_ne hd hu hne
  have hself : ∀ f, (Use.leaf d k).frame fmt (fmt.setEntry m d k w) = some f →
      (Use.leaf d k).frame fmt m = some f ∨ Fresh fmt V S free m f := by
    intro f hf
    simp only [Use.frame,h.entry_setEntry_same hd ht] at hf ⊢
    by_cases ho : fmt.own k
    · rw [if_pos ho] at hf ⊢
      exact hw ho f hf
    · rw [if_neg ho] at hf
      cases hf
  refine ⟨fun u v f hu hv huf hvf => ?_,fun u f hu huf => ?_,fun u f hu huf => ?_,
    h.free_nodup,h.free_valid⟩
  · by_cases hul : u = .leaf d k
    · by_cases hvl : v = .leaf d k
      · rw [hul,hvl]
      · rw [hother v hv hvl] at hvf
        subst hul
        rcases hself f huf with hold | hfresh
        · exact h.inj _ v f hu hv hold hvf
        · exact (hfresh.unused v hv hvf).elim
    · rw [hother u hu hul] at huf
      by_cases hvl : v = .leaf d k
      · subst hvl
        rcases hself f hvf with hold | hfresh
        · exact h.inj u _ f hu hv huf hold
        · exact (hfresh.unused u hu huf).elim
      · rw [hother v hv hvl] at hvf
        exact h.inj u v f hu hv huf hvf
  · by_cases hul : u = .leaf d k
    · subst hul
      rcases hself f huf with hold | hfresh
      · exact h.not_free _ f hu hold
      · exact hfresh.not_free
    · rw [hother u hu hul] at huf
      exact h.not_free u f hu huf
  · by_cases hul : u = .leaf d k
    · subst hul
      rcases hself f huf with hold | hfresh
      · exact h.valid _ f hu hold
      · exact hfresh.valid
    · rw [hother u hu hul] at huf
      exact h.valid u f hu huf

end

theorem Fresh.setEntry (hf : Fresh fmt V S free m f) (h : Owned fmt V S free m) (hd : d ∈ S)
    (ht : fmt.table m d k.1 = some t) (hw : fmt.own k → fmt.link w ≠ some f) :
    Fresh fmt V S free (fmt.setEntry m d k w) f := by
  refine ⟨hf.valid,hf.not_free,fun u hu => ?_⟩
  by_cases hul : u = .leaf d k
  · subst hul
    simp only [Use.frame,h.entry_setEntry_same hd ht]
    by_cases ho : fmt.own k
    · rw [if_pos ho]
      exact hw ho
    · rw [if_neg ho]
      simp
  · rw [h.frame_setEntry_of_ne hd hu hul]
    exact hf.unused u hu

/-- The frame that an entry linked to is fresh once the entry links elsewhere. -/
theorem Owned.fresh_released (h : Owned fmt V S free m) (hd : d ∈ S) (ht : fmt.table m d k.1 = some t)
    (ho : fmt.own k) (hf : fmt.link (fmt.entry m d k) = some f) (hw : fmt.link w ≠ some f) :
    Fresh fmt V S free (fmt.setEntry m d k w) f := by
  have hu : (Use.leaf d k).frame fmt m = some f := by simp only [Use.frame,ho,if_true,hf]
  refine ⟨h.valid (.leaf d k) f hd hu,h.not_free (.leaf d k) f hd hu,fun v hv hvf => ?_⟩
  by_cases hvl : v = .leaf d k
  · subst hvl
    simp only [Use.frame,ho,if_true,h.entry_setEntry_same hd ht] at hvf
    exact hw hvf
  · rw [h.frame_setEntry_of_ne hd hv hvl] at hvf
    exact hvl (h.inj v _ f hv hd hvf hu)

end SetEntry

section LinkTable
variable [DecidableEq F] {fmt : Format F} {V S : Set F} {free : List F} {m : F → Page} {d d' t f : F}
  {i i' : Fin 1024} {k : Index} {w : Word}

theorem linkTable_dir (ht : Fresh fmt V S free m t) (hd : d ∈ S) :
    linkTable m d i t w d = writeWord (m d) i w := by
  have hne : d ≠ t := fun h => ht.notTree.1 (h ▸ hd)
  simp only [linkTable,update_self,update_of_ne hne]

theorem linkTable_of_ne (hd : f ≠ d) (ht : f ≠ t) : linkTable m d i t w f = m f := by
  simp only [linkTable,update_of_ne hd,update_of_ne ht]

theorem linkTable_table (ht : Fresh fmt V S free m t) (hd : d ∈ S) :
    linkTable m d i t w t = fun _ => 0#8 := by
  have hne : t ≠ d := fun h => ht.notTree.1 (h ▸ hd)
  simp only [linkTable,update_of_ne hne,update_self]

theorem table_linkTable_same (ht : Fresh fmt V S free m t) (hd : d ∈ S) (hw : fmt.link w = some t) :
    fmt.table (linkTable m d i t w) d i = some t := by
  rw [Format.table,linkTable_dir ht hd,readWord_writeWord_same,hw]

theorem table_linkTable_of_ne (ht : Fresh fmt V S free m t) (hd : d ∈ S) (hd' : d' ∈ S)
    (hne : (d',i') ≠ (d,i)) : fmt.table (linkTable m d i t w) d' i' = fmt.table m d' i' := by
  by_cases hdd : d' = d
  · subst hdd
    have hi : i' ≠ i := fun hi => hne (by rw [hi])
    simp only [Format.table,linkTable_dir ht hd,readWord_writeWord_of_ne _ hi]
  · have hdt : d' ≠ t := fun h => ht.notTree.1 (h ▸ hd')
    simp only [Format.table,linkTable_of_ne hdd hdt]

section
variable (h : Owned fmt V S free m) (ht : Fresh fmt V S free m t) (hd : d ∈ S)
include h ht hd

/-- A new table is empty, so no entry changes. -/
theorem Owned.entry_linkTable (hd' : d' ∈ S) (hnone : fmt.table m d i = none) (hw : fmt.link w = some t) :
    fmt.entry (linkTable m d i t w) d' k = fmt.entry m d' k := by
  by_cases hk : (d',k.1) = (d,i)
  · obtain ⟨rfl,rfl⟩ : d' = d ∧ k.1 = i := by simpa using hk
    rw [entry_of_no_table hnone,entry_of_table (table_linkTable_same ht hd hw),linkTable_table ht hd,
      readWord_zero]
  · have htab : fmt.table (linkTable m d i t w) d' k.1 = fmt.table m d' k.1 :=
      table_linkTable_of_ne ht hd hd' hk
    cases ht' : fmt.table m d' k.1 with
    | none => rw [entry_of_no_table ht',entry_of_no_table (htab.trans ht')]
    | some t' =>
      have hd1 : t' ≠ d := (h.dir_ne_table hd' hd ht').symm
      have ht1 : t' ≠ t := fun he => ht.notTree.2 d' hd' k.1 (he ▸ ht')
      rw [entry_of_table ht',entry_of_table (htab.trans ht'),linkTable_of_ne hd1 ht1]

theorem Owned.keeps_linkTable
    (hnone : fmt.table m d i = none) (hw : fmt.link w = some t) (A : Set (F × Index)) :
    Keeps fmt S A m (linkTable m d i t w) := by
  refine ⟨fun d' hd' i' t' ht' => ?_,fun d' hd' k _ => h.entry_linkTable ht hd hd' hnone hw,
    fun d' hd' k _ ho f hf => ?_⟩
  · rw [table_linkTable_of_ne ht hd hd' ?_,ht']
    rintro he
    cases he
    rw [hnone] at ht'
    cases ht'
  · have hu : (Use.leaf d' k).frame fmt m = some f := by simp only [Use.frame,ho,if_true,hf]
    refine linkTable_of_ne ?_ ?_
    · rintro rfl
      exact (h.leaf_notTree hd' ho hf).1 hd
    · rintro rfl
      exact ht.unused (.leaf d' k) hd' hu

theorem Owned.addTable (hnone : fmt.table m d i = none) (hw : fmt.link w = some t) :
    Owned fmt V S free (linkTable m d i t w) := by
  have hother : ∀ u : Use F, u.root ∈ S → u ≠ .table d i →
      u.frame fmt (linkTable m d i t w) = u.frame fmt m := by
    intro u hu hne
    cases u with
    | dir d' => rfl
    | table d' i' => exact table_linkTable_of_ne ht hd hu fun he => hne (by cases he; rfl)
    | leaf d' k => simp only [Use.frame,h.entry_linkTable ht hd (show d' ∈ S from hu) hnone hw]
  have hself : (Use.table d i).frame fmt (linkTable m d i t w) = some t :=
    table_linkTable_same ht hd hw
  refine ⟨fun u v f hu hv huf hvf => ?_,fun u f hu huf => ?_,fun u f hu huf => ?_,
    h.free_nodup,h.free_valid⟩
  · by_cases hut : u = .table d i
    · by_cases hvt : v = .table d i
      · rw [hut,hvt]
      · rw [hut,hself] at huf
        rw [hother v hv hvt,← huf] at hvf
        exact (ht.unused v hv hvf).elim
    · rw [hother u hu hut] at huf
      by_cases hvt : v = .table d i
      · rw [hvt,hself] at hvf
        rw [← hvf] at huf
        exact (ht.unused u hu huf).elim
      · rw [hother v hv hvt] at hvf
        exact h.inj u v f hu hv huf hvf
  · by_cases hut : u = .table d i
    · rw [hut,hself] at huf
      cases huf
      exact ht.not_free
    · rw [hother u hu hut] at huf
      exact h.not_free u f hu huf
  · by_cases hut : u = .table d i
    · rw [hut,hself] at huf
      cases huf
      exact ht.valid
    · rw [hother u hu hut] at huf
      exact h.valid u f hu huf

end

theorem Fresh.addTable (hf : Fresh fmt V S free m f) (h : Owned fmt V S free m)
    (ht : Fresh fmt V S free m t) (hd : d ∈ S) (hnone : fmt.table m d i = none)
    (hw : fmt.link w = some t) (hne : f ≠ t) : Fresh fmt V S free (linkTable m d i t w) f := by
  refine ⟨hf.valid,hf.not_free,fun u hu huf => ?_⟩
  cases u with
  | dir d' => exact hf.unused (.dir d') hu huf
  | table d' i' =>
    by_cases he : (d',i') = (d,i)
    · cases he
      have hs : fmt.table (linkTable m d i t w) d i = some t := table_linkTable_same ht hd hw
      exact hne (Option.some.inj (huf.symm.trans hs))
    · exact hf.unused (.table d' i') hu ((table_linkTable_of_ne ht hd hu he).symm.trans huf)
  | leaf d' k =>
    refine hf.unused (.leaf d' k) hu ?_
    simpa only [Use.frame,h.entry_linkTable ht hd (show d' ∈ S from hu) hnone hw] using huf

end LinkTable

end Xv6Paging.PageTree
