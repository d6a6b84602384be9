import Xv6Paging.Kernel.Fork
import Xv6Paging.Paging.Consistency

/-! # Copying the swap file

`writei` does not write behind the end of a file, so the copy into the child's empty file
reaches a slot only if all slots before it are occupied. A process can free a slot
with occupied ones behind it, and then its fork panics.
-/
namespace Xv6Paging
open WordPage

section Copy
variable {fromP toP : Proc} {f g : Inode} {m : ℕ}

def copiedFile (f g : Inode) : ℕ → Inode
  | 0 => g
  | m+1 => (copiedFile f g m).putPage (Fin.ofNat 16 m) (f.slotPage m)

theorem copiedFile_size (hg : g.size = 0) (hm : m ≤ 16) : (copiedFile f g m).size = m*pgSize := by
  induction m with
  | zero => rw [Nat.zero_mul]; exact hg
  | succ m ih =>
    have hval : (Fin.ofNat 16 m).val = m := Nat.mod_eq_of_lt (by omega)
    rw [copiedFile,Inode.putPage_size,ih (by omega),hval]
    exact max_eq_right (Nat.mul_le_mul_right _ (Nat.le_succ m))

theorem copiedFile_slotPage (hm : m ≤ 16) {i : Slot} (hi : i.val < m) :
    (copiedFile f g m).slotPage i.val = f.slotPage i.val := by
  induction m with
  | zero => omega
  | succ m ih =>
    have hval : (Fin.ofNat 16 m).val = m := Nat.mod_eq_of_lt (by omega)
    rw [copiedFile]
    by_cases him : i.val = m
    · have hslot : Fin.ofNat 16 m = i := Fin.ext (hval.trans him.symm)
      rw [hslot,Inode.slotPage_putPage_same,him]
    · have hne : i ≠ Fin.ofNat 16 m := fun he => him (congrArg Fin.val he |>.trans hval)
      rw [Inode.slotPage_putPage_of_ne _ hne,ih (by omega) (by omega)]

theorem filewrite_behind {ip : Inode} {off n : ℕ} {src : ℕ → Byte} (h : ip.size < off) (hn : 0 < n) :
    filewrite ip off src n = .ok (-1,ip) := by
  have hw : ∀ src' k, writei ip src' off k = (-1,ip) := fun src' k => if_pos (Or.inl h)
  rw [filewrite,filewriteLoop,if_pos hn]
  dsimp only
  rw [hw]
  rfl

theorem copySwapSlot_free {i : Slot} (hi : fromP.pages.diskVa i = none) (x : Page × Proc) :
    copySwapSlot fromP x i = .ok x := if_neg (not_not.mpr hi)

theorem copySwapSlots_free {l : List Slot} (hl : ∀ i ∈ l, fromP.pages.diskVa i = none) (x : Page × Proc) :
    l.foldlM (copySwapSlot fromP) x = .ok x := by
  induction l with
  | nil => rfl
  | cons i l ih =>
    rw [List.foldlM_cons,copySwapSlot_free (hl i List.mem_cons_self)]
    exact ih fun j hj => hl j (List.mem_cons_of_mem i hj)

variable (hf : fromP.swapFile = some f) (hpages : ∀ i, fromP.pages.diskVa i ≠ none → (i.val+1)*pgSize ≤ f.size)
include hf hpages

theorem copySwapSlot_eq {i : Slot} (hi : fromP.pages.diskVa i ≠ none) {x : Page × Proc} {ip : Inode}
    (hx : x.2.swapFile = some ip) (hsize : i.val*pgSize ≤ ip.size) : copySwapSlot fromP x i =
      .ok (f.slotPage i.val,{x.2 with swapFile := some (ip.putPage i (f.slotPage i.val))}) := by
  rw [copySwapSlot,if_pos hi,readFromSwapFile_eq hf (hpages i hi)]
  dsimp only [bind,Except.bind]
  rw [if_neg (not_not.mpr rfl),writeToSwapFile_eq hx hsize]
  rfl

theorem copySwapSlot_panics {i : Slot} (hi : fromP.pages.diskVa i ≠ none) {x : Page × Proc} {ip : Inode}
    (hx : x.2.swapFile = some ip) (hsize : ip.size < i.val*pgSize) :
    copySwapSlot fromP x i = .error (.panic "CopySwapFile error") := by
  have hw : ∀ pg, writeToSwapFile x.2 pg (i.val*pgSize) pgSize = .ok (-1,{x.2 with swapFile := some ip}) := by
    intro pg
    simp only [writeToSwapFile,hx,filewrite_behind hsize (show 0 < pgSize by decide)]
    rfl
  rw [copySwapSlot,if_pos hi,readFromSwapFile_eq hf (hpages i hi)]
  dsimp only [bind,Except.bind]
  rw [if_neg (not_not.mpr rfl),hw]
  rfl

theorem copySwapSlots_front (hg : toP.swapFile = some g) (hsize : g.size = 0) (buff : Page) (hm : m ≤ 16)
    (hocc : ∀ i : Slot, i.val < m → fromP.pages.diskVa i ≠ none) : ∃ b,
      ((List.finRange 16).take m).foldlM (copySwapSlot fromP) (buff,toP) =
        .ok (b,{toP with swapFile := some (copiedFile f g m)}) := by
  induction m with
  | zero =>
    refine ⟨buff,?_⟩
    rw [copiedFile,← hg]
    rfl
  | succ m ih =>
    obtain ⟨b,hb⟩ := ih (by omega) fun i hi => hocc i (by omega)
    have hval : (Fin.ofNat 16 m).val = m := Nat.mod_eq_of_lt (by omega)
    have hlen : m < (List.finRange 16).length := by rw [List.length_finRange]; omega
    have hget : (List.finRange 16)[m] = Fin.ofNat 16 m := by
      rw [List.getElem_finRange]
      exact Fin.ext hval.symm
    have hreach : (Fin.ofNat 16 m).val*pgSize ≤ (copiedFile f g m).size := by
      rw [copiedFile_size hsize (by omega),hval]
    refine ⟨f.slotPage m,?_⟩
    rw [List.take_succ_eq_append_getElem hlen,List.foldlM_append,hb,hget]
    dsimp only [bind,Except.bind]
    rw [List.foldlM_cons,copySwapSlot_eq hf hpages (hocc _ (by omega)) rfl hreach,hval]
    rfl

theorem copySwapSlots_panics {l : List Slot} (hge : ∀ i ∈ l, m ≤ i.val)
    (hfree : ∀ i : Slot, i.val = m → fromP.pages.diskVa i = none) (hex : ∃ i ∈ l, fromP.pages.diskVa i ≠ none)
    {x : Page × Proc} {ip : Inode} (hx : x.2.swapFile = some ip) (hsize : ip.size = m*pgSize) :
    l.foldlM (copySwapSlot fromP) x = .error (.panic "CopySwapFile error") := by
  induction l with
  | nil =>
    obtain ⟨i,hi,-⟩ := hex
    exact absurd hi List.not_mem_nil
  | cons i l ih =>
    rw [List.foldlM_cons]
    by_cases hi : fromP.pages.diskVa i = none
    · obtain ⟨j,hj,hocc⟩ := hex
      have hjl : j ∈ l := (List.mem_cons.mp hj).resolve_left fun he => hocc (he ▸ hi)
      rw [copySwapSlot_free hi]
      exact ih (fun k hk => hge k (List.mem_cons_of_mem i hk)) ⟨j,hjl,hocc⟩
    · have hlt : m < i.val := lt_of_le_of_ne (hge i List.mem_cons_self) fun he => hi (hfree i he.symm)
      have hbehind : ip.size < i.val*pgSize := by
        rw [hsize]
        exact Nat.mul_lt_mul_of_pos_right hlt (by decide)
      rw [copySwapSlot_panics hf hpages hi hx hbehind]
      rfl

theorem copySwapFile_drop (hpid : 3 ≤ fromP.pid) (hg : toP.swapFile = some g) (hsize : g.size = 0) (buff : Page)
    (hm : m ≤ 16) (hocc : ∀ i : Slot, i.val < m → fromP.pages.diskVa i ≠ none) :
    ∃ b, copySwapFile fromP toP buff = (((List.finRange 16).drop m).foldlM (copySwapSlot fromP)
      (b,{toP with swapFile := some (copiedFile f g m)})).map Prod.snd := by
  obtain ⟨b,hfront⟩ := copySwapSlots_front hf hpages hg hsize buff hm hocc
  refine ⟨b,?_⟩
  rw [copySwapFile,if_neg (not_lt.mpr hpid)]
  nth_rewrite 1 [← List.take_append_drop m (List.finRange 16)]
  rw [List.foldlM_append,hfront]
  dsimp only [bind,Except.bind]
  generalize List.foldlM (copySwapSlot fromP) _ _ = r
  cases r with
  | error e => rfl
  | ok x => rfl

omit hf hpages in
theorem le_of_mem_drop {i : Slot} (hi : i ∈ (List.finRange 16).drop m) : m ≤ i.val := by
  obtain ⟨k,hk,rfl⟩ := List.mem_iff_getElem.mp hi
  rw [List.getElem_drop,List.getElem_finRange]
  exact Nat.le_add_right m k

omit hf hpages in
theorem mem_drop_of_le {i : Slot} (hi : m ≤ i.val) : i ∈ (List.finRange 16).drop m := by
  refine List.mem_iff_getElem.mpr ⟨i.val-m,?_,?_⟩
  · rw [List.length_drop,List.length_finRange]
    have := i.isLt
    omega
  · rw [List.getElem_drop,List.getElem_finRange]
    exact Fin.ext (Nat.add_sub_cancel' hi)

omit hf hpages in
theorem exists_occupiedFront (p : Proc) : ∃ m ≤ 16, (∀ i : Slot, i.val < m → p.pages.diskVa i ≠ none) ∧
    ∀ i : Slot, i.val = m → p.pages.diskVa i = none := by
  by_cases hall : ∃ i, p.pages.diskVa i = none
  · have hex : ∃ m, ∃ i : Slot, i.val = m ∧ p.pages.diskVa i = none := by
      obtain ⟨i,hi⟩ := hall
      exact ⟨i.val,i,rfl,hi⟩
    obtain ⟨i,him,hi⟩ := Nat.find_spec hex
    refine ⟨Nat.find hex,him ▸ i.isLt.le,fun j hj hn => Nat.find_min hex hj ⟨j,rfl,hn⟩,fun j hj => ?_⟩
    rw [Fin.ext (hj.trans him.symm)]
    exact hi
  · push Not at hall
    exact ⟨16,le_rfl,fun i _ => hall i,fun i hi => absurd i.isLt hi.not_lt⟩

/-- Every occupied slot of the parent is read back from the child's file. -/
def CopiesSlots (fromP toP : Proc) (f : Inode) : Prop :=
  ∀ i : Slot, fromP.pages.diskVa i ≠ none → ∀ b, readFromSwapFile toP b (i.val*pgSize) pgSize =
    .ok ((pgSize : ℤ),f.slotPage i.val)

theorem copySwapFile_panics (hpid : 3 ≤ fromP.pid) (hg : toP.swapFile = some g) (hsize : g.size = 0) (buff : Page)
    {i j : Slot} (hi : fromP.pages.diskVa i ≠ none) (hji : j < i) (hj : fromP.pages.diskVa j = none) :
    copySwapFile fromP toP buff = .error (.panic "CopySwapFile error") := by
  obtain ⟨m,hm,hocc,hfree⟩ := exists_occupiedFront fromP
  have hmj : m ≤ j.val := not_lt.mp fun h => hocc j h hj
  have hcopied : (copiedFile f g m).size = m*pgSize := copiedFile_size hsize hm
  obtain ⟨b,hrun⟩ := copySwapFile_drop hf hpages hpid hg hsize buff hm hocc
  rw [hrun,copySwapSlots_panics hf hpages (fun k hk => le_of_mem_drop hk) hfree
    ⟨i,mem_drop_of_le (hmj.trans hji.le),hi⟩ rfl hcopied]
  rfl

/-- The copy into an empty file succeeds exactly if no occupied slot has a free slot before it. -/
theorem copySwapFile_copies_iff (hpid : 3 ≤ fromP.pid) (hg : toP.swapFile = some g) (hsize : g.size = 0)
    (buff : Page) :
    (∃ toP', copySwapFile fromP toP buff = .ok toP' ∧ CopiesSlots fromP toP' f) ↔
      ∀ i j, fromP.pages.diskVa i ≠ none → j < i → fromP.pages.diskVa j ≠ none := by
  constructor
  · rintro ⟨toP',hr,-⟩ i j hi hji hj
    rw [copySwapFile_panics hf hpages hpid hg hsize buff hi hji hj] at hr
    cases hr
  · intro hseg
    obtain ⟨m,hm,hocc,hfree⟩ := exists_occupiedFront fromP
    obtain ⟨b,hrun⟩ := copySwapFile_drop hf hpages hpid hg hsize buff hm hocc
    have hcopied : (copiedFile f g m).size = m*pgSize := copiedFile_size hsize hm
    have hrest : ∀ i ∈ (List.finRange 16).drop m, fromP.pages.diskVa i = none := by
      intro i hi
      by_contra hne
      have hmi := le_of_mem_drop hi
      have hlt : m < 16 := hmi.trans_lt i.isLt
      rcases Nat.lt_or_eq_of_le hmi with hlt' | heq
      · exact hseg i ⟨m,hlt⟩ hne hlt' (hfree ⟨m,hlt⟩ rfl)
      · exact hne (hfree i heq.symm)
    refine ⟨_,by rw [hrun,copySwapSlots_free hrest]; rfl,fun i hi b => ?_⟩
    have him : i.val < m := by
      by_contra hge
      exact hi (hrest i (mem_drop_of_le (not_lt.mp hge)))
    have hin : (i.val+1)*pgSize ≤ (copiedFile f g m).size := by
      rw [hcopied]
      exact Nat.mul_le_mul_right _ him
    rw [readFromSwapFile_eq rfl hin,copiedFile_slotPage hm him]

end Copy

def freshChild : Proc :=
  {sz := 0, pgdir := 0x300, pid := 5, parentPid := 4, killed := false, swapFile := some ⟨0,fun _ => 0⟩
   pages := ProcPages.init .lapa, eip := 0, esp := 0}

def twoSlotParent : Proc :=
  {freshChild with
    pid := 4
    swapFile := some ⟨2*pgSize,fun o => BitVec.ofNat 8 o⟩
    pages := {ProcPages.init .lapa with diskVa := fun i => if i.val < 2 then some (i.val*pgSize) else none}}

theorem copySwapFile_copies_twoSlots : ∃ toP', copySwapFile twoSlotParent freshChild (fun _ => 0) = .ok toP' ∧
    CopiesSlots twoSlotParent toP' ⟨2*pgSize,fun o => BitVec.ofNat 8 o⟩ := by
  have hocc : ∀ i : Slot, twoSlotParent.pages.diskVa i ≠ none → i.val < 2 := by decide
  refine (copySwapFile_copies_iff (f := ⟨2*pgSize,fun o => BitVec.ofNat 8 o⟩) (g := ⟨0,fun _ => 0⟩) rfl (fun i hi => ?_)
    (by decide) rfl rfl _).mpr (by decide)
  exact Nat.mul_le_mul_right _ (hocc i hi)

def sixteenPages (b : Build) (age : Slot → Word) : ProcPages :=
  {ProcPages.init b with
    va := fun i => some (i.val*pgSize)
    age := age
    pagesInMemoryCounter := 16}

def beforeGrowth : Kernel :=
  .wired 16 (fun _ => pteW ||| pteU) [0x220,0x221] (sixteenPages .lapa fun i => if i = 15 then 0 else 0xffffffff)

/-- Page 15 goes to slot 0 and page 0 to slot 1 when the process grows by two pages. When it shrinks below
page 15 the slot 0 becomes free, and a fork panics. -/
theorem copySwapFile_panics_afterShrink : ∃ s₁ s₂ f, growproc (sampleConfig .lapa) 8192 beforeGrowth = .ok (0,s₁) ∧
    growproc (sampleConfig .lapa) (-12288) s₁ = .ok (0,s₂) ∧
    (∀ i, s₂.proc.pages.diskVa i = if i = 1 then some 0 else none) ∧
    3 ≤ s₂.proc.pid ∧ s₂.proc.swapFile = some f ∧ 2*pgSize ≤ f.size ∧
    copySwapFile s₂.proc freshChild (fun _ => 0) = .error (.panic "CopySwapFile error") := by
  have hrun : (growproc (sampleConfig .lapa) 8192 beforeGrowth >>= fun x =>
      growproc (sampleConfig .lapa) (-12288) x.2 >>= fun y => pure (x,y)).toOption.map (fun z =>
        decide (z.1.1 = 0 ∧ z.2.1 = 0 ∧ (∀ i, z.2.2.proc.pages.diskVa i = if i = 1 then some 0 else none) ∧
          3 ≤ z.2.2.proc.pid ∧ 2*pgSize ≤ (z.2.2.proc.swapFile.map Inode.size).getD 0)) = some true := by decide +kernel
  obtain ⟨z,hz,hf⟩ := exists_eq_ok hrun
  obtain ⟨⟨r₁,s₁⟩,h₁,hz⟩ := bind_eq_ok hz
  obtain ⟨⟨r₂,s₂⟩,h₂,hz⟩ := bind_eq_ok hz
  cases hz
  obtain ⟨hr₁,hr₂,hdisk,hpid,hsize⟩ := of_decide_eq_true hf
  dsimp only at hr₁ hr₂ hdisk hpid hsize h₂
  subst hr₁ hr₂
  obtain ⟨f,hfile⟩ : ∃ f, s₂.proc.swapFile = some f := by
    cases hfile : s₂.proc.swapFile with
    | some f => exact ⟨f,rfl⟩
    | none =>
      rw [hfile] at hsize
      exact absurd hsize (by decide)
  rw [hfile] at hsize
  have hpages : ∀ i, s₂.proc.pages.diskVa i ≠ none → (i.val+1)*pgSize ≤ f.size := by
    intro i hi
    rw [hdisk] at hi
    split at hi
    · next he =>
      subst he
      exact hsize
    · exact absurd rfl hi
  refine ⟨s₁,s₂,f,h₁,h₂,hdisk,hpid,hfile,hsize,?_⟩
  have hone : s₂.proc.pages.diskVa 1 ≠ none := by
    rw [hdisk]
    exact Option.some_ne_none _
  exact copySwapFile_panics hfile hpages hpid (g := ⟨0,fun _ => 0⟩) rfl rfl _ hone (show (0 : Slot) < 1 by decide) (hdisk 0)

end Xv6Paging
