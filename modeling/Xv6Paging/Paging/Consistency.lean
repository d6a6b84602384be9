import Xv6Paging.Paging.Space

/-! # Page arrays that agree with the page table

`Consistent c Y μ α s` is the invariant of a paged process: every page listed in
`memory_pg_arr` is present, every page listed in `disk_pg_arr` is swapped out with its
bytes in the slot of the same index, and the counters count the slots in use. The pages
in `Y` are in transit: present, but not listed at the moment. All paths that move pages
are made of four moves: a resident page loses its slot, a page in transit gets one, a
swapped page is read into a frame, and a page in transit is written to a slot.
-/
namespace Xv6Paging
open WordPage PageTree Function

section SwapFile
variable {ip : Inode} {pg : Page}

def Inode.putPage (ip : Inode) (i : Slot) (pg : Page) : Inode :=
  ip.written (i.val*pgSize) (fun k => pg (Fin.ofNat 4096 k)) pgSize

@[simp] theorem Inode.putPage_size (ip : Inode) (i : Slot) (pg : Page) :
    (ip.putPage i pg).size = max ip.size ((i.val+1)*pgSize) := by
  rw [Nat.add_mul,Nat.one_mul]
  rfl

theorem Inode.slotPage_putPage_same (ip : Inode) (i : Slot) (pg : Page) :
    (ip.putPage i pg).slotPage i.val = pg := by
  funext k
  have hk : i.val*pgSize ≤ i.val*pgSize+k.val ∧ i.val*pgSize+k.val < i.val*pgSize+pgSize :=
    ⟨Nat.le_add_right _ _,Nat.add_lt_add_left k.isLt _⟩
  simp only [Inode.slotPage,Inode.putPage,Inode.written,blit,id_eq,if_pos hk]
  rw [Nat.add_sub_cancel_left]
  exact congrArg pg (Fin.ext (Nat.mod_eq_of_lt k.isLt))

theorem Inode.slotPage_putPage_of_ne (ip : Inode) {i j : Slot} (hne : j ≠ i) (pg : Page) :
    (ip.putPage i pg).slotPage j.val = ip.slotPage j.val := by
  funext k
  have hk : ¬ (i.val*pgSize ≤ j.val*pgSize+k.val ∧ j.val*pgSize+k.val < i.val*pgSize+pgSize) := by
    have hv : j.val ≠ i.val := fun h => hne (Fin.ext h)
    have hl : k.val < 4096 := k.isLt
    simp only [pgSize]
    omega
  simp only [Inode.slotPage,Inode.putPage,Inode.written,blit,id_eq,if_neg hk]

theorem writeToSwapFile_eq {p : Proc} {i : Slot} (hf : p.swapFile = some ip)
    (hi : i.val*pgSize ≤ ip.size) : writeToSwapFile p pg (i.val*pgSize) pgSize =
      .ok ((pgSize : ℤ),{p with swapFile := some (ip.putPage i pg)}) := by
  have hmax : i.val*pgSize+pgSize ≤ maxFile*bSize := by
    have hl := i.isLt
    simp only [pgSize,maxFile,bSize]
    omega
  simp only [writeToSwapFile,hf,filewrite_eq ip pgSize (i.val*pgSize) _ hi hmax]
  rfl

theorem readFromSwapFile_eq {p : Proc} {i : Slot} (hf : p.swapFile = some ip)
    (hi : (i.val+1)*pgSize ≤ ip.size) : readFromSwapFile p pg (i.val*pgSize) pgSize =
      .ok ((pgSize : ℤ),ip.slotPage i.val) := by
  have hsize : i.val*pgSize+pgSize ≤ ip.size := by
    rw [Nat.add_mul,Nat.one_mul] at hi
    exact hi
  have hmax : i.val*pgSize+pgSize < 2^32 := by
    have hl := i.isLt
    simp only [pgSize]
    omega
  have hb : blit Fin.val pg 0 pgSize (fun k => ip.data (i.val*pgSize+k)) = ip.slotPage i.val :=
    blit_page _ _
  simp only [readFromSwapFile,hf,fileread,readi_eq ip pgSize pg (i.val*pgSize) hsize hmax,hb]

end SwapFile

def ProcPages.residents (p : ProcPages) : Set ℕ := {a | ∃ i, p.va i = some a}

def ProcPages.swapped (p : ProcPages) : Set ℕ := {a | ∃ i, p.diskVa i = some a}

structure SwappedOut (w : Word) (file : Option Inode) (i : Slot) (a : ℕ) (pg : Page) : Prop where
  user : UserPage a
  absent : has w pteP = false
  flag : has w ptePG = true
  addr : pteAddr w = 0
  stored : ∃ ip, file = some ip ∧ (i.val+1)*pgSize ≤ ip.size ∧ ip.slotPage i.val = pg

structure Consistent (c : Config) (Y : Set ℕ) (μ : ℕ → Page) (α : ℕ → Bool → Bool) (s : Kernel) :
    Prop where
  space : Space c {s.proc.pgdir} s.proc.pgdir (s.proc.pages.residents ∪ Y) μ α s
  file : s.proc.swapFile ≠ none
  swapped : ∀ i a, s.proc.pages.diskVa i = some a →
    SwappedOut (s.pte s.proc.pgdir (vpn a)) s.proc.swapFile i a (μ a)
  once : ListedOnce s.proc.pages
  transit : ∀ a ∈ Y, a ∉ s.proc.pages.residents ∧ a ∉ s.proc.pages.swapped
  residentCount : s.proc.pages.pagesInMemoryCounter = occupied s.proc.pages.va
  swappedCount : s.proc.pages.pagesInSwapfileCounter = occupied s.proc.pages.diskVa

section Basic
variable {c : Config} {Y : Set ℕ} {μ : ℕ → Page} {α : ℕ → Bool → Bool} {s s' : Kernel} {a b : ℕ}
  {i j : Slot} {ip : Inode} {p : ProcPages} {v : Slot → Option ℕ} {pg : Page} {w : Word}

theorem ne_none_of_lt_firstFree (h : firstFree v = some i) (hj : j < i) : v j ≠ none := by
  rw [firstFree,List.find?_eq_some_iff_getElem] at h
  obtain ⟨-,n,hn,hi,hlt⟩ := h
  have hn' : n = i.val := by
    rw [← hi]
    simp
  have hjn := hlt j.val (hn' ▸ hj)
  simpa [Option.isSome_iff_ne_none] using hjn

theorem SwappedOut.grow (h : SwappedOut w (some ip) i a pg) {ip' : Inode} (hsize : ip.size ≤ ip'.size)
    (hslot : ip'.slotPage i.val = ip.slotPage i.val) : SwappedOut w (some ip') i a pg := by
  obtain ⟨ip₀,he,hs,hp⟩ := h.stored
  cases he
  exact ⟨h.user,h.absent,h.flag,h.addr,ip',rfl,hs.trans hsize,hslot.trans hp⟩

theorem Consistent.not_resident (h : Consistent c Y μ α s) (hj : s.proc.pages.diskVa j = some a) :
    a ∉ s.proc.pages.residents ∪ Y := by
  intro ha
  have h1 := h.space.present a ha
  rw [(h.swapped j a hj).absent] at h1
  cases h1

theorem size_of_firstFree (hi : firstFree v = some i)
    (hv : ∀ j a, v j = some a → ∃ w pg, SwappedOut w (some ip) j a pg) : i.val*pgSize ≤ ip.size := by
  by_cases h0 : i.val = 0
  · simp [h0]
  · have hlt : (⟨i.val-1,by omega⟩ : Slot) < i := by
      rw [Fin.lt_def]
      dsimp only
      omega
    obtain ⟨a,ha⟩ := Option.ne_none_iff_exists'.mp (ne_none_of_lt_firstFree hi hlt)
    obtain ⟨w,pg,hout⟩ := hv _ a ha
    obtain ⟨ip',he,hs,-⟩ := hout.stored
    cases he
    have hv : i.val-1+1 = i.val := by omega
    rwa [hv] at hs

theorem Consistent.room (h : Consistent c Y μ α s) (hf : s.proc.swapFile = some ip)
    (hi : firstFree s.proc.pages.diskVa = some i) : i.val*pgSize ≤ ip.size :=
  size_of_firstFree hi fun j a hj => ⟨_,_,hf ▸ h.swapped j a hj⟩

theorem Consistent.swapped_of_same (h : Consistent c Y μ α s)
    (hs : Same {s.proc.pgdir} {(s.proc.pgdir,vpn a)} s s') (hu : UserPage a)
    (hf : s.proc.swapFile = some ip) {ip' : Inode} (hsize : ip.size ≤ ip'.size)
    (hslot : ip'.slotPage i.val = ip.slotPage i.val) (hi : s.proc.pages.diskVa i = some b)
    (hne : b ≠ a) : SwappedOut (s'.pte s.proc.pgdir (vpn b)) (some ip') i b (μ b) := by
  have hsw := h.swapped i b hi
  rw [hf] at hsw
  rw [hs.pte_of_ne rfl hu hsw.user hne]
  exact hsw.grow hsize hslot

end Basic

section Moves
variable {c : Config} {Y : Set ℕ} {μ : ℕ → Page} {α : ℕ → Bool → Bool} {s : Kernel} {a : ℕ}
  {i : Slot} {ip : Inode} {w : Word} {f : Frame}

theorem residents_vacate {p : ProcPages} (h : ListedOnce p) (hi : p.va i = some a) :
    (p.vacate i).residents = p.residents \ {a} := Set.ext fun _ => exists_update_none h.va hi

theorem Consistent.vacate (h : Consistent c Y μ α s) (hi : s.proc.pages.va i = some a) :
    Consistent c (insert a Y) μ α (s.setPages (s.proc.pages.vacate i)) := by
  have hr := residents_vacate h.once hi
  have hra : a ∈ s.proc.pages.residents := ⟨i,hi⟩
  have hZ : (s.proc.pages.vacate i).residents ∪ insert a Y = s.proc.pages.residents ∪ Y := by
    rw [hr]
    ext b
    by_cases hb : b = a <;> simp [hb,hra]
  refine ⟨?_,h.file,h.swapped,⟨once_update_none h.once.va,h.once.diskVa⟩,?_,?_,h.swappedCount⟩
  · have hs : Space c {s.proc.pgdir} s.proc.pgdir ((s.proc.pages.vacate i).residents ∪ insert a Y)
        μ α s := by
      rw [hZ]
      exact h.space
    exact hs.congr rfl rfl
  · have ht : ∀ b ∈ insert a Y, b ∉ (s.proc.pages.vacate i).residents ∧
        b ∉ s.proc.pages.swapped := by
      rintro b (rfl | hb)
      · refine ⟨by simp [hr],?_⟩
        rintro ⟨j,hj⟩
        exact h.not_resident hj (Or.inl hra)
      · exact ⟨fun hm => (h.transit b hb).1 (hr ▸ hm).1,(h.transit b hb).2⟩
    exact ht
  · have ho := occupied_update_none hi
    have hc := h.residentCount
    change s.proc.pages.pagesInMemoryCounter-1 = _
    simp only [Kernel.setPages,ProcPages.vacate]
    omega

theorem Consistent.list (h : Consistent c Y μ α s) (ha : a ∈ Y) (hi : s.proc.pages.va i = none)
    {p : ProcPages} (hva : p.va = update s.proc.pages.va i (some a))
    (hcount : p.pagesInMemoryCounter = s.proc.pages.pagesInMemoryCounter+1)
    (hdisk : p.diskVa = s.proc.pages.diskVa)
    (hswap : p.pagesInSwapfileCounter = s.proc.pages.pagesInSwapfileCounter) :
    Consistent c (Y \ {a}) μ α (s.setPages p) ∧ p.residents = insert a s.proc.pages.residents := by
  have hr : p.residents = insert a s.proc.pages.residents := by
    rw [ProcPages.residents,hva]
    exact Set.ext fun _ => exists_update_some hi
  have hsw : p.swapped = s.proc.pages.swapped := by simp only [ProcPages.swapped,hdisk]
  have hZ : p.residents ∪ Y \ {a} = s.proc.pages.residents ∪ Y := by
    rw [hr]
    ext b
    by_cases hb : b = a <;> simp [hb,ha]
  refine ⟨⟨?_,h.file,fun j b hj => ?_,⟨?_,fun j k b hj hk => ?_⟩,?_,?_,?_⟩,hr⟩
  · have hs : Space c {s.proc.pgdir} s.proc.pgdir (p.residents ∪ Y \ {a}) μ α s := by
      rw [hZ]
      exact h.space
    exact hs.congr rfl rfl
  · exact h.swapped j b (hdisk ▸ hj)
  · rw [Kernel.setPages,hva]
    exact once_update_some h.once.va fun j hj => (h.transit a ha).1 ⟨j,hj⟩
  · exact h.once.diskVa j k b (hdisk ▸ hj) (hdisk ▸ hk)
  · have ht : ∀ b ∈ Y \ {a}, b ∉ p.residents ∧ b ∉ p.swapped := by
      rintro b ⟨hb,hne⟩
      rw [hr,hsw]
      refine ⟨?_,(h.transit b hb).2⟩
      rintro (rfl | hm)
      · exact hne rfl
      · exact (h.transit b hb).1 hm
    exact ht
  · have hc := h.residentCount
    have ho := occupied_update_some hi a
    change p.pagesInMemoryCounter = (occupied p.va : ℤ)
    rw [hva,hcount,ho]
    omega
  · change p.pagesInSwapfileCounter = (occupied p.diskVa : ℤ)
    rw [hdisk,hswap]
    exact h.swappedCount

theorem has_pagedIn_pteP (w : Word) (f : Frame) : has (pagedIn w f) pteP = true := by
  simp only [pagedIn,has_pteP,BitVec.getLsbD_or,BitVec.getLsbD_and]
  simp [pteP,ptePG]

theorem accessAllowed_pagedIn (w : Word) (f : Frame) (st : Bool) : accessAllowed (pagedIn w f) st = true := by
  simp only [accessAllowed,has_pteP,has_pteU,has_pteW,pagedIn,BitVec.getLsbD_or,BitVec.getLsbD_and]
  simp [pteP,pteW,pteU,ptePG]

theorem pteAddr_pagedIn {w : Word} (h : pteAddr w = 0) (f : Frame) : pteAddr (pagedIn w f) = f := by
  simp [pagedIn,h]

theorem Consistent.pageIn (h : Consistent c Y μ α s) (hi : s.proc.pages.diskVa i = some a)
    (hf : FreshFrame c {s.proc.pgdir} s f) {p : ProcPages}
    (hdisk : p.diskVa = update s.proc.pages.diskVa i none)
    (hswap : p.pagesInSwapfileCounter = s.proc.pages.pagesInSwapfileCounter-1)
    (hva : p.va = s.proc.pages.va)
    (hcount : p.pagesInMemoryCounter = s.proc.pages.pagesInMemoryCounter) :
    Consistent c (insert a Y) μ α (((s.setPte s.proc.pgdir (vpn a)
      (pagedIn (s.pte s.proc.pgdir (vpn a)) f)).store f (μ a)).setPages p) ∧
    p.swapped = s.proc.pages.swapped \ {a} ∧
    Same {s.proc.pgdir} {(s.proc.pgdir,vpn a)} s ((s.setPte s.proc.pgdir (vpn a)
      (pagedIn (s.pte s.proc.pgdir (vpn a)) f)).store f (μ a)) := by
  obtain ⟨hu,habs,hflag,haddr,ip,hip,-,-⟩ := h.swapped i a hi
  obtain ⟨t,ht⟩ := table_of_has hflag
  have hpw := pteAddr_pagedIn haddr f
  have hal : ∀ st, (fun _ : Bool => true) st = true →
      accessAllowed (pagedIn (s.pte s.proc.pgdir (vpn a)) f) st = true :=
    fun st _ => accessAllowed_pagedIn _ f st
  have hmap := h.space.map hu ht hf (has_pagedIn_pteP _ f) hpw hal
  have hpte := h.space.wf.setPte_same rfl ht (w := pagedIn (s.pte s.proc.pgdir (vpn a)) f)
  obtain ⟨hst,hs2,-⟩ := hmap.store (Set.mem_insert a _) (μ a)
  rw [hpte,hpw] at hst hs2
  have hsame : Same {s.proc.pgdir} {(s.proc.pgdir,vpn a)} s ((s.setPte s.proc.pgdir (vpn a)
      (pagedIn (s.pte s.proc.pgdir (vpn a)) f)).store f (μ a)) :=
    (h.space.wf.same_setPte rfl).trans hs2
  have hsw : p.swapped = s.proc.pages.swapped \ {a} := by
    rw [ProcPages.swapped,hdisk]
    exact Set.ext fun _ => exists_update_none h.once.diskVa hi
  have hr : p.residents = s.proc.pages.residents := by simp only [ProcPages.residents,hva]
  refine ⟨⟨?_,h.file,fun j b hj => ?_,⟨fun j k b hj hk => ?_,?_⟩,?_,?_,?_⟩,hsw,hsame⟩
  · have hsp : Space c {s.proc.pgdir} s.proc.pgdir (p.residents ∪ insert a Y) μ α
        ((s.setPte s.proc.pgdir (vpn a) (pagedIn (s.pte s.proc.pgdir (vpn a)) f)).store f (μ a)) := by
      rw [hr,Set.union_insert]
      refine hst.mono (fun b _ => ?_) fun b _ st hb => ?_
      · by_cases hb : b = a <;> simp [hb]
      · by_cases hba : b = a
        · simp [hba]
        · rwa [update_of_ne hba]
    exact hsp.congr rfl rfl
  · have hmem : b ∈ s.proc.pages.swapped \ {a} := hsw ▸ ⟨j,hj⟩
    have hj' : update s.proc.pages.diskVa i none j = some b := hdisk ▸ hj
    have hres := h.swapped_of_same hsame hu hip le_rfl rfl (update_none_eq_some.mp hj').2 hmem.2
    rw [← hip] at hres
    exact hres
  · have hj' : s.proc.pages.va j = some b := hva ▸ hj
    have hk' : s.proc.pages.va k = some b := hva ▸ hk
    exact h.once.va j k b hj' hk'
  · rw [Kernel.setPages,hdisk]
    exact once_update_none h.once.diskVa
  · have hnot := h.not_resident hi
    have htr : ∀ b ∈ insert a Y, b ∉ p.residents ∧ b ∉ p.swapped := by
      rw [hr,hsw]
      rintro b (rfl | hb)
      · exact ⟨fun hm => hnot (Or.inl hm),by simp⟩
      · exact ⟨(h.transit b hb).1,fun hm => (h.transit b hb).2 hm.1⟩
    exact htr
  · change p.pagesInMemoryCounter = (occupied p.va : ℤ)
    rw [hva,hcount]
    exact h.residentCount
  · have ho := occupied_update_none hi
    have hc := h.swappedCount
    change p.pagesInSwapfileCounter = (occupied p.diskVa : ℤ)
    rw [hdisk,hswap]
    omega

def Kernel.setSwap (s : Kernel) (ip : Inode) (p : ProcPages) : Kernel :=
  {s with proc := {s.proc with swapFile := some ip, pages := p}}

theorem Consistent.pageOut (h : Consistent c Y μ α s) (ha : a ∈ Y)
    (hi : s.proc.pages.diskVa i = none) (hip : s.proc.swapFile = some ip)
    (hP : has w pteP = false) (hG : has w ptePG = true) (hA : pteAddr w = 0) {p : ProcPages}
    (hdisk : p.diskVa = update s.proc.pages.diskVa i (some a))
    (hswap : p.pagesInSwapfileCounter = s.proc.pages.pagesInSwapfileCounter+1)
    (hva : p.va = s.proc.pages.va)
    (hcount : p.pagesInMemoryCounter = s.proc.pages.pagesInMemoryCounter) :
    Consistent c (Y \ {a}) μ α (((s.setPte s.proc.pgdir (vpn a) w).free
      (pteAddr (s.pte s.proc.pgdir (vpn a)))).setSwap
        (ip.putPage i (s.page s.proc.pgdir (vpn a))) p) ∧
    p.swapped = insert a s.proc.pages.swapped := by
  have haZ : a ∈ s.proc.pages.residents ∪ Y := Or.inr ha
  have hu := h.space.user a haZ
  obtain ⟨hst,hsame,hpte⟩ := h.space.unmap haZ hP
  have hnew : ∀ j, s.proc.pages.diskVa j ≠ some a := fun j hj => (h.transit a ha).2 ⟨j,hj⟩
  have hsw : p.swapped = insert a s.proc.pages.swapped := by
    rw [ProcPages.swapped,hdisk]
    exact Set.ext fun _ => exists_update_some hi
  have hr : p.residents = s.proc.pages.residents := by simp only [ProcPages.residents,hva]
  have hZ : p.residents ∪ Y \ {a} = (s.proc.pages.residents ∪ Y) \ {a} := by
    rw [hr,Set.union_sdiff_distrib,Set.sdiff_singleton_eq_self (h.transit a ha).1]
  have hsize : ip.size ≤ (ip.putPage i (s.page s.proc.pgdir (vpn a))).size := by
    rw [Inode.putPage_size]
    exact le_max_left _ _
  refine ⟨⟨?_,by simp [Kernel.setSwap],fun j b hj => ?_,⟨fun j k b hj hk => ?_,?_⟩,?_,?_,?_⟩,hsw⟩
  · rw [← hZ] at hst
    exact hst.congr rfl rfl
  · have hj' : update s.proc.pages.diskVa i (some a) j = some b := hdisk ▸ hj
    rcases update_some_eq_some.mp hj' with ⟨rfl,rfl⟩ | ⟨hji,hold⟩
    · have hres : SwappedOut w (some (ip.putPage j (s.page s.proc.pgdir (vpn b)))) j b (μ b) := by
        refine ⟨hu,hP,hG,hA,_,rfl,?_,?_⟩
        · rw [Inode.putPage_size]
          exact le_max_right _ _
        · rw [Inode.slotPage_putPage_same,h.space.bytes b haZ]
      rw [← hpte] at hres
      exact hres
    · refine h.swapped_of_same hsame hu hip hsize (Inode.slotPage_putPage_of_ne ip hji _) hold ?_
      rintro rfl
      exact hnew j hold
  · have hj' : s.proc.pages.va j = some b := hva ▸ hj
    have hk' : s.proc.pages.va k = some b := hva ▸ hk
    exact h.once.va j k b hj' hk'
  · rw [Kernel.setSwap,hdisk]
    exact once_update_some h.once.diskVa hnew
  · have htr : ∀ b ∈ Y \ {a}, b ∉ p.residents ∧ b ∉ p.swapped := by
      rw [hr,hsw]
      rintro b ⟨hb,hne⟩
      refine ⟨(h.transit b hb).1,?_⟩
      rintro (rfl | hm)
      · exact hne rfl
      · exact (h.transit b hb).2 hm
    exact htr
  · change p.pagesInMemoryCounter = (occupied p.va : ℤ)
    rw [hva,hcount]
    exact h.residentCount
  · have ho := occupied_update_some hi a
    have hc := h.swappedCount
    change p.pagesInSwapfileCounter = (occupied p.diskVa : ℤ)
    rw [hdisk,hswap,ho]
    omega

end Moves

end Xv6Paging
