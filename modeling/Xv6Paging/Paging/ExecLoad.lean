import Xv6Paging.Kernel.Exec
import Xv6Paging.Paging.CopyOut
import Xv6Paging.Paging.CopySpace
import Xv6Paging.Paging.DrawnFrames

/-! # Loading a program

The segment loop of `exec` without paging. Whatever the file holds, the loop returns: the pages below the size reached
so far are mapped, so `loaduvm` finds the pages of each segment. If the loop completes, the memory is the image that the
program headers describe.
-/
namespace Xv6Paging
open WordPage PageTree Pool

def pagesOf (m : ℕ → Byte) (a : ℕ) : Page := fun k => m (a+k.val)

def progHdrAt (ip : Inode) (off : ℕ) : ProgHdr := progHdr fun k => ip.data (off+k.val)

def loadable (ip : Inode) : ℕ → ℕ → List ProgHdr
  | 0, _ => []
  | n+1, off =>
    if (progHdrAt ip off).type = elfProgLoad then progHdrAt ip off :: loadable ip n (off+progHdrSize)
    else loadable ip n (off+progHdrSize)

def loadSegment (ip : Inode) (m : ℕ → Byte) (ph : ProgHdr) : ℕ → Byte :=
  blit id m ph.vaddr ph.filesz fun k => ip.data (ph.off+k)

def loadImage (ip : Inode) (segs : List ProgHdr) (m : ℕ → Byte) : ℕ → Byte := segs.foldl (loadSegment ip) m

def Kernel.userByte (s : Kernel) (d : Frame) (a : ℕ) : Option Byte := (s.userCell d a).map s.bytes

variable {c : Config} {S X : Set Frame} {s s₀ : Kernel} {d : Frame} {m : ℕ → Byte} {α : ℕ → Bool → Bool}
  {μ : ℕ → Page} {a b n o sz oldsz : ℕ} {src : ℕ → Byte} {ip : Inode}

section Pieces

theorem pagesOf_blit (ha : pgSize ∣ a) (hb : pgSize ∣ b) (ho : o+n ≤ pgSize) :
    pagesOf (blit id m (a+o) n src) b = if b = a then blit Fin.val (pagesOf m a) o n src else pagesOf m b := by
  have hsize : pgSize = 4096 := rfl
  split_ifs with hba
  · subst hba
    funext k
    simp only [pagesOf,blit,id]
    by_cases hin : o ≤ k.val ∧ k.val < o+n
    · rw [if_pos hin,if_pos (by omega)]
      exact congrArg src (by omega)
    · rw [if_neg hin,if_neg (by omega)]
  · funext k
    have hk := k.isLt
    obtain ⟨q,rfl⟩ := ha
    obtain ⟨r,rfl⟩ := hb
    simp only [pagesOf,blit,id]
    rw [if_neg]
    rw [hsize] at hba ⊢
    omega

theorem Space.piece (h : Space c S d (pagesBelow sz) (pagesOf m) α s) (ha : a ∈ pagesBelow sz) (ho : o+n ≤ pgSize)
    (src : ℕ → Byte) : Space c S d (pagesBelow sz) (pagesOf (blit id m (a+o) n src)) α
      (s.store (pteAddr (s.pte d (vpn a))) (blit Fin.val (s.mem (pteAddr (s.pte d (vpn a)))) o n src)) := by
  have hpage : s.mem (pteAddr (s.pte d (vpn a))) = pagesOf m a := h.bytes a ha
  obtain ⟨hst,-,-⟩ := h.store ha (blit Fin.val (pagesOf m a) o n src)
  rw [hpage]
  refine hst.mono (fun b hb => ?_) fun _ _ _ => id
  rw [pagesOf_blit ha.1 hb.1 ho,Function.update_apply]

theorem readi_full_iff (dst : Page) (off : ℕ) (hn : n < 2^32) :
    (readi ip dst off n).1 = n ↔ off+n ≤ ip.size ∧ off+n < 2^32 := by
  constructor
  · intro h
    unfold readi at h
    split_ifs at h with hbad
    · have hneg : (-1 : ℤ) = n := h
      omega
    · have hn : ((ip.size-off : ℕ) : ℤ) = n := h
      omega
    · clear h
      omega
  · rintro ⟨h1,h2⟩
    rw [readi_eq ip n dst off h1 h2]

end Pieces

section Loaduvm
variable {addr offset : ℕ}

theorem loaduvmLoop_spec (hal : pgSize ∣ addr) (hend : addr+n ≤ sz) (hsz : sz ≤ kernBase) (fuel i : ℕ)
    (hi : pgSize ∣ i) (hf : n ≤ i+fuel*pgSize) (hoff : i < n → offset+i < 2^32)
    (h : Space c S d (pagesBelow sz) (pagesOf m) α s) (hh : Held c S d X s) :
    ∃ r s', loaduvmLoop d addr ip offset n (fuel+1) i s = .ok (r,s') ∧ Alters c S d X X s s' ∧
      s'.freelist = s.freelist ∧
      (r = -1 ∧ ¬ (offset+n ≤ ip.size ∧ offset+n < 2^32) ∨ r = 0 ∧ Space c S d (pagesBelow sz)
        (pagesOf (blit id m (addr+i) (n-i) fun k => ip.data (offset+i+k))) α s') := by
  have hdone : ∀ {m : ℕ → Byte} {i : ℕ} {s : Kernel}, n ≤ i → Space c S d (pagesBelow sz) (pagesOf m) α s →
      Space c S d (pagesBelow sz) (pagesOf (blit id m (addr+i) (n-i) fun k => ip.data (offset+i+k))) α s := by
    intro m i s hle h
    rwa [Nat.sub_eq_zero_of_le hle,blit_zero]
  induction fuel generalizing i s m with
  | zero =>
    have hle : n ≤ i := by omega
    rw [loaduvmLoop,if_neg (not_lt.mpr hle)]
    exact ⟨0,s,rfl,.refl hh,rfl,Or.inr ⟨rfl,hdone hle h⟩⟩
  | succ fuel ih =>
    rw [loaduvmLoop]
    by_cases hlt : i < n
    · have hk : kernBase < 2^32 := by decide
      have ha : addr+i ∈ pagesBelow sz := ⟨Nat.dvd_add hal hi,by omega⟩
      have hu := h.user _ ha
      obtain ⟨t,ht⟩ := h.table ha
      have hp := h.present _ ha
      obtain ⟨cnt,hcnt⟩ : ∃ cnt, (if n-i < pgSize then n-i else pgSize) = cnt := ⟨_,rfl⟩
      have hle : cnt ≤ pgSize ∧ (cnt = pgSize ∧ i+pgSize ≤ n ∨ cnt = n-i ∧ n ≤ i+pgSize) := by
        split_ifs at hcnt <;> omega
      have hmod : (addr+i)%2^32 = addr+i := Nat.mod_eq_of_lt (by omega)
      rw [if_pos hlt,hmod,walkpgdir_of_table ht]
      simp only [readPte_eq ht,Nat.mod_eq_of_lt (hoff hlt),hcnt]
      by_cases hfull : (readi ip (s.mem (pteAddr (s.pte d (vpn (addr+i))))) (offset+i) cnt).1 = cnt
      · obtain ⟨h1,h2⟩ := (readi_full_iff _ _ (by simp only [pgSize] at hle; omega)).mp hfull
        rw [readi_eq ip cnt _ _ h1 h2]
        simp only [ne_eq,not_true_eq_false,if_false]
        have hpiece := h.piece (o := 0) (n := cnt) ha (by omega) fun k => ip.data (offset+i+k)
        have hst := hh.storePage hu.own hp
          (blit Fin.val (s.mem (pteAddr (s.pte d (vpn (addr+i))))) 0 cnt fun k => ip.data (offset+i+k))
        obtain ⟨r,s',hrun,halt,hfree,hres⟩ := ih (i+pgSize) (Nat.dvd_add hi (Nat.dvd_refl _))
          (by simp only [pgSize] at hf ⊢; omega) (fun hlt' : i+pgSize < n => by omega) hpiece hst.held
        refine ⟨r,s',hrun,hst.trans halt,hfree,hres.imp id fun hok => ⟨hok.1,?_⟩⟩
        have hjoin : blit id (blit id m (addr+i+0) cnt fun k => ip.data (offset+i+k)) (addr+(i+pgSize)) (n-(i+pgSize))
            (fun k => ip.data (offset+(i+pgSize)+k)) = blit id m (addr+i) (n-i) fun k => ip.data (offset+i+k) := by
          obtain ⟨rfl,hge⟩ | ⟨rfl,hlast⟩ := hle.2
          · have happ := blit_append id m (addr+i) (fun k => ip.data (offset+i+k)) pgSize (n-(i+pgSize))
            rw [show pgSize+(n-(i+pgSize)) = n-i by omega] at happ
            rw [← happ,Nat.add_zero,← Nat.add_assoc]
            exact blit_congr _ _ _ _ fun k _ => congrArg ip.data (by omega)
          · rw [Nat.sub_eq_zero_of_le hlast,blit_zero,Nat.add_zero]
        rw [← hjoin]
        exact hok.2
      · rw [if_pos hfull]
        refine ⟨-1,_,rfl,hh.storePage hu.own hp _,rfl,Or.inl ⟨rfl,fun hlong => hfull ?_⟩⟩
        exact (readi_full_iff _ _ (by simp only [pgSize] at hle; omega)).mpr (by omega)
    · rw [if_neg hlt]
      exact ⟨0,s,rfl,.refl hh,rfl,Or.inr ⟨rfl,hdone (not_lt.mp hlt) h⟩⟩

/-- Inside the mapped pages `loaduvm` reads the segment or finds the file too short. -/
theorem loaduvm_spec (ip : Inode) (hal : pgSize ∣ addr) (hend : addr+n ≤ sz) (hsz : sz ≤ kernBase) (hoff : offset < 2^32)
    (h : Space c S d (pagesBelow sz) (pagesOf m) α s) (hh : Held c S d X s) :
    ∃ r s', loaduvm d addr ip offset n s = .ok (r,s') ∧ Alters c S d X X s s' ∧ s'.freelist = s.freelist ∧
      (r = -1 ∧ ¬ (offset+n ≤ ip.size ∧ offset+n < 2^32) ∨ r = 0 ∧ Space c S d (pagesBelow sz)
        (pagesOf (blit id m addr n fun k => ip.data (offset+k))) α s') := by
  rw [loaduvm,if_neg (not_not.mpr (Nat.mod_eq_zero_of_dvd hal))]
  refine loaduvmLoop_spec hal hend hsz (n/pgSize+1) 0 (Nat.dvd_zero _) ?_ (fun _ => hoff) h hh
  simp only [pgSize]
  omega

end Loaduvm

section Alloc
variable {newsz : ℕ}

theorem oldallocuvm_spec (hb : c.build = .none) (newsz : ℕ) (hold : oldsz < kernBase)
    (h : Space c S d (pagesBelow oldsz) μ α s) (hμ : ∀ b, pgRoundUp oldsz ≤ b → μ b = fun _ => 0) :
    ∃ r s', oldallocuvm c d oldsz newsz s = .ok (r,s') ∧
      (r = 0 ∨ r = max oldsz newsz ∧ newsz < kernBase ∧ Space c S d (pagesBelow r) μ α s') := by
  obtain ⟨h1,h2⟩ := le_pgRoundUp hold.le
  unfold oldallocuvm
  split_ifs with hk hlt
  · exact ⟨0,s,rfl,Or.inl rfl⟩
  · exact ⟨oldsz,s,rfl,Or.inr ⟨(Nat.max_eq_left hlt.le).symm,not_le.mp hk,h⟩⟩
  · rw [← pagesBelow_roundUp hold.le] at h
    have hfuel : newsz ≤ pgRoundUp oldsz+(newsz/pgSize+1)*pgSize := by
      simp only [pgSize]
      omega
    obtain ⟨r,s',hrun,hres⟩ := oldallocuvmLoop_spec oldsz (newsz/pgSize+1) (not_le.mp hk).le hμ
      (pgSize_dvd_pgRoundUp oldsz) (by omega) hfuel h (Or.inl hb)
    refine ⟨r,s',hrun,?_⟩
    rcases hres with ⟨rfl,-⟩ | ⟨rfl,hsp,-⟩
    · exact Or.inl rfl
    · exact Or.inr ⟨(Nat.max_eq_right (not_lt.mp hlt)).symm,not_le.mp hk,hsp⟩

theorem allocPage_enough {Z : Set ℕ} (oldsz newsz : ℕ) (h : Space c S d Z μ α s) (hu : UserPage a) (haZ : a ∉ Z)
    (hfree : 2 ≤ s.freelist.length) :
    ∃ s', allocPage c d oldsz newsz a s = .ok (1,s') ∧ s.freelist.length ≤ s'.freelist.length+2 := by
  obtain ⟨o,q,-,hl,-⟩ | ⟨f,q,t,s₁,hq,ho,he⟩ := allocPage_cases oldsz newsz h.wf h.dir hu
  · rw [hl] at hfree
    cases o <;> simp at hfree
  · rw [h.absent a hu haZ,if_neg Bool.false_ne_true] at he
    refine ⟨_,he,?_⟩
    have hdrawn : s.freelist.length ≤ q.freelist.length+1 := by
      obtain ⟨he,-⟩ | ⟨f,l,-,hl,rfl⟩ := hq.origin
      · cases he
      · change _ ≤ s.freelist.tail.length+1
        simp [hl]
    have hopened : q.freelist.length ≤ s₁.freelist.length+1 := by
      obtain rfl | ⟨-,l,hl,rfl⟩ := ho.origin
      · exact Nat.le_succ _
      · change _ ≤ q.freelist.tail.length+1
        simp [hl]
    change _ ≤ s₁.freelist.length+2
    omega

theorem oldallocuvmLoop_enough (hb : c.build = .none) (oldsz fuel : ℕ) (hsz : newsz ≤ kernBase)
    (hμ : ∀ b, a ≤ b → μ b = fun _ => 0) (ha : pgSize ∣ a) (hf : newsz ≤ a+fuel*pgSize) (h : Space c S d (pagesBelow a) μ α s)
    (hfree : 2*((newsz+pgSize-1-a)/pgSize) ≤ s.freelist.length) :
    ∃ s', oldallocuvmLoop c d oldsz newsz (fuel+1) a s = .ok (newsz,s') ∧
      s.freelist.length ≤ s'.freelist.length+2*((newsz+pgSize-1-a)/pgSize) := by
  induction fuel generalizing a s with
  | zero =>
    rw [oldallocuvmLoop,if_neg (by omega)]
    exact ⟨s,rfl,Nat.le_add_right _ _⟩
  | succ fuel ih =>
    rw [oldallocuvmLoop]
    by_cases hlt : a < newsz
    · have hstep : (newsz+pgSize-1-a)/pgSize = (newsz+pgSize-1-(a+pgSize))/pgSize+1 := by
        simp only [pgSize]
        omega
      obtain ⟨q,hq⟩ : ∃ q, (newsz+pgSize-1-(a+pgSize))/pgSize = q := ⟨_,rfl⟩
      rw [hstep,hq] at hfree ⊢
      have hu : UserPage a := ⟨ha,hlt.trans_le hsz⟩
      obtain ⟨s₁,hs₁,hlen⟩ := allocPage_enough oldsz newsz h hu notMem_pagesBelow (by omega)
      obtain ⟨s',hs',-⟩ | ⟨s',hs',hsp,-⟩ := allocPage_spec oldsz h hu notMem_pagesBelow (hμ a le_rfl) hsz (Or.inl hb)
      · rw [hs₁] at hs'
        cases hs'
      · rw [hs₁] at hs'
        cases hs'
        rw [← pagesBelow_succ ha] at hsp
        obtain ⟨s',hrun,hlen'⟩ := ih (fun b hb => hμ b (by omega)) (Nat.dvd_add ha (Nat.dvd_refl _))
          (by simp only [pgSize] at hf ⊢; omega) hsp (by rw [hq]; omega)
        rw [hq] at hlen'
        refine ⟨s',?_,by omega⟩
        rw [if_pos hlt,hs₁]
        exact hrun
    · rw [if_neg hlt]
      exact ⟨s,rfl,Nat.le_add_right _ _⟩

theorem oldallocuvm_enough (hb : c.build = .none) (oldsz newsz : ℕ) (hold : oldsz ≤ newsz) (hnew : newsz < kernBase)
    (h : Space c S d (pagesBelow oldsz) μ α s) (hμ : ∀ b, pgRoundUp oldsz ≤ b → μ b = fun _ => 0)
    (hfree : 2*((newsz+pgSize-1)/pgSize) ≤ s.freelist.length) :
    ∃ s', oldallocuvm c d oldsz newsz s = .ok (newsz,s') ∧
      s.freelist.length ≤ s'.freelist.length+2*((newsz+pgSize-1)/pgSize) := by
  have hle : (newsz+pgSize-1-pgRoundUp oldsz)/pgSize ≤ (newsz+pgSize-1)/pgSize :=
    Nat.div_le_div_right (Nat.sub_le _ _)
  rw [← pagesBelow_roundUp (by omega)] at h
  obtain ⟨s',hrun,hlen⟩ := oldallocuvmLoop_enough hb oldsz (newsz/pgSize+1) hnew.le hμ
    (pgSize_dvd_pgRoundUp oldsz) (by simp only [pgSize]; omega) h (by omega)
  refine ⟨s',?_,by omega⟩
  rw [oldallocuvm,if_neg (by omega),if_neg (by omega)]
  exact hrun

theorem allocuvm_eq_old (hb : c.build = .none) : allocuvm c d oldsz newsz s = oldallocuvm c d oldsz newsz s := by
  rw [allocuvm,if_pos (Or.inl hb)]

end Alloc

structure Loaded (c : Config) (S : Set Frame) (d : Frame) (sz : ℕ) (m : ℕ → Byte) (s : Kernel) : Prop where
  space : Space c S d (pagesBelow sz) (pagesOf m) (fun _ _ => true) s
  size : sz < kernBase
  zero : ∀ x, sz ≤ x → m x = 0

section Segments

theorem Loaded.pages_zero (h : Loaded c S d sz m s) (hb : pgRoundUp sz ≤ b) : pagesOf m b = fun _ => 0 := by
  funext k
  exact h.zero _ (((le_pgRoundUp h.size.le).1.trans hb).trans (Nat.le_add_right b k))

theorem readHeader (off : ℕ) (hfull : (readi ip (fun _ => 0) off progHdrSize).1 = progHdrSize) :
    progHdr (readi ip (fun _ => 0) off progHdrSize).2 = progHdrAt ip off ∧ off+progHdrSize < 2^32 := by
  obtain ⟨h1,h2⟩ := (readi_full_iff _ _ (by decide)).mp hfull
  refine ⟨?_,h2⟩
  have hword : ∀ i : Fin 1024, i.val < 8 →
      readWord (readi ip (fun _ => 0) off progHdrSize).2 i = readWord (fun k => ip.data (off+k.val)) i := by
    intro i hi
    have hbyte : ∀ k : Fin 4, (readi ip (fun _ => 0) off progHdrSize).2 (byteIndex i k) =
        ip.data (off+(byteIndex i k).val) := by
      intro k
      rw [readi_eq ip _ _ _ h1 h2]
      refine (if_pos ?_).trans (by rw [Nat.sub_zero])
      simp only [byteIndex,progHdrSize]
      omega
    simp only [readWord,hbyte]
  simp only [progHdrAt,progHdr,hword ⟨0,by decide⟩ (by decide),hword ⟨1,by decide⟩ (by decide),
    hword ⟨2,by decide⟩ (by decide),hword ⟨4,by decide⟩ (by decide),hword ⟨5,by decide⟩ (by decide)]

theorem progHdrAt_lt (ip : Inode) (off : ℕ) :
    (progHdrAt ip off).vaddr < 2^32 ∧ (progHdrAt ip off).memsz < 2^32 ∧ (progHdrAt ip off).off < 2^32 :=
  ⟨BitVec.isLt _,BitVec.isLt _,BitVec.isLt _⟩

/-- The loop over the program headers, from any image on. -/
theorem loadSegments_spec (hb : c.build = .none) (ip : Inode) (n off : ℕ) (h : Loaded c S d sz m s) (hh : Held c S d X s) :
    ∃ r s' X', loadSegments c ip d n off sz s = .ok (r,s') ∧ Alters c S d X X' s s' ∧
      ∀ sz', r = some sz' → Loaded c S d sz' (loadImage ip (loadable ip n off) m) s' := by
  induction n generalizing off sz m s X with
  | zero =>
    refine ⟨some sz,s,X,rfl,.refl hh,?_⟩
    rintro sz' ⟨⟩
    exact h
  | succ n ih =>
    have hbad : ∀ {s' : Kernel} {X' : Set Frame} {m' : ℕ → Byte}, Alters c S d X X' s s' →
        ∃ r s'' X'', (Except.ok (none,s') : Except Fault (Option ℕ × Kernel)) = .ok (r,s'') ∧
          Alters c S d X X'' s s'' ∧ ∀ sz', r = some sz' → Loaded c S d sz' m' s'' := by
      intro s' X' m' halt
      refine ⟨none,s',X',rfl,halt,?_⟩
      rintro sz' ⟨⟩
    rw [loadSegments]
    by_cases hfull : (readi ip (fun _ => 0) off progHdrSize).1 = progHdrSize
    swap
    · dsimp only
      rw [if_pos hfull]
      exact hbad (.refl hh)
    obtain ⟨hhdr,hoff⟩ := readHeader off hfull
    dsimp only
    rw [if_neg (not_not.mpr hfull),hhdr,Nat.mod_eq_of_lt hoff,loadable]
    obtain ⟨hv,hm,ho⟩ := progHdrAt_lt ip off
    generalize progHdrAt ip off = ph at *
    by_cases htype : ph.type = elfProgLoad
    swap
    · rw [if_pos htype,if_neg htype]
      exact ih _ h hh
    rw [if_neg (not_not.mpr htype)]
    by_cases hsize : ph.memsz < ph.filesz
    · rw [if_pos hsize]
      exact hbad (.refl hh)
    by_cases hwrap : (ph.vaddr+ph.memsz)%2^32 < ph.vaddr
    · rw [if_neg hsize,if_pos hwrap]
      exact hbad (.refl hh)
    rw [if_neg hsize,if_neg hwrap]
    have hend : (ph.vaddr+ph.memsz)%2^32 = ph.vaddr+ph.memsz := by omega
    rw [hend,allocuvm_eq_old hb]
    obtain ⟨r,s₁,halloc,hres⟩ := oldallocuvm_spec hb (ph.vaddr+ph.memsz) h.size h.space
      fun b hb => h.pages_zero hb
    obtain ⟨X₁,halt⟩ := oldallocuvm_alters hh halloc
    rw [halloc]
    dsimp only [bind,Except.bind]
    split_ifs with hr halign
    · exact hbad halt
    · exact hbad halt
    obtain ⟨rfl,hnew,hsp⟩ : r = max sz (ph.vaddr+ph.memsz) ∧ ph.vaddr+ph.memsz < kernBase ∧
        Space c S d (pagesBelow r) (pagesOf m) (fun _ _ => true) s₁ := hres.resolve_left hr
    have hmax : max sz (ph.vaddr+ph.memsz) < kernBase := Nat.max_lt.mpr ⟨h.size,hnew⟩
    have hle : ph.vaddr+ph.filesz ≤ max sz (ph.vaddr+ph.memsz) := by omega
    obtain ⟨r,s₂,hload,halt',-,hres'⟩ := loaduvm_spec ip (Nat.dvd_of_mod_eq_zero (not_not.mp halign)) hle hmax.le
      ho hsp halt.held
    rw [hload]
    dsimp only [bind,Except.bind]
    split_ifs with hneg
    · exact hbad (halt.trans halt')
    obtain ⟨rfl,hsp'⟩ : r = 0 ∧ Space c S d (pagesBelow (max sz (ph.vaddr+ph.memsz)))
        (pagesOf (loadSegment ip m ph)) (fun _ _ => true) s₂ := hres'.resolve_left fun hr => hneg (by omega)
    have hloaded : Loaded c S d (max sz (ph.vaddr+ph.memsz)) (loadSegment ip m ph) s₂ := by
      refine ⟨hsp',hmax,fun x hx => ?_⟩
      have hout : ¬ (ph.vaddr ≤ x ∧ x < ph.vaddr+ph.filesz) := by omega
      exact (if_neg hout).trans (h.zero x (by omega))
    obtain ⟨r,s',X',hrun,hrest,hfinal⟩ := ih (off+progHdrSize) hloaded halt'.held
    exact ⟨r,s',X',hrun,(halt.trans halt').trans hrest,hfinal⟩

end Segments

section NewDirectory

theorem NewSpace.loaded {S : Set Frame} {s : Kernel} (h : NewSpace c S d s₀ s) :
    Loaded c (insert d S) d 0 (fun _ => 0) s := by
  refine ⟨⟨Set.mem_insert d S,h.mapping.wf,?_,?_,?_,?_,?_⟩,by decide,fun _ _ => rfl⟩
  · rintro a ⟨-,ha⟩
    exact (Nat.not_lt_zero a ha).elim
  · rintro a ⟨-,ha⟩
    exact (Nat.not_lt_zero a ha).elim
  · rintro a ⟨-,ha⟩
    exact (Nat.not_lt_zero a ha).elim
  · rintro a ⟨-,ha⟩
    exact (Nat.not_lt_zero a ha).elim
  · intro a hu _
    rw [pte_of_no_table (h.mapping.user (vpn a) hu.own)]
    decide

theorem NewSpace.held {S : Set Frame} {s : Kernel} (h : NewSpace c S d s₀ s) :
    Held c (insert d S) d (s.spaceFrames {d}) s :=
  ⟨Set.mem_insert d S,h.mapping.wf,Set.Subset.rfl⟩

end NewDirectory

section Bytes

theorem roundDown_mem (hsz : sz < kernBase) (ha : a < pgRoundUp sz) : pgRoundDown a ∈ pagesBelow sz := by
  rw [← pagesBelow_roundUp hsz.le]
  exact ⟨Nat.dvd_mul_left _ _,(Nat.div_mul_le_self _ _).trans_lt ha⟩

theorem Loaded.entry (h : Loaded c S d sz m s) (ha : a < pgRoundUp sz) :
    accessAllowed (s.pte d (vpn a)) true = true := by
  rw [← vpn_roundDown]
  exact h.space.access _ (roundDown_mem h.size ha) true rfl

section
variable (h : Space c S d (pagesBelow sz) (pagesOf m) α s)
  (ha : pgRoundDown a ∈ pagesBelow sz)
  (hα : α (pgRoundDown a) false = true)
include h ha hα

theorem Space.userFrame : s.userFrame d a = some (pteAddr (s.pte d (vpn a))) := by
  have hacc := h.access _ ha false hα
  rw [vpn_roundDown] at hacc
  simp only [accessAllowed,Bool.and_eq_true] at hacc
  rw [Kernel.userFrame,if_pos]
  simp only [Bool.and_eq_true]
  exact hacc.1

theorem Space.userByte : s.userByte d a = some (m a) := by
  have hpage : s.mem (pteAddr (s.pte d (vpn a))) = pagesOf m (pgRoundDown a) := by
    rw [← vpn_roundDown]
    exact h.bytes _ ha
  rw [Kernel.userByte,Kernel.userCell,h.userFrame ha hα]
  refine congrArg some ?_
  change s.mem (pteAddr (s.pte d (vpn a))) (Fin.ofNat 4096 a) = m a
  rw [hpage]
  refine congrArg m ?_
  simp only [pgRoundDown,pgSize,Fin.val_ofNat]
  omega

end

end Bytes

/-- The loop never panics, only writes to frames of the new directory and of the free list, and if it
completes, the pages below the size hold zeros, overwritten by the segments in their order. -/
theorem loadSegments_safe (hb : c.build = .none) (hw : Wf c S s₀) (hset : setupkvm c s₀ = .ok (some d,s))
    (ip : Inode) (phnum phoff : ℕ) :
    ∃ r s' X, loadSegments c ip d phnum phoff 0 s = .ok (r,s') ∧
      Draws (s.spaceFrames {d}) X s.freelist s'.freelist s.mem s'.mem ∧ s'.spaceFrames {d} ⊆ X ∧
      ∀ sz, r = some sz → sz < kernBase ∧ (∀ a < pgRoundUp sz, accessAllowed (s'.pte d (vpn a)) true = true) ∧
        ∀ a < pgRoundUp sz, s'.userByte d a = some (loadImage ip (loadable ip phnum phoff) (fun _ => 0) a) := by
  obtain ⟨d',hd,-,hnew⟩ | ⟨hnone,-⟩ := (setupkvm_spec hw).of_ok hset
  · cases hd
    obtain ⟨r,s',X,hrun,halt,hres⟩ := loadSegments_spec hb ip phnum phoff hnew.loaded hnew.held
    refine ⟨r,s',X,hrun,halt.draws,halt.held.frames,fun sz hsz => ?_⟩
    have hloaded := hres sz hsz
    exact ⟨hloaded.size,fun a => hloaded.entry,fun a ha => hloaded.space.userByte (roundDown_mem hloaded.size ha) rfl⟩
  · cases hnone

section Sample

def sampleElf : Inode where
  size := 88
  data := arrayByte
    ([elfMagic,0,0,0,0,0,0,52,0,0,0,1,0] ++ [elfProgLoad,84,0,0,4,4096,7,4096] ++ [0x12345678])

def idleProcess (n : ℕ) : Kernel := .blank 0x400 (frameRun 0x401 n) (.init .none)

theorem loadSegments_sampleElf (hb : c.build = .none) (h : Loaded c S d 0 (fun _ => 0) s) (hh : Held c S d X s)
    (hfree : 2 ≤ s.freelist.length) :
    ∃ s', loadSegments c sampleElf d 1 52 0 s = .ok (some 4096,s') ∧ s.freelist.length ≤ s'.freelist.length+2 := by
  have hhdr : progHdr (readi sampleElf (fun _ => 0) 52 progHdrSize).2 = ⟨1,84,0,4,4096⟩ := rfl
  have hread : (readi sampleElf (fun _ => 0) 52 progHdrSize).1 = progHdrSize := rfl
  obtain ⟨s₁,halloc,hlen⟩ := oldallocuvm_enough hb _ 4096 (Nat.zero_le _) (by decide) h.space
    (fun b hb => h.pages_zero hb) hfree
  obtain ⟨X₁,halt⟩ := oldallocuvm_alters hh halloc
  obtain ⟨r,s₁',halloc',hres⟩ := oldallocuvm_spec hb 4096 h.size h.space fun b hb => h.pages_zero hb
  rw [halloc] at halloc'
  cases halloc'
  obtain ⟨-,-,hsp⟩ := hres.resolve_left (by decide)
  obtain ⟨r,s₂,hload,-,hsame,hres⟩ := loaduvm_spec (n := 4) sampleElf (Nat.dvd_zero pgSize)
    (show 0+4 ≤ 4096 by decide) (by decide) (show 84 < 2^32 by decide) hsp halt.held
  obtain ⟨rfl,-⟩ := hres.resolve_left fun hshort => hshort.2 (by decide)
  refine ⟨s₂,?_,?_⟩
  · rw [loadSegments]
    dsimp only
    rw [if_neg (not_not.mpr hread),hhdr]
    dsimp only
    rw [if_neg (by decide),if_neg (by decide),if_neg (by decide),allocuvm_eq_old hb]
    change (oldallocuvm c d 0 4096 s >>= _) = _
    rw [halloc]
    change (loaduvm d 0 sampleElf 84 4 s₁ >>= _) = _
    rw [hload]
    rfl
  · rw [hsame]
    exact hlen

/-- With seventy free frames a new directory can be made and the program is loaded. -/
theorem loadSegments_safe_sampleElf : ∃ d s, setupkvm (sampleConfig .none) (idleProcess 70) = .ok (some d,s) ∧
    (∃ s', loadSegments (sampleConfig .none) sampleElf d 1 52 0 s = .ok (some 4096,s')) ∧
    ∃ r s' X, loadSegments (sampleConfig .none) sampleElf d 1 52 0 s = .ok (r,s') ∧
      Draws (s.spaceFrames {d}) X s.freelist s'.freelist s.mem s'.mem ∧ s'.spaceFrames {d} ⊆ X ∧
      ∀ sz, r = some sz → sz < kernBase ∧ (∀ a < pgRoundUp sz, accessAllowed (s'.pte d (vpn a)) true = true) ∧
        ∀ a < pgRoundUp sz, s'.userByte d a = some (loadImage sampleElf (loadable sampleElf 1 52) (fun _ => 0) a) := by
  have hw : Wf (sampleConfig .none) {0x400} (idleProcess 70) := wf_frameRun (by decide) _
  obtain ⟨⟨r,s⟩,hset,⟨d,hd,-,hnew⟩ | ⟨-,hshort,-⟩⟩ := Outcome.total_iff.mp (setupkvm_spec hw)
  · obtain rfl : r = some d := hd
    have hcount : s.freelist.length+65 = 70 := hnew.count
    obtain ⟨s',hload,-⟩ := loadSegments_sampleElf rfl hnew.loaded hnew.held (show 2 ≤ s.freelist.length by omega)
    exact ⟨d,s,hset,⟨s',hload⟩,loadSegments_safe rfl hw hset sampleElf 1 52⟩
  · exact absurd hshort (by decide)

end Sample

end Xv6Paging
