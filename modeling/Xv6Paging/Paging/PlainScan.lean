import Xv6Paging.Paging.ForeignFree
import Xv6Paging.Paging.FrameAccounts
import Xv6Paging.Paging.MapPages

/-! # The walk of `deallocuvm` as a plain scan

Where there is no page table, `deallocuvm` goes on with the next page table. The pages it leaves out have nothing to
free, so the result is that of a scan page by page. The scan frees the frames of the present pages and erases their
entries, and `freevm` returns all the frames of the address space.
-/
namespace Xv6Paging
open WordPage PageTree ForeignFree

def scanPages (c : Config) (pgdir : Frame) : ℕ → ℕ → Kernel → Except Fault Kernel
  | 0, _, s => .ok s
  | n+1, a, s =>
    match walkpgdir pgdir a false s with
    | (none,s) => scanPages c pgdir n (a+pgSize) s
    | (some pte,s) => do
      let s ← deallocPage c pgdir a pte s
      scanPages c pgdir n (a+pgSize) s

def scanLength (a oldsz : ℕ) : ℕ := (oldsz+pgSize-1-a)/pgSize

section Plain
variable {c : Config} {d : Frame} {s : Kernel} {a oldsz newsz n : ℕ}

theorem scanPages_skip {j : ℕ} (hj : j ≤ n) (hnone : ∀ i < j, s.table d (vpn (a+i*pgSize)) = none) :
    scanPages c d n a s = scanPages c d (n-j) (a+j*pgSize) s := by
  induction j generalizing n a with
  | zero => rw [Nat.zero_mul,Nat.sub_zero,Nat.add_zero]
  | succ j ih =>
    obtain ⟨n,rfl⟩ : ∃ m, n = m+1 := ⟨n-1,by omega⟩
    have hfirst := hnone 0 (Nat.succ_pos j)
    rw [Nat.zero_mul,Nat.add_zero] at hfirst
    have hstep : scanPages c d (n+1) a s = scanPages c d n (a+pgSize) s := by
      rw [scanPages,walkpgdir_false,hfirst]
      rfl
    have haddr : a+(j+1)*pgSize = a+pgSize+j*pgSize := by
      rw [Nat.succ_mul]
      omega
    rw [hstep,ih (by omega) fun i hi => ?_,haddr,Nat.add_sub_add_right]
    have hi' := hnone (i+1) (by omega)
    rw [Nat.succ_mul] at hi'
    rw [Nat.add_right_comm]
    rwa [← Nat.add_assoc] at hi'

/-- The loop of `deallocuvm` is the plain scan. -/
theorem deallocuvmLoop_eq_scan (hsz : oldsz ≤ kernBase) (fuel : ℕ) (ha : pgSize ∣ a) (hf : oldsz ≤ a+fuel*pgSize) :
    deallocuvmLoop c d oldsz (fuel+1) a s = scanPages c d (scanLength a oldsz) a s := by
  have hk : kernBase = 2^31 := by decide
  induction fuel generalizing a s with
  | zero =>
    have hzero : scanLength a oldsz = 0 := by
      simp only [scanLength,pgSize] at hf ⊢
      omega
    rw [deallocuvmLoop,if_neg (by omega),hzero,scanPages]
  | succ fuel ih =>
    rw [deallocuvmLoop]
    by_cases hlt : a < oldsz
    · rw [if_pos hlt]
      obtain ⟨q,rfl⟩ := ha
      simp only [pgSize] at hlt hf
      cases ht : s.table d (vpn (pgSize*q)) with
      | none =>
        -- The pages up to the next page table have none either.
        obtain ⟨j,hj,hpos,hsame⟩ : ∃ j, ((pdx (pgSize*q)).val+1)*2^22%2^32 = pgSize*q+j*pgSize ∧ 0 < j ∧
            ∀ i < j, (vpn (pgSize*q+i*pgSize)).1 = (vpn (pgSize*q)).1 := by
          refine ⟨1024-q%1024,?_,by omega,fun i hi => Fin.ext ?_⟩
          · rw [pdx_val]
            simp only [pgSize]
            omega
          · simp only [vpn,pdx_val,pgSize]
            omega
        have hnone : ∀ i < j, s.table d (vpn (pgSize*q+i*pgSize)) = none := by
          intro i hi
          rw [Kernel.table,hsame i hi]
          exact ht
        have hrest : scanLength (pgSize*q+j*pgSize) oldsz = scanLength (pgSize*q) oldsz-j := by
          rw [scanLength,scanLength,← Nat.sub_sub,Nat.mul_comm j,Nat.sub_mul_div]
        rw [walkpgdir_false,ht]
        dsimp only [Option.map_none]
        rw [hj,ih ⟨q+j,by rw [Nat.mul_add,Nat.mul_comm j]⟩ (by simp only [pgSize]; omega),hrest]
        rcases Nat.le_total j (scanLength (pgSize*q) oldsz) with hle | hge
        · exact (scanPages_skip hle hnone).symm
        · rw [scanPages_skip le_rfl fun i hi => hnone i (hi.trans_le hge),Nat.sub_self,Nat.sub_eq_zero_of_le hge,
            scanPages,scanPages]
      | some t =>
        have hn : scanLength (pgSize*q) oldsz = scanLength (pgSize*q+pgSize) oldsz+1 := by
          simp only [scanLength,pgSize]
          omega
        rw [hn,scanPages,walkpgdir_false,ht]
        dsimp only [Option.map_some]
        refine congrArg (deallocPage c d (pgSize*q) (t,ptx (pgSize*q)) s >>= ·) (funext fun s' => ?_)
        refine ih ⟨q+1,by rw [Nat.mul_succ]⟩ ?_
        simp only [pgSize]
        omega
    · have hzero : scanLength a oldsz = 0 := by
        simp only [scanLength,pgSize]
        omega
      rw [if_neg hlt,hzero,scanPages]

theorem deallocuvm_eq_scan (hsz : oldsz ≤ kernBase) (hlt : newsz < oldsz) :
    deallocuvm c d oldsz newsz s =
      (scanPages c d (scanLength (pgRoundUp newsz) oldsz) (pgRoundUp newsz) s).map fun s' => (newsz,s') := by
  have hf : oldsz ≤ pgRoundUp newsz+(oldsz/pgSize+1)*pgSize := by
    simp only [pgSize]
    omega
  rw [deallocuvm,if_neg (not_le.mpr hlt),deallocuvmLoop_eq_scan hsz _ (pgSize_dvd_pgRoundUp newsz) hf]
  cases scanPages c d (scanLength (pgRoundUp newsz) oldsz) (pgRoundUp newsz) s <;> rfl

end Plain

def Kernel.behind (s : Kernel) (l : List Frame) : Kernel := {s with freelist := s.freelist ++ l}

section Behind
variable {c : Config} {d f : Frame} {s : Kernel} {a oldsz newsz n : ℕ} {l : List Frame}

theorem kfree_behind : kfree c f (s.behind l) = (kfree c f s).map (·.behind l) := by
  rw [kfree,kfree]
  split_ifs <;> rfl

theorem checkFound_behind : checkFound n (s.behind l) = (checkFound n s).map (·.behind l) := by
  rw [checkFound,checkFound]
  split_ifs <;> rfl

theorem deallocPage_behind (pte : PtePtr) :
    deallocPage c d a pte (s.behind l) = (deallocPage c d a pte s).map (·.behind l) := by
  have hread : (s.behind l).readPte pte = s.readPte pte := rfl
  have hproc : (s.behind l).proc = s.proc := rfl
  rw [deallocPage,deallocPage,hread,hproc]
  split_ifs
  · rfl
  · rw [kfree_behind]
    cases kfree c (pteAddr (s.readPte pte)) s <;> rfl
  · dsimp only
    have hpages : ∀ p, (s.behind l).setPages p = (s.setPages p).behind l := fun _ => rfl
    rw [hpages,kfree_behind]
    cases kfree c (pteAddr (s.readPte pte)) (s.setPages
        (forgetResident (defaultAge c.build) (decide (s.proc.pgdir = d)) a s.proc.pages).1) with
    | error e => rfl
    | ok s' => exact checkFound_behind (s := s'.writePte pte 0)
  · exact checkFound_behind (s := (s.writePte pte 0).setPages
      (forgetSwapped (decide (s.proc.pgdir = d)) a s.proc.pages).1)
  · rfl

theorem scanPages_behind : scanPages c d n a (s.behind l) = (scanPages c d n a s).map (·.behind l) := by
  induction n generalizing a s with
  | zero => rfl
  | succ n ih =>
    have htable : (s.behind l).table d (vpn a) = s.table d (vpn a) := rfl
    rw [scanPages,scanPages,walkpgdir_false,walkpgdir_false,htable]
    cases s.table d (vpn a) with
    | none => exact ih
    | some t =>
      dsimp only [Option.map_some]
      rw [deallocPage_behind]
      cases deallocPage c d a (t,ptx a) s with
      | error e => rfl
      | ok s' => exact ih

theorem deallocuvm_behind (hsz : oldsz ≤ kernBase) : deallocuvm c d oldsz newsz (s.behind l) =
    (deallocuvm c d oldsz newsz s).map fun r => (r.1,r.2.behind l) := by
  by_cases hlt : newsz < oldsz
  · rw [deallocuvm_eq_scan hsz hlt,deallocuvm_eq_scan hsz hlt,scanPages_behind]
    cases scanPages c d (scanLength (pgRoundUp newsz) oldsz) (pgRoundUp newsz) s <;> rfl
  · rw [deallocuvm,deallocuvm,if_pos (not_lt.mp hlt),if_pos (not_lt.mp hlt)]
    rfl

theorem freeTables_behind (is : List (Fin 1024)) : is.foldlM (fun s i =>
      if has (s.readPte (d,i)) pteP then kfree c (pteAddr (s.readPte (d,i))) s else .ok s) (s.behind l) =
    (is.foldlM (fun s i =>
      if has (s.readPte (d,i)) pteP then kfree c (pteAddr (s.readPte (d,i))) s else .ok s) s).map (·.behind l) := by
  induction is generalizing s with
  | nil => rfl
  | cons i is ih =>
    have hread : (s.behind l).readPte (d,i) = s.readPte (d,i) := rfl
    rw [List.foldlM_cons,List.foldlM_cons,hread]
    split_ifs
    · rw [kfree_behind]
      cases kfree c (pteAddr (s.readPte (d,i))) s with
      | error e => rfl
      | ok s' => exact ih
    · exact ih

theorem freevm_behind : freevm c d (s.behind l) = (freevm c d s).map (·.behind l) := by
  rw [freevm,freevm,deallocuvm_behind le_rfl]
  cases deallocuvm c d kernBase 0 s with
  | error e => rfl
  | ok r =>
    obtain ⟨n,s₁⟩ := r
    dsimp only [bind,Except.bind,Except.map]
    rw [freeTables,freeTables,freeTables_behind]
    cases (List.finRange 1024).foldlM (fun s i =>
        if has (s.readPte (d,i)) pteP then kfree c (pteAddr (s.readPte (d,i))) s else .ok s) s₁ with
    | error e => rfl
    | ok s' => exact kfree_behind

end Behind

def InRange (lo e a : ℕ) : Prop := pgSize ∣ a ∧ lo ≤ a ∧ a < e

def Kernel.presentAt (s : Kernel) (d : Frame) (a : ℕ) : Prop := has (s.pte d (vpn a)) pteP = true
def Kernel.swappedAt (s : Kernel) (d : Frame) (a : ℕ) : Prop :=
  has (s.pte d (vpn a)) pteP = false ∧ has (s.pte d (vpn a)) ptePG = true

/-- The present pages of the range are gone from `memory_pg_arr`, and the swapped-out ones from
`disk_pg_arr`. -/
structure SlotsCleared (s : Kernel) (d : Frame) (lo e : ℕ) (p : ProcPages) : Prop where
  va : ∀ i a, p.va i = some a ↔ s.proc.pages.va i = some a ∧ ¬ (InRange lo e a ∧ s.presentAt d a)
  diskVa : ∀ i a, p.diskVa i = some a ↔ s.proc.pages.diskVa i = some a ∧ ¬ (InRange lo e a ∧ s.swappedAt d a)
  location : ∀ i, p.diskLocation i =
    if p.diskVa i = s.proc.pages.diskVa i then s.proc.pages.diskLocation i else -1

section SlotsCleared
variable {s : Kernel} {d : Frame} {lo e b : ℕ} {p : ProcPages} {own : Bool} {bd : Build}

theorem inRange_step (hb : pgSize ∣ b) (hlo : lo ≤ b) (a : ℕ) : InRange lo (b+pgSize) a ↔ InRange lo b a ∨ a = b := by
  constructor
  · rintro ⟨hdvd,hle,hlt⟩
    obtain ⟨q,rfl⟩ := hb
    obtain ⟨r,rfl⟩ := hdvd
    rcases Nat.lt_or_ge (pgSize*r) (pgSize*q) with h | h
    · exact Or.inl ⟨Nat.dvd_mul_right _ _,hle,h⟩
    · right
      simp only [pgSize] at hlt h ⊢
      omega
  · rintro (⟨hdvd,hle,hlt⟩ | rfl)
    · exact ⟨hdvd,hle,by omega⟩
    · exact ⟨hb,hlo,by simp only [pgSize]; omega⟩

theorem erased_step {G : ℕ → Prop} (hb : pgSize ∣ b) (hlo : lo ≤ b) (hG : G b) (a : ℕ) :
    ¬ (InRange lo b a ∧ G a) ∧ a ≠ b ↔ ¬ (InRange lo (b+pgSize) a ∧ G a) := by
  rw [inRange_step hb hlo]
  constructor
  · rintro ⟨hnot,hne⟩ ⟨hr | rfl,ha⟩
    · exact hnot ⟨hr,ha⟩
    · exact hne rfl
  · intro hnot
    refine ⟨fun hr => hnot ⟨Or.inl hr.1,hr.2⟩,?_⟩
    rintro rfl
    exact hnot ⟨Or.inr rfl,hG⟩

theorem kept_step {G : ℕ → Prop} (hb : pgSize ∣ b) (hlo : lo ≤ b) (hG : ¬ G b) (a : ℕ) :
    ¬ (InRange lo b a ∧ G a) ↔ ¬ (InRange lo (b+pgSize) a ∧ G a) := by
  rw [inRange_step hb hlo]
  refine not_congr ⟨fun hr => ⟨Or.inl hr.1,hr.2⟩,?_⟩
  rintro ⟨hr | rfl,ha⟩
  · exact ⟨hr,ha⟩
  · exact (hG ha).elim

theorem SlotsCleared.refl (hlo : e ≤ lo) : SlotsCleared s d lo e s.proc.pages := by
  have hout : ∀ a, ¬ InRange lo e a := by
    rintro a ⟨-,hle,hlt⟩
    omega
  refine ⟨fun i a => ?_,fun i a => ?_,fun i => ?_⟩
  · exact ⟨fun h => ⟨h,fun hr => hout a hr.1⟩,And.left⟩
  · exact ⟨fun h => ⟨h,fun hr => hout a hr.1⟩,And.left⟩
  · rw [if_pos rfl]

theorem forgetResident_va_iff {age : Word} {i : Slot} {a : ℕ} :
    (forgetResident age own b p).1.va i = some a ↔ p.va i = some a ∧ a ≠ b := by
  have hne := forgetResident_va_ne age own b p i
  rcases forgetResident_va age own b p i with h | ⟨h,h'⟩
  · rw [h] at hne ⊢
    exact ⟨fun ha => ⟨ha,fun hab => hne (hab ▸ ha)⟩,And.left⟩
  · rw [h',h]
    refine ⟨fun ha => ?_,fun ha => (ha.2 (Option.some.inj ha.1).symm).elim⟩
    cases ha

theorem forgetSwapped_diskVa_iff {i : Slot} {a : ℕ} :
    (forgetSwapped own b p).1.diskVa i = some a ↔ p.diskVa i = some a ∧ a ≠ b := by
  have hne := forgetSwapped_diskVa_ne own b p i
  rcases forgetSwapped_diskVa own b p i with h | ⟨h,h'⟩
  · rw [h] at hne ⊢
    exact ⟨fun ha => ⟨ha,fun hab => hne (hab ▸ ha)⟩,And.left⟩
  · rw [h',h]
    refine ⟨fun ha => ?_,fun ha => (ha.2 (Option.some.inj ha.1).symm).elim⟩
    cases ha

theorem forgetResident_diskLocation {age : Word} : (forgetResident age own b p).1.diskLocation = p.diskLocation :=
  ArrayScan.scan_unchanged (fun p i => by simp [freeSlot,unlinkFreed_eq]) _ _

theorem SlotsCleared.step (hbd : bd ≠ .none) (hb : pgSize ∣ b) (hlo : lo ≤ b) (h : SlotsCleared s d lo b p) (hl : ListedOnce p) :
    SlotsCleared s d lo (b+pgSize) (forgetPage bd own b (s.pte d (vpn b)) p).1 := by
  rw [forgetPage,if_neg hbd]
  split_ifs with hP hG
  · have hns : ¬ s.swappedAt d b := by
      rintro ⟨hnP,-⟩
      rw [hP] at hnP
      cases hnP
    refine ⟨fun i a => ?_,fun i a => ?_,fun i => ?_⟩
    · rw [forgetResident_va_iff,h.va i a,and_assoc]
      exact and_congr_right fun _ => erased_step hb hlo hP a
    · rw [forgetResident_diskVa,h.diskVa i a]
      exact and_congr_right fun _ => kept_step hb hlo hns a
    · rw [forgetResident_diskVa,forgetResident_diskLocation]
      exact h.location i
  · have hs : s.swappedAt d b := ⟨Bool.eq_false_iff.mpr hP,hG⟩
    refine ⟨fun i a => ?_,fun i a => ?_,fun i => ?_⟩
    · rw [forgetSwapped_va,h.va i a]
      exact and_congr_right fun _ => kept_step hb hlo hP a
    · rw [forgetSwapped_diskVa_iff,h.diskVa i a,and_assoc]
      exact and_congr_right fun _ => erased_step hb hlo hs a
    · by_cases hlisted : ∃ j, p.diskVa j = some b
      · obtain ⟨j,hj⟩ := hlisted
        rw [forgetSwapped_of_unique hj fun j' hj' => hl.diskVa j' j b hj' hj]
        by_cases hij : i = j
        · subst hij
          have hold := ((h.diskVa i b).mp hj).1
          simp only [freeDiskSlot,Function.update_self]
          rw [hold,if_neg (Option.some_ne_none b).symm]
        · simp only [freeDiskSlot,Function.update_of_ne hij]
          exact h.location i
      · rw [forgetSwapped_of_unlisted fun j hj => hlisted ⟨j,hj⟩]
        exact h.location i
  · refine ⟨fun i a => ?_,fun i a => ?_,h.location⟩
    · rw [h.va i a]
      exact and_congr_right fun _ => kept_step hb hlo hP a
    · rw [h.diskVa i a]
      exact and_congr_right fun _ => kept_step hb hlo (fun hs => hG hs.2) a

theorem SlotsCleared.truncate {oldsz : ℕ} (h : SlotsCleared s d lo e p) (he : oldsz ≤ e)
    (hbeyond : ∀ a, pgSize ∣ a → oldsz ≤ a → a < e → s.table d (vpn a) = none) : SlotsCleared s d lo oldsz p := by
  have hiff : ∀ (G : ℕ → Prop) a, (G a → s.pte d (vpn a) ≠ 0#32) →
      (¬ (InRange lo e a ∧ G a) ↔ ¬ (InRange lo oldsz a ∧ G a)) := by
    intro G a hG
    refine not_congr (and_congr_left fun hga => ⟨fun hr => ⟨hr.1,hr.2.1,?_⟩,fun hr => ⟨hr.1,hr.2.1,hr.2.2.trans_le he⟩⟩)
    by_contra hge
    exact hG hga (pte_of_no_table (hbeyond a hr.1 (not_lt.mp hge) hr.2.2))
  refine ⟨fun i a => ?_,fun i a => ?_,h.location⟩
  · rw [h.va i a]
    refine and_congr_right fun _ => hiff (s.presentAt d) a fun hp h0 => ?_
    rw [Kernel.presentAt,h0] at hp
    exact absurd hp (by decide)
  · rw [h.diskVa i a]
    refine and_congr_right fun _ => hiff (s.swappedAt d) a fun hp h0 => ?_
    have hG := hp.2
    rw [h0] at hG
    exact absurd hG (by decide)

end SlotsCleared

/-- What `deallocuvm` does to the address space `d` and, if that is the running process's own, to its page arrays. -/
structure Deallocated (c : Config) (d : Frame) (lo oldsz : ℕ) (s s' : Kernel) (freed : List Frame) : Prop where
  freelist : s'.freelist = freed ++ s.freelist
  nodup : freed.Nodup
  freed : ∀ f, f ∈ freed ↔ ∃ a, InRange lo oldsz a ∧ s.presentAt d a ∧ pteAddr (s.pte d (vpn a)) = f
  gone : ∀ a, InRange lo oldsz a → s'.pte d (vpn a) = erased c.build (s.pte d (vpn a))
  other : ∀ k, (∀ a, InRange lo oldsz a → vpn a ≠ k) → s'.pte d k = s.pte d k
  tables : ∀ k, s'.table d k = s.table d k
  unused : c.build = .none → s'.proc.pages = s.proc.pages
  slots : c.build ≠ .none → s.proc.pgdir = d → SlotsCleared s d lo oldsz s'.proc.pages

section Exact
variable {c : Config} {d f : Frame} {s s' : Kernel} {oldsz newsz e : ℕ}

theorem exists_inRange {lo b : ℕ} (hlo : pgSize ∣ lo) (h1 : lo ≤ b) (h2 : b < oldsz) (h32 : b < 2^32) :
    ∃ a, InRange lo oldsz a ∧ vpn a = vpn b := by
  obtain ⟨q,rfl⟩ := hlo
  refine ⟨b/pgSize*pgSize,⟨Nat.dvd_mul_left _ _,?_,?_⟩,(vpn_inj ?_ h32).mpr ?_⟩
  · simp only [pgSize] at h1 ⊢
    omega
  · simp only [pgSize]
    omega
  · simp only [pgSize]
    omega
  · simp only [pgSize]
    omega

/-- The frames that have become free are those of the present pages in the range. -/
theorem Released.freed_iff {lo : ℕ} {freed : List Frame} (h : Wf c {d} s) (hrel : Released c {d} d lo oldsz s e s')
    (hacc : s'.accounted {d} = s.accounted {d}) (hfree : s'.freelist = freed ++ s.freelist) (hlo : pgSize ∣ lo)
    (he : oldsz ≤ e) (hsz : oldsz ≤ kernBase) (f : Frame) :
    f ∈ freed ↔ ∃ a, InRange lo oldsz a ∧ s.presentAt d a ∧ pteAddr (s.pte d (vpn a)) = f := by
  have hk : kernBase < 2^32 := by decide
  have hnd := hrel.wf.free_nodup
  rw [hfree] at hnd
  have hd : d ∈ ({d} : Set Frame) := Set.mem_singleton d
  -- Outside the range the frames are used as before, and inside it none is used afterwards.
  have hsame : ∀ u : Use Frame, u.root ∈ ({d} : Set Frame) → (∃ a, InRange lo oldsz a ∧ u = .leaf d (vpn a)) ∨
      u.frame x86 s'.mem = u.frame x86 s.mem := by
    intro u hu
    cases u with
    | dir d' => exact Or.inr rfl
    | table d' i => exact Or.inr (hrel.tables d' hu (i,0))
    | leaf d' k =>
      obtain rfl : d' = d := hu
      by_cases hin : ∃ b, lo ≤ b ∧ b < oldsz ∧ k = vpn b
      · obtain ⟨b,h1,h2,rfl⟩ := hin
        obtain ⟨a,ha,hav⟩ := exists_inRange hlo h1 h2 (by omega)
        exact Or.inl ⟨a,ha,by rw [hav]⟩
      · right
        have hentry : x86.entry s'.mem d' k = x86.entry s.mem d' k := by
          refine hrel.same.entry d' hd k ?_
          rintro ⟨-,b,h1,-,h2,h3⟩
          exact hin ⟨b,h1,h2,h3⟩
        simp only [Use.frame,hentry]
  have hnone : ∀ a, InRange lo oldsz a → (Use.leaf d (vpn a)).frame x86 s'.mem = none := by
    intro a ha
    have hgone := hrel.gone a ha.2.1 (ha.2.2.trans_le he) ha.2.2
    have hlink : x86.link (s'.pte d (vpn a)) = none := by
      rw [hgone]
      exact link_eq_none.mpr (has_erased c.build _)
    simp only [Use.frame]
    split_ifs
    · exact hlink
    · rfl
  constructor
  · intro hf
    have hf' : f ∈ s'.freelist := hfree ▸ List.mem_append_left _ hf
    have hmem : f ∈ s.accounted {d} := by
      rw [← hacc,accounted_eq]
      exact Or.inl hf'
    obtain hold | ⟨u,hu,huf⟩ := hmem
    · exact (List.disjoint_of_nodup_append hnd hf hold).elim
    · obtain ⟨a,ha,rfl⟩ | heq := hsame u hu
      · simp only [Use.frame] at huf
        split_ifs at huf
        obtain ⟨hp,haddr⟩ := link_eq_some.mp huf
        exact ⟨a,ha,hp,haddr⟩
      · exact (hrel.wf.not_free u f hu (heq.trans huf) hf').elim
  · rintro ⟨a,ha,hp,rfl⟩
    have ho : x86.own (vpn a) = true := (own_iff (ha.2.2.trans_le (hsz.trans hk.le))).mpr (ha.2.2.trans_le hsz)
    have huse : (Use.leaf d (vpn a)).frame x86 s.mem = some (pteAddr (s.pte d (vpn a))) := by
      simp only [Use.frame,ho,if_true]
      exact link_eq_some.mpr ⟨hp,rfl⟩
    have hmem : pteAddr (s.pte d (vpn a)) ∈ s'.accounted {d} := by
      rw [hacc,accounted_eq]
      exact Or.inr ⟨.leaf d (vpn a),hd,huse⟩
    obtain hfree' | ⟨u,hu,huf⟩ := hmem
    · have hsplit : pteAddr (s.pte d (vpn a)) ∈ freed ++ s.freelist := hfree ▸ hfree'
      exact (List.mem_append.mp hsplit).resolve_right (h.not_free (.leaf d (vpn a)) _ hd huse)
    · obtain ⟨b,hb,rfl⟩ | heq := hsame u hu
      · rw [hnone b hb] at huf
        cases huf
      · have hu' := h.inj u (.leaf d (vpn a)) _ hu hd (heq.symm.trans huf) huse
        rw [hu',hnone a ha] at huf
        cases huf

theorem deallocated_of_wf (h : Wf c {d} s) (honce : c.build ≠ .none → ListedOnce s.proc.pages)
    (hsz : oldsz ≤ kernBase) (hlt : newsz < oldsz) :
    ∃ s' freed, deallocuvm c d oldsz newsz s = .ok (newsz,s') ∧
      Deallocated c d (pgRoundUp newsz) oldsz s s' freed := by
  have hd : d ∈ ({d} : Set Frame) := Set.mem_singleton d
  have hk : kernBase < 2^32 := by decide
  have hup : ∀ a, pgSize ∣ a → oldsz ≤ a → pgRoundUp newsz ≤ a := by
    rintro a ⟨q,rfl⟩ h1
    simp only [pgRoundUp,pgSize] at h1 ⊢
    omega
  have hspec : Outcome (deallocuvm c d oldsz newsz s) (fun r => r.1 = newsz ∧ ∃ e, oldsz ≤ e ∧
      Released c {d} d (pgRoundUp newsz) oldsz s e r.2 ∧ ((c.build = .none → r.2.proc.pages = s.proc.pages) ∧
        (c.build ≠ .none → ListedOnce r.2.proc.pages ∧ SlotsCleared s d (pgRoundUp newsz) e r.2.proc.pages) ∧
        ∀ a, pgSize ∣ a → oldsz ≤ a → a < e → s.table d (vpn a) = none)) fun _ => False := by
    refine deallocuvm_spec (M := fun e p => (c.build = .none → p = s.proc.pages) ∧
      (c.build ≠ .none → ListedOnce p ∧ SlotsCleared s d (pgRoundUp newsz) e p) ∧
      ∀ a, pgSize ∣ a → oldsz ≤ a → a < e → s.table d (vpn a) = none) h hd hsz hlt
      (fun b p hdvd hlo _ hor hm => ?_) ⟨fun _ => rfl,fun hb => ⟨honce hb,.refl le_rfl⟩,?_⟩
    · obtain ⟨hnone,hpaged,hbeyond⟩ := hm
      have hbeyond' : ∀ a, pgSize ∣ a → oldsz ≤ a → a < b+pgSize → s.table d (vpn a) = none := by
        intro a ha h1 h2
        rcases (inRange_step hdvd hlo a).mp ⟨ha,hup a ha h1,h2⟩ with hr | rfl
        · exact hbeyond a ha h1 hr.2.2
        · exact hor.resolve_left (not_lt.mpr h1)
      by_cases hb : c.build = .none
      · have hz : forgetPage c.build (s.proc.pgdir = d) b (s.pte d (vpn b)) p = (p,0) := by
          rw [forgetPage,if_pos hb]
        rw [hz]
        exact .ok ⟨hnone,fun hne => (hne hb).elim,hbeyond'⟩
      · obtain ⟨honce',hslots⟩ := hpaged hb
        obtain ⟨hl',hf⟩ := @ListedOnce.forgetPage p c.build (s.proc.pgdir = d) b (s.pte d (vpn b)) honce'
        rw [checkFound,if_neg (not_lt.mpr hf)]
        exact .ok ⟨fun hn => (hb hn).elim,fun _ => ⟨hl',hslots.step hb hdvd hlo honce'⟩,hbeyond'⟩
    · intro a ha h1 h2
      exact absurd (hup a ha h1) (not_le.mpr h2)
  obtain ⟨⟨r,s'⟩,hrun,hr,e,he,hrel,hnone,hpaged,hbeyond⟩ := Outcome.total_iff.mp hspec
  obtain rfl : r = newsz := hr
  obtain ⟨hwf,hacc,freed,hfree⟩ := deallocuvm_conserved hd hsz h hrun
  refine ⟨s',freed,hrun,⟨hfree,?_,?_,fun a ha => ?_,fun k hk' => ?_,hrel.tables d hd,hnone,fun hb _ => ?_⟩⟩
  · have hnd := hwf.free_nodup
    rw [hfree] at hnd
    exact (List.nodup_append'.mp hnd).1
  · exact hrel.freed_iff h hacc hfree (pgSize_dvd_pgRoundUp r) he hsz
  · exact hrel.gone a ha.2.1 (ha.2.2.trans_le he) ha.2.2
  · refine hrel.same.entry d hd k ?_
    rintro ⟨-,b,h1,-,h2,h3⟩
    obtain ⟨a,ha,hav⟩ := exists_inRange (pgSize_dvd_pgRoundUp r) h1 h2 (by omega)
    exact hk' a ha (hav.trans h3.symm)
  · exact (hpaged hb).2.truncate he hbeyond

theorem freevm_of_wf (h : Wf c {d} s) (honce : c.build ≠ .none → ListedOnce s.proc.pages) :
    ∃ s' freed, freevm c d s = .ok s' ∧ s'.freelist = freed ++ s.freelist ∧ freed.Nodup ∧
      ∀ f, f ∈ freed ↔ f ∈ s.spaceFrames {d} := by
  have hd : d ∈ ({d} : Set Frame) := Set.mem_singleton d
  have hspec : Outcome (freevm c d s) (fun s' => Wf c ({d} \ {d}) s' ∧ Same ({d} \ {d}) ∅ s s' ∧ OnlyPages s s' ∧
      ∃ e, kernBase ≤ e ∧ (c.build ≠ .none → ListedOnce s'.proc.pages)) fun _ => False := by
    refine freevm_spec (M := fun _ p => c.build ≠ .none → ListedOnce p) h hd (fun b p _ _ _ hm => ?_) honce
    by_cases hb : c.build = .none
    · have hz : forgetPage c.build (s.proc.pgdir = d) b (s.pte d (vpn b)) p = (p,0) := by
        rw [forgetPage,if_pos hb]
      rw [hz]
      exact .ok hm
    · obtain ⟨hl',hf⟩ := @ListedOnce.forgetPage p c.build (s.proc.pgdir = d) b (s.pte d (vpn b)) (hm hb)
      rw [checkFound,if_neg (not_lt.mpr hf)]
      exact .ok fun _ => hl'
  obtain ⟨s',hrun,-⟩ := Outcome.total_iff.mp hspec
  obtain ⟨-,-,freed,hfree,hnd,hmem⟩ := freevm_returns h hd hrun
  exact ⟨s',freed,hrun,hfree,hnd,hmem⟩

theorem mem_spaceFrames (f : Frame) : f ∈ s.spaceFrames {d} ↔
    f = d ∨ (∃ k, s.table d k = some f) ∨
      ∃ a, InRange 0 kernBase a ∧ s.presentAt d a ∧ pteAddr (s.pte d (vpn a)) = f := by
  have hk : kernBase < 2^32 := by decide
  constructor
  · rintro ⟨u,hu,hf⟩
    cases u with
    | dir d' =>
      cases hf
      exact Or.inl hu
    | table d' i =>
      obtain rfl : d' = d := hu
      exact Or.inr (Or.inl ⟨(i,0),hf⟩)
    | leaf d' k =>
      obtain rfl : d' = d := hu
      simp only [Use.frame] at hf
      split_ifs at hf with ho
      obtain ⟨hp,haddr⟩ := link_eq_some.mp hf
      obtain ⟨b,hb,rfl⟩ := exists_vpn_eq ho
      obtain ⟨a,ha,hav⟩ := exists_inRange (Nat.dvd_zero pgSize) (Nat.zero_le b) hb (hb.trans hk)
      refine Or.inr (Or.inr ⟨a,ha,?_,?_⟩)
      · rw [Kernel.presentAt,hav]
        exact hp
      · rw [hav]
        exact haddr
  · rintro (rfl | ⟨k,ht⟩ | ⟨a,ha,hp,haddr⟩)
    · exact ⟨.dir f,rfl,rfl⟩
    · exact ⟨.table d k.1,rfl,ht⟩
    · refine ⟨.leaf d (vpn a),rfl,?_⟩
      simp only [Use.frame,(own_iff (ha.2.2.trans hk)).mpr ha.2.2,if_true]
      exact link_eq_some.mpr ⟨hp,haddr⟩

/-- The skipping walk is the plain scan: both free exactly the present pages of the range, each of them
once. `freevm` returns each frame of the address space once. The free list may be any. -/
theorem deallocuvm_exact (h : Owned x86 c.frames {d} [] s.mem) (honce : c.build ≠ .none → ListedOnce s.proc.pages)
    (hsz : oldsz ≤ kernBase) (hlt : newsz < oldsz) :
    deallocuvm c d oldsz newsz s =
      (scanPages c d (scanLength (pgRoundUp newsz) oldsz) (pgRoundUp newsz) s).map (fun s' => (newsz,s')) ∧
    (∃ s' freed, deallocuvm c d oldsz newsz s = .ok (newsz,s') ∧
      Deallocated c d (pgRoundUp newsz) oldsz s s' freed) ∧
    ∃ s' freed, freevm c d s = .ok s' ∧ s'.freelist = freed ++ s.freelist ∧ freed.Nodup ∧
      ∀ f, f ∈ freed ↔ f = d ∨ (∃ k, s.table d k = some f) ∨
        ∃ a, InRange 0 kernBase a ∧ s.presentAt d a ∧ pteAddr (s.pte d (vpn a)) = f := by
  -- The free list is put aside.
  have hs : s = Kernel.behind {s with freelist := []} s.freelist := rfl
  have hwf : Wf c {d} {s with freelist := []} := h
  refine ⟨deallocuvm_eq_scan hsz hlt,?_,?_⟩
  · obtain ⟨s',freed,hrun,hde⟩ := deallocated_of_wf hwf honce hsz hlt
    refine ⟨s'.behind s.freelist,freed,?_,?_,hde.nodup,hde.freed,hde.gone,hde.other,hde.tables,hde.unused,fun hb hown => ?_⟩
    · rw [hs,deallocuvm_behind hsz,hrun]
      rfl
    · have hfree := hde.freelist
      rw [List.append_nil] at hfree
      exact congrArg (· ++ s.freelist) hfree
    · exact ⟨(hde.slots hb hown).va,(hde.slots hb hown).diskVa,(hde.slots hb hown).location⟩
  · obtain ⟨s',freed,hrun,hfree,hnd,hmem⟩ := freevm_of_wf hwf honce
    refine ⟨s'.behind s.freelist,freed,?_,?_,hnd,fun f => (hmem f).trans (mem_spaceFrames f)⟩
    · rw [hs,freevm_behind,hrun]
      rfl
    · rw [List.append_nil] at hfree
      exact congrArg (· ++ s.freelist) hfree

end Exact

def swappedDir (pgdir : Frame) (pages : ProcPages) : Kernel :=
  ((Kernel.blank pgdir [0x401,0x402] pages).mapZero 0x400 0x401 0x402).setPte 0x400 (vpn 4096) (pteW ||| pteU ||| ptePG)

theorem owned_swappedDir (pgdir : Frame) (pages : ProcPages) :
    Owned x86 (sampleConfig .nfua).frames {0x400} [] (swappedDir pgdir pages).mem := by
  have ht : ((Kernel.blank pgdir [0x401,0x402] pages).mapZero 0x400 0x401 0x402).table 0x400 (vpn 4096) =
      some 0x401 := by
    -- the tables depend on the memory alone
    have h0 : ((Kernel.blank 0x3ff [0x401,0x402] (.init .nfua)).mapZero 0x400 0x401 0x402).table 0x400 (vpn 4096) =
        some 0x401 := by decide +kernel
    exact h0
  exact (wf_mapZero_blank pgdir pages).setPte_flags rfl ht (Or.inl (by decide))

def swappedDirPages : ProcPages :=
  {ProcPages.init .nfua with
    va := fun i => if i = 0 then some 0 else none
    diskVa := fun i => if i = 0 then some 4096 else none
    diskLocation := fun i => if i = 0 then 0 else -1
    pagesInMemoryCounter := 1
    pagesInSwapfileCounter := 1}

theorem listedOnce_swappedDir : ListedOnce swappedDirPages := by
  have hone : ∀ (b a : ℕ) (i j : Slot), (if i = 0 then some b else none) = some a →
      (if j = 0 then some b else none) = some a → i = j := by
    intro b a i j hi hj
    split_ifs at hi hj with h0 h1
    rw [h0,h1]
  exact ⟨fun i j a => hone 0 a i j,fun i j a => hone 4096 a i j⟩

/-- The running process frees both pages of its own directory. -/
theorem deallocuvm_exact_swappedDir : ListedOnce (swappedDir 0x400 swappedDirPages).proc.pages ∧
    (swappedDir 0x400 swappedDirPages).proc.pgdir = 0x400 ∧ (swappedDir 0x400 swappedDirPages).presentAt 0x400 0 ∧
    (swappedDir 0x400 swappedDirPages).swappedAt 0x400 4096 ∧
    (∃ s' freed, deallocuvm (sampleConfig .nfua) 0x400 8192 0 (swappedDir 0x400 swappedDirPages) = .ok (0,s') ∧
      Deallocated (sampleConfig .nfua) 0x400 (pgRoundUp 0) 8192 (swappedDir 0x400 swappedDirPages) s' freed) ∧
    ∃ s' freed, freevm (sampleConfig .nfua) 0x400 (swappedDir 0x400 swappedDirPages) = .ok s' ∧
      s'.freelist = freed ++ (swappedDir 0x400 swappedDirPages).freelist ∧ freed.Nodup ∧
      ∀ f, f ∈ freed ↔ f = 0x400 ∨ (∃ k, (swappedDir 0x400 swappedDirPages).table 0x400 k = some f) ∨
        ∃ a, InRange 0 kernBase a ∧ (swappedDir 0x400 swappedDirPages).presentAt 0x400 a ∧
          pteAddr ((swappedDir 0x400 swappedDirPages).pte 0x400 (vpn a)) = f := by
  have hsz : 8192 ≤ kernBase := by decide
  have hlt : 0 < 8192 := by decide
  refine ⟨listedOnce_swappedDir,rfl,by unfold Kernel.presentAt; decide +kernel,by unfold Kernel.swappedAt; decide +kernel,
    (deallocuvm_exact (owned_swappedDir 0x400 swappedDirPages) (fun _ => listedOnce_swappedDir) hsz hlt).2⟩

/-- The running process has another directory; the entry of the swapped-out page is erased as well. -/
theorem deallocuvm_foreignSwapped :
    Owned x86 (sampleConfig .nfua).frames {0x400} [] (swappedDir 0x3ff (.init .nfua)).mem ∧
    (swappedDir 0x3ff (.init .nfua)).proc.pgdir ≠ 0x400 ∧ (swappedDir 0x3ff (.init .nfua)).swappedAt 0x400 4096 ∧
    (deallocuvm (sampleConfig .nfua) 0x400 8192 0 (swappedDir 0x3ff (.init .nfua))).toOption.map
      (fun r => r.2.pte 0x400 (vpn 4096)) = some 0 := by
  refine ⟨owned_swappedDir _ _,by decide,by unfold Kernel.swappedAt; decide +kernel,?_⟩
  decide +kernel

end Xv6Paging
