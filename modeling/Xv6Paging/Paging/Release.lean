import Xv6Paging.Library.Outcome
import Xv6Paging.Paging.Frames
import Xv6Paging.Paging.Slots

/-! # Releasing pages

What `deallocuvm` and `freevm` do to an address space. The page tables and the page
arrays of the running process are changed independently of each other: a page is
released according to its entry, and the arrays forget its address. The loop of
`deallocuvm` is described once, for any invariant of the page arrays.
-/
namespace Xv6Paging
open WordPage PageTree

/-- What `deallocuvm` does to the page arrays for the page at `a` with entry `w`, with the number
of slots it found. -/
def forgetPage (b : Build) (own : Bool) (a : ℕ) (w : Word) (p : ProcPages) : ProcPages × ℕ :=
  if b = .none then (p,0)
  else if has w pteP then forgetResident (defaultAge b) own a p
  else if has w ptePG then forgetSwapped own a p
  else (p,0)

def erased (b : Build) (w : Word) : Word :=
  if has w pteP ∨ b ≠ .none ∧ has w ptePG then 0 else w

def Kernel.release (b : Build) (s : Kernel) (d : Frame) (k : Index) : Kernel :=
  if has (s.pte d k) pteP then (s.setPte d k 0).free (pteAddr (s.pte d k))
  else if b ≠ .none ∧ has (s.pte d k) ptePG then s.setPte d k 0
  else s

structure OnlyPages (s s' : Kernel) : Prop where
  buff : s'.buff = s.buff
  kallocZero : s'.kallocZero = s.kallocZero
  proc : s'.proc = {s.proc with pages := s'.proc.pages}

theorem OnlyPages.refl (s : Kernel) : OnlyPages s s := ⟨rfl,rfl,rfl⟩

theorem OnlyPages.trans {s s' s'' : Kernel} (h : OnlyPages s s') (h' : OnlyPages s' s'') :
    OnlyPages s s'' :=
  ⟨h'.buff.trans h.buff,h'.kallocZero.trans h.kallocZero,by rw [h'.proc,h.proc]⟩

theorem OnlyPages.setPages (s : Kernel) (p : ProcPages) : OnlyPages s (s.setPages p) := ⟨rfl,rfl,rfl⟩

section Page
variable {c : Config} {S : Set Frame} {s : Kernel} {d t : Frame} {k : Index} {a : ℕ}

theorem deallocPage_eq (h : Wf c S s) (hd : d ∈ S) (ho : x86.own (vpn a) = true)
    (ht : s.table d (vpn a) = some t) : deallocPage c d a (t,ptx a) s =
      checkFound (forgetPage c.build (s.proc.pgdir = d) a (s.pte d (vpn a)) s.proc.pages).2
        ((s.release c.build d (vpn a)).setPages
          (forgetPage c.build (s.proc.pgdir = d) a (s.pte d (vpn a)) s.proc.pages).1) := by
  simp only [deallocPage,readPte_eq ht,forgetPage,Kernel.release]
  by_cases hp : has (s.pte d (vpn a)) pteP = true
  · have hm := h.pteAddr_mem hd ho hp
    have hne : pteAddr (s.pte d (vpn a)) ≠ 0 := fun h0 => zero_notMem_frames c (h0 ▸ hm)
    have hcomm : ∀ p, ((s.setPages p).free (pteAddr (s.pte d (vpn a)))).writePte (t,ptx a) 0 =
        ((s.setPte d (vpn a) 0).free (pteAddr (s.pte d (vpn a)))).setPages p :=
      fun p => congrArg (fun r : Kernel => r.setPages p)
        (free_setPte_comm (w := 0) h hd ho hp ht)
    have hnone := hcomm s.proc.pages
    simp only [hp,if_true,hne,if_false]
    by_cases hb : c.build = .none
    · simp only [hb,if_true,kfree_eq hm]
      exact congrArg Except.ok hnone
    · simp only [hb,if_false,kfree_eq hm]
      exact congrArg (checkFound _) (hcomm _)
  · simp only [hp,if_false,Bool.false_eq_true]
    by_cases hb : c.build = .none
    · simp only [hb,ne_eq,not_true_eq_false,false_and,if_false,if_true]
      rfl
    · by_cases hg : has (s.pte d (vpn a)) ptePG = true
      · simp only [hb,hg,ne_eq,not_false_eq_true,and_self,if_true,if_false,writePte_eq ht]
      · simp only [hb,hg,and_false,if_false,Bool.false_eq_true]
        rfl

theorem release_onlyPages (b : Build) : OnlyPages s (s.release b d k) := by
  unfold Kernel.release
  split
  · exact ⟨rfl,rfl,rfl⟩
  · split
    · exact ⟨rfl,rfl,rfl⟩
    · exact .refl s

theorem Wf.release (h : Wf c S s) (hd : d ∈ S) (ho : x86.own k = true) (b : Build) :
    Wf c S (s.release b d k) ∧ Same S {(d,k)} s (s.release b d k) ∧
    (∀ d' ∈ S, ∀ k', (s.release b d k).table d' k' = s.table d' k') ∧
    (s.release b d k).pte d k = erased b (s.pte d k) ∧
    ∀ f, FreshFrame c S s f → FreshFrame c S (s.release b d k) f := by
  have hl0 : ∀ f, x86.link 0#32 ≠ some f := by simp [x86.link_zero]
  unfold Kernel.release erased
  by_cases hp : has (s.pte d k) pteP = true
  · obtain ⟨t,ht⟩ := table_of_has hp
    obtain ⟨hw,hf⟩ := h.unmap hd ho hp (w := 0) (by decide)
    obtain ⟨hw',hs'⟩ := hf.free (A := {(d,k)}) hw
    simp only [hp,if_true,true_or]
    refine ⟨hw',(h.same_setPte hd).trans hs',fun d' hd' k' => ?_,?_,fun f hff => ?_⟩
    · exact (store_table hf.notTree hd' _).trans (h.setPte_table hd hd')
    · exact (store_pte hf.notTree hd _).trans (h.setPte_same hd ht)
    · refine hf.free_of_ne (hff.setEntry h hd ht fun _ => hl0 f) ?_
      rintro rfl
      refine hff.unused (.leaf d k) hd ?_
      simp only [Use.frame,ho,if_true]
      exact link_eq_some.mpr ⟨hp,rfl⟩
  · simp only [hp,if_false,false_or,Bool.false_eq_true]
    by_cases hg : b ≠ .none ∧ has (s.pte d k) ptePG = true
    · obtain ⟨t,ht⟩ := table_of_has hg.2
      simp only [hg,and_self,if_true,ne_eq,not_false_eq_true]
      exact ⟨h.setPte_flags hd ht (Or.inl (by decide)),h.same_setPte hd,
        fun d' hd' k' => h.setPte_table hd hd',h.setPte_same hd ht,
        fun f hff => hff.setEntry h hd ht fun _ => hl0 f⟩
    · simp only [hg,if_false]
      exact ⟨h,Keeps.refl _,fun _ _ _ => trivial,trivial,fun _ hff => hff⟩

end Page

structure Released (c : Config) (S : Set Frame) (d : Frame) (lo oldsz : ℕ) (s₀ : Kernel) (a : ℕ)
    (s : Kernel) : Prop where
  wf : Wf c S s
  same : Same S {q | q.1 = d ∧ ∃ b, lo ≤ b ∧ b < a ∧ b < oldsz ∧ q.2 = vpn b} s₀ s
  tables : ∀ d' ∈ S, ∀ k, s.table d' k = s₀.table d' k
  gone : ∀ b, lo ≤ b → b < a → b < oldsz → s.pte d (vpn b) = erased c.build (s₀.pte d (vpn b))
  fresh : ∀ f, FreshFrame c S s₀ f → FreshFrame c S s f
  only : OnlyPages s₀ s

section Loop
variable {c : Config} {S : Set Frame} {s₀ s : Kernel} {d t : Frame} {lo oldsz a : ℕ}

theorem Released.refl (h : Wf c S s) (hlo : a ≤ lo) : Released c S d lo oldsz s a s :=
  ⟨h,Keeps.refl _,fun _ _ _ => rfl,fun b h1 h2 => by omega,fun _ hf => hf,.refl s⟩

theorem Released.pte_of_le (h : Released c S d lo oldsz s₀ a s) (hd : d ∈ S) (ha : pgSize ∣ a)
    (hal : a < 2^32) : s.pte d (vpn a) = s₀.pte d (vpn a) := by
  refine h.same.entry d hd _ ?_
  rintro ⟨-,b,-,hb,-,he⟩
  have hq := (vpn_inj hal (hb.trans hal)).mp he
  obtain ⟨q,rfl⟩ := ha
  simp only [pgSize] at hq hb
  omega

theorem Released.step (h : Released c S d lo oldsz s₀ a s) (hd : d ∈ S) (hlo : lo ≤ a)
    (ha : pgSize ∣ a) (hlt : a < oldsz) (hsz : oldsz ≤ kernBase) (p : ProcPages) :
    Released c S d lo oldsz s₀ (a+pgSize) ((s.release c.build d (vpn a)).setPages p) := by
  have hk : kernBase < 2^32 := by decide
  have ha2 : a < 2^32 := by omega
  have ho : x86.own (vpn a) = true := (own_iff ha2).mpr (by omega)
  obtain ⟨hw,hs,ht,hp,hfr⟩ := h.wf.release hd ho c.build
  have hpage : ∀ b, a ≤ b → b < a+pgSize → vpn b = vpn a := by
    intro b h1 h2
    obtain ⟨q,rfl⟩ := ha
    rw [vpn_inj _ ha2]
    · simp only [pgSize] at h1 h2 ⊢
      omega
    · simp only [pgSize] at h1 h2 hlt
      simp only [kernBase] at hsz
      omega
  refine ⟨hw,?_,fun d' hd' k => (ht d' hd' k).trans (h.tables d' hd' k),fun b h1 h2 h3 => ?_,
    fun f hf => hfr f (h.fresh f hf),?_⟩
  · refine (h.same.mono ?_).trans (hs.mono ?_)
    · rintro q ⟨hq,b,h1,h2,h3,h4⟩
      exact ⟨hq,b,h1,by omega,h3,h4⟩
    · rintro q rfl
      exact ⟨rfl,a,hlo,by simp [pgSize],hlt,rfl⟩
  · by_cases hb : b < a
    · have hne : vpn b ≠ vpn a := by
        intro he
        have hq := (vpn_inj (by omega) ha2).mp he
        obtain ⟨q,rfl⟩ := ha
        simp only [pgSize] at hq hb
        omega
      have he : (s.release c.build d (vpn a)).pte d (vpn b) = s.pte d (vpn b) :=
        hs.entry d hd _ (by simp [hne])
      exact he.trans (h.gone b h1 hb h3)
    · rw [hpage b (by omega) h2,← h.pte_of_le hd ha ha2]
      exact hp
  · exact (h.only.trans (release_onlyPages c.build)).trans (OnlyPages.setPages _ p)

theorem Released.skip (h : Released c S d lo oldsz s₀ a s) {a' : ℕ} (haa : a ≤ a')
    (hnone : ∀ b, a ≤ b → b < a' → s₀.table d (vpn b) = none) (hd : d ∈ S) :
    Released c S d lo oldsz s₀ a' s := by
  refine ⟨h.wf,h.same.mono ?_,h.tables,fun b h1 h2 h3 => ?_,h.fresh,h.only⟩
  · rintro q ⟨hq,b,h1,h2,h3,h4⟩
    exact ⟨hq,b,h1,by omega,h3,h4⟩
  · by_cases hb : b < a
    · exact h.gone b h1 hb h3
    · have h0 := hnone b (by omega) h2
      have hs : s.table d (vpn b) = none := (h.tables d hd _).trans h0
      rw [pte_of_no_table hs,pte_of_no_table h0]
      simp [erased,has]

theorem deallocuvmLoop_spec {M : ℕ → ProcPages → Prop} {E : Fault → Prop} (hd : d ∈ S)
    (hsz : oldsz ≤ kernBase)
    (hM : ∀ b p, pgSize ∣ b → lo ≤ b → b < 2^32 → b < oldsz ∨ s₀.table d (vpn b) = none → M b p →
      Outcome (checkFound (forgetPage c.build (s₀.proc.pgdir = d) b (s₀.pte d (vpn b)) p).2 s₀)
        (fun _ => M (b+pgSize) (forgetPage c.build (s₀.proc.pgdir = d) b (s₀.pte d (vpn b)) p).1) E)
    (fuel : ℕ) (ha : pgSize ∣ a) (hlo : lo ≤ a) (hf : oldsz ≤ a+fuel*pgSize)
    (h : Released c S d lo oldsz s₀ a s) (hm : M a s.proc.pages) :
    Outcome (deallocuvmLoop c d oldsz (fuel+1) a s)
      (fun s' => ∃ e, oldsz ≤ e ∧ Released c S d lo oldsz s₀ e s' ∧ M e s'.proc.pages) E := by
  have hk : kernBase < 2^32 := by decide
  induction fuel generalizing a s with
  | zero =>
    rw [deallocuvmLoop,if_neg (by omega)]
    exact .ok ⟨a,by omega,h,hm⟩
  | succ fuel ih =>
    rw [deallocuvmLoop]
    by_cases hlt : a < oldsz
    · rw [if_pos hlt]
      have ha2 : a < 2^32 := by omega
      have htab : s.table d (vpn a) = s₀.table d (vpn a) := h.tables d hd _
      cases ht : s.table d (vpn a) with
      | none =>
        have hskip : ∀ b, a ≤ b → b < ((pdx a).val+1)*2^22%2^32 → s₀.table d (vpn b) = none := by
          intro b h1 h2
          have hpd : (vpn b).1 = (vpn a).1 := by
            refine Fin.ext ?_
            simp only [vpn,pdx_val] at h2 ⊢
            simp only [kernBase] at hsz
            omega
          rw [← ht,htab]
          simp only [Kernel.table,hpd]
        have hge : a+pgSize ≤ ((pdx a).val+1)*2^22%2^32 ∧ pgSize ∣ ((pdx a).val+1)*2^22%2^32 := by
          obtain ⟨q,rfl⟩ := ha
          simp only [pdx_val,pgSize] at hlt ⊢
          simp only [kernBase] at hsz
          omega
        have hmn : ∀ n, a+n*pgSize ≤ ((pdx a).val+1)*2^22%2^32 → M (a+n*pgSize) s.proc.pages := by
          intro n
          induction n with
          | zero => simpa using fun _ => hm
          | succ n ihn =>
            intro hn
            have hn' : a+n*pgSize < ((pdx a).val+1)*2^22%2^32 := by
              simp only [pgSize] at hn ⊢
              omega
            have hb2 : a+n*pgSize < 2^32 := lt_trans hn' (Nat.mod_lt _ (by decide))
            have h0 := hskip (a+n*pgSize) (by omega) hn'
            have hstep := hM (a+n*pgSize) s.proc.pages (Nat.dvd_add ha (Nat.dvd_mul_left _ _))
              (by omega) hb2 (Or.inr h0) (ihn (by omega))
            rw [pte_of_no_table h0] at hstep
            have hz : forgetPage c.build (s₀.proc.pgdir = d) (a+n*pgSize) 0#32 s.proc.pages =
                (s.proc.pages,0) := by simp [forgetPage,has]
            rw [hz] at hstep
            have he : a+(n+1)*pgSize = a+n*pgSize+pgSize := by
              rw [Nat.add_mul]
              omega
            rw [he]
            exact hstep.of_ok rfl
        obtain ⟨n,hn⟩ : ∃ n, ((pdx a).val+1)*2^22%2^32 = a+n*pgSize := by
          obtain ⟨q,hq⟩ := hge.2
          obtain ⟨r,rfl⟩ := ha
          refine ⟨q-r,?_⟩
          rw [hq,Nat.sub_mul]
          simp only [pgSize] at hq hge ⊢
          omega
        have hm' := hmn n (by omega)
        simp only [walkpgdir_false,ht,Option.map_none]
        rw [← hn] at hm'
        exact ih hge.2 (by omega) (by simp only [pgSize] at hf hge ⊢; omega)
          (h.skip (by omega) hskip hd) hm'
      | some t =>
        have ho : x86.own (vpn a) = true := (own_iff ha2).mpr (by omega)
        have hpte := h.pte_of_le hd ha ha2
        have hown : s.proc.pgdir = s₀.proc.pgdir := by rw [h.only.proc]
        simp only [walkpgdir_false,ht,Option.map_some]
        rw [deallocPage_eq h.wf hd ho ht,hpte,hown]
        have hstep := hM a s.proc.pages ha hlo ha2 (Or.inl hlt) hm
        by_cases hfound : 1 <
            (forgetPage c.build (s₀.proc.pgdir = d) a (s₀.pte d (vpn a)) s.proc.pages).2
        · simp only [checkFound,if_pos hfound] at hstep ⊢
          exact .error (hstep.of_error rfl)
        · simp only [checkFound,if_neg hfound] at hstep ⊢
          exact ih (Nat.dvd_add ha (Nat.dvd_refl _)) (by omega)
            (by simp only [pgSize] at hf ⊢; omega) (h.step hd hlo ha hlt hsz _) (hstep.of_ok rfl)
    · rw [if_neg hlt]
      exact .ok ⟨a,by omega,h,hm⟩

theorem pgSize_dvd_pgRoundUp (sz : ℕ) : pgSize ∣ pgRoundUp sz := Nat.dvd_mul_left _ _

theorem deallocuvm_spec {M : ℕ → ProcPages → Prop} {E : Fault → Prop} {newsz : ℕ} (h : Wf c S s)
    (hd : d ∈ S) (hsz : oldsz ≤ kernBase) (hlt : newsz < oldsz)
    (hM : ∀ b p, pgSize ∣ b → pgRoundUp newsz ≤ b → b < 2^32 →
      b < oldsz ∨ s.table d (vpn b) = none → M b p →
      Outcome (checkFound (forgetPage c.build (s.proc.pgdir = d) b (s.pte d (vpn b)) p).2 s)
        (fun _ => M (b+pgSize) (forgetPage c.build (s.proc.pgdir = d) b (s.pte d (vpn b)) p).1) E)
    (hm : M (pgRoundUp newsz) s.proc.pages) :
    Outcome (deallocuvm c d oldsz newsz s)
      (fun r => r.1 = newsz ∧ ∃ e, oldsz ≤ e ∧
        Released c S d (pgRoundUp newsz) oldsz s e r.2 ∧ M e r.2.proc.pages) E := by
  have hf : oldsz ≤ pgRoundUp newsz+(oldsz/pgSize+1)*pgSize := by
    simp only [pgSize]
    omega
  have hl := deallocuvmLoop_spec (c := c) (S := S) hd hsz hM (oldsz/pgSize+1)
    (pgSize_dvd_pgRoundUp newsz) le_rfl hf (Released.refl h le_rfl) hm
  rw [deallocuvm,if_neg (not_le.mpr hlt)]
  exact hl.bind fun s' hs' => .ok ⟨rfl,hs'⟩

end Loop

section Freevm
variable {c : Config} {S : Set Frame} {s s₁ : Kernel} {d : Frame}

theorem freeTables_spec (h₁ : Wf c S s₁) (hd : d ∈ S) (l : List (Fin 1024)) (hnd : l.Nodup)
    (hw : Wf c (S \ {d}) s) (hsame : Same (S \ {d}) ∅ s₁ s) (hdir : s.mem d = s₁.mem d)
    (hfresh : ∀ i ∈ l, ∀ t, x86.table s₁.mem d i = some t → FreshFrame c (S \ {d}) s t)
    (hfd : FreshFrame c (S \ {d}) s d) (honly : OnlyPages s₁ s)
    (hpages : s.proc.pages = s₁.proc.pages) :
    ∃ s', l.foldlM (fun s i =>
        if has (s.readPte (d,i)) pteP then kfree c (pteAddr (s.readPte (d,i))) s else .ok s) s = .ok s' ∧
      Wf c (S \ {d}) s' ∧ Same (S \ {d}) ∅ s₁ s' ∧ FreshFrame c (S \ {d}) s' d ∧ OnlyPages s₁ s' ∧
      s'.proc.pages = s₁.proc.pages := by
  induction l generalizing s with
  | nil => exact ⟨s,rfl,hw,hsame,hfd,honly,hpages⟩
  | cons i l ih =>
    obtain ⟨hi,hnd⟩ := List.nodup_cons.mp hnd
    rw [List.foldlM_cons]
    have hread : s.readPte (d,i) = readWord (s₁.mem d) i := by rw [Kernel.readPte,hdir]
    by_cases hp : has (s.readPte (d,i)) pteP = true
    · have ht : x86.table s₁.mem d i = some (pteAddr (s.readPte (d,i))) := by
        rw [hread] at hp ⊢
        exact link_eq_some.mpr ⟨hp,rfl⟩
      have hf := hfresh i List.mem_cons_self _ ht
      have hne : d ≠ pteAddr (s.readPte (d,i)) := h₁.dir_ne_table hd hd ht
      obtain ⟨hw',hs'⟩ := hf.free (A := ∅) hw
      simp only [hp,if_true,kfree_eq hf.valid]
      refine ih hnd hw' (hsame.trans hs') ?_ (fun j hj t htj => ?_) (hf.free_of_ne hfd hne)
        (honly.trans ⟨rfl,rfl,rfl⟩) hpages
      · exact (Function.update_of_ne hne _ _).trans hdir
      · refine hf.free_of_ne (hfresh j (List.mem_cons_of_mem _ hj) t htj) ?_
        rintro rfl
        have hu := h₁.inj (.table d j) (.table d i) _ hd hd htj ht
        cases hu
        exact hi hj
    · simp only [hp]
      exact ih hnd hw hsame hdir (fun j hj => hfresh j (List.mem_cons_of_mem _ hj)) hfd honly hpages

/-- `freevm` gives up one address space and leaves the others alone. -/
theorem freevm_spec {M : ℕ → ProcPages → Prop} {E : Fault → Prop} (h : Wf c S s) (hd : d ∈ S)
    (hM : ∀ b p, pgSize ∣ b → b < 2^32 → b < kernBase ∨ s.table d (vpn b) = none → M b p →
      Outcome (checkFound (forgetPage c.build (s.proc.pgdir = d) b (s.pte d (vpn b)) p).2 s)
        (fun _ => M (b+pgSize) (forgetPage c.build (s.proc.pgdir = d) b (s.pte d (vpn b)) p).1) E)
    (hm : M 0 s.proc.pages) :
    Outcome (freevm c d s)
      (fun s' => Wf c (S \ {d}) s' ∧ Same (S \ {d}) ∅ s s' ∧ OnlyPages s s' ∧
        ∃ e, kernBase ≤ e ∧ M e s'.proc.pages) E := by
  have hm' : M (pgRoundUp 0) s.proc.pages := (show pgRoundUp 0 = 0 by decide) ▸ hm
  have hdealloc : Outcome (deallocuvm c d kernBase 0 s) (fun r => r.1 = 0 ∧ ∃ e, kernBase ≤ e ∧
      Released c S d (pgRoundUp 0) kernBase s e r.2 ∧ M e r.2.proc.pages) E :=
    deallocuvm_spec h hd le_rfl (by decide) (fun b p h1 _ => hM b p h1) hm'
  unfold freevm
  refine hdealloc.bind ?_
  rintro ⟨r,s₁⟩ ⟨-,e,he,hrel,hme⟩
  have hsub : S \ {d} ⊆ S := Set.sdiff_subset
  have hsame : Same (S \ {d}) ∅ s s₁ := hrel.same.others hsub fun q hq hqd => hqd.2 hq.1
  obtain ⟨s₂,h2,hw2,hs2,hf2,ho2,hp2⟩ := freeTables_spec hrel.wf hd (List.finRange 1024)
    (List.nodup_finRange _) (hrel.wf.subset hsub) (Keeps.refl _) rfl
    (fun i _ t ht => hrel.wf.fresh_of_use (u := .table d i) hd ht)
    (hrel.wf.fresh_of_use (u := .dir d) hd rfl) (.refl s₁) rfl
  obtain ⟨hw3,hs3⟩ := hf2.free (A := ∅) hw2
  have h2' : freeTables c d s₁ = .ok s₂ := h2
  dsimp only
  rw [h2']
  change Outcome (kfree c d s₂) _ _
  rw [kfree_eq hf2.valid]
  refine .ok ⟨hw3,hsame.trans (hs2.trans hs3),(hrel.only.trans ho2).trans ⟨rfl,rfl,rfl⟩,e,he,?_⟩
  change M e s₂.proc.pages
  rw [hp2]
  exact hme

end Freevm

structure ListedOnce (p : ProcPages) : Prop where
  va : ∀ i j a, p.va i = some a → p.va j = some a → i = j
  diskVa : ∀ i j a, p.diskVa i = some a → p.diskVa j = some a → i = j

/-- The pages of `d` below `b` that are present are gone from `memory_pg_arr`, and the swapped-out ones from
`disk_pg_arr`. -/
structure Forgotten (s : Kernel) (d : Frame) (p₀ : ProcPages) (b : ℕ) (p : ProcPages) : Prop where
  va : ∀ i a, p.va i = some a → p₀.va i = some a
  resident : ∀ a, pgSize ∣ a → a < b → a < kernBase → has (s.pte d (vpn a)) pteP = true →
    ∀ i, p.va i ≠ some a
  swapped : ∀ a, pgSize ∣ a → a < b → a < kernBase → has (s.pte d (vpn a)) pteP = false →
    has (s.pte d (vpn a)) ptePG = true → ∀ i, p.diskVa i ≠ some a

section Forget
variable {s : Kernel} {d : Frame} {p₀ p : ProcPages} {b : Build} {own : Bool} {a : ℕ} {w : Word}

theorem forgetPage_of_unlisted (hp : has w pteP = true → ∀ i, p.va i ≠ some a)
    (hg : has w pteP = false → has w ptePG = true → ∀ i, p.diskVa i ≠ some a) :
    forgetPage b own a w p = (p,0) := by
  unfold forgetPage
  split
  · rfl
  · split
    · exact forgetResident_of_unlisted (hp ‹_›)
    · rename_i hnp
      split
      · exact forgetSwapped_of_unlisted (hg (by simpa using hnp) ‹_›)
      · rfl

theorem forgetPage_va (i : Slot) (h : (forgetPage b own a w p).1.va i = some e) : p.va i = some e := by
  unfold forgetPage at h
  split at h
  · exact h
  · split at h
    · rcases forgetResident_va (defaultAge b) own a p i with h' | h'
      · rwa [h'] at h
      · rw [h'.2] at h
        cases h
    · split at h
      · rwa [forgetSwapped_va] at h
      · exact h

theorem forgetPage_diskVa (i : Slot) (h : (forgetPage b own a w p).1.diskVa i = some e) :
    p.diskVa i = some e := by
  unfold forgetPage at h
  split at h
  · exact h
  · split at h
    · rwa [forgetResident_diskVa] at h
    · split at h
      · rcases forgetSwapped_diskVa own a p i with h' | h'
        · rwa [h'] at h
        · rw [h'.2] at h
          cases h
      · exact h

theorem ListedOnce.forgetPage (h : ListedOnce p) :
    ListedOnce (forgetPage b own a w p).1 ∧ (Xv6Paging.forgetPage b own a w p).2 ≤ 1 := by
  refine ⟨⟨fun i j e hi hj => h.va i j e (forgetPage_va i hi) (forgetPage_va j hj),
    fun i j e hi hj => h.diskVa i j e (forgetPage_diskVa i hi) (forgetPage_diskVa j hj)⟩,?_⟩
  unfold Xv6Paging.forgetPage
  split
  · exact Nat.zero_le _
  · split
    · by_cases hl : ∃ i, p.va i = some a
      · obtain ⟨i,hi⟩ := hl
        rw [forgetResident_of_unique hi fun j hj => h.va j i a hj hi]
      · rw [forgetResident_of_unlisted fun i hi => hl ⟨i,hi⟩]
        exact Nat.zero_le _
    · split
      · by_cases hl : ∃ i, p.diskVa i = some a
        · obtain ⟨i,hi⟩ := hl
          rw [forgetSwapped_of_unique hi fun j hj => h.diskVa j i a hj hi]
        · rw [forgetSwapped_of_unlisted fun i hi => hl ⟨i,hi⟩]
          exact Nat.zero_le _
      · exact Nat.zero_le _

theorem Forgotten.step (hb : b ≠ .none) (ha : pgSize ∣ a) (h : Forgotten s d p₀ a p) :
    Forgotten s d p₀ (a+pgSize) (forgetPage b own a (s.pte d (vpn a)) p).1 := by
  have hcase : ∀ e, pgSize ∣ e → e < a+pgSize → e < a ∨ e = a := by
    intro e he hlt
    obtain ⟨q,rfl⟩ := ha
    obtain ⟨r,rfl⟩ := he
    simp only [pgSize] at hlt ⊢
    omega
  refine ⟨fun i e hi => h.va i e (forgetPage_va i hi),fun e he hlt hk hp i hi => ?_,
    fun e he hlt hk hp hg i hi => ?_⟩
  · rcases hcase e he hlt with hlt | rfl
    · exact h.resident e he hlt hk hp i (forgetPage_va i hi)
    · simp only [forgetPage,if_neg hb,hp,if_true] at hi
      exact forgetResident_va_ne _ _ _ _ i hi
  · rcases hcase e he hlt with hlt | rfl
    · exact h.swapped e he hlt hk hp hg i (forgetPage_diskVa i hi)
    · simp only [forgetPage,if_neg hb,hp,hg,if_true,if_false,Bool.false_eq_true] at hi
      exact forgetSwapped_diskVa_ne _ _ _ i hi

theorem Forgotten.refl_zero (s : Kernel) (d : Frame) (p : ProcPages) : Forgotten s d p 0 p :=
  ⟨fun _ _ h => h,fun a _ h => (Nat.not_lt_zero a h).elim,fun a _ h => (Nat.not_lt_zero a h).elim⟩

theorem freevm_of_listedOnce {c : Config} {S : Set Frame} (hb : c.build ≠ .none) (h : Wf c S s)
    (hd : d ∈ S) (hl : ListedOnce s.proc.pages) :
    ∃ s', freevm c d s = .ok s' ∧ Wf c (S \ {d}) s' ∧ Same (S \ {d}) ∅ s s' ∧ OnlyPages s s' ∧
      ∃ e, kernBase ≤ e ∧ ListedOnce s'.proc.pages ∧ Forgotten s d s.proc.pages e s'.proc.pages := by
  refine Outcome.total_iff.mp (freevm_spec (M := fun e p => ListedOnce p ∧
    Forgotten s d s.proc.pages e p) h hd (fun b p hdvd _ _ hp => ?_) ⟨hl,.refl_zero s d _⟩)
  obtain ⟨hl',hf⟩ := @ListedOnce.forgetPage p c.build (s.proc.pgdir = d) b (s.pte d (vpn b)) hp.1
  rw [checkFound,if_neg (not_lt.mpr hf)]
  exact .ok ⟨hl',hp.2.step hb hdvd⟩

end Forget

end Xv6Paging
