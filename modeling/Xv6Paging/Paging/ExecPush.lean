import Xv6Paging.Paging.DeviceMap
import Xv6Paging.Paging.ExecLoad

/-! # Pushing the arguments

`exec` puts a guard page and a stack page above the image and pushes the argument strings and the vector. A string that
starts in the guard page, or that starts below zero and so in the device mapping, is refused before anything is copied.
A string that starts below the guard page is copied up to the guard page first.
-/
namespace Xv6Paging
open WordPage PageTree Pool

variable {c : Config} {S X : Set Frame} {s : Kernel} {d : Frame} {m : ℕ → Byte} {α : ℕ → Bool → Bool}
  {n sz va len : ℕ} {src : ℕ → Byte}

section CopyOut

theorem copyoutLoop_closed {fuel : ℕ} {t : Frame} (ht : s.table d (vpn va) = some t) (hu : s.userFrame d va = none)
    (hlen : 0 < len) : copyoutLoop d (fuel+1) va src len s = .ok (-1,s) := by
  have hvpn := vpn_roundDown va
  have huva : uva2ka d (pgRoundDown va) s = .ok none := by
    rw [uva2ka_eq (hvpn ▸ ht),userFrame_congr (s := s) (congrArg (s.pte d) hvpn),hu]
  rw [copyoutLoop,if_pos hlen]
  dsimp only
  rw [huva]
  rfl

theorem copyoutLoop_space {fuel : ℕ} (va len : ℕ) (src : ℕ → Byte) (h : Space c S d (pagesBelow sz) (pagesOf m) α s)
    (hh : Held c S d X s) (hsz : sz ≤ kernBase) (hfuel : len < fuel) (hend : 0 < n → va+n ≤ sz) (hn : n ≤ len)
    (hopen : ∀ k < n, α (pgRoundDown (va+k)) false = true)
    (hstop : n < len → s.userFrame d (va+n) = none ∧ (∃ t, s.table d (vpn (va+n)) = some t) ∧
      (0 < n → pgSize ∣ va+n)) :
    ∃ s', copyoutLoop d fuel va src len s = .ok (if n = len then 0 else -1,s') ∧
      Space c S d (pagesBelow sz) (pagesOf (blit id m va n src)) α s' ∧ Alters c S d X X s s' ∧
      ∀ k, s'.pte d k = s.pte d k := by
  have hsize : pgSize = 4096 := rfl
  induction fuel generalizing va len n s m src with
  | zero => exact (Nat.not_lt_zero _ hfuel).elim
  | succ fuel ih =>
    rcases Nat.eq_zero_or_pos n with rfl | hpos
    · rw [blit_zero]
      refine ⟨s,?_,h,.refl hh,fun _ => rfl⟩
      rcases Nat.eq_zero_or_pos len with rfl | hlen
      · rw [copyoutLoop,if_neg (Nat.lt_irrefl 0),if_pos rfl]
      · obtain ⟨hnone,⟨t,ht⟩,-⟩ := hstop hlen
        rw [Nat.add_zero] at hnone ht
        rw [copyoutLoop_closed ht hnone hlen,if_neg (Nat.ne_of_lt hlen)]
    · -- The first page is open; its part of the range is copied.
      have hle := hend hpos
      have hdown : pgRoundDown va+va%pgSize = va := by
        rw [pgRoundDown,Nat.mul_comm]
        exact Nat.div_add_mod va pgSize
      have hmod : va%pgSize < pgSize := Nat.mod_lt _ (by decide)
      have hpage : pgRoundDown va ∈ pagesBelow sz := ⟨Nat.dvd_mul_left _ _,by omega⟩
      have hu := h.user _ hpage
      have hp := h.present _ hpage
      have hframe := h.userFrame hpage (hopen 0 hpos)
      obtain ⟨t,ht⟩ := h.table hpage
      obtain ⟨cnt,hcnt⟩ : ∃ cnt, min (pgSize-(va-pgRoundDown va)) len = cnt := ⟨_,rfl⟩
      have hcn : cnt ≤ n ∧ va%pgSize+cnt ≤ pgSize ∧ (cnt < len → pgRoundDown va+pgSize = va+cnt) := by
        refine ⟨?_,by omega,by omega⟩
        rcases Nat.lt_or_ge n len with hlt | hge
        · obtain ⟨q,hq⟩ := (hstop hlt).2.2 hpos
          obtain ⟨r,hr⟩ : ∃ r, pgRoundDown va = pgSize*r := Nat.dvd_mul_left _ _
          rw [hsize] at *
          omega
        · omega
      obtain ⟨hcle,hpart,hnext⟩ := hcn
      have huva : uva2ka d (pgRoundDown va) s = .ok (some (pteAddr (s.pte d (vpn (pgRoundDown va))))) := by
        rw [uva2ka_eq ht,userFrame_congr (s := s) (congrArg (s.pte d) (vpn_roundDown va)),hframe,vpn_roundDown]
      have hoff : va-pgRoundDown va = va%pgSize := by omega
      have hpiece := h.piece (o := va%pgSize) (n := cnt) hpage hpart src
      rw [hdown] at hpiece
      obtain ⟨-,hsame,hptes⟩ := h.store hpage
        (blit Fin.val (s.mem (pteAddr (s.pte d (vpn (pgRoundDown va))))) (va%pgSize) cnt src)
      have hst := hh.storePage hu.own hp
        (blit Fin.val (s.mem (pteAddr (s.pte d (vpn (pgRoundDown va))))) (va%pgSize) cnt src)
      rw [copyoutLoop,if_pos (by omega)]
      dsimp only
      rw [huva]
      dsimp only [bind,Except.bind]
      rw [hcnt,hoff]
      generalize s.store (pteAddr (s.pte d (vpn (pgRoundDown va))))
        (blit Fin.val (s.mem (pteAddr (s.pte d (vpn (pgRoundDown va))))) (va%pgSize) cnt src) = s₁ at *
      have hwrap : (pgRoundDown va+pgSize)%2^32 = pgRoundDown va+pgSize := by
        have hk : kernBase < 2^31+1 := by decide
        rw [hsize]
        omega
      rw [hwrap]
      have hrest : ∀ k < len-cnt, pgRoundDown va+pgSize+k = va+(cnt+k) := by
        intro k hk
        rw [hnext (by omega)]
        omega
      have hopen' : ∀ k < n-cnt, α (pgRoundDown (pgRoundDown va+pgSize+k)) false = true := by
        intro k hk
        rw [hrest k (by omega)]
        exact hopen _ (by omega)
      have hstop' : n-cnt < len-cnt → s₁.userFrame d (pgRoundDown va+pgSize+(n-cnt)) = none ∧
          (∃ t, s₁.table d (vpn (pgRoundDown va+pgSize+(n-cnt))) = some t) ∧
          (0 < n-cnt → pgSize ∣ pgRoundDown va+pgSize+(n-cnt)) := by
        intro hlt
        obtain ⟨hnone,⟨t',ht'⟩,hal⟩ := hstop (by omega)
        rw [hrest _ hlt,show cnt+(n-cnt) = n by omega,userFrame_congr (s := s) (hptes _)]
        exact ⟨hnone,⟨t',hsame.table d h.dir _ _ ht'⟩,fun _ => hal hpos⟩
      obtain ⟨s',hrun,hsp,halt,hk⟩ := ih (n := n-cnt) (pgRoundDown va+pgSize) (len-cnt) (fun k => src (cnt+k)) hpiece
        hst.held (by omega) (fun hlt => by rw [Nat.add_comm] at hend; have := hnext (by omega); omega) (by omega)
        hopen' hstop'
      refine ⟨s',?_,?_,hst.trans halt,fun k => (hk k).trans (hptes k)⟩
      · rw [hrun]
        refine congrArg (fun r : ℤ => Except.ok (r,s')) ?_
        refine if_congr ?_ rfl rfl
        omega
      · rcases Nat.eq_zero_or_pos (n-cnt) with hz | hlt
        · rw [hz,blit_zero] at hsp
          rwa [show n = cnt by omega]
        · rw [hnext (by omega),blit_append,show cnt+(n-cnt) = n by omega] at hsp
          exact hsp

end CopyOut

structure Stacked (c : Config) (S : Set Frame) (d : Frame) (sz : ℕ) (m : ℕ → Byte) (s : Kernel) : Prop where
  space : Space c S d (pagesBelow sz) (pagesOf m) (fun a _ => decide (a ≠ sz-2*pgSize)) s
  size : sz < kernBase
  aligned : pgSize ∣ sz
  room : 2*pgSize ≤ sz
  guard : has (s.pte d (vpn (sz-2*pgSize))) pteU = false
  device : DeviceMapped d s

section MakeStack
variable {s' : Kernel} {X' : Set Frame} {w : Word}

theorem DeviceMapped.kept (h : DeviceMapped d s) (hk : ∀ k, x86.own k = false → s'.pte d k = s.pte d k) :
    DeviceMapped d s' := by
  intro va hlo hhi
  have ho : x86.own (vpn va) = false := by
    refine Bool.eq_false_iff.mpr fun ho => ?_
    have hlt := (own_iff hhi).mp ho
    simp only [devSpace,kernBase] at hlo hlt
    omega
  rw [hk _ ho]
  exact h va hlo hhi

theorem link_and_not_pteU : x86.link (w &&& ~~~pteU) = x86.link w := by
  have hp : has (w &&& ~~~pteU) pteP = has w pteP := by
    simp only [has_pteP,BitVec.getLsbD_and,BitVec.getLsbD_not]
    simp [pteU]
  have ha : pteAddr (w &&& ~~~pteU) = pteAddr w := by
    rw [pteAddr_and,show pteAddr (~~~pteU) = BitVec.allOnes 20 by decide,BitVec.and_allOnes]
  simp only [x86,hp,ha]

/-- `clearpteu` closes the guard page. -/
theorem clearpteu_spec (h : Space c S d (pagesBelow sz) (pagesOf m) (fun _ _ => true) s) (hh : Held c S d X s)
    (hal : pgSize ∣ sz) (hroom : 2*pgSize ≤ sz) :
    ∃ s', clearpteu d (sz-2*pgSize) s = .ok s' ∧ Alters c S d X X s s' ∧
      Space c S d (pagesBelow sz) (pagesOf m) (fun a _ => decide (a ≠ sz-2*pgSize)) s' ∧
      has (s'.pte d (vpn (sz-2*pgSize))) pteU = false ∧ s'.freelist = s.freelist := by
  have hsize : pgSize = 4096 := rfl
  have ha : sz-2*pgSize ∈ pagesBelow sz := ⟨Nat.dvd_sub hal (Nat.dvd_mul_left _ _),by omega⟩
  obtain ⟨t,ht⟩ := h.table ha
  have hu := h.user _ ha
  have hclosed : Space c S d (pagesBelow sz) (pagesOf m) (fun a _ => decide (a ≠ sz-2*pgSize)) s :=
    h.mono (fun _ _ => rfl) fun _ _ _ _ => rfl
  have hflags := hclosed.flags ha (link_and_not_pteU (w := s.pte d (vpn (sz-2*pgSize)))) fun st hst => by simp at hst
  refine ⟨_,?_,hh.setPte hu.own ht hflags.wf ?_,hflags,?_,rfl⟩
  · simp only [clearpteu,walkpgdir_of_table ht,readPte_eq ht,writePte_eq ht]
  · intro f hf
    rw [link_and_not_pteU] at hf
    obtain ⟨hp,rfl⟩ := link_eq_some.mp hf
    exact hh.page_mem hu.own hp
  · rw [h.wf.setPte_same h.dir ht,has_pteU,BitVec.getLsbD_and,BitVec.getLsbD_not]
    simp [pteU]

theorem pgRoundUp_idem (hsz : sz < kernBase) : pgRoundUp (pgRoundUp sz) = pgRoundUp sz := by
  simp only [pgRoundUp,pgSize,kernBase] at hsz ⊢
  omega

theorem makeStack_spec (hb : c.build = .none) (h : Loaded c S d sz m s) (hh : Held c S d X s) (hdev : DeviceMapped d s) :
    ∃ r s' X', makeStack c d sz s = .ok (r,s') ∧ Alters c S d X X' s s' ∧
      ∀ sz', r = some sz' → sz' = pgRoundUp sz+2*pgSize ∧ Stacked c S d sz' m s' := by
  have hsize : pgSize = 4096 := rfl
  obtain ⟨h1,h2⟩ := le_pgRoundUp h.size.le
  have hk : kernBase = 2^31 := by decide
  have hsp := h.space
  rw [← pagesBelow_roundUp h.size.le] at hsp
  rw [makeStack]
  dsimp only
  rw [allocuvm_eq_old hb]
  rcases Nat.lt_or_ge (pgRoundUp sz) kernBase with hlt | hge
  swap
  · -- No room below `KERNBASE`.
    rw [oldallocuvm,if_pos (by omega)]
    refine ⟨none,s,X,rfl,.refl hh,?_⟩
    rintro sz' ⟨⟩
  obtain ⟨r,s₁,halloc,hres⟩ := oldallocuvm_spec hb (pgRoundUp sz+2*pgSize) hlt hsp fun b hle => by
    rw [pgRoundUp_idem h.size] at hle
    exact h.pages_zero hle
  obtain ⟨X₁,halt⟩ := oldallocuvm_alters hh halloc
  rw [halloc]
  dsimp only [bind,Except.bind]
  by_cases hr : r = 0
  · rw [if_pos hr]
    refine ⟨none,s₁,X₁,rfl,halt,?_⟩
    rintro sz' ⟨⟩
  rw [if_neg hr]
  obtain ⟨hmax,hnew,hsp₁⟩ := hres.resolve_left hr
  obtain rfl : r = pgRoundUp sz+2*pgSize := by omega
  have hal : pgSize ∣ pgRoundUp sz+2*pgSize := Nat.dvd_add (pgSize_dvd_pgRoundUp sz) (Nat.dvd_mul_left _ _)
  obtain ⟨s₂,hclear,halt',hsp₂,hguard,-⟩ := clearpteu_spec hsp₁ halt.held hal (Nat.le_add_left _ _)
  have htotal := halt.trans halt'
  rw [hclear]
  refine ⟨some (pgRoundUp sz+2*pgSize),s₂,X₁,rfl,htotal,?_⟩
  rintro sz' ⟨⟩
  exact ⟨rfl,hsp₂,hnew,hal,Nat.le_add_left _ _,hguard,hdev.kept htotal.kernel⟩

end MakeStack

namespace Stacked

section
variable (h : Stacked c S d sz m s)
include h

theorem bounds : sz < 2^31 ∧ 2*4096 ≤ sz ∧ 4096 ∣ sz :=
  ⟨h.size,h.room,h.aligned⟩

theorem stack_aligned : 4 ∣ sz-pgSize := by
  obtain ⟨-,-,q,rfl⟩ := h.bounds
  simp only [pgSize]
  omega

theorem kept {m' : ℕ → Byte} {s' : Kernel}
    (hsp : Space c S d (pagesBelow sz) (pagesOf m') (fun a _ => decide (a ≠ sz-2*pgSize)) s')
    (hk : ∀ k, s'.pte d k = s.pte d k) : Stacked c S d sz m' s' := by
  refine ⟨hsp,h.size,h.aligned,h.room,?_,h.device.kept fun k _ => hk k⟩
  rw [hk]
  exact h.guard

theorem copyout_stack (hh : Held c S d X s) (hlo : sz-pgSize ≤ va) (hhi : va+len ≤ sz)
    (src : ℕ → Byte) : ∃ s', copyout d va src len s = .ok (0,s') ∧ Stacked c S d sz (blit id m va len src) s' ∧
      Alters c S d X X s s' := by
  obtain ⟨-,hroom,q,hq⟩ := h.bounds
  have hopen : ∀ k < len, decide (pgRoundDown (va+k) ≠ sz-2*pgSize) = true := by
    intro k hk
    refine decide_eq_true ?_
    simp only [pgRoundDown,pgSize] at hlo ⊢
    omega
  obtain ⟨s',hrun,hsp,halt,hk⟩ := copyoutLoop_space va len src h.space hh h.size.le (Nat.lt_succ_self len) (fun _ => hhi)
    le_rfl hopen fun hlt => (Nat.lt_irrefl _ hlt).elim
  rw [if_pos rfl] at hrun
  exact ⟨s',hrun,h.kept hsp hk,halt⟩

theorem closed_guard (hlo : sz-2*pgSize ≤ va) (hhi : va < sz-pgSize) :
    s.userFrame d va = none ∧ ∃ t, s.table d (vpn va) = some t := by
  obtain ⟨-,hroom,q,hq⟩ := h.bounds
  have hpage : pgRoundDown va = sz-2*pgSize := by
    simp only [pgRoundDown,pgSize] at hlo hhi ⊢
    omega
  have hmem : sz-2*pgSize ∈ pagesBelow sz := by
    refine ⟨Nat.dvd_sub h.aligned (Nat.dvd_mul_left _ _),?_⟩
    simp only [pgSize]
    omega
  have hvpn := vpn_roundDown va
  rw [hpage] at hvpn
  refine ⟨?_,hvpn ▸ h.space.table hmem⟩
  rw [Kernel.userFrame,← hvpn,h.guard,Bool.and_false]
  rfl

theorem copyout_guard (hlo : sz-2*pgSize ≤ va) (hhi : va < sz-pgSize) (hlen : 0 < len)
    (src : ℕ → Byte) : copyout d va src len s = .ok (-1,s) := by
  obtain ⟨hnone,t,ht⟩ := h.closed_guard hlo hhi
  exact copyoutLoop_closed ht hnone hlen

theorem copyout_device (hlo : devSpace ≤ va) (hhi : va < 2^32) (hlen : 0 < len)
    (src : ℕ → Byte) : copyout d va src len s = .ok (-1,s) := by
  obtain ⟨hp,hu⟩ := h.device va hlo hhi
  obtain ⟨t,ht⟩ := table_of_has hp
  refine copyoutLoop_closed ht ?_ hlen
  rw [Kernel.userFrame,hu,Bool.and_false]
  rfl

theorem copyout_below (hh : Held c S d X s) (hlo : va < sz-2*pgSize)
    (hhi : sz-2*pgSize < va+len) (src : ℕ → Byte) :
    ∃ s', copyout d va src len s = .ok (-1,s') ∧ Stacked c S d sz (blit id m va (sz-2*pgSize-va) src) s' ∧
      Alters c S d X X s s' := by
  obtain ⟨-,hroom,q,hq⟩ := h.bounds
  obtain ⟨n,hn⟩ : ∃ n, sz-2*pgSize-va = n := ⟨_,rfl⟩
  have hsum : va+n = sz-2*pgSize := by omega
  have hopen : ∀ k < n, decide (pgRoundDown (va+k) ≠ sz-2*pgSize) = true := by
    intro k hk
    refine decide_eq_true ?_
    have hle : pgRoundDown (va+k) ≤ va+k := Nat.div_mul_le_self _ _
    omega
  have hstop : n < len → s.userFrame d (va+n) = none ∧ (∃ t, s.table d (vpn (va+n)) = some t) ∧
      (0 < n → pgSize ∣ va+n) := by
    intro _
    rw [hsum]
    obtain ⟨hnone,ht⟩ := h.closed_guard le_rfl (by simp only [pgSize]; omega)
    exact ⟨hnone,ht,fun _ => Nat.dvd_sub h.aligned (Nat.dvd_mul_left _ _)⟩
  obtain ⟨s',hrun,hsp,halt,hk⟩ := copyoutLoop_space va len src h.space hh h.size.le (Nat.lt_succ_self len) (fun _ => by omega)
    (by omega) hopen hstop
  rw [if_neg (by omega)] at hrun
  rw [hn]
  exact ⟨s',hrun,h.kept hsp hk,halt⟩

end

end Stacked

def stringTop (sp : ℕ) (a : CString) : ℕ := (sp-(a.strlen+1))/4*4

/-- If the address of a string is below `lo`, the result is the stack pointer before it, with the string. -/
def layout (lo : ℕ) : ℕ → List CString → Except (ℕ × CString) ℕ
  | sp, [] => .ok sp
  | sp, a :: argv => if lo+(a.strlen+1) ≤ sp then layout lo (stringTop sp a) argv else .error (sp,a)

def StartsBelow (sz sp : ℕ) (a : CString) : Prop := a.strlen+1 ≤ sp ∧ stringTop sp a < sz-2*pgSize

inductive Laid (m : ℕ → Byte) : ℕ → List CString → List ℕ → ℕ → Prop
  | nil (hi : ℕ) : Laid m hi [] [] hi
  | cons {hi lo p : ℕ} {a : CString} {argv : List CString} {ptrs : List ℕ} (below : p+(a.strlen+1) ≤ hi)
    (aligned : 4 ∣ p) (copied : ∀ k ≤ a.strlen, m (p+k) = a.byte k) (rest : Laid m p argv ptrs lo) :
    Laid m hi (a :: argv) (p :: ptrs) lo

section PushArgs
variable {sp sp' q : ℕ} {a : CString} {argv : List CString} {ptrs : List ℕ}

theorem uintSub_of_le {x y : ℕ} (hx : x < 2^32) (h : y ≤ x) : uintSub x y = x-y := by
  rw [uintSub]
  omega

theorem stringTop_fit {lo : ℕ} (hsp : sp < 2^32) (hal : 4 ∣ lo) (hfit : lo+(a.strlen+1) ≤ sp) :
    uintSub sp (a.strlen+1)/4*4 = stringTop sp a ∧ lo ≤ stringTop sp a ∧ stringTop sp a+(a.strlen+1) ≤ sp ∧
      4 ∣ stringTop sp a := by
  rw [uintSub_of_le hsp (by omega)]
  simp only [stringTop]
  exact ⟨trivial,by omega,by omega,Nat.dvd_mul_left _ _⟩

theorem pushArgs_fit (argv : List CString) (ptrs : List ℕ) (h : Stacked c S d sz m s) (hh : Held c S d X s)
    (hlo : sz-pgSize ≤ sp) (hhi : sp ≤ sz) (hal : 4 ∣ sp) (hcount : ptrs.length+argv.length ≤ maxArg)
    (hlay : layout (sz-pgSize) sp argv = .ok sp') :
    ∃ new s' m', pushArgs d argv sp ptrs s = .ok (some (sp',ptrs ++ new),s') ∧ Stacked c S d sz m' s' ∧
      Alters c S d X X s s' ∧ Laid m' sp argv new sp' ∧ new.length = argv.length ∧ sz-pgSize ≤ sp' ∧ sp' ≤ sp ∧ 4 ∣ sp' ∧
      ∀ x, x < sp' ∨ sp ≤ x → m' x = m x := by
  induction argv generalizing sp ptrs s m with
  | nil =>
    cases hlay
    refine ⟨[],s,m,?_,h,.refl hh,.nil _,rfl,hlo,le_rfl,hal,fun _ _ => rfl⟩
    rw [List.append_nil]
    rfl
  | cons a argv ih =>
    obtain ⟨hsz,hroom,r,hr⟩ := h.bounds
    rw [layout] at hlay
    by_cases hfit : sz-pgSize+(a.strlen+1) ≤ sp
    swap
    · rw [if_neg hfit] at hlay
      cases hlay
    rw [if_pos hfit] at hlay
    obtain ⟨htop,hlow,hend,hal'⟩ := stringTop_fit (by omega) h.stack_aligned hfit
    obtain ⟨s₁,hcopy,hst,halt⟩ := h.copyout_stack hh hlow (hend.trans hhi) a.byte
    obtain ⟨new,s',m',hrun,hst',halt',hlaid,hlen,hlo',hhi',halign,hsame⟩ := ih (ptrs ++ [stringTop sp a]) hst halt.held
      hlow (by omega) hal' (by simp only [List.length_append,List.length_cons,List.length_nil] at hcount ⊢; omega) hlay
    refine ⟨stringTop sp a :: new,s',m',?_,hst',halt.trans halt',.cons hend hal' (fun k hk => ?_) hlaid,by simp [hlen],hlo',
      by omega,halign,fun x hx => ?_⟩
    · rw [pushArgs,if_neg (by simp only [List.length_cons] at hcount; omega)]
      dsimp only
      rw [htop,hcopy]
      dsimp only [bind,Except.bind]
      rw [if_neg (by decide),hrun,List.append_assoc]
      rfl
    · rw [hsame _ (Or.inr (Nat.le_add_right _ _)),blit]
      simp only [id]
      rw [if_pos (by omega),Nat.add_sub_cancel_left]
    · rw [hsame x (by omega),blit]
      simp only [id]
      rw [if_neg (by omega)]

theorem pushArgs_misfit (argv : List CString) (ptrs : List ℕ) (h : Stacked c S d sz m s) (hh : Held c S d X s)
    (hlo : sz-pgSize ≤ sp) (hhi : sp ≤ sz) (hal : 4 ∣ sp) (hcount : ptrs.length+argv.length ≤ maxArg)
    (hlen : ∀ a ∈ argv, a.strlen < 2^25) (hlay : layout (sz-pgSize) sp argv = .error (q,a)) :
    ∃ s' m', pushArgs d argv sp ptrs s = .ok (none,s') ∧ Stacked c S d sz m' s' ∧ Alters c S d X X s s' ∧
      (¬ StartsBelow sz q a → ∀ x < sz-2*pgSize, m' x = m x) ∧
      (StartsBelow sz q a → ∀ x < sz-2*pgSize,
        m' x = if stringTop q a ≤ x then a.byte (x-stringTop q a) else m x) := by
  induction argv generalizing sp ptrs s m with
  | nil => cases hlay
  | cons b argv ih =>
    obtain ⟨hsz,hroom,r,hr⟩ := h.bounds
    have hb := hlen b List.mem_cons_self
    have hlt : ¬ maxArg ≤ ptrs.length := by
      simp only [List.length_cons] at hcount
      omega
    rw [layout] at hlay
    rw [pushArgs,if_neg hlt]
    dsimp only
    by_cases hfit : sz-pgSize+(b.strlen+1) ≤ sp
    · rw [if_pos hfit] at hlay
      obtain ⟨htop,hlow,hend,hal'⟩ := stringTop_fit (by omega) h.stack_aligned hfit
      obtain ⟨s₁,hcopy,hst,halt⟩ := h.copyout_stack hh hlow (hend.trans hhi) b.byte
      obtain ⟨s',m',hrun,hst',halt',hkeep,hwrite⟩ := ih (ptrs ++ [stringTop sp b]) hst halt.held hlow (by omega) hal'
        (by simp only [List.length_append,List.length_cons,List.length_nil] at hcount ⊢; omega)
        (fun a ha => hlen a (List.mem_cons_of_mem b ha)) hlay
      have hsame : ∀ x < sz-2*pgSize, blit id m (stringTop sp b) (b.strlen+1) b.byte x = m x := by
        intro x hx
        rw [blit]
        simp only [id,pgSize] at hx hlow ⊢
        rw [if_neg (by omega)]
      refine ⟨s',m',?_,hst',halt.trans halt',fun hn x hx => (hkeep hn x hx).trans (hsame x hx),fun hs x hx => ?_⟩
      · rw [htop,hcopy]
        dsimp only [bind,Except.bind]
        rw [if_neg (by decide),hrun]
      · rw [hwrite hs x hx,hsame x hx]
    · rw [if_neg hfit] at hlay
      obtain ⟨rfl,rfl⟩ := Prod.mk.inj (Except.error.inj hlay)
      rcases Nat.lt_or_ge sp (b.strlen+1) with hwrap | hle
      · -- The address wraps around to a device.
        have hdev : devSpace ≤ uintSub sp (b.strlen+1)/4*4 ∧ uintSub sp (b.strlen+1)/4*4 < 2^32 := by
          simp only [uintSub,devSpace]
          omega
        rw [h.copyout_device hdev.1 hdev.2 (Nat.succ_pos _)]
        refine ⟨s,m,rfl,h,.refl hh,fun _ _ _ => rfl,fun hs => ?_⟩
        exact absurd hs.1 (not_le.mpr hwrap)
      have htop : uintSub sp (b.strlen+1)/4*4 = stringTop sp b := by
        rw [uintSub_of_le (by omega) hle]
        rfl
      have hhigh : stringTop sp b < sz-pgSize ∧ sz-2*pgSize < stringTop sp b+(b.strlen+1) := by
        simp only [stringTop,pgSize] at hfit hlo ⊢
        omega
      rw [htop]
      rcases Nat.lt_or_ge (stringTop sp b) (sz-2*pgSize) with hbelow | hguard
      · obtain ⟨s₁,hcopy,hst,halt⟩ := h.copyout_below hh hbelow hhigh.2 b.byte
        rw [hcopy]
        refine ⟨s₁,_,rfl,hst,halt,fun hn => (hn ⟨hle,hbelow⟩).elim,fun _ x hx => ?_⟩
        rw [blit]
        simp only [id]
        refine if_congr ?_ rfl rfl
        omega
      · rw [h.copyout_guard hguard hhigh.1 (Nat.succ_pos _)]
        refine ⟨s,m,rfl,h,.refl hh,fun _ _ _ => rfl,fun hs => ?_⟩
        exact absurd hs.2 (not_lt.mpr hguard)

end PushArgs

def stackVector (esp : ℕ) (ptrs : List ℕ) : List ℕ := [0xffffffff,ptrs.length,esp+12] ++ ptrs ++ [0]

def FitsStack (sz : ℕ) (argv : List CString) : Prop :=
  ∃ sp, layout (sz-pgSize) sz argv = .ok sp ∧ sz-pgSize+(3+argv.length+1)*4 ≤ sp

/-- The stack in a memory: the vector at `esp`, and above it the strings. -/
structure StackImage (m : ℕ → Byte) (sz esp : ℕ) (argv : List CString) (ptrs : List ℕ) : Prop where
  count : ptrs.length = argv.length
  low : sz-pgSize ≤ esp
  vector : ∀ k < (3+argv.length+1)*4, m (esp+k) = arrayByte (stackVector esp ptrs) k
  strings : Laid m sz argv ptrs (esp+(3+argv.length+1)*4)

section PushStack
variable {sp hi lo : ℕ} {argv : List CString} {ptrs : List ℕ} {m' : ℕ → Byte}

theorem Laid.le (h : Laid m hi argv ptrs lo) : lo ≤ hi := by
  induction h with
  | nil => exact le_rfl
  | cons below _ _ _ ih => omega

theorem Laid.congr (h : Laid m hi argv ptrs lo) (hm : ∀ x, lo ≤ x → m' x = m x) : Laid m' hi argv ptrs lo := by
  induction h with
  | nil hi => exact .nil hi
  | cons below aligned copied rest ih =>
    refine .cons below aligned (fun k hk => ?_) (ih hm)
    rw [← copied k hk]
    exact hm _ (rest.le.trans (Nat.le_add_right _ k))

section
variable (h : Stacked c S d sz m s)
include h

theorem pushVector_fit (hh : Held c S d X s) (hhi : sp ≤ sz) (hfit : sz-pgSize+(3+ptrs.length+1)*4 ≤ sp) :
    ∃ s', pushVector d sp ptrs s = .ok (some (sp-(3+ptrs.length+1)*4),s') ∧
      Stacked c S d sz (blit id m (sp-(3+ptrs.length+1)*4) ((3+ptrs.length+1)*4)
        (arrayByte (stackVector (sp-(3+ptrs.length+1)*4) ptrs))) s' ∧ Alters c S d X X s s' := by
  obtain ⟨hsz,-,-⟩ := h.bounds
  have hesp : uintSub sp ((3+ptrs.length+1)*4) = sp-(3+ptrs.length+1)*4 := uintSub_of_le (by omega) (by omega)
  have hptr : uintSub sp ((ptrs.length+1)*4) = sp-(3+ptrs.length+1)*4+12 := by
    rw [uintSub_of_le (by omega) (by omega)]
    omega
  obtain ⟨s',hcopy,hst,halt⟩ := h.copyout_stack hh (show sz-pgSize ≤ sp-(3+ptrs.length+1)*4 by omega)
    (show sp-(3+ptrs.length+1)*4+(3+ptrs.length+1)*4 ≤ sz by omega) (arrayByte (stackVector (sp-(3+ptrs.length+1)*4) ptrs))
  refine ⟨s',?_,hst,halt⟩
  rw [pushVector]
  dsimp only
  rw [hesp,hptr]
  change (copyout d _ (arrayByte (stackVector (sp-(3+ptrs.length+1)*4) ptrs)) _ s >>= _) = _
  rw [hcopy]
  rfl

theorem pushVector_misfit (hlo : sz-pgSize ≤ sp) (hhi : sp ≤ sz)
    (hcount : ptrs.length ≤ maxArg) (hmis : sp < sz-pgSize+(3+ptrs.length+1)*4) : pushVector d sp ptrs s = .ok (none,s) := by
  obtain ⟨hsz,hroom,-⟩ := h.bounds
  have hmax : maxArg = 32 := rfl
  have hesp : uintSub sp ((3+ptrs.length+1)*4) = sp-(3+ptrs.length+1)*4 := by
    refine uintSub_of_le (by omega) ?_
    simp only [pgSize] at hlo
    omega
  have hguard : sz-2*pgSize ≤ sp-(3+ptrs.length+1)*4 ∧ sp-(3+ptrs.length+1)*4 < sz-pgSize := by
    simp only [pgSize] at hlo hmis ⊢
    omega
  rw [pushVector]
  dsimp only
  rw [hesp,h.copyout_guard hguard.1 hguard.2 (by omega)]
  rfl

theorem Stacked.top : sz-pgSize ≤ sz ∧ 4 ∣ sz := by
  obtain ⟨-,-,q,rfl⟩ := h.bounds
  exact ⟨Nat.sub_le _ _,by omega⟩

theorem pushStack_fit (hh : Held c S d X s) (hargc : argv.length ≤ maxArg) (hfit : FitsStack sz argv) :
    ∃ esp ptrs s' m', pushStack d argv sz s = .ok (some esp,s') ∧ Stacked c S d sz m' s' ∧ Alters c S d X X s s' ∧
      StackImage m' sz esp argv ptrs ∧ ∀ x < sz-pgSize, m' x = m x := by
  obtain ⟨sp,hlay,hroom⟩ := hfit
  obtain ⟨htop,hal⟩ := h.top
  obtain ⟨ptrs,s₁,m₁,hpush,hst,halt,hlaid,hlen,hlo,hhi,-,hsame⟩ := pushArgs_fit argv [] h hh htop le_rfl hal
    (by simpa using hargc) hlay
  rw [← hlen] at hroom
  obtain ⟨s',hvec,hst',halt'⟩ := pushVector_fit hst halt.held hhi hroom
  refine ⟨sp-(3+ptrs.length+1)*4,ptrs,s',_,?_,hst',halt.trans halt',⟨hlen,by omega,fun k hk => ?_,?_⟩,fun x hx => ?_⟩
  · rw [pushStack,hpush]
    exact hvec
  · rw [← hlen] at hk
    rw [blit]
    simp only [id]
    rw [if_pos (by omega),Nat.add_sub_cancel_left]
  · rw [← hlen,show sp-(3+ptrs.length+1)*4+(3+ptrs.length+1)*4 = sp by omega]
    refine hlaid.congr fun x hx => ?_
    rw [blit]
    simp only [id]
    rw [if_neg (by omega)]
  · rw [blit]
    simp only [id]
    rw [if_neg (by omega)]
    exact hsame x (by omega)

theorem pushStack_misfit (hh : Held c S d X s) (hargc : argv.length ≤ maxArg)
    (hlen : ∀ a ∈ argv, a.strlen < 2^25) (hmis : ¬ FitsStack sz argv) :
    ∃ s' m', pushStack d argv sz s = .ok (none,s') ∧ Stacked c S d sz m' s' ∧ Alters c S d X X s s' ∧
      ((∀ q a, layout (sz-pgSize) sz argv = .error (q,a) → ¬ StartsBelow sz q a) → ∀ x < sz-2*pgSize, m' x = m x) ∧
      ∀ q a, layout (sz-pgSize) sz argv = .error (q,a) → StartsBelow sz q a → ∀ x < sz-2*pgSize,
        m' x = if stringTop q a ≤ x then a.byte (x-stringTop q a) else m x := by
  obtain ⟨htop,hal⟩ := h.top
  have hcount : ([] : List ℕ).length+argv.length ≤ maxArg := by simpa using hargc
  cases hlay : layout (sz-pgSize) sz argv with
  | error e =>
    obtain ⟨q,a⟩ := e
    obtain ⟨s',m',hpush,hst,halt,hkeep,hwrite⟩ := pushArgs_misfit argv [] h hh htop le_rfl hal hcount hlen hlay
    refine ⟨s',m',?_,hst,halt,fun hall => hkeep (hall q a rfl),?_⟩
    · rw [pushStack,hpush]
      rfl
    · rintro q a ⟨⟩
      exact hwrite
  | ok sp =>
    obtain ⟨ptrs,s₁,m₁,hpush,hst,halt,-,hcnt,hlo,hhi,-,hsame⟩ := pushArgs_fit argv [] h hh htop le_rfl hal hcount hlay
    have hshort : sp < sz-pgSize+(3+ptrs.length+1)*4 := by
      rw [hcnt]
      exact not_le.mp fun hle => hmis ⟨sp,hlay,hle⟩
    refine ⟨s₁,m₁,?_,hst,halt,fun _ x hx => hsame x ?_,?_⟩
    · rw [pushStack,hpush]
      exact pushVector_misfit hst hlo hhi (show ptrs.length ≤ maxArg by omega) hshort
    · simp only [pgSize] at hx hlo
      omega
    · rintro q a ⟨⟩

end

end PushStack

end Xv6Paging
