import Xv6Paging.Paging.ExecPush

/-! # The initial stack

`exec` as a whole in the build without paging: it returns, it leaves the other address spaces alone, and if it succeeds,
user code finds the arguments on the stack.
-/
namespace Xv6Paging
open WordPage PageTree Pool

def Kernel.userWord (s : Kernel) (d : Frame) (a : ℕ) : Option Word := do
  let b0 ← s.userByte d a
  let b1 ← s.userByte d (a+1)
  let b2 ← s.userByte d (a+2)
  let b3 ← s.userByte d (a+3)
  return b3 ++ b2 ++ b1 ++ b0

def stackRegions (esp : ℕ) (argv : List CString) (ptrs : List ℕ) : List (ℕ × ℕ) :=
  (esp,(3+argv.length+1)*4) :: List.zipWith (fun a p => (p,a.strlen+1)) argv ptrs

def Apart (r q : ℕ × ℕ) : Prop := r.1+r.2 ≤ q.1 ∨ q.1+q.2 ≤ r.1

/-- The fake return address, the number of arguments, the address of the vector, the vector with its final
zero, and the strings, all of it in the stack page. -/
structure InitialStack (s : Kernel) (d : Frame) (sz esp : ℕ) (argv : List CString) (ptrs : List ℕ) : Prop where
  count : ptrs.length = argv.length
  ret : s.userWord d esp = some 0xffffffff#32
  argc : s.userWord d (esp+4) = some (BitVec.ofNat 32 argv.length)
  vector : s.userWord d (esp+8) = some (BitVec.ofNat 32 (esp+12))
  pointers : ∀ i p : ℕ, ptrs[i]? = some p → s.userWord d (esp+12+4*i) = some (BitVec.ofNat 32 p)
  last : s.userWord d (esp+12+4*argv.length) = some 0#32
  strings : ∀ (i : ℕ) (a : CString) (p : ℕ), argv[i]? = some a → ptrs[i]? = some p →
    4 ∣ p ∧ ∀ k ≤ a.strlen, s.userByte d (p+k) = some (a.byte k)
  apart : (stackRegions esp argv ptrs).Pairwise Apart
  inside : ∀ r ∈ stackRegions esp argv ptrs, sz-pgSize ≤ r.1 ∧ r.1+r.2 ≤ sz

variable {c : Config} {S X : Set Frame} {s s' : Kernel} {d : Frame} {m : ℕ → Byte} {a n sz esp hi lo : ℕ}
  {argv : List CString} {ptrs : List ℕ}

section Decode

theorem userWord_eq {w : Word} (h : ∀ k < 4, s.userByte d (a+k) = some (w.extractLsb' (8*k) 8)) :
    s.userWord d a = some w := by
  have hword := readWord_writeWord_same (fun _ => 0) 0 w
  simp only [readWord,writeWord_byteIndex] at hword
  simp only [Kernel.userWord,h 1 (by decide),h 2 (by decide),h 3 (by decide),show s.userByte d a = _ from h 0 (by decide)]
  exact congrArg some hword

theorem Laid.get {p i : ℕ} {a : CString} (h : Laid m hi argv ptrs lo) (ha : argv[i]? = some a) (hp : ptrs[i]? = some p) :
    4 ∣ p ∧ (∀ k ≤ a.strlen, m (p+k) = a.byte k) ∧ lo ≤ p ∧ p+(a.strlen+1) ≤ hi := by
  induction h generalizing i with
  | nil => cases ha
  | cons below aligned copied rest ih =>
    cases i with
    | zero =>
      cases ha
      cases hp
      exact ⟨aligned,copied,rest.le,below⟩
    | succ i =>
      obtain ⟨h1,h2,h3,h4⟩ := ih ha hp
      exact ⟨h1,h2,h3,by omega⟩

theorem Laid.regions (h : Laid m hi argv ptrs lo) :
    (List.zipWith (fun a p => (p,a.strlen+1)) argv ptrs).Pairwise Apart ∧
    ∀ r ∈ List.zipWith (fun (a : CString) p => (p,a.strlen+1)) argv ptrs, lo ≤ r.1 ∧ r.1+r.2 ≤ hi := by
  induction h with
  | nil => exact ⟨.nil,by simp⟩
  | cons below aligned copied rest ih =>
    rw [List.zipWith_cons_cons]
    refine ⟨List.pairwise_cons.mpr ⟨fun r hr => Or.inr (ih.2 r hr).2,ih.1⟩,fun r hr => ?_⟩
    rcases List.mem_cons.mp hr with rfl | hr
    · exact ⟨rest.le,below⟩
    · have hin := ih.2 r hr
      omega

theorem StackImage.initial (h : StackImage m sz esp argv ptrs)
    (hbyte : ∀ x, sz-pgSize ≤ x → x < sz → s.userByte d x = some (m x)) : InitialStack s d sz esp argv ptrs := by
  have hle := h.strings.le
  have hlow := h.low
  have hword : ∀ i < 3+argv.length+1,
      s.userWord d (esp+4*i) = some (BitVec.ofNat 32 ((stackVector esp ptrs).getD i 0)) := by
    intro i hi
    refine userWord_eq fun k hk => ?_
    rw [Nat.add_assoc,hbyte _ (by omega) (by omega),h.vector _ (by omega),arrayByte,show (4*i+k)/4 = i by omega,
      show (4*i+k)%4 = k by omega]
  have hget : ∀ i, (stackVector esp ptrs).getD (3+i) 0 = (ptrs ++ [0]).getD i 0 := by
    intro i
    rw [Nat.add_comm]
    rfl
  refine ⟨h.count,hword 0 (by omega),?_,hword 2 (by omega),fun i p hp => ?_,?_,fun i a p ha hp => ?_,?_,?_⟩
  · rw [← h.count]
    exact hword 1 (by omega)
  · have hi : i < ptrs.length := (List.getElem?_eq_some_iff.mp hp).1
    have hw := hword (3+i) (by rw [← h.count]; omega)
    rw [hget,List.getD_eq_getElem?_getD,List.getElem?_append_left hi,hp] at hw
    rw [show esp+12+4*i = esp+4*(3+i) by omega]
    exact hw
  · have hw := hword (3+argv.length) (by omega)
    rw [hget,List.getD_eq_getElem?_getD,← h.count,List.getElem?_append_right le_rfl,Nat.sub_self] at hw
    rw [show esp+12+4*argv.length = esp+4*(3+argv.length) by omega,← h.count]
    exact hw
  · obtain ⟨hal,hcopy,h1,h2⟩ := h.strings.get ha hp
    refine ⟨hal,fun k hk => ?_⟩
    rw [hbyte _ (by omega) (by omega),hcopy k hk]
  · obtain ⟨hpair,hin⟩ := h.strings.regions
    exact List.pairwise_cons.mpr ⟨fun r hr => Or.inl (hin r hr).1,hpair⟩
  · intro r hr
    rcases List.mem_cons.mp hr with rfl | hr
    · exact ⟨hlow,hle⟩
    · have hin := h.strings.regions.2 r hr
      omega

end Decode

section UserBytes
variable {x : ℕ}

theorem Stacked.userByte (h : Stacked c S d sz m s) (hx : x < sz-2*pgSize ∨ sz-pgSize ≤ x ∧ x < sz) :
    s.userByte d x = some (m x) := by
  obtain ⟨-,hroom,q,hq⟩ := h.bounds
  refine h.space.userByte ⟨Nat.dvd_mul_left _ _,?_⟩ (decide_eq_true ?_)
  · have hle : pgRoundDown x ≤ x := Nat.div_mul_le_self _ _
    omega
  · simp only [pgRoundDown,pgSize] at hx ⊢
    omega

theorem Stacked.userByte_guard (h : Stacked c S d sz m s) (hlo : sz-2*pgSize ≤ x) (hhi : x < sz-pgSize) :
    s.userByte d x = none := by
  rw [Kernel.userByte,Kernel.userCell,(h.closed_guard hlo hhi).1]
  rfl

theorem Stacked.userByte_congr {S' : Set Frame} {m' : ℕ → Byte} (h : Stacked c S d sz m s) (h' : Stacked c S' d sz m' s')
    (hm : ∀ x < sz-pgSize, m' x = m x) (hx : x < sz-pgSize) : s'.userByte d x = s.userByte d x := by
  rcases Nat.lt_or_ge x (sz-2*pgSize) with hlt | hge
  · rw [h.userByte (Or.inl hlt),h'.userByte (Or.inl hlt),hm x hx]
  · rw [h.userByte_guard hge hx,h'.userByte_guard hge hx]

end UserBytes

section Exits
variable {X' : Set Frame} {s₀ s₁ : Kernel}

theorem freevm_plain (hb : c.build = .none) (h : Wf c S s) (hd : d ∈ S) :
    ∃ s', freevm c d s = .ok s' ∧ Wf c (S \ {d}) s' ∧ Same (S \ {d}) ∅ s s' ∧ s'.proc = s.proc := by
  have hspec : Outcome (freevm c d s) (fun s' => Wf c (S \ {d}) s' ∧ Same (S \ {d}) ∅ s s' ∧ OnlyPages s s' ∧
      ∃ e, kernBase ≤ e ∧ s'.proc.pages = s.proc.pages) (fun _ => False) := by
    refine freevm_spec (M := fun _ p => p = s.proc.pages) h hd (fun b p _ _ _ hp => ?_) rfl
    have hforget : ∀ own w, forgetPage c.build own b w p = (p,0) := by simp [forgetPage,hb]
    rw [hforget]
    exact .ok hp
  obtain ⟨s',hrun,hwf,hsame,honly,e,-,hpages⟩ := Outcome.total_iff.mp hspec
  exact ⟨s',hrun,hwf,hsame,by rw [honly.proc,hpages]⟩

theorem execBad_spec (backup : ProcPages) (hb : c.build = .none) (hdS : d ∉ S) (hsame : Same S ∅ s₀ s)
    (halt : Alters c (insert d S) d X X' s s₁) :
    ∃ s', execBad c d backup s₁ = .ok (-1,s') ∧ Same S ∅ s₀ s' := by
  obtain ⟨s',hrun,-,hfree,-⟩ := freevm_plain hb halt.held.wf (Set.mem_insert d S)
  have hothers := halt.others
  rw [Set.insert_sdiff_self_of_notMem hdS] at hfree hothers
  refine ⟨s',?_,hsame.trans (hothers.trans hfree)⟩
  rw [execBad,hrun]
  simp only [hb,if_true]
  rfl

theorem Stacked.same {T : Set Frame} (h : Stacked c S d sz m s) (hT : T ⊆ S) (hd : d ∈ T) (hwf : Wf c T s')
    (hs : Same T ∅ s s') : Stacked c T d sz m s' := by
  have hsp : Space c T d (pagesBelow sz) (pagesOf m) (fun a _ => decide (a ≠ sz-2*pgSize)) s :=
    ⟨hd,h.space.wf.subset hT,h.space.user,h.space.present,h.space.bytes,h.space.access,h.space.absent⟩
  have hpte : ∀ k, s'.pte d k = s.pte d k := fun k => hs.entry d hd k (Set.notMem_empty _)
  refine ⟨hsp.same hwf hs,h.size,h.aligned,h.room,?_,h.device.kept fun k _ => hpte k⟩
  rw [hpte]
  exact h.guard

theorem execCommit_spec (entry sp : ℕ) (hb : c.build = .none) (hdS : d ∉ S) (hp : s.proc.pgdir ∈ S)
    (h : Stacked c (insert d S) d sz m s) :
    ∃ s', execCommit c d sz entry sp s = .ok (0,s') ∧ s'.proc.pgdir = d ∧ s'.proc.sz = sz ∧ s'.proc.esp = sp ∧
      Stacked c (insert d S \ {s.proc.pgdir}) d sz m s' := by
  have hd : d ∈ insert d S \ {s.proc.pgdir} := by
    refine ⟨Set.mem_insert d S,fun he => hdS ?_⟩
    rw [Set.mem_singleton_iff.mp he]
    exact hp
  have hwf : Wf c (insert d S) {s with proc := {s.proc with pgdir := d, sz := sz, eip := entry, esp := sp}} := h.space.wf
  obtain ⟨s',hrun,hwf',hsame,hproc⟩ := freevm_plain hb hwf (Set.mem_insert_of_mem d hp)
  refine ⟨s',?_,?_,?_,?_,h.same Set.sdiff_subset hd hwf' hsame⟩
  · rw [execCommit]
    simp only [hb,true_or,if_true]
    rw [hrun]
    rfl
  · rw [hproc]
  · rw [hproc]
  · rw [hproc]

end Exits

def execHdr (ip : Inode) : ElfHdr := elfHdr (readi ip (fun _ => 0) 0 elfHdrSize).2

/-- Without paging, `exec` comes to pushing the arguments in the state `s₁`, with the new directory `d` of size `sz`. -/
def Pushes (c : Config) (ip : Inode) (s : Kernel) (d : Frame) (sz : ℕ) (s₁ : Kernel) : Prop :=
  (readi ip (fun _ => 0) 0 elfHdrSize).1 = elfHdrSize ∧ (execHdr ip).magic = elfMagic ∧
  ∃ s₂ z s₃, setupkvm c s = .ok (some d,s₂) ∧
    loadSegments c ip d (execHdr ip).phnum (execHdr ip).phoff 0 s₂ = .ok (some z,s₃) ∧
    makeStack c d z s₃ = .ok (some sz,s₁)

section Exec
variable {ip : Inode} {s₁ : Kernel}

theorem Pushes.stacked (hb : c.build = .none) (hw : Wf c S s) (h : Pushes c ip s d sz s₁) :
    d ∉ S ∧ ∃ s₂ X X' m, Same S ∅ s s₂ ∧ s₂.proc = s.proc ∧ Alters c (insert d S) d X X' s₂ s₁ ∧
      Stacked c (insert d S) d sz m s₁ := by
  obtain ⟨-,-,s₂,z,s₃,hset,hload,hmake⟩ := h
  obtain ⟨d',hd,hdS,hnew⟩ | ⟨hnone,-⟩ := (setupkvm_spec hw).of_ok hset
  · cases hd
    obtain ⟨r,s',X₁,hrun,halt,hres⟩ := loadSegments_spec hb ip (execHdr ip).phnum (execHdr ip).phoff hnew.loaded
      hnew.held
    rw [hload] at hrun
    cases hrun
    have hdev := (setupkvm_device hw hset).kept halt.kernel
    obtain ⟨r,s',X₂,hrun,halt',hres'⟩ := makeStack_spec hb (hres z rfl) halt.held hdev
    rw [hmake] at hrun
    cases hrun
    exact ⟨hdS,s₂,_,X₂,_,hnew.mapping.same,hnew.mapping.proc,halt.trans halt',(hres' sz rfl).2⟩
  · cases hnone

theorem Pushes.unique {d' : Frame} {sz' : ℕ} {s₁' : Kernel} (h : Pushes c ip s d sz s₁) (h' : Pushes c ip s d' sz' s₁') :
    d' = d ∧ sz' = sz ∧ s₁' = s₁ := by
  obtain ⟨-,-,s₂,z,s₃,hset,hload,hmake⟩ := h
  obtain ⟨-,-,s₂',z',s₃',hset',hload',hmake'⟩ := h'
  rw [hset] at hset'
  cases hset'
  rw [hload] at hload'
  cases hload'
  rw [hmake] at hmake'
  cases hmake'
  exact ⟨rfl,rfl,rfl⟩

/-- Either `exec` comes to pushing the arguments, or it returns -1. -/
theorem exec_cases (hb : c.build = .none) (hw : Wf c S s) (argv : List CString) (ip : Inode) :
    (∃ s', exec c (some ip) argv s = .ok (-1,s') ∧ Same S ∅ s s' ∧ ∀ d sz s₁, ¬ Pushes c ip s d sz s₁) ∨
    ∃ d sz s₁, Pushes c ip s d sz s₁ ∧
      exec c (some ip) argv s = execArgs c argv s.proc.pages d sz (execHdr ip).entry s₁ := by
  by_cases hread : (readi ip (fun _ => 0) 0 elfHdrSize).1 = elfHdrSize
  swap
  · refine Or.inl ⟨s,?_,Keeps.refl _,fun _ _ _ hpush => hread hpush.1⟩
    rw [exec]
    dsimp only
    rw [if_pos hread]
  by_cases hmagic : (execHdr ip).magic = elfMagic
  swap
  · refine Or.inl ⟨s,?_,Keeps.refl _,fun _ _ _ hpush => hmagic hpush.2.1⟩
    rw [exec]
    dsimp only
    rw [if_neg (not_not.mpr hread)]
    exact if_pos hmagic
  obtain ⟨⟨r,s₂⟩,hset,⟨d,hd,hdS,hnew⟩ | ⟨hnone,-,hundone⟩⟩ := Outcome.total_iff.mp (setupkvm_spec hw)
  swap
  · obtain rfl : r = none := hnone
    refine Or.inl ⟨s₂,?_,hundone.same,?_⟩
    · rw [exec]
      dsimp only
      rw [if_neg (not_not.mpr hread)]
      refine (if_neg (not_not.mpr hmagic)).trans ?_
      rw [hset]
      simp only [hb,if_true]
      rfl
    · rintro d sz s₁ ⟨-,-,s₂,z,s₃,hset',-⟩
      rw [hset] at hset'
      cases hset'
  obtain rfl : r = some d := hd
  have hrun₀ : exec c (some ip) argv s = execImage c ip (execHdr ip) argv s.proc.pages d s₂ := by
    rw [exec]
    dsimp only
    rw [if_neg (not_not.mpr hread)]
    refine (if_neg (not_not.mpr hmagic)).trans ?_
    rw [hset]
    simp only [hb,if_true]
    rfl
  obtain ⟨r,s₃,X₁,hload,halt,hres⟩ := loadSegments_spec hb ip (execHdr ip).phnum (execHdr ip).phoff hnew.loaded
    hnew.held
  cases r with
  | none =>
    obtain ⟨s',hbad,hsame⟩ := execBad_spec s.proc.pages hb hdS hnew.mapping.same halt
    refine Or.inl ⟨s',?_,hsame,?_⟩
    · rw [hrun₀,execImage,hload]
      exact hbad
    · rintro d' sz s₁ ⟨-,-,s₂',z,s₃',hset',hload',-⟩
      rw [hset] at hset'
      cases hset'
      rw [hload] at hload'
      cases hload'
  | some z =>
    have hdev := (setupkvm_device hw hset).kept halt.kernel
    obtain ⟨r,s₄,X₂,hmake,halt',hres'⟩ := makeStack_spec hb (hres z rfl) halt.held hdev
    rw [hrun₀,execImage,hload]
    dsimp only [bind,Except.bind]
    rw [hmake]
    cases r with
    | none =>
      obtain ⟨s',hbad,hsame⟩ := execBad_spec s.proc.pages hb hdS hnew.mapping.same (halt.trans halt')
      refine Or.inl ⟨s',hbad,hsame,?_⟩
      rintro d' sz s₁ ⟨-,-,s₂',z',s₃',hset',hload',hmake'⟩
      rw [hset] at hset'
      cases hset'
      rw [hload] at hload'
      cases hload'
      rw [hmake] at hmake'
      cases hmake'
    | some sz => exact Or.inr ⟨d,sz,s₄,⟨hread,hmagic,s₂,z,s₃,hset,hload,hmake⟩,rfl⟩

/-- If `exec` returns 0, user code finds the arguments on the stack; if it returns -1, the address spaces
are as before. It returns 0 exactly if it comes to pushing the arguments and they fit into the stack page.
If not, nothing is written below the guard page, unless the string that does not fit starts below it. -/
theorem exec_arguments (hb : c.build = .none) (hw : Wf c S s) (hp : s.proc.pgdir ∈ S) (ip : Inode)
    (hargc : argv.length ≤ maxArg) (hlen : ∀ a ∈ argv, a.strlen < 2^25) :
    ∃ r s', exec c (some ip) argv s = .ok (r,s') ∧
      (r = -1 ∧ Same S ∅ s s' ∨ r = 0 ∧ ∃ ptrs s₁, Pushes c ip s s'.proc.pgdir s'.proc.sz s₁ ∧
        InitialStack s' s'.proc.pgdir s'.proc.sz s'.proc.esp argv ptrs ∧
        ∀ x < s'.proc.sz-pgSize, s'.userByte s'.proc.pgdir x = s₁.userByte s'.proc.pgdir x) ∧
      ∀ d sz s₁, Pushes c ip s d sz s₁ → (r = 0 ↔ FitsStack sz argv) ∧
        (¬ FitsStack sz argv → ∃ s₂, pushStack d argv sz s₁ = .ok (none,s₂) ∧
          ((∀ q a, layout (sz-pgSize) sz argv = .error (q,a) → ¬ StartsBelow sz q a) →
            ∀ x < sz-2*pgSize, s₂.userByte d x = s₁.userByte d x) ∧
          ∀ q a, layout (sz-pgSize) sz argv = .error (q,a) → StartsBelow sz q a → ∀ x < sz-2*pgSize,
            s₂.userByte d x = if stringTop q a ≤ x then some (a.byte (x-stringTop q a)) else s₁.userByte d x) := by
  obtain ⟨s',hrun,hsame,hno⟩ | ⟨d,sz,s₁,hpush,hrun⟩ := exec_cases hb hw argv ip
  · exact ⟨-1,s',hrun,Or.inl ⟨rfl,hsame⟩,fun d sz s₁ hpush => (hno d sz s₁ hpush).elim⟩
  obtain ⟨hdS,s₂,X,X',m,hsame,hproc,halt,hst⟩ := hpush.stacked hb hw
  by_cases hfit : FitsStack sz argv
  · obtain ⟨esp,ptrs,s₃,m',hstack,hst',halt',himage,hkeep⟩ := pushStack_fit hst halt.held hargc hfit
    have hp₃ : s₃.proc.pgdir ∈ S := by
      rw [halt'.proc,halt.proc,hproc]
      exact hp
    obtain ⟨s',hcommit,hdir,hsize,hesp,hfinal⟩ := execCommit_spec (execHdr ip).entry esp hb hdS hp₃ hst'
    refine ⟨0,s',?_,Or.inr ⟨rfl,ptrs,s₁,?_,?_,?_⟩,fun d' sz' s₁' hpush' => ?_⟩
    · rw [hrun,execArgs,hstack]
      exact hcommit
    · rw [hdir,hsize]
      exact hpush
    · rw [hdir,hsize,hesp]
      exact himage.initial fun x hlo hhi => hfinal.userByte (Or.inr ⟨hlo,hhi⟩)
    · rw [hdir,hsize]
      exact fun x hx => hst.userByte_congr hfinal hkeep hx
    · obtain ⟨rfl,rfl,rfl⟩ := hpush.unique hpush'
      exact ⟨⟨fun _ => hfit,fun _ => rfl⟩,fun hno => (hno hfit).elim⟩
  · obtain ⟨s₃,m',hstack,hst',halt',hkeep,hwrite⟩ := pushStack_misfit hst halt.held hargc hlen hfit
    obtain ⟨s',hbad,hsame'⟩ := execBad_spec s.proc.pages hb hdS hsame (halt.trans halt')
    refine ⟨-1,s',?_,Or.inl ⟨rfl,hsame'⟩,fun d' sz' s₁' hpush' => ?_⟩
    · rw [hrun,execArgs,hstack]
      exact hbad
    · obtain ⟨rfl,rfl,rfl⟩ := hpush.unique hpush'
      refine ⟨⟨fun hr => absurd hr (by decide),fun hf => (hfit hf).elim⟩,fun _ => ⟨s₃,hstack,fun hall x hx => ?_,?_⟩⟩
      · rw [hst.userByte (Or.inl hx),hst'.userByte (Or.inl hx),hkeep hall x hx]
      · intro q a hlay hbelow x hx
        rw [hst.userByte (Or.inl hx),hst'.userByte (Or.inl hx),hwrite q a hlay hbelow x hx]
        exact apply_ite some _ _ _

end Exec

section Sample

theorem pushes_sampleElf : ∃ d s₁ X, Pushes (sampleConfig .none) sampleElf (idleProcess 80) d 12288 s₁ ∧
    Held (sampleConfig .none) (insert d {0x400}) d X s₁ ∧
    Stacked (sampleConfig .none) (insert d {0x400}) d 12288 (loadImage sampleElf [⟨1,84,0,4,4096⟩] fun _ => 0) s₁ := by
  have hw : Wf (sampleConfig .none) {0x400} (idleProcess 80) := wf_frameRun (by decide) _
  obtain ⟨⟨r,s₂⟩,hset,⟨d,hd,-,hnew⟩ | ⟨-,hshort,-⟩⟩ := Outcome.total_iff.mp (setupkvm_spec hw)
  swap
  · exact absurd hshort (by decide)
  obtain rfl : r = some d := hd
  have hcount : s₂.freelist.length+65 = 80 := hnew.count
  obtain ⟨s₃,hload,hfree⟩ := loadSegments_sampleElf rfl hnew.loaded hnew.held (show 2 ≤ s₂.freelist.length by omega)
  obtain ⟨r,s',X₁,hrun,halt,hres⟩ := loadSegments_spec rfl sampleElf 1 52 hnew.loaded hnew.held
  rw [hload] at hrun
  cases hrun
  have hleft : s₂.freelist.length ≤ s₃.freelist.length+2 := hfree
  have hloaded := hres 4096 rfl
  obtain ⟨s₄,halloc,-⟩ := oldallocuvm_enough rfl 4096 12288 (by decide) (by decide) hloaded.space
    (fun b hle => hloaded.pages_zero hle) (show 2*((12288+pgSize-1)/pgSize) ≤ s₃.freelist.length by
      rw [show 2*((12288+pgSize-1)/pgSize) = 6 by decide]
      omega)
  obtain ⟨r,s₁,X₂,hmake,halt',hres'⟩ := makeStack_spec rfl hloaded halt.held ((setupkvm_device hw hset).kept halt.kernel)
  have hr : r = some 12288 := by
    have hrun := hmake
    rw [makeStack] at hrun
    dsimp only at hrun
    rw [allocuvm_eq_old rfl,show pgRoundUp 4096+2*pgSize = 12288 by decide,show pgRoundUp 4096 = 4096 by decide,
      halloc] at hrun
    dsimp only [bind,Except.bind] at hrun
    rw [if_neg (by decide)] at hrun
    obtain ⟨s₅,-,hrun⟩ := bind_eq_ok hrun
    cases hrun
    rfl
  obtain rfl := hr
  exact ⟨d,s₁,X₂,⟨rfl,rfl,s₂,4096,s₃,hset,hload,hmake⟩,halt'.held,(hres' 12288 rfl).2⟩

def shortArgument : CString := ⟨[104,105],by decide⟩

def longArgument : CString := ⟨List.replicate 9000 1,fun h => absurd (List.eq_of_mem_replicate h) (by decide)⟩

/-- A short argument is found on the stack. -/
theorem exec_arguments_short : ∃ s' ptrs,
    exec (sampleConfig .none) (some sampleElf) [shortArgument] (idleProcess 80) = .ok (0,s') ∧
    InitialStack s' s'.proc.pgdir s'.proc.sz s'.proc.esp [shortArgument] ptrs := by
  have hw : Wf (sampleConfig .none) {0x400} (idleProcess 80) := wf_frameRun (by decide) _
  obtain ⟨d,s₁,X,hpush,-,-⟩ := pushes_sampleElf
  have hfits : FitsStack 12288 [shortArgument] := ⟨12284,rfl,by decide⟩
  have hlen : ∀ a ∈ [shortArgument], a.strlen < 2^25 := by simp [shortArgument,CString.strlen]
  obtain ⟨r,s',hrun,hcases,hiff⟩ := exec_arguments rfl hw (Set.mem_singleton _) sampleElf (by decide) hlen
  obtain rfl : r = 0 := (hiff d 12288 s₁ hpush).1.mpr hfits
  obtain ⟨hneg,-⟩ | ⟨-,ptrs,-,-,hstack,-⟩ := hcases
  · exact absurd hneg (by decide)
  · exact ⟨s',ptrs,hrun,hstack⟩

/-- A string of 9000 bytes starts at 3284, and its first bytes are written there before `exec` returns -1. -/
theorem exec_argument_below : ∃ d s₁ s₂ s',
    exec (sampleConfig .none) (some sampleElf) [longArgument] (idleProcess 80) = .ok (-1,s') ∧
    Pushes (sampleConfig .none) sampleElf (idleProcess 80) d 12288 s₁ ∧ pushStack d [longArgument] 12288 s₁ = .ok (none,s₂) ∧
    3284 < 12288-2*pgSize ∧ s₁.userByte d 3284 = some 0 ∧ s₂.userByte d 3284 = some 1 := by
  have hw : Wf (sampleConfig .none) {0x400} (idleProcess 80) := wf_frameRun (by decide) _
  obtain ⟨d,s₁,X,hpush,hheld,hst⟩ := pushes_sampleElf
  have hlen : longArgument.strlen = 9000 := List.length_replicate
  have htop : stringTop 12288 longArgument = 3284 := by rw [stringTop,hlen]
  have hlay : layout (12288-pgSize) 12288 [longArgument] = .error (12288,longArgument) := by
    rw [layout,hlen]
    rfl
  have hbelow : StartsBelow 12288 12288 longArgument := by
    rw [StartsBelow,htop,hlen]
    decide
  have hmis : ¬ FitsStack 12288 [longArgument] := by
    rintro ⟨sp,hok,-⟩
    rw [hlay] at hok
    cases hok
  obtain ⟨s₂,m',hstack,hst',halt,-,hwrite⟩ := pushStack_misfit hst hheld (by decide) (by simp [hlen]) hmis
  obtain ⟨s',hrun,-,hno⟩ | ⟨d',sz,s₁',hpush',hrun⟩ := exec_cases rfl hw [longArgument] sampleElf
  · exact (hno _ _ _ hpush).elim
  obtain ⟨rfl,rfl,rfl⟩ := hpush.unique hpush'
  obtain ⟨hdS,-⟩ := hpush'.stacked rfl hw
  obtain ⟨s',hbad,-⟩ := execBad_spec (idleProcess 80).proc.pages rfl hdS (Keeps.refl _) halt
  refine ⟨d',s₁',s₂,s',?_,hpush',hstack,by decide,?_,?_⟩
  · rw [hrun,execArgs,hstack]
    exact hbad
  · rw [hst.userByte (Or.inl (by decide))]
    rfl
  · rw [hst'.userByte (Or.inl (by decide)),hwrite _ _ hlay hbelow 3284 (by decide),htop]
    rfl

end Sample

end Xv6Paging
