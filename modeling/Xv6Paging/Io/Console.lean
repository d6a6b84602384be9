import Xv6Paging.Library.RingBuffer
import Xv6Paging.Library.Runs
import Xv6Paging.Library.WordPage

/-! # Console input

`consoleintr` and `consoleread` of `console.c` on the ring `input`. An interrupt handles its
keys under `cons.lock`; a reader holds the lock except while it sleeps, so that its steps
reach from the call or from the end of a sleep to the return or to the next sleep. What
the keys show on the screen and the process listing of `^P` are left out. The history of
the console is the bytes committed by moving `w`, the bytes passed by `r`, the bytes
copied to readers, and the reads that returned.
-/
namespace Xv6Paging
open WordPage RingBuffer Function

structure Input where
  buf : Fin 128 → Byte
  r : Counter
  w : Counter
  e : Counter

inductive ConsoleExit
  | returned
  | failed
  | asleep
  deriving DecidableEq

namespace Input

theorem size_pos : 0 < 128 := by decide

def newline : Byte := 10
def carriageReturn : Byte := 13
def ctrlD : Byte := 4
def ctrlH : Byte := 8
def ctrlP : Byte := 16
def ctrlU : Byte := 21
def del : Byte := 127

/-- The loop of `^U`; the number of steps is at most that of the bytes being edited. -/
def killLine : ℕ → Input → Input
  | 0, i => i
  | n+1, i =>
    if i.e ≠ i.w ∧ i.buf (cell size_pos (i.e-1)) ≠ newline then killLine n {i with e := i.e-1} else i

/-- Stores a byte and commits the line if the byte ends it or fills the ring. -/
def accept (i : Input) (c : Byte) : Input :=
  {i with
    buf := put size_pos i.buf i.e c
    e := i.e+1
    w := if c = newline ∨ c = ctrlD ∨ i.e+1 = i.r+128 then i.e+1 else i.w}

/-- One turn of the loop of `consoleintr`. -/
def key (i : Input) (c : Byte) : Input :=
  if c = ctrlP then i
  else if c = ctrlU then killLine (span i.w i.e) i
  else if c = ctrlH ∨ c = del then (if i.e ≠ i.w then {i with e := i.e-1} else i)
  else if c ≠ 0 ∧ (i.e-i.r).toNat < 128 then i.accept (if c = carriageReturn then newline else c)
  else i

/-- The loop of `consoleread` with `left` bytes to read of `target`, and the bytes copied so far. -/
def consoleread (killed : Bool) (target : ℕ) : ℕ → Input → List Byte → Input × List Byte × ConsoleExit
  | 0, i, got => (i,got,.returned)
  | left+1, i, got =>
    if i.r = i.w then (i,got,if killed then .failed else .asleep)
    else
      let c := i.buf (cell size_pos i.r)
      let j := {i with r := i.r+1}
      if c = ctrlD then (if left+1 < target then {j with r := j.r-1} else j,got,.returned)
      else if c = newline then (j,got ++ [c],.returned)
      else consoleread killed target left j (got ++ [c])

def unread (i : Input) : List Byte := contents size_pos i.buf i.r i.w

def pending (i : Input) : List Byte := contents size_pos i.buf i.w i.e

structure Window (i : Input) : Prop where
  order : span i.r i.w ≤ span i.r i.e
  room : span i.r i.e ≤ 128

def Edits (c : Byte) : Prop := c = ctrlU ∨ c = ctrlH ∨ c = del

def Ignored (i : Input) (c : Byte) : Prop := c = ctrlP ∨ c = 0 ∨ 128 ≤ (i.e-i.r).toNat

def typed (c : Byte) : Byte := if c = carriageReturn then newline else c

variable {i j : Input} {c : Byte}

/-- What an editing key may do: it drops a tail of the bytes typed since the last commit. -/
def Trims (i j : Input) : Prop :=
  j.buf = i.buf ∧ j.r = i.r ∧ j.w = i.w ∧ span j.w j.e ≤ span i.w i.e ∧ j.pending <+: i.pending

theorem trims_refl (i : Input) : Trims i i := ⟨rfl,rfl,rfl,le_refl _,[],List.append_nil _⟩

theorem trims_back (hne : i.e ≠ i.w) : Trims i {i with e := i.e-1} := by
  have hspan := span_unpush (Ne.symm hne)
  refine ⟨rfl,rfl,rfl,?_,[i.buf (cell size_pos (i.e-1))],?_⟩
  · change span i.w (i.e-1) ≤ span i.w i.e
    omega
  · exact (contents_unpush (Ne.symm hne)).symm

theorem Trims.trans {k : Input} (h : Trims i j) (hk : Trims j k) : Trims i k :=
  ⟨hk.1.trans h.1,hk.2.1.trans h.2.1,hk.2.2.1.trans h.2.2.1,hk.2.2.2.1.trans h.2.2.2.1,
    hk.2.2.2.2.trans h.2.2.2.2⟩

theorem trims_killLine (n : ℕ) (i : Input) : Trims i (killLine n i) := by
  induction n generalizing i with
  | zero => exact trims_refl i
  | succ n ih =>
    rw [killLine]
    split
    · next h => exact (trims_back h.1).trans (ih _)
    · exact trims_refl i

theorem key_edits (h : Edits c) : Trims i (i.key c) := by
  rw [key]
  split
  · exact trims_refl i
  · split
    · exact trims_killLine _ i
    · next hU =>
      rw [if_pos (h.resolve_left hU)]
      split
      · next hne => exact trims_back hne
      · exact trims_refl i

theorem key_ignored (h : ¬ Edits c) (hi : Ignored i c) : i.key c = i := by
  obtain ⟨hU,hH⟩ := not_or.mp h
  rw [key]
  split
  · rfl
  · next hP =>
    refine if_neg ?_
    rintro ⟨h0,hroom⟩
    rcases hi with hc | hc | hc
    · exact hP hc
    · exact h0 hc
    · omega

theorem key_types (h : ¬ Edits c) (hi : ¬ Ignored i c) : span i.r i.e < 128 ∧ i.key c = i.accept (typed c) := by
  obtain ⟨hU,hH⟩ := not_or.mp h
  obtain ⟨hP,hi⟩ := not_or.mp hi
  obtain ⟨h0,hroom⟩ := not_or.mp hi
  rw [key,if_neg hP,if_neg hU,if_neg hH,if_pos ⟨h0,not_le.mp hroom⟩]
  exact ⟨not_le.mp hroom,rfl⟩

theorem accept_w (i : Input) (c : Byte) : (i.accept c).w = i.w ∨ (i.accept c).w = (i.accept c).e := by
  by_cases hc : c = newline ∨ c = ctrlD ∨ i.e+1 = i.r+128
  · exact .inr (if_pos hc)
  · exact .inl (if_neg hc)

theorem Trims.unread (h : Trims i j) : j.unread = i.unread := by
  rw [Input.unread,h.1,h.2.1,h.2.2.1]
  rfl

theorem Window.trims (hw : Window i) (h : Trims i j) : Window j := by
  obtain ⟨hbuf,hr,hw',hspan,-⟩ := h
  have hi := span_trans hw.order
  have hroom := hw.room
  rw [hw'] at hspan
  have hlt : span i.r i.w+span i.w j.e < 2^32 := by omega
  have hj : span i.r j.e = span i.r i.w+span i.w j.e := by
    simp only [span,BitVec.toNat_sub] at hlt ⊢
    omega
  constructor
  · rw [hr,hw',hj]
    omega
  · rw [hr,hj]
    omega

theorem span_accept (h : span i.r i.e < 128) : span i.r (i.e+1) = span i.r i.e+1 := span_push (by omega)

theorem Window.accept (hw : Window i) (h : span i.r i.e < 128) (c : Byte) : Window (i.accept c) := by
  have hspan := span_accept h
  have horder := hw.order
  constructor
  · rcases accept_w i c with hk | hk
    · rw [hk]
      change span i.r i.w ≤ span i.r (i.e+1)
      omega
    · rw [hk]
  · change span i.r (i.e+1) ≤ 128
    omega

theorem Window.key (hw : Window i) (c : Byte) : Window (i.key c) := by
  by_cases hc : Edits c
  · exact hw.trims (key_edits hc)
  · by_cases hi : Ignored i c
    · rw [key_ignored hc hi]
      exact hw
    · obtain ⟨hroom,hk⟩ := key_types hc hi
      rw [hk]
      exact hw.accept hroom _

theorem Window.key_unread (hw : Window i) (c : Byte) :
    (i.key c).unread = i.unread ++ contents size_pos (i.key c).buf i.w (i.key c).w := by
  by_cases hc : Edits c
  · have htrim : Trims i (i.key c) := key_edits hc
    rw [htrim.unread,htrim.2.2.1,contents_self,List.append_nil]
  · by_cases hi : Ignored i c
    · rw [key_ignored hc hi,contents_self,List.append_nil]
    · obtain ⟨hroom,hk⟩ := key_types hc hi
      rw [hk]
      generalize typed c = b
      have hkeep : contents size_pos (i.accept b).buf i.r i.w = i.unread :=
        contents_put (by decide) hw.order hroom b
      have hspan := span_accept hroom
      have horder : span i.r i.w ≤ span i.r (i.accept b).w := by
        rcases accept_w i b with hb | hb
        · rw [hb]
        · rw [hb]
          have hold := hw.order
          change span i.r i.w ≤ span i.r (i.e+1)
          omega
      rw [← hkeep]
      exact contents_split horder

theorem Window.key_typed (hw : Window i) (hc : ¬ Edits c) (hi : ¬ Ignored i c) :
    (i.key c).unread ++ (i.key c).pending = i.unread ++ i.pending ++ [typed c] := by
  obtain ⟨hroom,hk⟩ := key_types hc hi
  rw [hk]
  generalize typed c = b
  have hnew : contents size_pos (i.accept b).buf i.r (i.e+1) = contents size_pos i.buf i.r i.e ++ [b] :=
    contents_push (by decide) (by decide) hroom b
  have hafter : contents size_pos (i.accept b).buf (i.accept b).r (i.accept b).e =
      (i.accept b).unread ++ (i.accept b).pending := contents_split (hw.accept hroom b).order
  have hbefore : contents size_pos i.buf i.r i.e = i.unread ++ i.pending := contents_split hw.order
  exact hafter.symm.trans (hnew.trans (congrArg (· ++ [b]) hbefore))

def passed (i j : Input) : List Byte := contents size_pos i.buf i.r j.r

/-- A stretch of `consoleread` from `i` to `j` that copies `new`, with `left` bytes to read before it, and
`kept` bytes copied before. -/
structure Stretch (left : ℕ) (i j : Input) (kept new : List Byte) (x : ConsoleExit) : Prop where
  frame : j.buf = i.buf ∧ j.w = i.w ∧ j.e = i.e
  order : span i.r j.r ≤ span i.r i.w
  passed : i.passed j = new ∨ kept ++ new = [] ∧ i.passed j = [ctrlD]
  plain : ∀ b ∈ new, b ≠ ctrlD
  lines : ∀ b ∈ new.dropLast, b ≠ newline
  length : new.length ≤ left
  asleep : x = .asleep → i.passed j = new ∧ new.length < left ∧ ∀ b ∈ new, b ≠ newline
  stop : x = .returned → new.length = left ∨ new.getLast? = some newline ∨
    (kept ++ new ≠ [] ∧ j.unread.head? = some ctrlD) ∨ (kept ++ new = [] ∧ i.passed j = [ctrlD])

theorem stretch_nil {left : ℕ} {kept : List Byte} {x : ConsoleExit} (hsleep : x = .asleep → 0 < left)
    (hstop : x = .returned → left = 0 ∨ kept ≠ [] ∧ i.unread.head? = some ctrlD) :
    Stretch left i i kept [] x where
  frame := ⟨rfl,rfl,rfl⟩
  order := by rw [span_self]; exact Nat.zero_le _
  passed := .inl contents_self
  plain := by intro b hb; cases hb
  lines := by intro b hb; cases hb
  length := Nat.zero_le _
  asleep hx := ⟨contents_self,hsleep hx,by intro b hb; cases hb⟩
  stop hx := by
    rw [List.append_nil]
    rcases hstop hx with hleft | hkept
    · exact .inl hleft.symm
    · exact .inr (.inr (.inl hkept))

theorem unread_cons (hne : i.r ≠ i.w) :
    i.unread = i.buf (cell size_pos i.r) :: Input.unread {i with r := i.r+1} := contents_pop hne

theorem passed_cons (hne : i.r ≠ i.w) (horder : span (i.r+1) j.r ≤ span (i.r+1) i.w) :
    span i.r j.r = span (i.r+1) j.r+1 ∧
      i.passed j = i.buf (cell size_pos i.r) :: Input.passed {i with r := i.r+1} j := by
  have hw := span_pop hne
  have hlt : span i.r i.w < 2^32 := BitVec.isLt _
  have hj : i.r ≠ j.r := by
    intro he
    rw [← he] at horder
    simp only [span,BitVec.toNat_sub,BitVec.toNat_add,BitVec.ofNat_eq_ofNat,BitVec.toNat_ofNat] at horder hw hlt
    omega
  exact ⟨(span_pop hj).symm,contents_pop hj⟩

@[simp] theorem passed_self : i.passed i = [] := contents_self

theorem passed_one (hne : i.r ≠ i.w) :
    span i.r (i.r+1) = 1 ∧ i.passed {i with r := i.r+1} = [i.buf (cell size_pos i.r)] := by
  have hzero : span (i.r+1) (i.r+1) ≤ span (i.r+1) i.w := by
    rw [span_self]
    exact Nat.zero_le _
  have hone := passed_cons (j := {i with r := i.r+1}) hne hzero
  rwa [span_self,passed_self] at hone

theorem stretch_eof {left : ℕ} (hne : i.r ≠ i.w) (hD : i.buf (cell size_pos i.r) = ctrlD) :
    Stretch left i {i with r := i.r+1} [] [] .returned := by
  obtain ⟨hspan,hpassed⟩ := passed_one hne
  have hpop := span_pop hne
  rw [hD] at hpassed
  refine ⟨⟨rfl,rfl,rfl⟩,?_,.inr ⟨rfl,hpassed⟩,?_,?_,Nat.zero_le _,by rintro ⟨⟩,?_⟩
  · change span i.r (i.r+1) ≤ _
    omega
  · intro b hb
    cases hb
  · intro b hb
    cases hb
  · intro _
    exact .inr (.inr (.inr ⟨rfl,hpassed⟩))

theorem stretch_newline {left : ℕ} {kept : List Byte} (hne : i.r ≠ i.w)
    (hn : i.buf (cell size_pos i.r) = newline) :
    Stretch (left+1) i {i with r := i.r+1} kept [newline] .returned := by
  obtain ⟨hspan,hpassed⟩ := passed_one hne
  have hpop := span_pop hne
  rw [hn] at hpassed
  refine ⟨⟨rfl,rfl,rfl⟩,?_,.inl hpassed,?_,?_,Nat.succ_le_succ (Nat.zero_le _),by rintro ⟨⟩,?_⟩
  · change span i.r (i.r+1) ≤ _
    omega
  · intro b hb
    rw [List.mem_singleton] at hb
    subst hb
    decide
  · intro b hb
    cases hb
  · intro _
    exact .inr (.inl rfl)

theorem Stretch.cons {left : ℕ} {kept new : List Byte} {x : ConsoleExit} {b : Byte} (hne : i.r ≠ i.w)
    (hb : i.buf (cell size_pos i.r) = b) (hD : b ≠ ctrlD) (hn : b ≠ newline)
    (h : Stretch left {i with r := i.r+1} j (kept ++ [b]) new x) : Stretch (left+1) i j kept (b :: new) x := by
  obtain ⟨hspan,hpassed⟩ := passed_cons hne h.order
  have hw := span_pop hne
  have horder : span (i.r+1) j.r ≤ span (i.r+1) i.w := h.order
  have hcat : kept ++ [b] ++ new = kept ++ b :: new := by rw [List.append_assoc]; rfl
  have hkept : kept ++ [b] ++ new ≠ [] := by simp
  have hrest : Input.passed {i with r := i.r+1} j = new := by
    rcases h.passed with hp | ⟨hp,-⟩
    · exact hp
    · exact absurd hp hkept
  rw [hb,hrest] at hpassed
  refine ⟨h.frame,?_,.inl hpassed,?_,?_,Nat.succ_le_succ h.length,?_,?_⟩
  · omega
  · intro a ha
    rcases List.mem_cons.mp ha with rfl | ha
    · exact hD
    · exact h.plain a ha
  · intro a ha
    cases new with
    | nil => cases ha
    | cons y new =>
      rw [List.dropLast_cons_cons] at ha
      rcases List.mem_cons.mp ha with rfl | ha
      · exact hn
      · exact h.lines a ha
  · intro hx
    obtain ⟨-,hlen,hlines⟩ := h.asleep hx
    refine ⟨hpassed,Nat.succ_lt_succ hlen,?_⟩
    intro a ha
    rcases List.mem_cons.mp ha with rfl | ha
    · exact hn
    · exact hlines a ha
  · intro hx
    rcases h.stop hx with hlen | hlast | ⟨-,hhead⟩ | ⟨hnil,-⟩
    · exact .inl (congrArg (·+1) hlen)
    · right
      left
      rw [List.getLast?_cons,hlast]
      rfl
    · right
      right
      left
      exact ⟨by simp,hhead⟩
    · exact absurd hnil hkept

theorem consoleread_spec (killed : Bool) (target left : ℕ) (i : Input) (got : List Byte)
    (htarget : got.length+left = target) :
    ∃ new, (consoleread killed target left i got).2.1 = got ++ new ∧
      Stretch left i (consoleread killed target left i got).1 got new (consoleread killed target left i got).2.2 := by
  induction left generalizing i got with
  | zero =>
    refine ⟨[],(List.append_nil _).symm,stretch_nil ?_ ?_⟩
    · intro hx
      cases hx
    · intro _
      exact .inl rfl
  | succ left ih =>
    rw [consoleread]
    by_cases hempty : i.r = i.w
    · rw [if_pos hempty]
      refine ⟨[],(List.append_nil _).symm,stretch_nil ?_ ?_⟩
      · intro _
        exact Nat.succ_pos left
      · intro hx
        cases killed <;> cases hx
    · rw [if_neg hempty]
      dsimp only
      by_cases hD : i.buf (cell size_pos i.r) = ctrlD
      · rw [if_pos hD]
        refine ⟨[],(List.append_nil _).symm,?_⟩
        by_cases hstarted : left+1 < target
        · rw [if_pos hstarted]
          dsimp only
          rw [add_one_sub_one]
          refine stretch_nil (by rintro ⟨⟩) ?_
          intro _
          right
          refine ⟨?_,?_⟩
          · rintro rfl
            rw [List.length_nil] at htarget
            omega
          · rw [unread_cons hempty,hD]
            rfl
        · have hgot : got = [] := List.length_eq_zero_iff.mp (by omega)
          subst hgot
          rw [if_neg hstarted]
          exact stretch_eof hempty hD
      · rw [if_neg hD]
        by_cases hn : i.buf (cell size_pos i.r) = newline
        · rw [if_pos hn,hn]
          exact ⟨[newline],rfl,stretch_newline hempty hn⟩
        · rw [if_neg hn]
          obtain ⟨new,hnew,hstretch⟩ := ih {i with r := i.r+1} (got ++ [i.buf (cell size_pos i.r)]) (by
            rw [List.length_append,List.length_singleton]
            omega)
          refine ⟨i.buf (cell size_pos i.r) :: new,?_,hstretch.cons hempty rfl hD hn⟩
          rw [hnew,List.append_assoc]
          rfl

theorem Stretch.unread {left : ℕ} {kept new : List Byte} {x : ConsoleExit} (h : Stretch left i j kept new x) :
    i.unread = i.passed j ++ j.unread := by
  rw [Input.unread,contents_split h.order,Input.unread,h.frame.1,h.frame.2.1]
  rfl

theorem Stretch.window {left : ℕ} {kept new : List Byte} {x : ConsoleExit} (h : Stretch left i j kept new x)
    (hw : Window i) : Window j := by
  have horder := h.order
  have hiw := span_trans h.order
  have hie := span_trans (h.order.trans hw.order)
  have hwe := hw.order
  have hroom := hw.room
  constructor
  · rw [h.frame.2.1,h.frame.2.2]
    omega
  · rw [h.frame.2.2]
    omega

theorem Stretch.filter {left : ℕ} {kept new : List Byte} {x : ConsoleExit} (h : Stretch left i j kept new x) :
    (i.passed j).filter (fun b => decide (b ≠ ctrlD)) = new := by
  rcases h.passed with hp | ⟨hnil,hp⟩
  · rw [hp,List.filter_eq_self]
    intro b hb
    exact decide_eq_true (h.plain b hb)
  · rw [hp,(List.append_eq_nil_iff.mp hnil).2]
    rfl

end Input

inductive ConsoleCall
  | none
  | reading (n : ℤ) (got : List Byte)

/-- The ring, the readers that sleep, and the history. -/
structure Console where
  input : Input
  calls : ℕ → ConsoleCall
  committed : List Byte
  taken : List Byte
  delivered : List Byte
  replies : List (ℤ × List Byte)

inductive ConsoleAction
  | intr (keys : List Byte)
  | read (k : ℕ) (n : ℤ) (killed : Bool)
  | wake (k : ℕ) (killed : Bool)

namespace Console
open Input

def init (buf : Fin 128 → Byte) : Console := ⟨⟨buf,0,0,0⟩,fun _ => .none,[],[],[],[]⟩

def press (s : Console) (c : Byte) : Console :=
  {s with
    input := s.input.key c
    committed := s.committed ++ contents size_pos (s.input.key c).buf s.input.w (s.input.key c).w}

def consoleintr (s : Console) (keys : List Byte) : Console := keys.foldl press s

def read (s : Console) (k : ℕ) (n : ℤ) (got : List Byte) (killed : Bool) : Console :=
  let r := consoleread killed n.toNat (n.toNat-got.length) s.input got
  {s with
    input := r.1
    taken := s.taken ++ s.input.passed r.1
    delivered := s.delivered ++ r.2.1.drop got.length
    calls := update s.calls k (if r.2.2 = .asleep then .reading n r.2.1 else .none)
    replies := if r.2.2 = .returned then (n,r.2.1) :: s.replies else s.replies}

def step (s : Console) : ConsoleAction → Option Console
  | .intr keys => some (s.consoleintr keys)
  | .read k n killed =>
    match s.calls k with
    | .none => some (s.read k n [] killed)
    | .reading _ _ => none
  | .wake k killed =>
    match s.calls k with
    | .none => none
    | .reading n got => some (s.read k n got killed)

def Reaches (s t : Console) : Prop := Runs.Reaches step (fun _ _ => True) s t

/-- The bytes of a read that sleeps: fewer than it asks for, and no end of line or of file. -/
def Unfinished (n : ℤ) (got : List Byte) : Prop := got.length ≤ n.toNat ∧ ∀ b ∈ got, b ≠ ctrlD ∧ b ≠ newline

structure Sound (s : Console) : Prop where
  window : s.input.Window
  order : s.taken ++ s.input.unread = s.committed
  delivered : s.delivered = s.taken.filter fun b => decide (b ≠ ctrlD)
  calls : ∀ k n got, s.calls k = .reading n got → Unfinished n got

variable {s t : Console}

theorem Sound.press (h : s.Sound) (c : Byte) : (s.press c).Sound where
  window := h.window.key c
  order := by
    change s.taken ++ (s.input.key c).unread = s.committed ++ _
    rw [h.window.key_unread c,← h.order,List.append_assoc]
  delivered := h.delivered
  calls := h.calls

theorem Sound.consoleintr (h : s.Sound) (keys : List Byte) : (s.consoleintr keys).Sound := by
  induction keys generalizing s with
  | nil => exact h
  | cons c keys ih => exact ih (h.press c)

/-- How a read of `n` bytes ends that returns `bytes` in the step from `s` to `t`. -/
def Answers (s t : Console) (n : ℤ) (bytes : List Byte) : Prop :=
  bytes.length ≤ n.toNat ∧ (∀ b ∈ bytes, b ≠ ctrlD) ∧ (∀ b ∈ bytes.dropLast, b ≠ newline) ∧
    (bytes.length = n.toNat ∨ bytes.getLast? = some newline ∨
      (bytes ≠ [] ∧ t.input.unread.head? = some ctrlD) ∨ (bytes = [] ∧ t.taken = s.taken ++ [ctrlD]))

/-- What a stretch of a read does to the console. -/
theorem read_spec (k : ℕ) {n : ℤ} {got : List Byte} (hgot : got.length ≤ n.toNat) (killed : Bool) :
    ∃ new x, Stretch (n.toNat-got.length) s.input (s.read k n got killed).input got new x ∧
      (s.read k n got killed).committed = s.committed ∧
      (s.read k n got killed).taken = s.taken ++ s.input.passed (s.read k n got killed).input ∧
      (s.read k n got killed).delivered = s.delivered ++ new ∧
      (s.read k n got killed).calls =
        update s.calls k (if x = .asleep then .reading n (got ++ new) else .none) ∧
      (s.read k n got killed).replies = (if x = .returned then (n,got ++ new) :: s.replies else s.replies) := by
  obtain ⟨new,hnew,hstretch⟩ := consoleread_spec killed n.toNat (n.toNat-got.length) s.input got (by omega)
  refine ⟨new,_,hstretch,rfl,rfl,?_,?_,?_⟩
  · rw [read]
    dsimp only
    rw [hnew,List.drop_left]
  · rw [read]
    dsimp only
    rw [hnew]
  · rw [read]
    dsimp only
    rw [hnew]

theorem Sound.read (h : s.Sound) (k : ℕ) {n : ℤ} {got : List Byte} (hgot : Unfinished n got) (killed : Bool) :
    (s.read k n got killed).Sound := by
  obtain ⟨new,x,hstretch,hcommitted,htaken,hdelivered,hcalls,-⟩ := s.read_spec k hgot.1 killed
  refine ⟨hstretch.window h.window,?_,?_,?_⟩
  · rw [htaken,hcommitted,List.append_assoc,← hstretch.unread]
    exact h.order
  · rw [hdelivered,htaken,List.filter_append,hstretch.filter,h.delivered]
  · intro k' n' got' hk'
    rw [hcalls] at hk'
    by_cases hk : k' = k
    · subst hk
      rw [update_self] at hk'
      split at hk'
      · next hx =>
        cases hk'
        obtain ⟨-,hlen,hlines⟩ := hstretch.asleep hx
        have hgotlen := hgot.1
        refine ⟨?_,?_⟩
        · rw [List.length_append]
          omega
        · intro b hb
          rcases List.mem_append.mp hb with hb | hb
          · exact hgot.2 b hb
          · exact ⟨hstretch.plain b hb,hlines b hb⟩
      · cases hk'
    · rw [update_of_ne hk] at hk'
      exact h.calls k' n' got' hk'

theorem unfinished_nil (n : ℤ) : Unfinished n [] := ⟨Nat.zero_le _,by intro b hb; cases hb⟩

theorem step_cases (h : s.Sound) {a : ConsoleAction} (hstep : s.step a = some t) :
    (∃ keys, t = s.consoleintr keys) ∨ ∃ k n got killed, Unfinished n got ∧ t = s.read k n got killed := by
  cases a with
  | intr keys =>
    cases hstep
    exact .inl ⟨keys,rfl⟩
  | read k n killed =>
    rw [step] at hstep
    split at hstep
    · cases hstep
      exact .inr ⟨k,n,[],killed,unfinished_nil n,rfl⟩
    · cases hstep
  | wake k killed =>
    rw [step] at hstep
    split at hstep
    · cases hstep
    · next n got hk =>
      cases hstep
      exact .inr ⟨k,n,got,killed,h.calls k n got hk,rfl⟩

theorem Sound.step (h : s.Sound) {a : ConsoleAction} (hstep : s.step a = some t) : t.Sound := by
  rcases step_cases h hstep with ⟨keys,rfl⟩ | ⟨k,n,got,killed,hgot,rfl⟩
  · exact h.consoleintr keys
  · exact h.read k hgot killed

theorem sound_init (buf : Fin 128 → Byte) : (init buf).Sound where
  window := ⟨le_refl _,by change span 0 0 ≤ 128; rw [span_self]; decide⟩
  order := by
    change [] ++ contents size_pos buf 0 0 = []
    rw [contents_self,List.append_nil]
  delivered := rfl
  calls := by
    intro k n got hk
    cases hk

theorem Reaches.sound {buf : Fin 128 → Byte} (h : (init buf).Reaches s) : s.Sound :=
  Runs.Reaches.invariant h (sound_init buf) (by
    intro s a t hs _ hstep
    exact hs.step hstep)

theorem consoleintr_replies (keys : List Byte) : (s.consoleintr keys).replies = s.replies := by
  induction keys generalizing s with
  | nil => rfl
  | cons c keys ih => exact ih

theorem read_answers (k : ℕ) {n : ℤ} {got : List Byte} (hgot : Unfinished n got) (killed : Bool) {n' : ℤ}
    {bytes : List Byte} (hreply : (s.read k n got killed).replies = (n',bytes) :: s.replies) :
    Answers s (s.read k n got killed) n' bytes := by
  obtain ⟨new,x,hstretch,-,htaken,-,-,hreplies⟩ := s.read_spec k hgot.1 killed
  rw [hreplies] at hreply
  split at hreply
  · next hx =>
    cases hreply
    have hgotlen := hgot.1
    have hlen := hstretch.length
    refine ⟨?_,?_,?_,?_⟩
    · rw [List.length_append]
      omega
    · intro b hb
      rcases List.mem_append.mp hb with hb | hb
      · exact (hgot.2 b hb).1
      · exact hstretch.plain b hb
    · intro b hb
      rcases List.eq_nil_or_concat new with rfl | ⟨init,c,rfl⟩
      · rw [List.append_nil] at hb
        exact (hgot.2 b ((List.dropLast_sublist got).subset hb)).2
      · have hlines := hstretch.lines
        rw [List.concat_eq_append,← List.append_assoc,List.dropLast_concat] at hb
        rw [List.concat_eq_append,List.dropLast_concat] at hlines
        rcases List.mem_append.mp hb with hb | hb
        · exact (hgot.2 b hb).2
        · exact hlines b hb
    · rcases hstretch.stop hx with hfull | hlast | hkept | ⟨hnil,heof⟩
      · left
        rw [List.length_append]
        omega
      · right
        left
        rw [List.getLast?_append,hlast]
        rfl
      · exact .inr (.inr (.inl hkept))
      · right
        right
        right
        exact ⟨hnil,by rw [htaken,heof]⟩
  · exact absurd (congrArg List.length hreply) (by simp)

theorem Sound.answers (h : s.Sound) {a : ConsoleAction} (hstep : s.step a = some t) {n : ℤ} {bytes : List Byte}
    (hreply : t.replies = (n,bytes) :: s.replies) : Answers s t n bytes := by
  rcases step_cases h hstep with ⟨keys,rfl⟩ | ⟨k,n',got,killed,hgot,rfl⟩
  · rw [consoleintr_replies] at hreply
    exact absurd (congrArg List.length hreply) (by simp)
  · exact read_answers k hgot killed hreply

theorem read_eof {k : ℕ} {n : ℤ} {killed : Bool} (hn : 0 < n) (hhead : s.input.unread.head? = some ctrlD)
    (hstep : s.step (.read k n killed) = some t) :
    t.replies = (n,[]) :: s.replies ∧ t.taken = s.taken ++ [ctrlD] := by
  have hne : s.input.r ≠ s.input.w := by
    intro he
    rw [Input.unread,he,contents_self] at hhead
    cases hhead
  have hD : s.input.buf (cell size_pos s.input.r) = ctrlD := by
    rw [unread_cons hne] at hhead
    exact Option.some.inj hhead
  obtain ⟨left,hleft⟩ : ∃ left, n.toNat = left+1 := ⟨n.toNat-1,by omega⟩
  have hread : consoleread killed n.toNat n.toNat s.input [] =
      ({s.input with r := s.input.r+1},[],.returned) := by
    rw [hleft,consoleread,if_neg hne]
    dsimp only
    rw [if_pos hD,if_neg (lt_irrefl _)]
  have ht : t = s.read k n [] killed := by
    rw [step] at hstep
    split at hstep
    · exact (Option.some.inj hstep).symm
    · cases hstep
  rw [ht,read,List.length_nil,Nat.sub_zero,hread]
  refine ⟨rfl,?_⟩
  change s.taken ++ s.input.passed _ = _
  rw [(passed_one hne).2,hD]

end Console

/-- In every state of every run: the bytes committed are those taken by readers followed by those in the
ring, readers get them without the `^D`s, editing keys drop only bytes typed since the last commit, and a
read ends at a newline, a `^D` or when it has its bytes. -/
theorem console_line_discipline {buf : Fin 128 → Byte} {s : Console} (h : (Console.init buf).Reaches s) :
    ((s.input.w-s.input.r).toNat ≤ (s.input.e-s.input.r).toNat ∧ (s.input.e-s.input.r).toNat ≤ 128) ∧
    (s.taken ++ s.input.unread = s.committed ∧
      s.delivered = s.taken.filter fun b => decide (b ≠ Input.ctrlD)) ∧
    (∀ c, (Input.Edits c → Input.Trims s.input (s.input.key c)) ∧
      (¬ Input.Edits c → (s.input.Ignored c → s.input.key c = s.input) ∧ (¬ s.input.Ignored c →
        (s.input.key c).unread ++ (s.input.key c).pending =
          s.input.unread ++ s.input.pending ++ [Input.typed c]))) ∧
    (∀ a t n bytes, s.step a = some t → t.replies = (n,bytes) :: s.replies → Console.Answers s t n bytes) ∧
    ∀ k n killed t, 0 < n → s.input.unread.head? = some Input.ctrlD → s.step (.read k n killed) = some t →
      t.replies = (n,[]) :: s.replies ∧ t.taken = s.taken ++ [Input.ctrlD] := by
  have hsound := h.sound
  refine ⟨⟨hsound.window.order,hsound.window.room⟩,⟨hsound.order,hsound.delivered⟩,?_,?_,?_⟩
  · intro c
    exact ⟨Input.key_edits,fun hc => ⟨Input.key_ignored hc,hsound.window.key_typed hc⟩⟩
  · intro a t n bytes hstep hreply
    exact hsound.answers hstep hreply
  · intro k n killed t hn hhead hstep
    exact Console.read_eof hn hhead hstep

def typedLine : List ConsoleAction := [.intr [97,98,8,13,4],.read 0 5 false]

theorem console_line_discipline_typed : ∃ s, (Console.init fun _ => 0).Reaches s ∧ s.replies = [(5,[97,10])] ∧
    s.taken = [97,10] ∧ s.taken ++ s.input.unread = [97,10,4] := by
  have hrun : (Runs.exec Console.step (fun _ _ => True) typedLine (Console.init fun _ => 0)).map
      (fun s => decide (s.replies = [(5,[97,10])] ∧ s.taken = [97,10] ∧ s.committed = [97,10,4])) = some true := by
    decide +kernel
  obtain ⟨s,hs,hf⟩ := Runs.exists_reaches hrun
  obtain ⟨hreplies,htaken,hcommitted⟩ := of_decide_eq_true hf
  exact ⟨s,hs,hreplies,htaken,hcommitted ▸ (console_line_discipline hs).2.1.1⟩

end Xv6Paging
