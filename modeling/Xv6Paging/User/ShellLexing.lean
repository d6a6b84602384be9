import Mathlib.Data.List.TakeWhile
import Xv6Paging.User.ShellGrammar

/-! # Reading tokens

What `gettoken` and `peek` see of a line are its tokens: a pointer stands for the tokens from it on, `peek` keeps
them and tells with which symbol they start, and `gettoken` takes the first one.
-/
namespace Xv6Paging.Shell
variable {line cs : List Char} {s : ℕ}

structure At (line : List Char) (s : ℕ) (cs : List Char) : Prop where
  le : s ≤ line.length
  drop : line.drop s = cs

namespace At

theorem of_le (h : s ≤ line.length) : At line s (line.drop s) := ⟨h,rfl⟩

theorem length (h : At line s cs) : s+cs.length = line.length := by
  have hle := h.le
  rw [← h.drop,List.length_drop]
  omega

theorem charAt_nil (h : At line s []) : charAt line s = nul := by
  have hlen := h.length
  rw [charAt,List.getD_eq_getElem?_getD,List.getElem?_eq_none (by simpa using hlen.ge)]
  rfl

theorem charAt_cons {c : Char} (h : At line s (c :: cs)) : charAt line s = c := by
  have hget := congrArg List.head? h.drop
  rw [List.head?_drop] at hget
  rw [charAt,List.getD_eq_getElem?_getD,hget]
  rfl

theorem succ {c : Char} (h : At line s (c :: cs)) : At line (s+1) cs := by
  have hlen := h.length
  rw [List.length_cons] at hlen
  refine ⟨by omega,?_⟩
  rw [← List.drop_drop,h.drop]
  rfl

theorem mem {c : Char} (h : At line s (c :: cs)) : c ∈ line := by
  refine List.mem_of_mem_drop (i := s) ?_
  rw [h.drop]
  exact List.mem_cons_self

theorem scanWhile (h : At line s cs) (p : Char → Bool) (fuel : ℕ) (hfuel : cs.length ≤ fuel) :
    scanWhile line p fuel s = s+(cs.takeWhile p).length ∧
      At line (s+(cs.takeWhile p).length) (cs.dropWhile p) := by
  induction fuel generalizing s cs with
  | zero =>
    obtain rfl := List.eq_nil_of_length_eq_zero (Nat.le_zero.mp hfuel)
    exact ⟨rfl,h⟩
  | succ fuel ih =>
    cases cs with
    | nil =>
      have hlen := h.length
      refine ⟨?_,h⟩
      rw [Shell.scanWhile,if_neg]
      · rfl
      · rintro ⟨hlt,-⟩
        simp only [List.length_nil] at hlen
        omega
    | cons c cs =>
      have hlen := h.length
      rw [List.length_cons] at hlen hfuel
      rw [Shell.scanWhile,h.charAt_cons]
      cases hp : p c with
      | false =>
        rw [if_neg (by simp),List.takeWhile_cons_of_neg (by simp [hp]),List.dropWhile_cons_of_neg (by simp [hp])]
        exact ⟨rfl,h⟩
      | true =>
        obtain ⟨h1,h2⟩ := ih h.succ (by omega)
        rw [if_pos ⟨by omega,rfl⟩,List.takeWhile_cons_of_pos hp,List.dropWhile_cons_of_pos hp,h1,List.length_cons]
        have hsum : s+1+(cs.takeWhile p).length = s+((cs.takeWhile p).length+1) := by omega
        rw [hsum] at h2 ⊢
        exact ⟨rfl,h2⟩

end At

def isSpace (c : Char) : Bool := c ∈ whitespace

theorem lex_nil (o : ℕ) : lex o [] = [] := by rw [lex]

theorem lex_dropWhile (o : ℕ) (cs : List Char) :
    lex (o+(cs.takeWhile isSpace).length) (cs.dropWhile isSpace) = lex o cs := by
  induction cs generalizing o with
  | nil => rfl
  | cons c cs ih =>
    by_cases hc : isSpace c = true
    · rw [List.takeWhile_cons_of_pos hc,List.dropWhile_cons_of_pos hc,List.length_cons,lex,if_pos (of_decide_eq_true hc),
        ← ih (o+1)]
      congr 1
      omega
    · rw [List.takeWhile_cons_of_neg hc,List.dropWhile_cons_of_neg hc]
      rfl

theorem lex_length_le (o : ℕ) (cs : List Char) : (lex o cs).length ≤ cs.length := by
  induction o, cs using lex.induct with
  | case1 o => exact (congrArg List.length (lex_nil o)).le
  | case2 o c cs hspace ih =>
    rw [lex,if_pos hspace]
    exact ih.trans (Nat.le_succ _)
  | case3 o cs hhead hspace ih =>
    rw [lex,if_neg hspace,if_pos rfl,if_pos hhead]
    rw [List.length_drop] at ih
    simp only [List.length_cons]
    cases cs with
    | nil => cases hhead
    | cons d ds =>
      simp only [List.length_cons,List.drop_succ_cons,List.drop_zero] at ih ⊢
      omega
  | case4 o cs hhead hspace ih =>
    rw [lex,if_neg hspace,if_pos rfl,if_neg hhead]
    exact Nat.succ_le_succ ih
  | case5 o c cs hspace hgt t hsym ih =>
    rw [lex,if_neg hspace,if_neg hgt,hsym]
    exact Nat.succ_le_succ ih
  | case6 o c cs hspace hgt hsym ih =>
    rw [lex,if_neg hspace,if_neg hgt,hsym]
    exact Nat.succ_le_succ (ih.trans (List.dropWhile_sublist _).length_le)

def toks (line : List Char) (s : ℕ) : List (Tok (ℕ × List Char)) := lex s (line.drop s)

theorem At.toks (h : At line s cs) : toks line s = lex s cs := by rw [Shell.toks,h.drop]

theorem skipSpace_spec (hs : s ≤ line.length) :
    ∃ cs, At line (skipSpace line s) cs ∧ (∀ c ∈ cs.head?, isSpace c = false) ∧
      toks line (skipSpace line s) = toks line s := by
  have hat := At.of_le hs
  obtain ⟨h1,h2⟩ := hat.scanWhile isSpace line.length (by simp)
  have hskip : skipSpace line s = s+((line.drop s).takeWhile isSpace).length := h1
  rw [← hskip] at h2
  refine ⟨_,h2,?_,?_⟩
  · intro c hc
    rw [← List.find?_not_eq_head?_dropWhile] at hc
    have hnot := List.find?_some (Option.mem_def.mp hc)
    exact (Bool.not_eq_true' _).mp hnot
  · rw [h2.toks,hat.toks,hskip,lex_dropWhile]

def Tok.code {α : Type} : Tok α → Char
  | .lt => '<'
  | .gt => '>'
  | .append => '+'
  | .bar => '|'
  | .amp => '&'
  | .semi => ';'
  | .lparen => '('
  | .rparen => ')'
  | .word _ => 'a'

def Tok.symbol {α : Type} : Tok α → Option Char
  | .append => some '>'
  | .word _ => none
  | t => some t.code

def span (w : ℕ × List Char) : Span := (w.1,w.1+w.2.length)

theorem symbolTok_code {α : Type} {c : Char} {t : Tok α} (h : symbolTok c = some t) :
    t.code = c ∧ t.symbol = some c ∧ c ∈ ['|','(',')',';','&','<'] ∧ ∀ w, t ≠ .word w := by
  unfold symbolTok at h
  split_ifs at h with h1 h2 h3 h4 h5 h6
  all_goals
    cases h
    subst_vars
    simp [Tok.code,Tok.symbol]

theorem symbolTok_none {α : Type} {c : Char} (h : symbolTok (α := α) c = none) :
    c ∉ ['|','(',')',';','&','<'] := by
  unfold symbolTok at h
  split_ifs at h with h1 h2 h3 h4 h5 h6
  simp [h1,h2,h3,h4,h5,h6]

theorem tokenAt_spec {c : Char} (hat : At line s (c :: cs)) (hc : c ≠ nul) (hspace : c ∉ whitespace) :
    ∃ t e ds, lex s (c :: cs) = t :: lex e ds ∧ tokenAt line s = (t.code,e) ∧ At line e ds ∧
      t.symbol = (if c ∈ symbols then some c else none) ∧ ∀ w, t = .word w → (s,e) = span w := by
  rw [lex,if_neg hspace,tokenAt,hat.charAt_cons]
  simp only [if_neg hc]
  cases hsym : symbolTok (α := ℕ × List Char) c with
  | some t =>
    obtain ⟨hcode,hsymbol,hmem,hword⟩ := symbolTok_code hsym
    have hgt : c ≠ '>' := by
      rintro rfl
      revert hmem
      decide
    have hmem' : c ∈ symbols := by
      simp only [symbols,List.mem_cons] at hmem ⊢
      tauto
    rw [if_pos hmem,if_neg hgt,if_pos hmem']
    exact ⟨t,s+1,cs,rfl,by rw [hcode],hat.succ,hsymbol,fun w hw => (hword w hw).elim⟩
  | none =>
    have hmem := symbolTok_none hsym
    rw [if_neg hmem]
    by_cases hgt : c = '>'
    · subst hgt
      rw [if_pos rfl,if_pos rfl,if_pos (show '>' ∈ symbols by decide)]
      cases cs with
      | nil =>
        rw [hat.succ.charAt_nil,if_neg (show nul ≠ '>' by decide)]
        exact ⟨.gt,s+1,[],rfl,rfl,hat.succ,rfl,fun w hw => by cases hw⟩
      | cons d ds =>
        rw [hat.succ.charAt_cons,List.head?_cons]
        by_cases hd : d = '>'
        · rw [if_pos hd,if_pos (congrArg some hd)]
          exact ⟨.append,s+2,ds,rfl,rfl,hat.succ.succ,rfl,fun w hw => by cases hw⟩
        · rw [if_neg hd,if_neg fun he => hd (Option.some.inj he)]
          exact ⟨.gt,s+1,d :: ds,rfl,rfl,hat.succ,rfl,fun w hw => by cases hw⟩
    · have hnsym : c ∉ symbols := by
        simp only [symbols,List.mem_cons,List.not_mem_nil] at hmem ⊢
        tauto
      have hw : isWord c = true := decide_eq_true ⟨hspace,hnsym⟩
      obtain ⟨h1,h2⟩ := hat.scanWhile isWord line.length (by have hlen := hat.length; omega)
      rw [List.takeWhile_cons_of_pos hw,List.length_cons] at h1 h2
      rw [List.dropWhile_cons_of_pos hw] at h2
      rw [if_neg hgt,if_neg hgt,if_neg hnsym]
      refine ⟨.word (s,c :: cs.takeWhile isWord),s+((cs.takeWhile isWord).length+1),_,?_,congrArg (Prod.mk 'a') h1,h2,
        rfl,?_⟩
      · rw [Nat.add_right_comm,← Nat.add_assoc]
      · intro w hw
        cases hw
        rfl

/-! ## The parser's view of the line -/

structure Reads (line : List Char) (s : ℕ) (ts : List (Tok Span)) : Prop where
  le : s ≤ line.length
  toks : (toks line s).map (Tok.map span) = ts

def startsWith (cs : List Char) (ts : List (Tok Span)) : Bool := (ts.head?.bind Tok.symbol).any (· ∈ cs)

theorem Tok.map_code {α β : Type} (f : α → β) (t : Tok α) : (t.map f).code = t.code := by cases t <;> rfl

theorem Tok.map_symbol {α β : Type} (f : α → β) (t : Tok α) : (t.map f).symbol = t.symbol := by cases t <;> rfl

section Reading
variable {ts : List (Tok Span)}

theorem Reads.skipSpace (h : Reads line s ts) :
    ∃ cs, At line (skipSpace line s) cs ∧ (∀ c ∈ cs.head?, c ∉ whitespace) ∧
      Reads line (skipSpace line s) ts := by
  obtain ⟨cs,hat,hhead,htoks⟩ := skipSpace_spec h.le
  exact ⟨cs,hat,fun c hc => of_decide_eq_false (hhead c hc),hat.le,by rw [htoks,h.toks]⟩

theorem At.reads (h : At line s cs) : Reads line s ((lex s cs).map (Tok.map span)) := ⟨h.le,by rw [h.toks]⟩

theorem Reads.eq (h : Reads line s ts) {us : List (Tok Span)} (h' : Reads line s us) : ts = us :=
  h.toks.symm.trans h'.toks

theorem Reads.length_lt (h : Reads line s ts) : ts.length < line.length+1 := by
  have hle := lex_length_le s (line.drop s)
  rw [← h.toks,List.length_map,Shell.toks]
  rw [List.length_drop] at hle
  omega

theorem Reads.tokenAt (hnul : nul ∉ line) (h : Reads line s ts) (hat : At line s cs)
    (hhead : ∀ c ∈ cs.head?, c ∉ whitespace) :
    (cs = [] ∧ ts = [] ∧ tokenAt line s = (nul,s) ∧ charAt line s = nul) ∨
    ∃ t us e, ts = t :: us ∧ tokenAt line s = (t.code,e) ∧ Reads line e us ∧ charAt line s ≠ nul ∧
      t.symbol = (if charAt line s ∈ symbols then some (charAt line s) else none) ∧
      (∀ w, t = .word w → (s,e) = w) ∧ s < line.length := by
  rw [h.eq hat.reads]
  cases cs with
  | nil =>
    left
    rw [Shell.tokenAt,hat.charAt_nil,lex_nil]
    exact ⟨rfl,rfl,rfl,rfl⟩
  | cons c cs =>
    right
    have hc : c ≠ nul := by
      rintro rfl
      exact hnul hat.mem
    obtain ⟨t,e,ds,hlex,htok,he,hsymbol,hword⟩ := tokenAt_spec hat hc (hhead c rfl)
    rw [hat.charAt_cons,hlex,htok]
    refine ⟨t.map span,_,e,rfl,by rw [Tok.map_code],he.reads,hc,by rw [Tok.map_symbol,hsymbol],?_,?_⟩
    · intro w hw
      cases t
      case word v =>
        cases hw
        exact hword v rfl
      all_goals cases hw
    · have hlen := hat.length
      simp only [List.length_cons] at hlen
      omega

theorem gettoken_nil (hnul : nul ∉ line) (h : Reads line s []) :
    ∃ q e s', gettoken line s = (nul,q,e,s') ∧ Reads line s' [] := by
  obtain ⟨cs,hat,hhead,hq⟩ := h.skipSpace
  obtain ⟨-,-,htok,-⟩ | ⟨t,us,e,hts,-⟩ := hq.tokenAt hnul hat hhead
  · unfold gettoken
    simp only [htok]
    obtain ⟨-,-,-,he⟩ := hq.skipSpace
    exact ⟨_,_,_,rfl,he⟩
  · cases hts

theorem gettoken_cons (hnul : nul ∉ line) {t : Tok Span} (h : Reads line s (t :: ts)) :
    ∃ q e s', gettoken line s = (t.code,q,e,s') ∧ Reads line s' ts ∧ ∀ w, t = .word w → (q,e) = w := by
  obtain ⟨cs,hat,hhead,hq⟩ := h.skipSpace
  obtain ⟨-,hts,-⟩ | ⟨t',us,e,hts,htok,he,-,-,hword,-⟩ := hq.tokenAt hnul hat hhead
  · cases hts
  · cases hts
    unfold gettoken
    simp only [htok]
    obtain ⟨-,-,-,he'⟩ := he.skipSpace
    exact ⟨_,_,_,rfl,he',hword⟩

theorem peek_eq (hnul : nul ∉ line) (h : Reads line s ts) (toks : List Char) (htoks : toks ⊆ symbols) :
    ∃ s', peek line s toks = (startsWith toks ts,s') ∧ Reads line s' ts := by
  obtain ⟨cs,hat,hhead,hq⟩ := h.skipSpace
  refine ⟨Shell.skipSpace line s,Prod.ext ?_ rfl,hq⟩
  unfold peek startsWith
  obtain ⟨-,hts,-,hc⟩ | ⟨t,us,e,hts,-,-,hc,hsymbol,-⟩ := hq.tokenAt hnul hat hhead
  · simp [hts,hc]
  · by_cases hmem : charAt line (Shell.skipSpace line s) ∈ symbols
    · rw [if_pos hmem] at hsymbol
      simp [hts,hc,hsymbol]
    · have hnot : charAt line (Shell.skipSpace line s) ∉ toks := fun hm => hmem (htoks hm)
      rw [if_neg hmem] at hsymbol
      simp [hts,hsymbol,hnot]

theorem peek_end (hnul : nul ∉ line) (h : Reads line s ts) : (peek line s []).2 = line.length ↔ ts = [] := by
  obtain ⟨cs,hat,hhead,hq⟩ := h.skipSpace
  have hlen := hat.length
  obtain ⟨hcs,hts,-⟩ | ⟨t,us,e,hts,-,-,-,-,-,hlt⟩ := hq.tokenAt hnul hat hhead
  · rw [hcs,List.length_nil] at hlen
    have hle := hat.le
    exact iff_of_true (show Shell.skipSpace line s = line.length by omega) hts
  · exact iff_of_false (show Shell.skipSpace line s ≠ line.length by omega) (by rw [hts]; simp)

end Reading

end Xv6Paging.Shell
