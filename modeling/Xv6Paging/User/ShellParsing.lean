import Xv6Paging.Library.Outcome
import Xv6Paging.User.ShellLexing

/-! # The parser follows the grammar

Soundness: whatever a parsing function returns is the tree of a derivation of the tokens it consumed, and with the
fuel that `parsecmd` gives it never runs out. Completeness: in front of derivable tokens that are followed by
tokens on which the function stops, it returns their tree and leaves the rest.
-/
namespace Xv6Paging.Shell
variable {line : List Char} {s fuel : ℕ} {ts us : List (Tok Span)}

theorem symbolTok_of_symbol {t : Tok Span} {c : Char} (ht : t.symbol = some c) (hc : c ≠ '>') :
    symbolTok c = some t := by
  cases t <;> cases ht
  case gt | append => exact absurd rfl hc
  all_goals rfl

theorem startsWith_tok (t : Tok Span) (c : Char) (ht : t.symbol = some c) (hc : c ≠ '>') :
    startsWith [c] ts = true ↔ ∃ us, ts = t :: us := by
  cases ts with
  | nil => simp [startsWith]
  | cons t' ts =>
    constructor
    · intro h
      simp only [startsWith,List.head?_cons,Option.bind_some] at h
      cases hd : t'.symbol with
      | none => simp [hd] at h
      | some d =>
        obtain rfl : d = c := by simpa [hd] using h
        have heq := (symbolTok_of_symbol hd hc).symm.trans (symbolTok_of_symbol ht hc)
        exact ⟨ts,by rw [Option.some.inj heq]⟩
    · rintro ⟨us,hus⟩
      cases hus
      simp [startsWith,ht]

theorem startsWith_redir :
    startsWith ['<','>'] ts = true ↔ ∃ (op : RedirOp) (us : List (Tok Span)), ts = op.tok :: us := by
  constructor
  · intro h
    cases ts with
    | nil => cases h
    | cons t ts =>
      cases t
      case lt => exact ⟨.lt,ts,rfl⟩
      case gt => exact ⟨.gt,ts,rfl⟩
      case append => exact ⟨.append,ts,rfl⟩
      all_goals cases h
  · rintro ⟨op,us,rfl⟩
    cases op <;> rfl

theorem Tok.code_eq_word {t : Tok Span} (h : t.code = 'a') : ∃ w, t = .word w := by
  cases t
  case word w => exact ⟨w,rfl⟩
  all_goals exact absurd h (by decide)

theorem Tok.code_ne_nul (t : Tok Span) : t.code ≠ nul := by
  cases t
  case word w => exact (by decide : 'a' ≠ nul)
  all_goals decide

theorem redircmd_code (op : RedirOp) (cmd : Cmd Span) (file : Span) :
    redircmd (op.tok : Tok Span).code cmd file = .redir cmd file op.mode op.fd := by cases op <;> rfl

theorem addArg_wrap (rs : List (RedirOp × Span)) (cmd : Cmd Span) (w : Span) :
    (wrap rs cmd).addArg w = wrap rs (cmd.addArg w) := by
  induction rs generalizing cmd with
  | nil => rfl
  | cons r rs ih => exact ih (.redir cmd r.2 r.1.mode r.1.fd)

theorem wrap_append (rs rs' : List (RedirOp × Span)) (cmd : Cmd Span) : wrap (rs ++ rs') cmd = wrap rs' (wrap rs cmd) :=
  List.foldl_append

/-! ## Soundness -/

def Stops (e : Fault) : Prop := e ≠ .diverges

theorem stops_panic (msg : String) : Stops (.panic msg) := fun h => by cases h

section Soundness
variable (hnul : nul ∉ line)
include hnul

theorem parseredirs_sound (cmd : Cmd Span) (h : Reads line s ts) (hfuel : ts.length < fuel) :
    Outcome (parseredirs line fuel cmd s)
      (fun r => ∃ rs us, ts = redirToks rs ++ us ∧ r.1 = wrap rs cmd ∧ Reads line r.2 us) Stops := by
  induction fuel generalizing s ts cmd with
  | zero => exact absurd hfuel (Nat.not_lt_zero _)
  | succ fuel ih =>
    obtain ⟨s₁,hpeek,h₁⟩ := peek_eq hnul h ['<','>'] (by decide)
    unfold parseredirs
    simp only [hpeek]
    cases hstart : startsWith ['<','>'] ts with
    | false => exact .ok ⟨[],ts,rfl,rfl,h₁⟩
    | true =>
      obtain ⟨op,us,rfl⟩ := startsWith_redir.mp hstart
      obtain ⟨q,e,s₂,hop,h₂,-⟩ := gettoken_cons hnul h₁
      simp only [hop,if_true]
      cases us with
      | nil =>
        obtain ⟨q',e',s₃,htok,-⟩ := gettoken_nil hnul h₂
        simp only [htok]
        exact .error (stops_panic _)
      | cons t us =>
        obtain ⟨q',e',s₃,htok,h₃,hword⟩ := gettoken_cons hnul h₂
        simp only [htok]
        by_cases hcode : t.code = 'a'
        · obtain ⟨w,rfl⟩ := Tok.code_eq_word hcode
          rw [if_neg (not_not.mpr hcode),redircmd_code,hword w rfl]
          refine (ih _ h₃ (by simp only [List.length_cons] at hfuel; omega)).post ?_
          rintro r ⟨rs,vs,rfl,hr,hs⟩
          exact ⟨(op,w) :: rs,vs,by simp [redirToks],hr,hs⟩
        · rw [if_pos hcode]
          exact .error (stops_panic _)

theorem parseargs_sound (rs : List (RedirOp × Span)) (ws : List Span) (h : Reads line s ts)
    (hfuel : ts.length < fuel) (hargs : ws.length < maxArgs) :
    Outcome (parseargs line fuel ws.length (wrap rs (.exec ws)) s)
      (fun r => ∃ (as : List (Span × List (RedirOp × Span))) (us : List (Tok Span)), ts = argToks as ++ us ∧
        r.1 = wrap (rs ++ as.flatMap Prod.snd) (.exec (ws ++ as.map Prod.fst)) ∧ ws.length+as.length < maxArgs ∧
        Reads line r.2 us) Stops := by
  induction fuel generalizing s ts rs ws with
  | zero => exact absurd hfuel (Nat.not_lt_zero _)
  | succ fuel ih =>
    have hdone {s' : ℕ} (h' : Reads line s' ts) : Outcome (.ok (wrap rs (.exec ws),s') : Except Fault (Cmd Span × ℕ))
        (fun r => ∃ (as : List (Span × List (RedirOp × Span))) (us : List (Tok Span)), ts = argToks as ++ us ∧
          r.1 = wrap (rs ++ as.flatMap Prod.snd) (.exec (ws ++ as.map Prod.fst)) ∧ ws.length+as.length < maxArgs ∧
          Reads line r.2 us) Stops :=
      .ok ⟨[],ts,rfl,by simp,hargs,h'⟩
    obtain ⟨s₁,hpeek,h₁⟩ := peek_eq hnul h ['|',')','&',';'] (by decide)
    unfold parseargs
    simp only [hpeek]
    cases hstart : startsWith ['|',')','&',';'] ts with
    | true => exact hdone h₁
    | false =>
      simp only [Bool.false_eq_true,if_false]
      cases ts with
      | nil =>
        obtain ⟨q,e,s₂,htok,h₂⟩ := gettoken_nil hnul h₁
        simp only [htok,if_true]
        exact hdone h₂
      | cons t ts =>
        obtain ⟨q,e,s₂,htok,h₂,hword⟩ := gettoken_cons hnul h₁
        simp only [htok,if_neg t.code_ne_nul]
        by_cases hcode : t.code = 'a'
        · obtain ⟨w,rfl⟩ := Tok.code_eq_word hcode
          rw [if_neg (not_not.mpr hcode)]
          by_cases hmax : maxArgs ≤ ws.length+1
          · rw [if_pos hmax]
            exact .error (stops_panic _)
          · rw [if_neg hmax,addArg_wrap,hword w rfl]
            refine (parseredirs_sound hnul _ h₂ h₂.length_lt).bind ?_
            rintro ⟨ret,s₃⟩ ⟨rs',us,rfl,hret,h₃⟩
            have hlen : (ws ++ [w]).length = ws.length+1 := List.length_append
            simp only [List.length_cons,List.length_append] at hfuel
            have hrec := ih (rs ++ rs') (ws ++ [w]) h₃ (by omega) (by omega)
            rw [hlen,wrap_append,← show ret = wrap rs' (wrap rs (.exec (ws ++ [w]))) from hret] at hrec
            refine hrec.post ?_
            rintro r ⟨as,vs,rfl,hr,has,hs⟩
            exact ⟨(w,rs') :: as,vs,by simp [argToks],by simp [hr],by simp only [List.length_cons]; omega,hs⟩
        · rw [if_pos hcode]
          exact .error (stops_panic _)

theorem parseback_sound (cmd : Cmd Span) (h : Reads line s ts) (hfuel : ts.length < fuel) :
    Outcome (parseback line fuel cmd s)
      (fun r => ∃ n us, ts = List.replicate n .amp ++ us ∧ r.1 = Cmd.back^[n] cmd ∧ Reads line r.2 us) Stops := by
  induction fuel generalizing s ts cmd with
  | zero => exact absurd hfuel (Nat.not_lt_zero _)
  | succ fuel ih =>
    obtain ⟨s₁,hpeek,h₁⟩ := peek_eq hnul h ['&'] (by decide)
    unfold parseback
    simp only [hpeek]
    cases hstart : startsWith ['&'] ts with
    | false => exact .ok ⟨0,ts,rfl,rfl,h₁⟩
    | true =>
      obtain ⟨us,rfl⟩ := (startsWith_tok .amp '&' rfl (by decide)).mp hstart
      obtain ⟨q,e,s₂,htok,h₂,-⟩ := gettoken_cons hnul h₁
      simp only [htok,if_true]
      refine (ih _ h₂ (by simp only [List.length_cons] at hfuel; omega)).post ?_
      rintro r ⟨n,vs,rfl,hr,hs⟩
      exact ⟨n+1,vs,by simp [List.replicate_succ],by rw [hr,Function.iterate_succ_apply],hs⟩

end Soundness

def parse (line : List Char) : NonTerminal → ℕ → ℕ → Except Fault (Cmd Span × ℕ)
  | .line => parseline line
  | .pipe => parsepipe line
  | .cmd => parseexec line

def NonTerminal.depth : NonTerminal → ℕ
  | .line => 4
  | .pipe => 3
  | .cmd => 2

def Parsed (line : List Char) (nt : NonTerminal) (ts : List (Tok Span)) (r : Cmd Span × ℕ) : Prop :=
  ∃ us vs, ts = us ++ vs ∧ Derives nt us r.1 ∧ Reads line r.2 vs

section Soundness
variable (hnul : nul ∉ line)
include hnul

section
variable (ih : ∀ nt {s ts}, Reads line s ts → 4*ts.length+nt.depth ≤ fuel → Outcome (parse line nt fuel s) (Parsed line nt ts) Stops)
  (h : Reads line s ts)
include ih h

theorem parsepipe_sound (hfuel : 4*ts.length+3 ≤ fuel+1) :
    Outcome (parsepipe line (fuel+1) s) (Parsed line .pipe ts) Stops := by
  rw [parsepipe]
  refine (ih .cmd h (by simp only [NonTerminal.depth]; omega)).bind ?_
  rintro ⟨cmd,s₁⟩ ⟨us,vs,rfl,hcmd,h₁⟩
  obtain ⟨s₂,hpeek,h₂⟩ := peek_eq hnul h₁ ['|'] (by decide)
  simp only [hpeek]
  cases hstart : startsWith ['|'] vs with
  | false => exact .ok ⟨us,vs,rfl,.pipe hcmd,h₂⟩
  | true =>
    obtain ⟨vs,rfl⟩ := (startsWith_tok .bar '|' rfl (by decide)).mp hstart
    obtain ⟨q,e,s₃,htok,h₃,-⟩ := gettoken_cons hnul h₂
    simp only [htok,if_true]
    simp only [List.length_append,List.length_cons] at hfuel
    refine (ih .pipe h₃ (by simp only [NonTerminal.depth]; omega)).bind ?_
    rintro ⟨rest,s₄⟩ ⟨us',vs,rfl,hrest,h₄⟩
    exact .ok ⟨us ++ .bar :: us',vs,by simp,.pipes hcmd hrest,h₄⟩

theorem parseline_sound (hfuel : 4*ts.length+4 ≤ fuel+1) :
    Outcome (parseline line (fuel+1) s) (Parsed line .line ts) Stops := by
  rw [parseline]
  refine (ih .pipe h (by simp only [NonTerminal.depth]; omega)).bind ?_
  rintro ⟨cmd,s₁⟩ ⟨us,vs,rfl,hcmd,h₁⟩
  refine (parseback_sound hnul _ h₁ h₁.length_lt).bind ?_
  rintro ⟨cmd',s₂⟩ ⟨n,vs,rfl,rfl,h₂⟩
  obtain ⟨s₃,hpeek,h₃⟩ := peek_eq hnul h₂ [';'] (by decide)
  simp only [hpeek]
  cases hstart : startsWith [';'] vs with
  | false => exact .ok ⟨us ++ List.replicate n .amp,vs,by simp,.line n hcmd,h₃⟩
  | true =>
    obtain ⟨vs,rfl⟩ := (startsWith_tok .semi ';' rfl (by decide)).mp hstart
    obtain ⟨q,e,s₄,htok,h₄,-⟩ := gettoken_cons hnul h₃
    simp only [htok,if_true]
    simp only [List.length_append,List.length_cons] at hfuel
    refine (ih .line h₄ (by simp only [NonTerminal.depth]; omega)).bind ?_
    rintro ⟨rest,s₅⟩ ⟨us',vs,rfl,hrest,h₅⟩
    exact .ok ⟨us ++ List.replicate n .amp ++ .semi :: us',vs,by simp,.lines n hcmd hrest,h₅⟩

end

theorem parseblock_sound (ih : ∀ {s ts}, Reads line s ts → 4*ts.length+4 ≤ fuel →
      Outcome (parseline line fuel s) (Parsed line .line ts) Stops)
    (h : Reads line s (.lparen :: ts)) (hfuel : 4*ts.length+4 ≤ fuel) :
    Outcome (parseblock line (fuel+1) s) (Parsed line .cmd (.lparen :: ts)) Stops := by
  obtain ⟨s₁,hpeek,h₁⟩ := peek_eq hnul h ['('] (by decide)
  obtain ⟨q,e,s₂,htok,h₂,-⟩ := gettoken_cons hnul h₁
  rw [parseblock]
  simp only [hpeek,htok,(startsWith_tok .lparen '(' rfl (by decide)).mpr ⟨ts,rfl⟩,if_true]
  refine (ih h₂ hfuel).bind ?_
  rintro ⟨cmd,s₃⟩ ⟨us,vs,rfl,hcmd,h₃⟩
  obtain ⟨s₄,hpeek,h₄⟩ := peek_eq hnul h₃ [')'] (by decide)
  simp only [hpeek]
  cases hstart : startsWith [')'] vs with
  | false => exact .error (stops_panic _)
  | true =>
    obtain ⟨vs,rfl⟩ := (startsWith_tok .rparen ')' rfl (by decide)).mp hstart
    obtain ⟨q,e,s₅,htok,h₅,-⟩ := gettoken_cons hnul h₄
    simp only [htok,if_true]
    refine (parseredirs_sound hnul _ h₅ h₅.length_lt).post ?_
    rintro ⟨ret,s₆⟩ ⟨rs,vs,rfl,rfl,h₆⟩
    exact ⟨.lparen :: us ++ .rparen :: redirToks rs,vs,by simp,.block rs hcmd,h₆⟩

/-- Whatever the parser returns is the tree of the tokens it consumed. -/
theorem parse_sound (nt : NonTerminal) (h : Reads line s ts) (hfuel : 4*ts.length+nt.depth ≤ fuel) :
    Outcome (parse line nt fuel s) (Parsed line nt ts) Stops := by
  -- `parseexec` calls `parseline` two levels deeper, behind `parseblock`
  induction fuel using Nat.strong_induction_on generalizing nt s ts with
  | _ fuel ih =>
    cases fuel with
    | zero => cases nt <;> simp [NonTerminal.depth] at hfuel
    | succ fuel =>
      cases nt with
      | line => exact parseline_sound hnul (fun nt _ _ => ih fuel fuel.lt_succ_self nt) h hfuel
      | pipe => exact parsepipe_sound hnul (fun nt _ _ => ih fuel fuel.lt_succ_self nt) h hfuel
      | cmd =>
        simp only [NonTerminal.depth] at hfuel
        obtain ⟨s₁,hpeek,h₁⟩ := peek_eq hnul h ['('] (by decide)
        simp only [parse]
        rw [parseexec]
        simp only [hpeek]
        cases hstart : startsWith ['('] ts with
        | true =>
          obtain ⟨us,rfl⟩ := (startsWith_tok .lparen '(' rfl (by decide)).mp hstart
          obtain ⟨fuel,rfl⟩ : ∃ n, fuel = n+1 := ⟨fuel-1,by omega⟩
          simp only [List.length_cons] at hfuel
          refine parseblock_sound hnul (fun h' hf => ?_) h₁ (by omega)
          exact ih fuel (by omega) .line h' hf
        | false =>
          refine (parseredirs_sound hnul _ h₁ h₁.length_lt).bind ?_
          rintro ⟨ret,s₂⟩ ⟨rs,us,rfl,rfl,h₂⟩
          refine (parseargs_sound hnul rs [] h₂ h₂.length_lt (by decide)).post ?_
          rintro ⟨ret,s₃⟩ ⟨as,vs,rfl,rfl,has,h₃⟩
          refine ⟨redirToks rs ++ argToks as,vs,by simp,?_,h₃⟩
          exact .simple rs as (by simpa using has)

end Soundness

/-! ## Completeness -/

def NonTerminal.follow : NonTerminal → List Char
  | .line => [')']
  | .pipe => [')','&',';']
  | .cmd => [')','&',';','|']

def Follows (nt : NonTerminal) (ts : List (Tok Span)) : Prop := ts = [] ∨ startsWith nt.follow ts = true

theorem startsWith_eq_true {cs : List Char} :
    startsWith cs ts = true ↔ ∃ c ∈ cs, ts.head?.bind Tok.symbol = some c := by
  unfold startsWith
  cases ts.head?.bind Tok.symbol with
  | none => simp
  | some c => simp

theorem Follows.not_startsWith {nt : NonTerminal} (h : Follows nt ts) (cs : List Char)
    (hcs : cs.all (fun c => !nt.follow.contains c) = true) : startsWith cs ts = false := by
  refine Bool.eq_false_iff.mpr fun hstart => ?_
  obtain ⟨c,hc,hsym⟩ := startsWith_eq_true.mp hstart
  obtain rfl | hfollow := h
  · cases hsym
  · obtain ⟨d,hd,hsym'⟩ := startsWith_eq_true.mp hfollow
    obtain rfl := Option.some.inj (hsym.symm.trans hsym')
    have hnot := List.all_eq_true.mp hcs c hc
    simp [hd] at hnot

theorem Follows.mono {nt nt' : NonTerminal} (h : Follows nt ts) (hsub : nt.follow ⊆ nt'.follow) : Follows nt' ts := by
  refine h.imp_right fun hstart => ?_
  obtain ⟨c,hc,hsym⟩ := startsWith_eq_true.mp hstart
  exact startsWith_eq_true.mpr ⟨c,hsub hc,hsym⟩

theorem Follows.cons {nt : NonTerminal} {t : Tok Span} {c : Char} (ht : t.symbol = some c) (hc : c ∈ nt.follow) :
    Follows nt (t :: ts) :=
  .inr (startsWith_eq_true.mpr ⟨c,hc,ht⟩)

theorem length_le_redirToks (rs : List (RedirOp × Span)) : rs.length ≤ (redirToks rs).length := by
  induction rs with
  | nil => rfl
  | cons r rs ih => exact Nat.succ_le_succ (ih.trans (Nat.le_succ _))

theorem length_le_argToks (as : List (Span × List (RedirOp × Span))) : as.length ≤ (argToks as).length := by
  induction as with
  | nil => rfl
  | cons a as ih =>
    rw [show argToks (a :: as) = .word a.1 :: redirToks a.2 ++ argToks as by simp [argToks],List.length_append,
      List.length_cons,List.length_cons]
    omega

section Completeness
variable (hnul : nul ∉ line)
include hnul

theorem parseredirs_complete (cmd : Cmd Span) {rs : List (RedirOp × Span)} (h : Reads line s (redirToks rs ++ us))
    (hus : startsWith ['<','>'] us = false) (hfuel : rs.length < fuel) :
    ∃ s', parseredirs line fuel cmd s = .ok (wrap rs cmd,s') ∧ Reads line s' us := by
  induction fuel generalizing s rs cmd with
  | zero => exact absurd hfuel (Nat.not_lt_zero _)
  | succ fuel ih =>
    obtain ⟨s₁,hpeek,h₁⟩ := peek_eq hnul h ['<','>'] (by decide)
    unfold parseredirs
    simp only [hpeek]
    cases rs with
    | nil =>
      refine ⟨s₁,?_,h₁⟩
      rw [show redirToks ([] : List (RedirOp × Span)) ++ us = us from rfl,hus]
      rfl
    | cons r rs =>
      have htoks : redirToks (r :: rs) ++ us = r.1.tok :: .word r.2 :: (redirToks rs ++ us) := by simp [redirToks]
      rw [htoks] at h₁ ⊢
      obtain ⟨q,e,s₂,hop,h₂,-⟩ := gettoken_cons hnul h₁
      obtain ⟨q',e',s₃,hfile,h₃,hword⟩ := gettoken_cons hnul h₂
      obtain ⟨s₄,hrec,h₄⟩ := ih (.redir cmd r.2 r.1.mode r.1.fd) h₃ (Nat.lt_of_succ_lt_succ hfuel)
      have hcode : (Tok.word r.2).code = 'a' := rfl
      simp only [startsWith_redir.mpr ⟨r.1,_,rfl⟩,if_true,hop,hfile,hcode,ne_eq,not_true_eq_false,if_false]
      rw [redircmd_code,hword r.2 rfl,hrec]
      exact ⟨s₄,rfl,h₄⟩

theorem parseargs_complete (rs : List (RedirOp × Span)) (ws : List Span) {as : List (Span × List (RedirOp × Span))}
    (h : Reads line s (argToks as ++ us)) (hus : Follows .cmd us) (hfuel : as.length < fuel)
    (hargs : ws.length+as.length < maxArgs) :
    ∃ s', parseargs line fuel ws.length (wrap rs (.exec ws)) s =
      .ok (wrap (rs ++ as.flatMap Prod.snd) (.exec (ws ++ as.map Prod.fst)),s') ∧ Reads line s' us := by
  induction fuel generalizing s as rs ws with
  | zero => exact absurd hfuel (Nat.not_lt_zero _)
  | succ fuel ih =>
    obtain ⟨s₁,hpeek,h₁⟩ := peek_eq hnul h ['|',')','&',';'] (by decide)
    unfold parseargs
    simp only [hpeek]
    cases as with
    | nil =>
      rw [show argToks ([] : List (Span × List (RedirOp × Span))) ++ us = us from rfl] at h₁ ⊢
      simp only [List.flatMap_nil,List.append_nil,List.map_nil]
      obtain rfl | hstart := hus
      · obtain ⟨q,e,s₂,htok,h₂⟩ := gettoken_nil hnul h₁
        refine ⟨s₂,?_,h₂⟩
        simp [startsWith,htok]
      · refine ⟨s₁,?_,h₁⟩
        obtain ⟨c,hc,hsym⟩ := startsWith_eq_true.mp hstart
        have hstop : startsWith ['|',')','&',';'] us = true := by
          refine startsWith_eq_true.mpr ⟨c,?_,hsym⟩
          simp only [NonTerminal.follow,List.mem_cons] at hc ⊢
          tauto
        rw [hstop]
        rfl
    | cons a as =>
      have htoks : argToks (a :: as) ++ us = .word a.1 :: (redirToks a.2 ++ (argToks as ++ us)) := by simp [argToks]
      rw [htoks] at h₁ ⊢
      simp only [List.length_cons] at hargs hfuel
      have hrest : startsWith ['<','>'] (argToks as ++ us) = false := by
        cases as with
        | nil => exact hus.not_startsWith _ rfl
        | cons b bs => rfl
      obtain ⟨q,e,s₂,htok,h₂,hword⟩ := gettoken_cons hnul h₁
      have hlen : a.2.length < line.length+1 := by
        have hlt := h₂.length_lt
        have hle := length_le_redirToks a.2
        rw [List.length_append] at hlt
        omega
      obtain ⟨s₃,hredirs,h₃⟩ := parseredirs_complete hnul (wrap rs (.exec (ws ++ [a.1]))) h₂ hrest hlen
      have hcount : (ws ++ [a.1]).length = ws.length+1 := List.length_append
      obtain ⟨s₄,hrec,h₄⟩ := ih (rs ++ a.2) (ws ++ [a.1]) h₃ (by omega) (by omega)
      refine ⟨s₄,?_,h₄⟩
      rw [wrap_append,hcount] at hrec
      have hmax : ¬ maxArgs ≤ ws.length+1 := by omega
      have hstop : startsWith ['|',')','&',';'] (.word a.1 :: (redirToks a.2 ++ (argToks as ++ us))) = false := rfl
      simp only [hstop,Bool.false_eq_true,if_false,htok,Tok.code,if_neg (show 'a' ≠ nul by decide),ne_eq,
        not_true_eq_false,if_neg hmax]
      rw [hword a.1 rfl,addArg_wrap]
      refine (congrArg (· >>= _) hredirs).trans ?_
      refine hrec.trans ?_
      simp

theorem parseback_complete (cmd : Cmd Span) {n : ℕ} (h : Reads line s (List.replicate n .amp ++ us))
    (hus : startsWith ['&'] us = false) (hfuel : n < fuel) :
    ∃ s', parseback line fuel cmd s = .ok (Cmd.back^[n] cmd,s') ∧ Reads line s' us := by
  induction fuel generalizing s n cmd with
  | zero => exact absurd hfuel (Nat.not_lt_zero _)
  | succ fuel ih =>
    obtain ⟨s₁,hpeek,h₁⟩ := peek_eq hnul h ['&'] (by decide)
    unfold parseback
    simp only [hpeek]
    cases n with
    | zero =>
      refine ⟨s₁,?_,h₁⟩
      rw [show List.replicate 0 Tok.amp ++ us = us from rfl,hus]
      rfl
    | succ n =>
      rw [List.replicate_succ,List.cons_append] at h₁ ⊢
      obtain ⟨q,e,s₂,htok,h₂,-⟩ := gettoken_cons hnul h₁
      obtain ⟨s₃,hrec,h₃⟩ := ih (.back cmd) h₂ (by omega)
      refine ⟨s₃,?_,h₃⟩
      simp only [(startsWith_tok .amp '&' rfl (by decide)).mpr ⟨_,rfl⟩,if_true,htok]
      rw [hrec,Function.iterate_succ_apply]

theorem parseexec_simple {rs : List (RedirOp × Span)} {as : List (Span × List (RedirOp × Span))}
    (h : Reads line s (redirToks rs ++ argToks as ++ us)) (hus : Follows .cmd us) (hargs : as.length < maxArgs) :
    ∃ s', parseexec line (fuel+1) s = .ok (wrap (rs ++ as.flatMap Prod.snd) (.exec (as.map Prod.fst)),s') ∧
      Reads line s' us := by
  have hrest : startsWith ['<','>'] (argToks as ++ us) = false := by
    cases as with
    | nil => exact hus.not_startsWith _ rfl
    | cons b bs => rfl
  have hblock : startsWith ['('] (redirToks rs ++ argToks as ++ us) = false := by
    cases rs with
    | nil =>
      cases as with
      | nil => exact hus.not_startsWith _ rfl
      | cons b bs => rfl
    | cons r rs => cases hr : r.1 <;> simp [redirToks,hr,RedirOp.tok,startsWith,Tok.symbol,Tok.code]
  obtain ⟨s₁,hpeek,h₁⟩ := peek_eq hnul h ['('] (by decide)
  have hlt := h.length_lt
  have hrs := length_le_redirToks rs
  have has := length_le_argToks as
  simp only [List.length_append] at hlt
  rw [List.append_assoc] at h₁
  obtain ⟨s₂,hredirs,h₂⟩ := parseredirs_complete hnul (.exec []) h₁ hrest
    (show rs.length < line.length+1 by omega)
  obtain ⟨s₃,hdone,h₃⟩ := parseargs_complete hnul rs [] h₂ hus
    (show as.length < line.length+1 by omega) (by simpa using hargs)
  refine ⟨s₃,?_,h₃⟩
  rw [parseexec]
  simp only [hpeek,hblock,Bool.false_eq_true,if_false]
  exact (congrArg (· >>= _) hredirs).trans hdone

theorem parseexec_block {cmd : Cmd Span} {rs : List (RedirOp × Span)}
    (ih : ∀ {s : ℕ} {us : List (Tok Span)}, Follows .line us → Reads line s (ts ++ us) →
      ∃ s', parseline line fuel s = .ok (cmd,s') ∧ Reads line s' us)
    (h : Reads line s (.lparen :: ts ++ .rparen :: redirToks rs ++ us)) (hus : Follows .cmd us) :
    ∃ s', parseexec line (fuel+2) s = .ok (wrap rs cmd,s') ∧ Reads line s' us := by
  obtain ⟨s₁,hpeek₁,h₁⟩ := peek_eq hnul h ['('] (by decide)
  obtain ⟨s₂,hpeek₂,h₂⟩ := peek_eq hnul h₁ ['('] (by decide)
  have htoks : .lparen :: ts ++ .rparen :: redirToks rs ++ us = .lparen :: (ts ++ .rparen :: (redirToks rs ++ us)) := by
    simp
  rw [htoks] at h₂
  obtain ⟨q,e,s₃,hopen,h₃,-⟩ := gettoken_cons hnul h₂
  obtain ⟨s₄,hline,h₄⟩ := ih (.cons rfl (by decide)) h₃
  obtain ⟨s₅,hpeek₅,h₅⟩ := peek_eq hnul h₄ [')'] (by decide)
  obtain ⟨q',e',s₆,hclose,h₆,-⟩ := gettoken_cons hnul h₅
  have hlt := h₆.length_lt
  have hrs := length_le_redirToks rs
  rw [List.length_append] at hlt
  obtain ⟨s₇,hredirs,h₇⟩ := parseredirs_complete hnul cmd h₆ (hus.not_startsWith _ rfl)
    (show rs.length < line.length+1 by omega)
  refine ⟨s₇,?_,h₇⟩
  have hstart : startsWith ['('] (.lparen :: ts ++ .rparen :: redirToks rs ++ us) = true :=
    (startsWith_tok .lparen '(' rfl (by decide)).mpr ⟨_,htoks⟩
  rw [parseexec]
  simp only [hpeek₁,hstart,if_true]
  rw [parseblock]
  simp only [hpeek₂,hstart,if_true,hopen]
  refine (congrArg (· >>= _) hline).trans ?_
  refine Eq.trans ?_ hredirs
  simp only [bind,Except.bind,hpeek₅,(startsWith_tok .rparen ')' rfl (by decide)).mpr ⟨_,rfl⟩,if_true,hclose]

/-- In front of the tokens of a phrase the parser returns its tree. -/
theorem parse_complete {nt : NonTerminal} {t : Cmd Span} (hd : Derives nt ts t) (h : Reads line s (ts ++ us))
    (hus : Follows nt us) (fuel : ℕ) (hfuel : 4*ts.length+nt.depth ≤ fuel) :
    ∃ s', parse line nt fuel s = .ok (t,s') ∧ Reads line s' us := by
  induction hd generalizing s us fuel with
  | @line ts t n hp ih =>
    obtain ⟨fuel,rfl⟩ : ∃ m, fuel = m+1 := ⟨fuel-1,by simp only [NonTerminal.depth] at hfuel; omega⟩
    simp only [NonTerminal.depth,List.length_append,List.length_replicate] at hfuel ih
    rw [List.append_assoc] at h
    have hfollow : Follows .pipe (List.replicate n .amp ++ us) := by
      cases n with
      | zero => exact hus.mono (by decide)
      | succ n => exact .cons rfl (by decide)
    obtain ⟨s₁,hpipe,h₁⟩ := ih h hfollow fuel (by omega)
    have hlt := h₁.length_lt
    rw [List.length_append,List.length_replicate] at hlt
    obtain ⟨s₂,hback,h₂⟩ := parseback_complete hnul t h₁ (hus.not_startsWith _ rfl)
      (show n < line.length+1 by omega)
    obtain ⟨s₃,hpeek,h₃⟩ := peek_eq hnul h₂ [';'] (by decide)
    refine ⟨s₃,?_,h₃⟩
    simp only [parse] at hpipe ⊢
    rw [parseline]
    simp only [hpipe,bind,Except.bind,hback,hpeek,hus.not_startsWith [';'] rfl]
    rfl
  | @lines ts vs t u n hp hl ihp ihl =>
    obtain ⟨fuel,rfl⟩ : ∃ m, fuel = m+1 := ⟨fuel-1,by simp only [NonTerminal.depth] at hfuel; omega⟩
    simp only [NonTerminal.depth,List.length_append,List.length_replicate,List.length_cons] at hfuel ihp ihl
    have htoks : ts ++ List.replicate n .amp ++ .semi :: vs ++ us =
        ts ++ (List.replicate n .amp ++ .semi :: (vs ++ us)) := by simp
    rw [htoks] at h
    have hfollow : Follows .pipe (List.replicate n .amp ++ .semi :: (vs ++ us)) := by
      cases n with
      | zero => exact .cons rfl (by decide)
      | succ n => exact .cons rfl (by decide)
    obtain ⟨s₁,hpipe,h₁⟩ := ihp h hfollow fuel (by omega)
    have hlt := h₁.length_lt
    rw [List.length_append,List.length_replicate] at hlt
    obtain ⟨s₂,hback,h₂⟩ := parseback_complete hnul t h₁ rfl (show n < line.length+1 by omega)
    obtain ⟨s₃,hpeek,h₃⟩ := peek_eq hnul h₂ [';'] (by decide)
    obtain ⟨q,e,s₄,htok,h₄,-⟩ := gettoken_cons hnul h₃
    obtain ⟨s₅,hrest,h₅⟩ := ihl h₄ hus fuel (by omega)
    refine ⟨s₅,?_,h₅⟩
    simp only [parse] at hpipe hrest ⊢
    rw [parseline]
    simp only [hpipe,bind,Except.bind,hback,hpeek,(startsWith_tok .semi ';' rfl (by decide)).mpr ⟨_,rfl⟩,if_true,htok,hrest]
    rfl
  | @pipe ts t hc ih =>
    obtain ⟨fuel,rfl⟩ : ∃ m, fuel = m+1 := ⟨fuel-1,by simp only [NonTerminal.depth] at hfuel; omega⟩
    simp only [NonTerminal.depth] at hfuel ih
    obtain ⟨s₁,hcmd,h₁⟩ := ih h (hus.mono (by decide)) fuel (by omega)
    obtain ⟨s₂,hpeek,h₂⟩ := peek_eq hnul h₁ ['|'] (by decide)
    refine ⟨s₂,?_,h₂⟩
    simp only [parse] at hcmd ⊢
    rw [parsepipe,hcmd]
    simp only [bind,Except.bind,hpeek,hus.not_startsWith ['|'] rfl]
    rfl
  | @pipes ts vs t u hc hp ihc ihp =>
    obtain ⟨fuel,rfl⟩ : ∃ m, fuel = m+1 := ⟨fuel-1,by simp only [NonTerminal.depth] at hfuel; omega⟩
    simp only [NonTerminal.depth,List.length_append,List.length_cons] at hfuel ihc ihp
    rw [List.append_assoc] at h
    obtain ⟨s₁,hcmd,h₁⟩ := ihc h (.cons rfl (by decide)) fuel (by omega)
    obtain ⟨s₂,hpeek,h₂⟩ := peek_eq hnul h₁ ['|'] (by decide)
    obtain ⟨q,e,s₃,htok,h₃,-⟩ := gettoken_cons hnul h₂
    obtain ⟨s₄,hrest,h₄⟩ := ihp h₃ hus fuel (by omega)
    refine ⟨s₄,?_,h₄⟩
    simp only [parse] at hcmd hrest ⊢
    rw [parsepipe,hcmd]
    simp only [bind,Except.bind,List.cons_append,hpeek,(startsWith_tok .bar '|' rfl (by decide)).mpr ⟨_,rfl⟩,if_true,htok,hrest]
    rfl
  | @block ts t rs hl ih =>
    obtain ⟨fuel,rfl⟩ : ∃ m, fuel = m+2 := ⟨fuel-2,by simp only [NonTerminal.depth] at hfuel; omega⟩
    simp only [NonTerminal.depth,List.length_append,List.length_cons] at hfuel ih
    exact parseexec_block hnul (fun hf h' => ih h' hf fuel (by omega)) h hus
  | simple rs ws hargs =>
    obtain ⟨fuel,rfl⟩ : ∃ m, fuel = m+1 := ⟨fuel-1,by simp only [NonTerminal.depth] at hfuel; omega⟩
    exact parseexec_simple hnul h hus hargs

end Completeness

end Xv6Paging.Shell
