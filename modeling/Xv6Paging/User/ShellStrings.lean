import Xv6Paging.User.ShellParsing

/-! # The words of a parsed line

The grammar does not look at the words, so that trees over pointers and trees over texts are trees of the same
derivations. A word of the line is a longest run of word characters, and `nulterminate` writes behind words only:
read as a C string every word is its token.
-/
namespace Xv6Paging.Shell

section Functor
variable {α β : Type} (f : α → β)

theorem map_redirToks (rs : List (RedirOp × α)) :
    (redirToks rs).map (Tok.map f) = redirToks (rs.map (Prod.map id f)) := by
  induction rs with
  | nil => rfl
  | cons r rs ih =>
    have hop : (r.1.tok : Tok α).map f = r.1.tok := by cases r.1 <;> rfl
    simp only [redirToks,List.flatMap_cons,List.map_append,List.map_cons,List.map_nil,hop] at ih ⊢
    rw [ih]
    rfl

theorem map_argToks (ws : List (α × List (RedirOp × α))) :
    (argToks ws).map (Tok.map f) = argToks (ws.map (Prod.map f (List.map (Prod.map id f)))) := by
  induction ws with
  | nil => rfl
  | cons w ws ih =>
    have hrs := map_redirToks f w.2
    simp only [argToks,List.flatMap_cons,List.map_append,List.map_cons,hrs] at ih ⊢
    rw [ih]
    rfl

theorem map_wrap (rs : List (RedirOp × α)) (cmd : Cmd α) :
    (wrap rs cmd).map f = wrap (rs.map (Prod.map id f)) (cmd.map f) := by
  induction rs generalizing cmd with
  | nil => rfl
  | cons r rs ih => exact ih _

theorem map_back (n : ℕ) (cmd : Cmd α) : (Cmd.back^[n] cmd).map f = Cmd.back^[n] (cmd.map f) := by
  induction n generalizing cmd with
  | zero => rfl
  | succ n ih => exact ih (.back cmd)

theorem map_simple (rs : List (RedirOp × α)) (ws : List (α × List (RedirOp × α))) :
    (wrap (rs ++ ws.flatMap Prod.snd) (.exec (ws.map Prod.fst))).map f =
      wrap (rs.map (Prod.map id f) ++ (ws.map (Prod.map f (List.map (Prod.map id f)))).flatMap Prod.snd)
        (.exec ((ws.map (Prod.map f (List.map (Prod.map id f)))).map Prod.fst)) := by
  rw [map_wrap,List.map_append,List.map_flatMap,List.flatMap_map,List.map_map]
  simp only [Cmd.map,List.map_map]
  rfl

theorem Derives.map {nt : NonTerminal} {ts : List (Tok α)} {t : Cmd α} (h : Derives nt ts t) :
    Derives nt (ts.map (Tok.map f)) (t.map f) := by
  induction h with
  | line n _ ih =>
    rw [List.map_append,List.map_replicate,map_back]
    exact .line n ih
  | lines n _ _ ih ih' =>
    rw [List.map_append,List.map_append,List.map_replicate,List.map_cons,Cmd.map,map_back]
    exact .lines n ih ih'
  | pipe _ ih => exact .pipe ih
  | pipes _ _ ih ih' =>
    rw [List.map_append,List.map_cons]
    exact .pipes ih ih'
  | block rs _ ih =>
    rw [List.map_append,List.map_cons,List.map_cons,map_redirToks,map_wrap]
    exact .block _ ih
  | simple rs ws hargs =>
    rw [List.map_append,map_redirToks,map_argToks,map_simple]
    exact .simple _ _ (by rwa [List.length_map])

theorem Tok.map_eq_word {t : Tok α} {v : β} (h : t.map f = .word v) : ∃ w, t = .word w ∧ f w = v := by
  cases t
  case word w => exact ⟨w,rfl,by injection h⟩
  all_goals cases h

theorem redirToks_of_map {ts : List (Tok α)} {rs : List (RedirOp × β)} (h : ts.map (Tok.map f) = redirToks rs) :
    ∃ rs', ts = redirToks rs' ∧ rs = rs'.map (Prod.map id f) := by
  induction rs generalizing ts with
  | nil => exact ⟨[],List.map_eq_nil_iff.mp h,rfl⟩
  | cons r rs ih =>
    have hcons : ts.map (Tok.map f) = r.1.tok :: .word r.2 :: redirToks rs := h
    obtain ⟨t,us,rfl,hop,hfile⟩ := List.map_eq_cons_iff.mp hcons
    obtain ⟨t',us,rfl,hword,hrest⟩ := List.map_eq_cons_iff.mp hfile
    obtain ⟨w,rfl,hw⟩ := Tok.map_eq_word f hword
    obtain ⟨rs',rfl,rfl⟩ := ih hrest
    have htok : t = r.1.tok := by
      revert hop
      cases r.1 <;> cases t <;> simp [RedirOp.tok,Tok.map]
    refine ⟨(r.1,w) :: rs',by rw [htok]; rfl,?_⟩
    rw [List.map_cons,Prod.map_apply,hw]
    rfl

theorem argToks_of_map {ts : List (Tok α)} {ws : List (β × List (RedirOp × β))}
    (h : ts.map (Tok.map f) = argToks ws) :
    ∃ ws', ts = argToks ws' ∧ ws = ws'.map (Prod.map f (List.map (Prod.map id f))) := by
  induction ws generalizing ts with
  | nil => exact ⟨[],List.map_eq_nil_iff.mp h,rfl⟩
  | cons w ws ih =>
    have hcons : ts.map (Tok.map f) = .word w.1 :: (redirToks w.2 ++ argToks ws) := h
    obtain ⟨t,us,rfl,hword,hrest⟩ := List.map_eq_cons_iff.mp hcons
    obtain ⟨v,rfl,hv⟩ := Tok.map_eq_word f hword
    obtain ⟨us,vs,rfl,hredirs,hargs⟩ := List.map_eq_append_iff.mp hrest
    obtain ⟨rs,rfl,hrs⟩ := redirToks_of_map f hredirs
    obtain ⟨ws',rfl,rfl⟩ := ih hargs
    refine ⟨(v,rs) :: ws',rfl,?_⟩
    rw [List.map_cons,Prod.map_apply,hv,← hrs]

theorem amps_of_map {ts : List (Tok α)} {n : ℕ} (h : ts.map (Tok.map f) = List.replicate n .amp) :
    ts = List.replicate n .amp := by
  obtain ⟨hlen,hall⟩ := List.eq_replicate_iff.mp h
  refine List.eq_replicate_iff.mpr ⟨by rw [← hlen,List.length_map],fun t ht => ?_⟩
  have hamp := hall _ (List.mem_map_of_mem ht)
  cases t
  case amp => rfl
  all_goals cases hamp

theorem Derives.of_map {nt : NonTerminal} {ts : List (Tok α)} {u : Cmd β} (h : Derives nt (ts.map (Tok.map f)) u) :
    ∃ t, Derives nt ts t ∧ u = t.map f := by
  generalize hus : ts.map (Tok.map f) = us at h
  induction h generalizing ts with
  | line n _ ih =>
    obtain ⟨ts,as,rfl,hts,has⟩ := List.map_eq_append_iff.mp hus
    obtain ⟨t,ht,rfl⟩ := ih hts
    obtain rfl := amps_of_map f has
    exact ⟨_,.line n ht,(map_back f n t).symm⟩
  | lines n _ _ ih ih' =>
    obtain ⟨ts,vs,rfl,hts,hvs⟩ := List.map_eq_append_iff.mp hus
    obtain ⟨ts,as,rfl,hts,has⟩ := List.map_eq_append_iff.mp hts
    obtain ⟨s,vs,rfl,hs,hvs⟩ := List.map_eq_cons_iff.mp hvs
    obtain ⟨t,ht,rfl⟩ := ih hts
    obtain ⟨t',ht',rfl⟩ := ih' hvs
    obtain rfl := amps_of_map f has
    cases s
    case semi =>
      refine ⟨_,.lines n ht ht',?_⟩
      rw [Cmd.map,map_back]
    all_goals cases hs
  | pipe _ ih =>
    obtain ⟨t,ht,rfl⟩ := ih hus
    exact ⟨t,.pipe ht,rfl⟩
  | pipes _ _ ih ih' =>
    obtain ⟨ts,vs,rfl,hts,hvs⟩ := List.map_eq_append_iff.mp hus
    obtain ⟨s,vs,rfl,hs,hvs⟩ := List.map_eq_cons_iff.mp hvs
    obtain ⟨t,ht,rfl⟩ := ih hts
    obtain ⟨t',ht',rfl⟩ := ih' hvs
    cases s
    case bar => exact ⟨_,.pipes ht ht',rfl⟩
    all_goals cases hs
  | block rs _ ih =>
    obtain ⟨ts,vs,rfl,hts,hvs⟩ := List.map_eq_append_iff.mp hus
    obtain ⟨o,ts,rfl,ho,hts⟩ := List.map_eq_cons_iff.mp hts
    obtain ⟨c,vs,rfl,hc,hvs⟩ := List.map_eq_cons_iff.mp hvs
    obtain ⟨t,ht,rfl⟩ := ih hts
    obtain ⟨rs',rfl,rfl⟩ := redirToks_of_map f hvs
    cases o
    case lparen =>
      cases c
      case rparen => exact ⟨_,.block rs' ht,(map_wrap f rs' t).symm⟩
      all_goals cases hc
    all_goals cases ho
  | simple rs ws hargs =>
    obtain ⟨ts,vs,rfl,hts,hvs⟩ := List.map_eq_append_iff.mp hus
    obtain ⟨rs',rfl,rfl⟩ := redirToks_of_map f hts
    obtain ⟨ws',rfl,rfl⟩ := argToks_of_map f hvs
    rw [List.length_map] at hargs
    exact ⟨_,.simple rs' ws' hargs,(map_simple f rs' ws').symm⟩

end Functor

/-! ## The words of a command -/

section Words
variable {α β : Type}

def Cmd.words : Cmd α → List α
  | .exec argv => argv
  | .redir cmd file _ _ => cmd.words ++ [file]
  | .pipe left right => left.words ++ right.words
  | .list left right => left.words ++ right.words
  | .back cmd => cmd.words

theorem Cmd.map_map {γ : Type} (f : α → β) (g : β → γ) (cmd : Cmd α) : (cmd.map f).map g = cmd.map (g ∘ f) := by
  induction cmd with
  | exec argv => simp [Cmd.map]
  | redir cmd file mode fd ih => rw [Cmd.map,Cmd.map,Cmd.map,ih]; rfl
  | pipe left right ih ih' => rw [Cmd.map,Cmd.map,Cmd.map,ih,ih']
  | list left right ih ih' => rw [Cmd.map,Cmd.map,Cmd.map,ih,ih']
  | back cmd ih => rw [Cmd.map,Cmd.map,Cmd.map,ih]

theorem Cmd.map_congr {f g : α → β} {cmd : Cmd α} (h : ∀ w ∈ cmd.words, f w = g w) : cmd.map f = cmd.map g := by
  induction cmd with
  | exec argv => exact congrArg Cmd.exec (List.map_congr_left h)
  | redir cmd file mode fd ih =>
    rw [Cmd.map,Cmd.map,ih fun w hw => h w (List.mem_append_left _ hw),h file (by simp [Cmd.words])]
  | pipe left right ih ih' =>
    rw [Cmd.map,Cmd.map,ih fun w hw => h w (List.mem_append_left _ hw),
      ih' fun w hw => h w (List.mem_append_right _ hw)]
  | list left right ih ih' =>
    rw [Cmd.map,Cmd.map,ih fun w hw => h w (List.mem_append_left _ hw),
      ih' fun w hw => h w (List.mem_append_right _ hw)]
  | back cmd ih => rw [Cmd.map,Cmd.map,ih h]

theorem Cmd.map_words (f : α → β) (cmd : Cmd α) : (cmd.map f).words = cmd.words.map f := by
  induction cmd with
  | exec argv => rfl
  | redir cmd file mode fd ih => rw [Cmd.map,Cmd.words,Cmd.words,ih,List.map_append]; rfl
  | pipe left right ih ih' => rw [Cmd.map,Cmd.words,Cmd.words,ih,ih',List.map_append]
  | list left right ih ih' => rw [Cmd.map,Cmd.words,Cmd.words,ih,ih',List.map_append]
  | back cmd ih => exact ih

theorem words_wrap (rs : List (RedirOp × α)) (cmd : Cmd α) : (wrap rs cmd).words = cmd.words ++ rs.map Prod.snd := by
  induction rs generalizing cmd with
  | nil => exact (List.append_nil _).symm
  | cons r rs ih =>
    rw [show wrap (r :: rs) cmd = wrap rs (.redir cmd r.2 r.1.mode r.1.fd) from rfl,ih,Cmd.words,List.map_cons]
    simp

theorem words_back (n : ℕ) (cmd : Cmd α) : (Cmd.back^[n] cmd).words = cmd.words := by
  induction n generalizing cmd with
  | zero => rfl
  | succ n ih => exact ih (.back cmd)

theorem mem_redirToks {rs : List (RedirOp × α)} {w : α} (h : w ∈ rs.map Prod.snd) : .word w ∈ redirToks rs := by
  obtain ⟨r,hr,rfl⟩ := List.mem_map.mp h
  exact List.mem_flatMap.mpr ⟨r,hr,by simp⟩

theorem Derives.word_mem {nt : NonTerminal} {ts : List (Tok α)} {t : Cmd α} (h : Derives nt ts t) {w : α}
    (hw : w ∈ t.words) : .word w ∈ ts := by
  induction h with
  | line n _ ih =>
    rw [words_back] at hw
    exact List.mem_append_left _ (ih hw)
  | lines n _ _ ih ih' =>
    rw [Cmd.words,words_back] at hw
    obtain hw | hw := List.mem_append.mp hw
    · exact List.mem_append_left _ (List.mem_append_left _ (ih hw))
    · exact List.mem_append_right _ (List.mem_cons_of_mem _ (ih' hw))
  | pipe _ ih => exact ih hw
  | pipes _ _ ih ih' =>
    obtain hw | hw := List.mem_append.mp hw
    · exact List.mem_append_left _ (ih hw)
    · exact List.mem_append_right _ (List.mem_cons_of_mem _ (ih' hw))
  | block rs _ ih =>
    rw [words_wrap] at hw
    obtain hw | hw := List.mem_append.mp hw
    · exact List.mem_append_left _ (List.mem_cons_of_mem _ (ih hw))
    · exact List.mem_append_right _ (List.mem_cons_of_mem _ (mem_redirToks hw))
  | simple rs ws _ =>
    rw [words_wrap,Cmd.words,List.map_append] at hw
    obtain hw | hw := List.mem_append.mp hw
    · obtain ⟨a,ha,rfl⟩ := List.mem_map.mp hw
      exact List.mem_append_right _ (List.mem_flatMap.mpr ⟨a,ha,List.mem_cons_self⟩)
    · obtain hw | hw := List.mem_append.mp hw
      · exact List.mem_append_left _ (mem_redirToks hw)
      · obtain ⟨r,hr,rfl⟩ := List.mem_map.mp hw
        obtain ⟨a,ha,hra⟩ := List.mem_flatMap.mp hr
        refine List.mem_append_right _ (List.mem_flatMap.mpr ⟨a,ha,List.mem_cons_of_mem _ ?_⟩)
        exact mem_redirToks (List.mem_map_of_mem hra)

end Words

/-! ## C strings -/

theorem dropWhile_eq_drop (cs : List Char) : cs.dropWhile isWord = cs.drop (cs.takeWhile isWord).length := by
  calc cs.dropWhile isWord = (cs.takeWhile isWord ++ cs.dropWhile isWord).drop (cs.takeWhile isWord).length :=
        List.drop_left.symm
    _ = cs.drop (cs.takeWhile isWord).length := by rw [List.takeWhile_append_dropWhile]

theorem isWord_behind {cs : List Char} {c : Char} (h : cs[(cs.takeWhile isWord).length]? = some c) :
    isWord c = false := by
  rw [← List.head?_drop,← dropWhile_eq_drop,← List.find?_not_eq_head?_dropWhile] at h
  have hnot := List.find?_some h
  exact (Bool.not_eq_true' _).mp hnot

def IsRun (o : ℕ) (cs : List Char) (w : ℕ × List Char) : Prop :=
  ∃ k ≤ cs.length, w.1 = o+k ∧ w.2 = (cs.drop k).takeWhile isWord

theorem IsRun.of_drop {o j : ℕ} {cs : List Char} {w : ℕ × List Char} (hj : j ≤ cs.length)
    (h : IsRun (o+j) (cs.drop j) w) : IsRun o cs w := by
  obtain ⟨k,hk,hpos,htext⟩ := h
  rw [List.length_drop] at hk
  rw [List.drop_drop] at htext
  exact ⟨j+k,by omega,by omega,htext⟩

theorem IsRun.of_tail {o : ℕ} {c : Char} {cs : List Char} {w : ℕ × List Char} (h : IsRun (o+1) cs w) :
    IsRun o (c :: cs) w :=
  .of_drop (Nat.succ_le_succ (Nat.zero_le _)) h

theorem isRun_of_mem_lex {o : ℕ} {cs : List Char} {w : ℕ × List Char} (h : .word w ∈ lex o cs) : IsRun o cs w := by
  induction o, cs using lex.induct with
  | case1 o =>
    rw [lex_nil] at h
    cases h
  | case2 o c cs hspace ih =>
    rw [lex,if_pos hspace] at h
    exact (ih h).of_tail
  | case3 o cs hhead hspace ih =>
    rw [lex,if_neg hspace,if_pos rfl,if_pos hhead] at h
    cases cs with
    | nil => cases hhead
    | cons d ds =>
      obtain h | h := List.mem_cons.mp h
      · cases h
      · exact (IsRun.of_tail (ih h)).of_tail
  | case4 o cs hhead hspace ih =>
    rw [lex,if_neg hspace,if_pos rfl,if_neg hhead] at h
    obtain h | h := List.mem_cons.mp h
    · cases h
    · exact (ih h).of_tail
  | case5 o c cs hspace hgt t hsym ih =>
    rw [lex,if_neg hspace,if_neg hgt,hsym] at h
    obtain h | h := List.mem_cons.mp h
    · exact absurd h.symm ((symbolTok_code hsym).2.2.2 w)
    · exact (ih h).of_tail
  | case6 o c cs hspace hgt hsym ih =>
    rw [lex,if_neg hspace,if_neg hgt,hsym] at h
    obtain h | h := List.mem_cons.mp h
    · cases h
      refine ⟨0,Nat.zero_le _,rfl,?_⟩
      have hmem := symbolTok_none hsym
      have hw : isWord c = true := by
        refine decide_eq_true ⟨hspace,?_⟩
        simp only [symbols,List.mem_cons,List.not_mem_nil] at hmem ⊢
        tauto
      rw [List.drop_zero,List.takeWhile_cons_of_pos hw]
    · have hrest := ih h
      rw [dropWhile_eq_drop] at hrest
      exact (IsRun.of_drop (List.takeWhile_sublist isWord).length_le hrest).of_tail

def cString (buf : List Char) (s : ℕ) : List Char := (buf.drop s).takeWhile (· ≠ nul)

theorem cString_eq {buf text : List Char} {s : ℕ} (htext : ∀ i < text.length, buf[s+i]? = text[i]?)
    (hnul : nul ∉ text) (hend : buf[s+text.length]? = some nul) : cString buf s = text := by
  have hsplit : buf.drop s = text ++ nul :: (buf.drop (s+text.length+1)) := by
    refine List.ext_getElem? fun i => ?_
    rw [List.getElem?_drop]
    obtain hlt | heq | hgt := Nat.lt_trichotomy i text.length
    · rw [htext i hlt,List.getElem?_append_left hlt]
    · rw [heq,hend,List.getElem?_append_right le_rfl,Nat.sub_self]
      rfl
    · obtain ⟨d,rfl⟩ := Nat.exists_eq_add_of_lt hgt
      rw [List.getElem?_append_right (by omega),show text.length+d+1-text.length = d+1 by omega,List.getElem?_cons_succ,
        List.getElem?_drop]
      congr 1
      omega
  rw [cString,hsplit,List.takeWhile_append_of_pos]
  · rw [List.takeWhile_cons_of_neg (by simp),List.append_nil]
  · intro c hc
    refine decide_eq_true ?_
    rintro rfl
    exact hnul hc

theorem nulterminate_eq (cmd : Cmd Span) (buf : List Char) :
    nulterminate cmd buf = cmd.words.foldl (fun buf w => buf.set w.2 nul) buf := by
  induction cmd generalizing buf with
  | exec argv => rfl
  | redir cmd file mode fd ih => rw [nulterminate,Cmd.words,List.foldl_append,ih]; rfl
  | pipe left right ih ih' => rw [nulterminate,Cmd.words,List.foldl_append,ih,ih']
  | list left right ih ih' => rw [nulterminate,Cmd.words,List.foldl_append,ih,ih']
  | back cmd ih => exact ih buf

theorem getElem?_terminated (ws : List Span) (buf : List Char) (i : ℕ) :
    (i ∉ ws.map Prod.snd → (ws.foldl (fun buf w => buf.set w.2 nul) buf)[i]? = buf[i]?) ∧
    (i ∈ ws.map Prod.snd → i < buf.length → (ws.foldl (fun buf w => buf.set w.2 nul) buf)[i]? = some nul) := by
  induction ws generalizing buf with
  | nil => exact ⟨fun _ => rfl,fun h => absurd h List.not_mem_nil⟩
  | cons w ws ih =>
    obtain ⟨hout,hin⟩ := ih (buf.set w.2 nul)
    rw [List.map_cons,List.mem_cons,List.foldl_cons]
    constructor
    · intro hi
      rw [hout fun h => hi (.inr h),List.getElem?_set_ne fun h => hi (.inl h.symm)]
    · intro hi hlt
      by_cases hmem : i ∈ ws.map Prod.snd
      · exact hin hmem (by rwa [List.length_set])
      · rw [hout hmem,hi.resolve_right hmem]
        rw [hi.resolve_right hmem] at hlt
        exact List.getElem?_set_self hlt

theorem cString_word {line : List Char} (hnul : nul ∉ line) {t : Cmd (ℕ × List Char)}
    (ht : ∀ w ∈ t.words, .word w ∈ lex 0 line) {w : ℕ × List Char} (hw : w ∈ t.words) :
    cString (nulterminate (t.map span) (line ++ [nul])) w.1 = w.2 := by
  have hrun {v : ℕ × List Char} (hv : v ∈ t.words) :
      v.1 ≤ line.length ∧ v.2 = (line.drop v.1).takeWhile isWord := by
    obtain ⟨k,hk,hpos,htext⟩ := isRun_of_mem_lex (ht v hv)
    rw [Nat.zero_add] at hpos
    exact ⟨by omega,by rw [hpos,htext]⟩
  obtain ⟨hle,htext⟩ := hrun hw
  have hpre : w.2 <+: line.drop w.1 := htext ▸ List.takeWhile_prefix _
  have hchar {i : ℕ} (hi : i < w.2.length) : (line.drop w.1)[i]? = w.2[i]? := by
    obtain ⟨rest,hrest⟩ := hpre
    rw [← hrest,List.getElem?_append_left hi]
  have hlen : w.1+w.2.length ≤ line.length := by
    have hle' := hpre.length_le
    rw [List.length_drop] at hle'
    omega
  rw [nulterminate_eq,Cmd.map_words]
  have hsnd : (t.words.map span).map Prod.snd = t.words.map fun v => v.1+v.2.length := by
    rw [List.map_map]
    rfl
  refine cString_eq ?_ ?_ ?_
  · -- no word ends inside of another one: the character there is no word character
    intro i hi
    rw [(getElem?_terminated _ _ _).1,List.getElem?_append_left (by omega),← List.getElem?_drop,hchar hi]
    rw [hsnd]
    intro hmem
    obtain ⟨v,hv,hend⟩ := List.mem_map.mp hmem
    obtain ⟨hle',htext'⟩ := hrun hv
    have hhere : (line.drop v.1)[((line.drop v.1).takeWhile isWord).length]? = some w.2[i] := by
      rw [← htext',List.getElem?_drop,hend,← List.getElem?_drop,hchar hi,List.getElem?_eq_getElem hi]
    have hword : isWord w.2[i] = true := by
      refine List.mem_takeWhile_imp (l := line.drop w.1) ?_
      rw [← htext]
      exact List.getElem_mem hi
    exact Bool.false_ne_true ((isWord_behind hhere).symm.trans hword)
  · intro hmem
    exact hnul (List.mem_of_mem_drop (hpre.subset hmem))
  · refine (getElem?_terminated _ _ _).2 ?_ ?_
    · rw [hsnd]
      exact List.mem_map.mpr ⟨w,hw,rfl⟩
    · rw [List.length_append]
      exact Nat.lt_succ_of_le hlen

/-! ## The command of a line -/

theorem reads_line (line : List Char) : Reads line 0 ((lex 0 line).map (Tok.map span)) := ⟨Nat.zero_le _,rfl⟩

/-- `parsecmd` returns the tree of the line's tokens, or stops with a message. -/
theorem parsecmd_sound {line : List Char} (hnul : nul ∉ line) :
    Outcome (parsecmd line) (fun r => Derives .line ((lex 0 line).map (Tok.map span)) r.1 ∧
      r.2 = nulterminate r.1 (line ++ [nul])) Stops := by
  have h := reads_line line
  unfold parsecmd
  have hfuel : 4*((lex 0 line).map (Tok.map span)).length+NonTerminal.line.depth ≤ 4*line.length+4 := by
    have hlt := h.length_lt
    simp only [NonTerminal.depth]
    omega
  refine (parse_sound hnul .line h hfuel).bind ?_
  rintro ⟨cmd,s⟩ ⟨us,vs,heq,hd,hs⟩
  dsimp only
  by_cases hend : (peek line s []).2 = line.length
  · obtain rfl := (peek_end hnul hs).mp hend
    rw [List.append_nil] at heq
    simp only [hend,ne_eq,not_true_eq_false,if_false]
    exact .ok ⟨heq ▸ hd,rfl⟩
  · simp only [ne_eq,hend,not_false_eq_true,if_true]
    exact .error (stops_panic _)

/-- `parsecmd` accepts every line whose tokens the grammar derives. -/
theorem parsecmd_complete {line : List Char} (hnul : nul ∉ line) {t : Cmd Span}
    (hd : Derives .line ((lex 0 line).map (Tok.map span)) t) :
    parsecmd line = .ok (t,nulterminate t (line ++ [nul])) := by
  have h := reads_line line
  have hlt := h.length_lt
  rw [← List.append_nil ((lex 0 line).map (Tok.map span))] at h
  obtain ⟨s,hparse,hs⟩ := parse_complete hnul hd h (.inl rfl) (4*line.length+4)
    (by simp only [NonTerminal.depth]; omega)
  have hend := (peek_end hnul hs).mpr rfl
  unfold parsecmd
  refine (congrArg (· >>= _) hparse).trans ?_
  simp only [bind,Except.bind,hend,ne_eq,not_true_eq_false,if_false]
  rfl

/-- `parsecmd` accepts exactly the lines whose tokens the grammar derives, and the only tree that they have
is the one it builds. -/
theorem parsecmd_derives {line : List Char} (hnul : nul ∉ line) :
    parsecmd line ≠ .error .diverges ∧
    ((∃ r, parsecmd line = .ok r) ↔ ∃ t, Derives .line (tokens line) t) ∧
    ∀ cmd buf, parsecmd line = .ok (cmd,buf) →
      ∀ t, Derives .line (tokens line) t ↔ t = cmd.map fun w => cString buf w.1 := by
  have hsound := parsecmd_sound hnul
  -- the command over pointers and its tree over texts
  have htexts {t : Cmd (ℕ × List Char)} (ht : Derives .line (lex 0 line) t) :
      (t.map span).map (fun w => cString (nulterminate (t.map span) (line ++ [nul])) w.1) = t.map Prod.snd := by
    rw [Cmd.map_map]
    exact Cmd.map_congr fun w hw => cString_word hnul (fun v hv => ht.word_mem hv) hw
  refine ⟨fun h => hsound.of_error h rfl,⟨?_,?_⟩,?_⟩
  · rintro ⟨r,hr⟩
    obtain ⟨t,ht,-⟩ := (hsound.of_ok hr).1.of_map span
    exact ⟨_,ht.map Prod.snd⟩
  · rintro ⟨u,hu⟩
    obtain ⟨t,ht,-⟩ := hu.of_map Prod.snd
    exact ⟨_,parsecmd_complete hnul (ht.map span)⟩
  · intro cmd buf hok u
    obtain ⟨hd,hbuf⟩ := hsound.of_ok hok
    obtain ⟨t,ht,hcmd⟩ := hd.of_map span
    dsimp only at hcmd hbuf
    subst hcmd hbuf
    rw [htexts ht]
    constructor
    · intro hu
      obtain ⟨t',ht',rfl⟩ := hu.of_map Prod.snd
      have hok' := parsecmd_complete hnul (ht'.map span)
      rw [hok] at hok'
      have hspans : t.map span = t'.map span := by injection hok' with h; injection h
      rw [← htexts ht,hspans,htexts ht']
    · rintro rfl
      exact ht.map Prod.snd

def sampleLine : List Char := ['(','a',')','>','f','&']

theorem parsecmd_derives_sampleLine : nul ∉ sampleLine ∧
    Derives .line (tokens sampleLine) (.back (.redir (.exec [['a']]) ['f'] (oWronly ||| oCreate) 1)) := by
  have hparse : parsecmd sampleLine = .ok (.back (.redir (.exec [(1,2)]) (4,5) (oWronly ||| oCreate) 1),
      ['(','a',nul,'>','f',nul,nul]) := by decide +kernel
  exact ⟨by decide,((parsecmd_derives (by decide)).2.2 _ _ hparse _).mpr (by decide)⟩

end Xv6Paging.Shell
