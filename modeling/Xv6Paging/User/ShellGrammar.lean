import Xv6Paging.User.Shell

/-! # The grammar of the shell

Lines, tokens and the grammar

  line ::= pipe {'&'} [';' line]
  pipe ::= cmd ['|' pipe]
  cmd ::= '(' line ')' {redir} | {redir} {word {redir}}
  redir ::= ('<'|'>'|'>>') word

with fewer than `MAXARGS` words in a simple command. A derivation comes with its tree: redirections wrap the
command in the order in which they are written, the first one innermost.
-/
namespace Xv6Paging.Shell

inductive Tok (α : Type)
  | lt
  | gt
  | append
  | bar
  | amp
  | semi
  | lparen
  | rparen
  | word (w : α)

def Tok.map {α β : Type} (f : α → β) : Tok α → Tok β
  | .lt => .lt
  | .gt => .gt
  | .append => .append
  | .bar => .bar
  | .amp => .amp
  | .semi => .semi
  | .lparen => .lparen
  | .rparen => .rparen
  | .word w => .word (f w)

def Cmd.map {α β : Type} (f : α → β) : Cmd α → Cmd β
  | .exec argv => .exec (argv.map f)
  | .redir cmd file mode fd => .redir (cmd.map f) (f file) mode fd
  | .pipe left right => .pipe (left.map f) (right.map f)
  | .list left right => .list (left.map f) (right.map f)
  | .back cmd => .back (cmd.map f)

def isWord (c : Char) : Bool := c ∉ whitespace ∧ c ∉ symbols

def symbolTok {α : Type} (c : Char) : Option (Tok α) :=
  if c = '<' then some .lt
  else if c = '|' then some .bar
  else if c = '&' then some .amp
  else if c = ';' then some .semi
  else if c = '(' then some .lparen
  else if c = ')' then some .rparen
  else none

/-- The tokens of the characters from position `o` on; a word comes with its position. Words are as long as
possible, and so is `>>`. -/
def lex (o : ℕ) : List Char → List (Tok (ℕ × List Char))
  | [] => []
  | c :: cs =>
    if c ∈ whitespace then lex (o+1) cs
    else if c = '>' then
      if cs.head? = some '>' then .append :: lex (o+2) (cs.drop 1) else .gt :: lex (o+1) cs
    else
      match symbolTok c with
      | some t => t :: lex (o+1) cs
      | none =>
        .word (o,c :: cs.takeWhile isWord) :: lex (o+1+(cs.takeWhile isWord).length) (cs.dropWhile isWord)
  termination_by cs => cs.length
  decreasing_by
    · simp
    · simp only [List.length_drop,List.length_cons]
      omega
    · simp
    · simp
    · have hle := (List.dropWhile_sublist isWord (l := cs)).length_le
      simp only [List.length_cons]
      omega

def tokens (line : List Char) : List (Tok (List Char)) := (lex 0 line).map (Tok.map Prod.snd)

inductive RedirOp
  | lt
  | gt
  | append

namespace RedirOp

def tok {α : Type} : RedirOp → Tok α
  | lt => .lt
  | gt => .gt
  | append => .append

def mode : RedirOp → ℕ
  | lt => oRdonly
  | gt => oWronly ||| oCreate
  | append => oWronly ||| oCreate

def fd : RedirOp → ℕ
  | lt => 0
  | gt => 1
  | append => 1

end RedirOp

section Grammar
variable {α : Type}

def redirToks (rs : List (RedirOp × α)) : List (Tok α) := rs.flatMap fun r => [r.1.tok,.word r.2]

def argToks (ws : List (α × List (RedirOp × α))) : List (Tok α) := ws.flatMap fun w => .word w.1 :: redirToks w.2

def wrap (rs : List (RedirOp × α)) (cmd : Cmd α) : Cmd α :=
  rs.foldl (fun cmd r => .redir cmd r.2 r.1.mode r.1.fd) cmd

inductive NonTerminal
  | line
  | pipe
  | cmd

/-- The token sequences that the grammar derives, with the trees of their derivations. -/
inductive Derives : NonTerminal → List (Tok α) → Cmd α → Prop
  | line {ts : List (Tok α)} {t : Cmd α} (n : ℕ) :
      Derives .pipe ts t → Derives .line (ts ++ List.replicate n .amp) (Cmd.back^[n] t)
  | lines {ts us : List (Tok α)} {t u : Cmd α} (n : ℕ) : Derives .pipe ts t → Derives .line us u →
      Derives .line (ts ++ List.replicate n .amp ++ .semi :: us) (.list (Cmd.back^[n] t) u)
  | pipe {ts : List (Tok α)} {t : Cmd α} : Derives .cmd ts t → Derives .pipe ts t
  | pipes {ts us : List (Tok α)} {t u : Cmd α} : Derives .cmd ts t → Derives .pipe us u →
      Derives .pipe (ts ++ .bar :: us) (.pipe t u)
  | block {ts : List (Tok α)} {t : Cmd α} (rs : List (RedirOp × α)) : Derives .line ts t →
      Derives .cmd (.lparen :: ts ++ .rparen :: redirToks rs) (wrap rs t)
  | simple (rs : List (RedirOp × α)) (ws : List (α × List (RedirOp × α))) : ws.length < maxArgs →
      Derives .cmd (redirToks rs ++ argToks ws) (wrap (rs ++ ws.flatMap Prod.snd) (.exec (ws.map Prod.fst)))

end Grammar

end Xv6Paging.Shell
