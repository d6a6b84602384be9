import Mathlib.Data.List.Basic
import Xv6Paging.Kernel.Config

/-! # The parser of the shell

`gettoken`, `peek`, `parsecmd` and the functions it calls, and `nulterminate` of `sh.c`. The line is a C string:
its characters up to the NUL that ends it. A pointer into the line is the number of the character it points to,
and a word is known by the pointers to its start and to its end. `parseredirs` and the loops are given as much
fuel as the line has characters; each of their iterations consumes at least one.
-/
namespace Xv6Paging.Shell

def nul : Char := '\x00'

def whitespace : List Char := [' ','\t','\r','\n','\x0b']

def symbols : List Char := ['<','|','>','&',';','(',')']

def oRdonly : ℕ := 0x000
def oWronly : ℕ := 0x001
def oCreate : ℕ := 0x200
def maxArgs : ℕ := 10

/-- The parsed commands. A word is what `argv` and `eargv`, or `file` and `efile`, say about it. -/
inductive Cmd (α : Type)
  | exec (argv : List α)
  | redir (cmd : Cmd α) (file : α) (mode fd : ℕ)
  | pipe (left right : Cmd α)
  | list (left right : Cmd α)
  | back (cmd : Cmd α)
  deriving DecidableEq

abbrev Span := ℕ × ℕ

def charAt (line : List Char) (s : ℕ) : Char := line.getD s nul

def scanWhile (line : List Char) (p : Char → Bool) : ℕ → ℕ → ℕ
  | 0, s => s
  | fuel+1, s => if s < line.length ∧ p (charAt line s) then scanWhile line p fuel (s+1) else s

def skipSpace (line : List Char) (s : ℕ) : ℕ := scanWhile line (· ∈ whitespace) line.length s

/-- The `switch` of `gettoken`: the code of the token at `q` and its end. -/
def tokenAt (line : List Char) (q : ℕ) : Char × ℕ :=
  let c := charAt line q
  if c = nul then (c,q)
  else if c ∈ ['|','(',')',';','&','<'] then (c,q+1)
  else if c = '>' then
    if charAt line (q+1) = '>' then ('+',q+2) else (c,q+1)
  else ('a',scanWhile line (fun c => c ∉ whitespace ∧ c ∉ symbols) line.length q)

def gettoken (line : List Char) (s : ℕ) : Char × ℕ × ℕ × ℕ :=
  let q := skipSpace line s
  let (ret,eq) := tokenAt line q
  (ret,q,eq,skipSpace line eq)

def peek (line : List Char) (s : ℕ) (toks : List Char) : Bool × ℕ :=
  let s := skipSpace line s
  (charAt line s ≠ nul ∧ charAt line s ∈ toks,s)

def redircmd (tok : Char) (cmd : Cmd Span) (file : Span) : Cmd Span :=
  if tok = '<' then .redir cmd file oRdonly 0
  else if tok = '>' then .redir cmd file (oWronly ||| oCreate) 1
  else if tok = '+' then .redir cmd file (oWronly ||| oCreate) 1
  else cmd

def parseredirs (line : List Char) : ℕ → Cmd Span → ℕ → Except Fault (Cmd Span × ℕ)
  | 0, _, _ => .error .diverges
  | fuel+1, cmd, s =>
    let (more,s) := peek line s ['<','>']
    if more then
      let (tok,_,_,s) := gettoken line s
      let (ret,q,eq,s) := gettoken line s
      if ret ≠ 'a' then .error (.panic "missing file for redirection")
      else parseredirs line fuel (redircmd tok cmd (q,eq)) s
    else .ok (cmd,s)

/-- `cmd->argv[argc] = q; cmd->eargv[argc] = eq`, where the `execcmd` lies below the redirections made so far. -/
def Cmd.addArg {α : Type} (w : α) : Cmd α → Cmd α
  | .exec argv => .exec (argv ++ [w])
  | .redir cmd file mode fd => .redir (cmd.addArg w) file mode fd
  | cmd => cmd

/-- The loop of `parseexec`. -/
def parseargs (line : List Char) : ℕ → ℕ → Cmd Span → ℕ → Except Fault (Cmd Span × ℕ)
  | 0, _, _, _ => .error .diverges
  | fuel+1, argc, ret, s =>
    let (stop,s) := peek line s ['|',')','&',';']
    if stop then .ok (ret,s)
    else
      let (tok,q,eq,s) := gettoken line s
      if tok = nul then .ok (ret,s)
      else if tok ≠ 'a' then .error (.panic "syntax")
      else if maxArgs ≤ argc+1 then .error (.panic "too many args")
      else do
        let (ret,s) ← parseredirs line (line.length+1) (ret.addArg (q,eq)) s
        parseargs line fuel (argc+1) ret s

/-- The loop of `parseline` for `&`. -/
def parseback (line : List Char) : ℕ → Cmd Span → ℕ → Except Fault (Cmd Span × ℕ)
  | 0, _, _ => .error .diverges
  | fuel+1, cmd, s =>
    let (more,s) := peek line s ['&']
    if more then
      let (_,_,_,s) := gettoken line s
      parseback line fuel (.back cmd) s
    else .ok (cmd,s)

mutual

def parseline (line : List Char) : ℕ → ℕ → Except Fault (Cmd Span × ℕ)
  | 0, _ => .error .diverges
  | fuel+1, s => do
    let (cmd,s) ← parsepipe line fuel s
    let (cmd,s) ← parseback line (line.length+1) cmd s
    let (more,s) := peek line s [';']
    if more then
      let (_,_,_,s) := gettoken line s
      let (rest,s) ← parseline line fuel s
      return (.list cmd rest,s)
    else return (cmd,s)
  termination_by structural fuel => fuel

def parsepipe (line : List Char) : ℕ → ℕ → Except Fault (Cmd Span × ℕ)
  | 0, _ => .error .diverges
  | fuel+1, s => do
    let (cmd,s) ← parseexec line fuel s
    let (more,s) := peek line s ['|']
    if more then
      let (_,_,_,s) := gettoken line s
      let (rest,s) ← parsepipe line fuel s
      return (.pipe cmd rest,s)
    else return (cmd,s)
  termination_by structural fuel => fuel

def parseexec (line : List Char) : ℕ → ℕ → Except Fault (Cmd Span × ℕ)
  | 0, _ => .error .diverges
  | fuel+1, s =>
    let (block,s) := peek line s ['(']
    if block then parseblock line fuel s
    else do
      let (ret,s) ← parseredirs line (line.length+1) (.exec []) s
      parseargs line (line.length+1) 0 ret s
  termination_by structural fuel => fuel

def parseblock (line : List Char) : ℕ → ℕ → Except Fault (Cmd Span × ℕ)
  | 0, _ => .error .diverges
  | fuel+1, s =>
    let (opened,s) := peek line s ['(']
    if opened then do
      let (_,_,_,s) := gettoken line s
      let (cmd,s) ← parseline line fuel s
      let (closed,s) := peek line s [')']
      if closed then
        let (_,_,_,s) := gettoken line s
        parseredirs line (line.length+1) cmd s
      else .error (.panic "syntax - missing )")
    else .error (.panic "parseblock")
  termination_by structural fuel => fuel

end

def nulterminate : Cmd Span → List Char → List Char
  | .exec argv, buf => argv.foldl (fun buf w => buf.set w.2 nul) buf
  | .redir cmd file _ _, buf => (nulterminate cmd buf).set file.2 nul
  | .pipe left right, buf => nulterminate right (nulterminate left buf)
  | .list left right, buf => nulterminate right (nulterminate left buf)
  | .back cmd, buf => nulterminate cmd buf

/-- The command, and the line after `nulterminate`, with the NUL that ended it. The functions nest four deep for
each token. -/
def parsecmd (line : List Char) : Except Fault (Cmd Span × List Char) := do
  let (cmd,s) ← parseline line (4*line.length+4) 0
  let (_,s) := peek line s []
  if s ≠ line.length then .error (.panic "syntax")
  else return (cmd,nulterminate cmd (line ++ [nul]))

end Xv6Paging.Shell
