import Mathlib.Algebra.Order.Ring.Nat

/-! # grep

The matcher of `grep.c` and the loop that reads lines. A string is the list of its
characters before the terminating 0, so reading the 0 is reading past the end of the list.
-/
namespace Xv6Paging.Grep

mutual

def matchhere (re text : List Char) : Bool :=
  match re with
  | [] => true
  | c :: re =>
    if re.head? = some '*' then matchstar c re.tail text
    else if c = '$' ∧ re = [] then text.isEmpty
    else
      match text with
      | [] => false
      | x :: text => if c = '.' ∨ c = x then matchhere re text else false
termination_by (re.length,text.length,0)

def matchstar (c : Char) (re text : List Char) : Bool :=
  if matchhere re text then true
  else
    match text with
    | [] => false
    | x :: text => if x = c ∨ c = '.' then matchstar c re text else false
termination_by (re.length,text.length,1)

end

def matchLoop (re : List Char) : List Char → Bool
  | [] => matchhere re []
  | x :: text => if matchhere re (x :: text) then true else matchLoop re text

/-- The function `match` of the source. -/
def matchText (re text : List Char) : Bool :=
  if re.head? = some '^' then matchhere re.tail text else matchLoop re text

def bufSize : ℕ := 1024

/-- What the loop writes, and the text at which `p` stops. The first text is the part of the line that
`strchr` has gone through. -/
def grepLines (pattern : List Char) : List Char → List Char → List Char × List Char
  | p, [] => ([],p)
  | p, c :: text =>
    if c = '\n' then
      let (out,last) := grepLines pattern [] text
      if matchText pattern p then (p ++ ['\n'] ++ out,last) else (out,last)
    else grepLines pattern (p ++ [c]) text

/-- `read` has put `chunk` behind the text in the buffer. If no line was found, `m` becomes 0; otherwise the
text from `p` on is moved to the front. -/
def grepRead (pattern buf chunk : List Char) : List Char × List Char :=
  let (out,last) := grepLines pattern [] (buf ++ chunk)
  if last.length = (buf ++ chunk).length then (out,[]) else (out,last)

/-- What `grep` writes when the calls of `read` return the given texts, and then 0. -/
def grep (pattern : List Char) : List Char → List (List Char) → List Char
  | _, [] => []
  | buf, chunk :: reads =>
    let (out,buf) := grepRead pattern buf chunk
    out ++ grep pattern buf reads

end Xv6Paging.Grep
