import Xv6Paging.Library.Lines
import Xv6Paging.User.Grep

/-! # The lines that grep writes

`grep` reads its input in pieces that it does not choose. It carries the text behind the
last newline over to the next piece, but a piece that leaves the buffer without any newline
is dropped. So the lines that match are written exactly if no newline follows such a piece.
-/
namespace Xv6Paging.Grep
open Lines

def matchingLines (pattern text : List Char) : List Char :=
  ((lines '\n' text).filter (matchText pattern)).flatMap (· ++ ['\n'])

def carried (text : List Char) : List Char := if '\n' ∈ text then rest '\n' text else []

def Fits : List Char → List (List Char) → Prop
  | _, [] => True
  | buf, chunk :: reads => chunk ≠ [] ∧ chunk.length ≤ bufSize-buf.length-1 ∧ Fits (carried (buf ++ chunk)) reads

/-- A read without a newline is not followed by one with a newline. -/
def KeepsLines (reads : List (List Char)) : Prop := reads.Pairwise fun chunk later => '\n' ∈ later → '\n' ∈ chunk

section
variable {pattern buf chunk text : List Char} {reads : List (List Char)}

theorem matchingLines_of_notMem (h : '\n' ∉ text) : matchingLines pattern text = [] := by
  rw [matchingLines,lines_of_notMem h]
  rfl

theorem matchingLines_line {line : List Char} (h : '\n' ∉ line) (text : List Char) :
    matchingLines pattern (line ++ '\n' :: text) =
      if matchText pattern line then line ++ ['\n'] ++ matchingLines pattern text
      else matchingLines pattern text := by
  rw [matchingLines,lines_line h,List.filter_cons]
  split_ifs
  · rw [List.flatMap_cons]
    rfl
  · rfl

theorem matchingLines_append (pattern s t : List Char) :
    matchingLines pattern (s ++ t) = matchingLines pattern s ++ matchingLines pattern (rest '\n' s ++ t) := by
  rw [matchingLines,lines_append,List.filter_append,List.flatMap_append]
  rfl

theorem grepLines_eq (pattern : List Char) {p : List Char} (hp : '\n' ∉ p) (text : List Char) :
    grepLines pattern p text = (matchingLines pattern (p ++ text),rest '\n' (p ++ text)) := by
  induction text generalizing p with
  | nil => rw [grepLines,List.append_nil,matchingLines_of_notMem hp,rest_of_notMem hp]
  | cons c text ih =>
    rw [grepLines]
    by_cases hc : c = '\n'
    · subst hc
      rw [if_pos rfl,ih List.not_mem_nil,List.nil_append,matchingLines_line hp,rest_line hp]
      split_ifs <;> rfl
    · have hp' : '\n' ∉ p ++ [c] := by
        rw [List.mem_append,List.mem_singleton]
        rintro (hm | rfl)
        · exact hp hm
        · exact hc rfl
      rw [if_neg hc,ih hp',← List.append_cons]

theorem rest_length_lt (h : '\n' ∈ text) : (rest '\n' text).length < text.length := by
  obtain ⟨u,v,rfl,hu⟩ := List.eq_append_cons_of_mem h
  rw [rest_line hu]
  have hle : (rest '\n' v).length ≤ v.length := by
    induction v using induction_on '\n' with
    | free v hv => rw [rest_of_notMem hv]
    | cons line v hline ih =>
      rw [rest_line hline,List.length_append,List.length_cons]
      have := ih (by simp)
      omega
  rw [List.length_append,List.length_cons]
  omega

theorem grepRead_eq (pattern buf chunk : List Char) :
    grepRead pattern buf chunk = (matchingLines pattern (buf ++ chunk),carried (buf ++ chunk)) := by
  unfold grepRead
  rw [grepLines_eq pattern List.not_mem_nil,List.nil_append]
  dsimp only
  by_cases h : '\n' ∈ buf ++ chunk
  · rw [if_neg (rest_length_lt h).ne,carried,if_pos h]
  · rw [if_pos (by rw [rest_of_notMem h]),carried,if_neg h]

theorem notMem_rest (text : List Char) : '\n' ∉ rest '\n' text := by
  induction text using induction_on '\n' with
  | free text h => rwa [rest_of_notMem h]
  | cons line text h ih => rwa [rest_line h]

theorem notMem_carried (text : List Char) : '\n' ∉ carried text := by
  unfold carried
  split_ifs
  · exact notMem_rest text
  · exact List.not_mem_nil

theorem grep_cons (pattern buf chunk : List Char) (reads : List (List Char)) : grep pattern buf (chunk :: reads) =
    matchingLines pattern (buf ++ chunk) ++ grep pattern (carried (buf ++ chunk)) reads := by
  rw [grep,grepRead_eq]

/-- As long as the buffer keeps its newlines, the lines are written as they stand in the input. -/
theorem grep_eq_of_keepsLines (pattern : List Char) (hbuf : '\n' ∉ buf) (h : KeepsLines reads) :
    grep pattern buf reads = matchingLines pattern (buf ++ reads.flatten) := by
  induction reads generalizing buf with
  | nil => rw [grep,List.flatten_nil,List.append_nil,matchingLines_of_notMem hbuf]
  | cons chunk reads ih =>
    obtain ⟨hkeep,hrest⟩ := List.pairwise_cons.mp h
    rw [grep_cons,ih (notMem_carried _) hrest,List.flatten_cons,← List.append_assoc,
      matchingLines_append _ (buf ++ chunk)]
    by_cases hp : '\n' ∈ buf ++ chunk
    · rw [carried,if_pos hp]
    · have hfree : '\n' ∉ reads.flatten := by
        intro hm
        obtain ⟨later,hlater,hm⟩ := List.mem_flatten.mp hm
        exact hp (List.mem_append_right buf (hkeep later hlater hm))
      have hfree' : '\n' ∉ buf ++ chunk ++ reads.flatten := by
        rw [List.mem_append]
        exact not_or.mpr ⟨hp,hfree⟩
      rw [carried,if_neg hp,rest_of_notMem hp,List.nil_append,matchingLines_of_notMem hfree,
        matchingLines_of_notMem hfree']

theorem matchText_nil (text : List Char) : matchText [] text = true := by
  cases text with
  | nil => simp [matchText,matchLoop,matchhere]
  | cons x text => simp [matchText,matchLoop,matchhere]

theorem matchingLines_nil_length {p : List Char} (hp : '\n' ∉ p) (h : '\n' ∈ text) :
    (matchingLines [] (p ++ text)).length = p.length+(matchingLines [] text).length := by
  obtain ⟨u,v,rfl,hu⟩ := List.eq_append_cons_of_mem h
  have hpu : '\n' ∉ p ++ u := by
    rw [List.mem_append]
    exact not_or.mpr ⟨hp,hu⟩
  rw [← List.append_assoc,matchingLines_line hpu,matchingLines_line hu,matchText_nil,matchText_nil]
  simp only [if_true,List.length_append]
  omega

theorem matchingLines_nil_length_le {p : List Char} (hp : '\n' ∉ p) (text : List Char) :
    (matchingLines [] text).length ≤ (matchingLines [] (p ++ text)).length := by
  by_cases h : '\n' ∈ text
  · rw [matchingLines_nil_length hp h]
    omega
  · rw [matchingLines_of_notMem h]
    exact Nat.zero_le _

theorem grep_length_le (buf : List Char) (reads : List (List Char)) :
    (grep [] buf reads).length ≤ (matchingLines [] (buf ++ reads.flatten)).length := by
  induction reads generalizing buf with
  | nil => exact Nat.zero_le _
  | cons chunk reads ih =>
    have hle := ih (carried (buf ++ chunk))
    rw [grep_cons,List.flatten_cons,← List.append_assoc,matchingLines_append _ (buf ++ chunk),
      List.length_append,List.length_append]
    by_cases hp : '\n' ∈ buf ++ chunk
    · rw [carried,if_pos hp] at hle ⊢
      omega
    · rw [carried,if_neg hp] at hle ⊢
      rw [rest_of_notMem hp]
      have := matchingLines_nil_length_le hp reads.flatten
      rw [List.nil_append] at hle
      omega

theorem keepsLines_of_grep (hbuf : '\n' ∉ buf) (hfits : Fits buf reads)
    (h : grep [] buf reads = matchingLines [] (buf ++ reads.flatten)) : KeepsLines reads := by
  induction reads generalizing buf with
  | nil => exact .nil
  | cons chunk reads ih =>
    obtain ⟨hne,-,hrest⟩ := hfits
    rw [grep_cons,List.flatten_cons,← List.append_assoc,matchingLines_append _ (buf ++ chunk)] at h
    have htail := List.append_cancel_left h
    by_cases hp : '\n' ∈ buf ++ chunk
    · have hchunk : '\n' ∈ chunk := (List.mem_append.mp hp).resolve_left hbuf
      refine List.pairwise_cons.mpr ⟨fun _ _ _ => hchunk,ih (notMem_carried _) hrest ?_⟩
      rw [htail,carried,if_pos hp]
    · have hfree : '\n' ∉ reads.flatten := by
        intro hm
        have hle := grep_length_le [] reads
        have hlen := matchingLines_nil_length hp hm
        rw [carried,if_neg hp,rest_of_notMem hp] at htail
        rw [← htail,List.length_append] at hlen
        have hpos := List.length_pos_iff.mpr hne
        rw [List.nil_append] at hle
        omega
      have hnone : ∀ later ∈ chunk :: reads, '\n' ∉ later := by
        intro later hlater hm
        rcases List.mem_cons.mp hlater with rfl | hlater
        · exact hp (List.mem_append_right buf hm)
        · exact hfree (List.mem_flatten.mpr ⟨later,hlater,hm⟩)
      exact List.pairwise_of_forall_mem_list fun _ _ later hlater hm => absurd hm (hnone later hlater)

end

/-- `grep` writes the lines that match, for all patterns, exactly if no read without a newline is followed
by one with a newline. -/
theorem grep_writes_matchingLines_iff {reads : List (List Char)} (hfits : Fits [] reads) :
    (∀ pattern, grep pattern [] reads = matchingLines pattern reads.flatten) ↔ KeepsLines reads := by
  constructor
  · intro h
    exact keepsLines_of_grep List.not_mem_nil hfits (h [])
  · intro h pattern
    exact grep_eq_of_keepsLines pattern List.not_mem_nil h

def cutLine : List (List Char) := [['a','\n','b'],['c','\n']]

theorem grep_writes_cutLine : KeepsLines cutLine ∧
    ∀ pattern, grep pattern [] cutLine = matchingLines pattern ['a','\n','b','c','\n'] := by
  have hfits : Fits [] cutLine := ⟨by decide,by decide,by decide,by decide,trivial⟩
  have hkeep : KeepsLines cutLine := List.pairwise_pair.mpr fun _ => by decide
  exact ⟨hkeep,(grep_writes_matchingLines_iff hfits).mpr hkeep⟩

/-- The line `ab` is found when it is read at once, and lost when it comes in two pieces. -/
theorem grep_depends_on_reads : Fits [] [['a','b','\n']] ∧ Fits [] [['a','b'],['\n']] ∧
    grep ['a'] [] [['a','b','\n']] = ['a','b','\n'] ∧ grep ['a'] [] [['a','b'],['\n']] = [] := by
  have hfits : Fits [] [['a','b'],['\n']] := ⟨by decide,by decide,by decide,by decide,trivial⟩
  refine ⟨⟨by decide,by decide,trivial⟩,hfits,?_,?_⟩
  · simp [grep,grepRead,grepLines,matchText,matchLoop,matchhere]
  · simp [grep,grepRead,grepLines,matchText,matchLoop,matchhere]

end Xv6Paging.Grep
