/-
Comment lines in a file.

A physical line that fits the buffer is read by one call of `fgets`, and a
comment line that fits changes nothing.  A longer line is read as several source
lines, each classified afresh.
-/

import RiscvAs.Stdio.Lines
import RiscvAs.Outcomes
import RiscvAs.Trimming
import RiscvAs.ForwardReferences

namespace RiscvAs

open Stdio
open Rv32 (Word)

/-- A physical line, with its newline, whose first character after blanks is `#`. -/
structure IsCommentLine (comment : List Char) : Prop where
  single : '\n' ∉ comment.dropLast
  ended : comment.getLast? = some '\n'
  marked : (skipBlanks comment).head? = some '#'

instance (comment : List Char) : Decidable (IsCommentLine comment) :=
  decidable_of_iff ('\n' ∉ comment.dropLast ∧ comment.getLast? = some '\n' ∧
      (skipBlanks comment).head? = some '#')
    ⟨fun ⟨single, ended, marked⟩ => ⟨single, ended, marked⟩,
      fun isComment => ⟨isComment.single, isComment.ended, isComment.marked⟩⟩

theorem IsCommentLine.isPhysicalLine {comment : List Char} (isComment : IsCommentLine comment) :
    IsPhysicalLine comment :=
  ⟨List.ne_nil_of_mem (List.mem_of_mem_getLast? isComment.ended), isComment.single⟩

theorem cstring_marked {s : List Char} (marked : (skipBlanks s).head? = some '#') :
    (skipBlanks (cstring s)).head? = some '#' := by
  obtain ⟨blanks, after, rfl, allBlank, stops⟩ := takeWhile_decompose isspace s
  have noNul : ∀ c ∈ blanks, decide (c ≠ '\x00') = true := by
    intro c member
    have blank := allBlank c member
    rw [decide_eq_true_eq]
    rintro rfl
    cases blank
  rw [skipBlanks, dropWhile_append_stops allBlank stops] at marked
  obtain ⟨tail, rfl⟩ := List.head?_eq_some_iff.mp marked
  have cut : cstring (blanks ++ '#' :: tail) = blanks ++ '#' :: cstring tail := by
    rw [cstring, List.takeWhile_append_of_pos noNul]
    rfl
  rw [cut, skipBlanks, dropWhile_append_stops allBlank (by simp [isspace])]
  rfl

theorem IsCommentLine.ignored {comment : List Char} (isComment : IsCommentLine comment)
    (fits : comment.length < lineBufLen) (segment : CString) :
    contents segment (fgetsLines lineBufLen comment) = [] ∧
      segmentAfter segment (fgetsLines lineBufLen comment) = segment := by
  have isLine := isComment.isPhysicalLine
  rw [fgetsLines_line (by decide) isLine.nonempty fits isLine.single]
  apply contents_ignored
  intro buffer member
  rw [List.mem_singleton.mp member]
  exact turnOf_comment (cstring_marked isComment.marked)

end RiscvAs
