/-
A file with comments appended to some of its lines.

A comment does not change what a pass takes the line for: a blank or comment line stays ignored,
a segment line names a longer segment, and a content line has the comment as a tail.
-/

import RiscvAs.Stdio.Lines
import RiscvAs.CommentedData

namespace RiscvAs

open Stdio
open Rv32 (Word)

def lineText (line : List Char) : List Char :=
  line.takeWhile (fun c => c ≠ '\n')

/-- ` # comment` appended to a physical line, before its newline. -/
def withComment (line : List Char) : Option (List Char) → List Char
  | none => line
  | some comment => lineText line ++ " # ".toList ++ comment ++ line.dropWhile (fun c => c ≠ '\n')

/-- Physical lines with the comments that are chosen for them, by their number. -/
def commentedLines : List (List Char) → (Nat → Option (List Char)) → List (List Char)
  | [], _ => []
  | line :: lines, choice =>
      withComment line (choice 0) :: commentedLines lines (fun i => choice (i + 1))

def commentedSource (source : List Char) (choice : Nat → Option (List Char)) : List Char :=
  (commentedLines (physicalLines source) choice).flatten

/-- Every chosen comment is of one line and stays, with its line, under 511 bytes. -/
def IsChoice (lines : List (List Char)) (choice : Nat → Option (List Char)) : Prop :=
  ∀ before line after comment, lines = before ++ line :: after →
    choice before.length = some comment →
      '\n' ∉ comment ∧ (lineText line ++ " # ".toList ++ comment).length < 511

instance (lines : List (List Char)) (choice : Nat → Option (List Char)) :
    Decidable (IsChoice lines choice) :=
  decidable_of_iff (∀ i : Fin lines.length, ∀ comment ∈ choice i,
      '\n' ∉ comment ∧ (lineText lines[i] ++ " # ".toList ++ comment).length < 511) <| by
    constructor
    · rintro short before line after comment rfl chosen
      have fits := short ⟨before.length, by simp⟩ comment chosen
      simpa using fits
    · intro isChoice i comment chosen
      have split : lines = lines.take i ++ lines[i] :: lines.drop (i + 1) := by simp
      refine isChoice (lines.take i) lines[i] (lines.drop (i + 1)) comment split ?_
      rw [List.length_take, Nat.min_eq_left (Nat.le_of_lt i.isLt)]
      exact chosen

/-- What a pass gets to see of a comment: no blanks at its end, and nothing after a NUL. -/
def seenComment (line comment : List Char) : Comment where
  blanks := (lineText line).rtakeWhile isspace
  remark := (' ' :: cstring comment).rdropWhile isspace
  allBlank _ member := List.mem_rtakeWhile_imp member
  oneLine member := by
    have inText := (List.rtakeWhile_suffix isspace (lineText line)).subset member
    exact absurd (List.mem_takeWhile_imp inText) (by decide)

section Line

variable {line comment : List Char}

theorem lineText_append (line : List Char) :
    lineText line ++ line.dropWhile (fun c => c ≠ '\n') = line :=
  List.takeWhile_append_dropWhile

theorem lineEnd_cases (isLine : IsPhysicalLine line) :
    line.dropWhile (fun c => c ≠ '\n') = [] ∨ line.dropWhile (fun c => c ≠ '\n') = ['\n'] := by
  have stops := stops_dropWhile (fun c => decide (c ≠ '\n')) line
  cases ending : line.dropWhile (fun c => c ≠ '\n') with
  | nil => exact Or.inl rfl
  | cons c rest =>
      right
      rw [ending] at stops
      obtain rfl : c = '\n' := by simpa using stops
      have whole := lineText_append line
      rw [ending] at whole
      cases rest with
      | nil => rfl
      | cons d rest =>
          have single := isLine.single
          rw [← whole, List.dropLast_append_cons] at single
          exact absurd (by simp) single

theorem isPhysicalLine_withComment (isLine : IsPhysicalLine line) (oneLine : '\n' ∉ comment) :
    IsPhysicalLine (withComment line (some comment)) := by
  have noNewline : '\n' ∉ lineText line ++ " # ".toList ++ comment := by
    intro member
    rcases List.mem_append.mp member with front | inside
    · rcases List.mem_append.mp front with text | mark
      · exact absurd (List.mem_takeWhile_imp text) (by decide)
      · exact absurd mark (by decide)
    · exact oneLine inside
  refine ⟨by simp [withComment], ?_⟩
  intro member
  rcases lineEnd_cases isLine with none | newline
  · rw [withComment, none, List.append_nil] at member
    exact noNewline (List.dropLast_subset _ member)
  · rw [withComment, newline, List.dropLast_concat] at member
    exact noNewline member

theorem withComment_length (isLine : IsPhysicalLine line)
    (short : (lineText line ++ " # ".toList ++ comment).length < 511) :
    (withComment line (some comment)).length < lineBufLen := by
  have ending : (line.dropWhile (fun c => c ≠ '\n')).length ≤ 1 := by
    rcases lineEnd_cases isLine with none | newline
    · rw [none]
      decide
    · rw [newline]
      decide
  rw [withComment, List.length_append, lineBufLen]
  omega

theorem line_length (isLine : IsPhysicalLine line)
    (short : (lineText line ++ " # ".toList ++ comment).length < 511) :
    line.length < lineBufLen := by
  have longer := withComment_length isLine short
  have whole := congrArg List.length (lineText_append line)
  rw [List.length_append] at whole
  rw [withComment, List.length_append, List.length_append, List.length_append] at longer
  omega

/-! ### What a pass sees of it -/

theorem cstring_of_nul {text : List Char} (nul : '\x00' ∈ text) (rest : List Char) :
    cstring (text ++ rest) = cstring text := by
  have more : text.dropWhile (fun c => c ≠ '\x00') ≠ [] := by
    intro all
    exact absurd (List.dropWhile_eq_nil_iff.mp all _ nul) (by decide)
  exact takeWhile_append_of_rest more rest

theorem cstring_withComment_of_nul (nul : '\x00' ∈ lineText line) :
    cstring (withComment line (some comment)) = cstring line := by
  have whole := cstring_of_nul nul (line.dropWhile (fun c => c ≠ '\n'))
  rw [lineText_append] at whole
  rw [withComment, List.append_assoc, List.append_assoc, cstring_of_nul nul, whole]

theorem cstring_lineText (noNul : '\x00' ∉ lineText line) (rest : List Char) :
    cstring (lineText line ++ rest) = lineText line ++ cstring rest := by
  apply cstring_append
  rintro c member rfl
  exact noNul member

theorem cstring_withComment (noNul : '\x00' ∉ lineText line) :
    cstring (withComment line (some comment)) = lineText line ++ ' ' :: '#' :: ' ' ::
      cstring (comment ++ line.dropWhile (fun c => c ≠ '\n')) := by
  have shape : withComment line (some comment) =
      lineText line ++ (' ' :: '#' :: ' ' :: (comment ++ line.dropWhile (fun c => c ≠ '\n'))) := by
    simp [withComment]
  rw [shape, cstring_lineText noNul]
  rfl

theorem turnOf_withComment_of_blank (noNul : '\x00' ∉ lineText line)
    (blank : skipBlanks (lineText line) = []) :
    turnOf (cstring (withComment line (some comment))) = .ignored := by
  apply turnOf_comment
  rw [cstring_withComment noNul, skipBlanks, dropWhile_append_of_all blank]
  rfl

theorem rtakeWhile_skipBlanks {text : CString} (given : skipBlanks text ≠ []) :
    (skipBlanks text).rtakeWhile isspace = text.rtakeWhile isspace := by
  have whole : text = text.takeWhile isspace ++ skipBlanks text :=
    List.takeWhile_append_dropWhile.symm
  have rest : (skipBlanks text).reverse.dropWhile isspace ≠ [] := by
    intro all
    obtain ⟨c, after, split⟩ := List.exists_cons_of_ne_nil given
    have blank := List.dropWhile_eq_nil_iff.mp all c (by simp [split])
    have front := stops_skipBlanks text
    rw [split, stops_cons, blank] at front
    cases front
  have taken := takeWhile_append_of_rest rest (text.takeWhile isspace).reverse
  rw [← List.reverse_append, ← whole] at taken
  rw [List.rtakeWhile, List.rtakeWhile, taken]

section Trim

variable (isLine : IsPhysicalLine line)

include isLine

theorem lineEnd_blank : ∀ c ∈ line.dropWhile (fun c => c ≠ '\n'), isspace c = true := by
  intro c member
  rcases lineEnd_cases isLine with none | newline
  · rw [none] at member
    cases member
  · rw [newline] at member
    rw [List.mem_singleton.mp member]
    rfl

theorem cstring_lineEnd :
    cstring (line.dropWhile (fun c => c ≠ '\n')) = line.dropWhile (fun c => c ≠ '\n') := by
  rcases lineEnd_cases isLine with none | newline
  · rw [none]
    rfl
  · rw [newline]
    rfl

theorem seenComment_remark :
    (' ' :: cstring (comment ++ line.dropWhile (fun c => c ≠ '\n'))).rdropWhile isspace =
      (seenComment line comment).remark := by
  by_cases nul : '\x00' ∈ comment
  · rw [cstring_of_nul nul]
    rfl
  · have noNul : ∀ c ∈ comment, c ≠ '\x00' := by
      rintro c member rfl
      exact nul member
    have whole : cstring comment = comment :=
      List.takeWhile_eq_self_iff.mpr fun c member => decide_eq_true (noNul c member)
    rw [cstring_append noNul, cstring_lineEnd isLine, ← List.cons_append,
      rdropWhile_append_blanks _ (lineEnd_blank isLine), seenComment, whole]

variable (noNul : '\x00' ∉ lineText line)

include noNul

theorem stringTrim_line : stringTrim (cstring line) = stringTrim (lineText line) := by
  have kept := cstring_lineText noNul (line.dropWhile (fun c => c ≠ '\n'))
  rw [lineText_append, cstring_lineEnd isLine] at kept
  rw [kept, stringTrim_append_blanks _ (lineEnd_blank isLine)]

/-- The trimmed line ends in the comment, with the blanks that were trimmed before it. -/
theorem stringTrim_withComment (given : skipBlanks (lineText line) ≠ []) :
    stringTrim (cstring (withComment line (some comment))) =
      stringTrim (cstring line) ++ (seenComment line comment).text := by
  have front : (skipBlanks (lineText line)).rdropWhile isspace ++
      (skipBlanks (lineText line)).rtakeWhile isspace = skipBlanks (lineText line) :=
    List.rdropWhile_append_rtakeWhile
  rw [rtakeWhile_skipBlanks given] at front
  have ending :
    (' ' :: cstring (comment ++ line.dropWhile (fun c => c ≠ '\n'))).rdropWhile isspace =
      (seenComment line comment).remark := seenComment_remark isLine
  rw [stringTrim_line isLine noNul, stringTrim_eq, stringTrim_eq, cstring_withComment noNul,
    skipBlanks_append given, ← List.singleton_append, ← List.append_assoc,
    rdropWhile_append_cons _ (by decide), ending, List.append_assoc, Comment.text, seenComment]
  conv_lhs => rw [← front]
  rw [List.append_assoc]
  rfl

end Trim

end Line

def Turn.append (tail : CString) : Turn → Turn
  | .ignored => .ignored
  | .segment name => .segment (name ++ tail)
  | .content line => .content (line ++ tail)

theorem turnOf_append {buffer buffer' tail : CString} (given : stringTrim buffer ≠ [])
    (longer : stringTrim buffer' = stringTrim buffer ++ tail) (short : buffer.length < lineBufLen)
    (short' : buffer'.length < lineBufLen) : turnOf buffer' = (turnOf buffer).append tail := by
  have front := stops_stringTrim buffer
  have front' := stops_stringTrim buffer'
  have fits := Nat.lt_of_le_of_lt (stringTrim_length_le buffer) short
  have fits' := Nat.lt_of_le_of_lt (stringTrim_length_le buffer') short'
  unfold turnOf
  rw [isIgnorableLine_of_stops front, isIgnorableLine_of_stops front']
  rw [longer] at fits' ⊢
  obtain ⟨c, line, split⟩ := List.exists_cons_of_ne_nil given
  rw [split] at fits fits' ⊢
  by_cases mark : c = '#'
  · simp [mark, Turn.append]
  · by_cases dot : c = '.'
    · subst dot
      have whole : snprintf lineBufLen line = line :=
        List.take_of_length_le (by simp only [List.length_cons] at fits; omega)
      have whole' : snprintf lineBufLen (line ++ tail) = line ++ tail :=
        List.take_of_length_le (by simp only [List.cons_append, List.length_cons] at fits'; omega)
      simp [Turn.append, whole, whole']
    · simp [mark, dot, Turn.append]

/-- A comment that a pass does not see, behind a NUL, changes nothing; any other is a tail. -/
theorem turnOf_withComment {line comment : List Char} (isLine : IsPhysicalLine line)
    (short : (lineText line ++ " # ".toList ++ comment).length < 511) :
    turnOf (cstring (withComment line (some comment))) =
      if '\x00' ∈ lineText line then turnOf (cstring line)
      else (turnOf (cstring line)).append (seenComment line comment).text := by
  by_cases nul : '\x00' ∈ lineText line
  · rw [if_pos nul, cstring_withComment_of_nul nul]
  · rw [if_neg nul]
    have fits := Nat.lt_of_le_of_lt (cstring_length_le line) (line_length isLine short)
    have fits' := Nat.lt_of_le_of_lt (cstring_length_le (withComment line (some comment)))
      (withComment_length isLine short)
    have trimmed := (stringTrim_line isLine nul).trans (stringTrim_eq (lineText line))
    by_cases given : skipBlanks (lineText line) = []
    · rw [given, List.rdropWhile_nil] at trimmed
      have ignored : turnOf (cstring line) = .ignored := by
        rw [turnOf, trimmed]
        rfl
      rw [turnOf_withComment_of_blank nul given, ignored]
      rfl
    · refine turnOf_append ?_ (stringTrim_withComment isLine nul given) fits fits'
      rw [trimmed, Ne, List.rdropWhile_eq_nil_iff]
      intro blank
      obtain ⟨c, rest, split⟩ := List.exists_cons_of_ne_nil given
      have kept := stops_skipBlanks (lineText line)
      rw [split, stops_cons, blank c (by simp [split])] at kept
      cases kept

end RiscvAs
