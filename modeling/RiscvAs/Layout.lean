/-
Printing a file again.

Of a file only the content lines count, each with its segment.  They are printed
trimmed, behind a line that names their segment; the passes read the printed file
as they read the file itself, and printing twice changes nothing.
-/

import RiscvAs.Trimming
import RiscvAs.DataLines
import RiscvAs.Outcomes
import RiscvAs.Stdio.Lines

namespace RiscvAs

open Stdio
open Rv32 (Word)

/-- Text without a blank at its ends, a newline or a zero. -/
structure IsTrimmed (s : CString) : Prop where
  front : Stops isspace s
  back : s.rdropWhile isspace = s
  noNewline : '\n' ∉ s
  noNul : ∀ c ∈ s, c ≠ '\x00'

structure IsTidy (s : CString) : Prop extends IsTrimmed s where
  nonempty : s ≠ []
  short : s.length < lineBufLen

theorem cstring_noNul (s : List Char) : ∀ c ∈ cstring s, c ≠ '\x00' := by
  intro c member
  simpa using List.mem_takeWhile_imp member

theorem newline_not_mem_fgets (room : Nat) (stream : List Char) :
    '\n' ∉ (fgets room stream).1.dropLast := by
  induction room generalizing stream with
  | zero => simp [fgets]
  | succ room ih =>
      cases stream with
      | nil => simp [fgets]
      | cons c stream =>
          by_cases newline : c = '\n'
          · simp [fgets, newline]
          · simp only [fgets, if_neg newline]
            cases rest : (fgets room stream).1 with
            | nil => simp
            | cons d read =>
                rw [List.dropLast_cons_of_ne_nil (List.cons_ne_nil d read), ← rest, List.mem_cons,
                  not_or]
                exact ⟨Ne.symm newline, ih stream⟩

/-- Buffers come from calls of `fgets`. -/
theorem exists_fgets_of_mem {size : Nat} (hsize : 2 ≤ size) {stream : List Char} {buffer : CString}
    (member : buffer ∈ fgetsLines size stream) :
    ∃ rest, buffer = cstring (fgets (size - 1) rest).1 := by
  induction length : stream.length using Nat.strong_induction_on generalizing stream with
  | _ n ih =>
      cases stream with
      | nil =>
          rw [fgetsLines_nil] at member
          cases member
      | cons c stream =>
          rw [fgetsLines_cons size hsize] at member
          rcases List.mem_cons.mp member with rfl | later
          · exact ⟨c :: stream, rfl⟩
          · obtain ⟨room, hroom⟩ : ∃ room, size - 1 = room + 1 := ⟨size - 2, by omega⟩
            have shorter := fgets_rest_length room c stream
            rw [hroom] at later
            simp only [List.length_cons] at length
            exact ih _ (by omega) later rfl

theorem mem_dropLast_of_infix {before middle after : List Char} {c : Char}
    (member : c ∈ middle.dropLast) : c ∈ (before ++ (middle ++ after)).dropLast := by
  have given : middle ≠ [] := by
    rintro rfl
    cases member
  rw [List.dropLast_append_of_ne_nil (by simp [given])]
  refine List.mem_append_right _ ?_
  cases after with
  | nil => rwa [List.append_nil]
  | cons d after =>
      rw [List.dropLast_append_of_ne_nil (List.cons_ne_nil d after)]
      exact List.mem_append_left _ (List.dropLast_subset _ member)

theorem isTrimmed_stringTrim {source : List Char} {buffer : CString}
    (member : buffer ∈ fgetsLines lineBufLen source) : IsTrimmed (stringTrim buffer) := by
  obtain ⟨rest, rfl⟩ := exists_fgets_of_mem (by decide) member
  let read := (fgets (lineBufLen - 1) rest).1
  have back : (stringTrim (cstring read)).rdropWhile isspace = stringTrim (cstring read) := by
    rw [stringTrim_eq, List.rdropWhile_idempotent]
  have within : ∃ before after, read = before ++ (stringTrim (cstring read) ++ after) := by
    obtain ⟨blanks, skipped⟩ := skipBlanks_suffix (cstring read)
    obtain ⟨after, trimmed⟩ := stringTrim_prefix_skipBlanks (cstring read)
    obtain ⟨nul, cut⟩ : cstring read <+: read := List.takeWhile_prefix _
    refine ⟨blanks, after ++ nul, ?_⟩
    rw [← List.append_assoc (stringTrim _), trimmed, ← List.append_assoc, skipped, cut]
  obtain ⟨before, after, split⟩ := within
  refine ⟨stops_stringTrim _, back, ?_, ?_⟩
  · intro newline
    have given := List.ne_nil_of_mem newline
    have last := List.rdropWhile_eq_self_iff.mp back given
    -- A newline is blank, so it is not the last character.
    have inner : '\n' ∈ (stringTrim (cstring read)).dropLast := by
      rw [← List.dropLast_append_getLast given] at newline
      rcases List.mem_append.mp newline with inner | isLast
      · exact inner
      · rw [← List.mem_singleton.mp isLast] at last
        exact absurd (by decide) last
    refine newline_not_mem_fgets (lineBufLen - 1) rest ?_
    show '\n' ∈ read.dropLast
    rw [split]
    exact mem_dropLast_of_infix inner
  · intro c inside
    refine cstring_noNul read c ?_
    exact (skipBlanks_suffix _).subset ((stringTrim_prefix_skipBlanks _).subset inside)

theorem IsTrimmed.stringTrim {s : CString} (trimmed : IsTrimmed s) : stringTrim s = s := by
  rw [stringTrim_eq, skipBlanks_of_stops trimmed.front, trimmed.back]

theorem IsTrimmed.stringTrim_newline {s : CString} (trimmed : IsTrimmed s) :
    RiscvAs.stringTrim (cstring (s ++ ['\n'])) = s := by
  have newline : cstring ['\n'] = ['\n'] := rfl
  rw [cstring_append trimmed.noNul, newline, stringTrim_append_blanks s (by simp [isspace]),
    trimmed.stringTrim]

theorem IsTidy.fgetsLines {s : CString} (tidy : IsTidy s) (rest : List Char) :
    Stdio.fgetsLines lineBufLen (s ++ '\n' :: rest) =
        cstring (s ++ ['\n']) :: Stdio.fgetsLines lineBufLen rest ∨
      Stdio.fgetsLines lineBufLen (s ++ '\n' :: rest) =
        s :: ['\n'] :: Stdio.fgetsLines lineBufLen rest := by
  have short := tidy.short
  have single : '\n' ∉ s.dropLast := fun inside =>
    tidy.noNewline (List.dropLast_subset s inside)
  have read : fgets (lineBufLen - 1) s = (s, []) := fgets_line (by omega) single
  have joined : Stdio.fgetsLines lineBufLen (s ++ '\n' :: rest) =
      Stdio.fgetsLines lineBufLen (s ++ ['\n']) ++ Stdio.fgetsLines lineBufLen rest := by
    rw [← fgetsLines_append (by decide) (Or.inr (by simp)), List.append_assoc]
    rfl
  obtain ⟨c, tail, split⟩ := List.exists_cons_of_ne_nil tidy.nonempty
  have whole : cstring s = s := by
    rw [← List.append_nil s, cstring_append tidy.noNul]
    rfl
  rw [joined, split, List.cons_append, fgetsLines_cons lineBufLen (by decide), ← List.cons_append,
    ← split]
  -- A line that fills the buffer leaves its newline to the next one.
  rcases fgets_newline (lineBufLen - 1) s with full | ⟨-, fits⟩
  · right
    rw [full, read, whole]
    rfl
  · left
    rw [fits]
    rfl

theorem IsTidy.contents {s : CString} (tidy : IsTidy s) (segment : CString) (rest : List Char) :
    ∃ buffer, RiscvAs.stringTrim buffer = s ∧
      RiscvAs.contents segment (Stdio.fgetsLines lineBufLen (s ++ '\n' :: rest)) =
        RiscvAs.contents segment (buffer :: Stdio.fgetsLines lineBufLen rest) := by
  rcases tidy.fgetsLines rest with one | two
  · exact ⟨cstring (s ++ ['\n']), tidy.stringTrim_newline, by rw [one]⟩
  · have ignored : turnOf ['\n'] = .ignored := by decide
    refine ⟨s, tidy.stringTrim, ?_⟩
    rw [two]
    simp only [RiscvAs.contents, ignored]

/-! ### Printing -/

structure Content.IsTidy (content : Content) : Prop where
  segment : RiscvAs.IsTidy ('.' :: content.segment)
  line : RiscvAs.IsTidy content.line
  isContent : IsContentLine content.line

def Content.print (content : Content) : List Char :=
  '.' :: content.segment ++ '\n' :: (content.line ++ ['\n'])

def printContents (lines : List Content) : List Char :=
  lines.flatMap Content.print

theorem turnOf_segment_of_trimmed {buffer segment : CString}
    (trimmed : stringTrim buffer = '.' :: segment) (short : segment.length ≤ lineBufLen - 1) :
    turnOf buffer = .segment segment := by
  have kept : isIgnorableLine ('.' :: segment) = false := rfl
  have copied : snprintf lineBufLen segment = segment := List.take_of_length_le short
  rw [turnOf, trimmed, kept]
  exact congrArg Turn.segment copied

theorem turnOf_content_of_trimmed {buffer line : CString} (trimmed : stringTrim buffer = line)
    (isContent : IsContentLine line) : turnOf buffer = .content line := by
  have kept : isIgnorableLine line = false := by
    rw [isIgnorableLine_of_stops isContent.front]
    simp [isContent.nonempty, isContent.notComment]
  rcases turnOf_cases buffer with ⟨ignorable, -⟩ | ⟨-, ⟨name, dotted, -⟩ | ⟨-, content⟩⟩
  · rw [trimmed, kept] at ignorable
    cases ignorable
  · rw [trimmed] at dotted
    exact absurd (by rw [dotted]; rfl) isContent.notDot
  · rw [content, trimmed]

theorem contents_printContents {lines : List Content} (tidy : ∀ content ∈ lines, content.IsTidy)
    (segment : CString) :
    contents segment (fgetsLines lineBufLen (printContents lines)) = lines := by
  induction lines generalizing segment with
  | nil => rfl
  | cons content lines ih =>
      have first := tidy content (List.mem_cons_self ..)
      have rest := ih fun other member => tidy other (List.mem_cons_of_mem content member)
      have split : printContents (content :: lines) =
          '.' :: content.segment ++ '\n' :: (content.line ++ '\n' :: printContents lines) := by
        rw [printContents, List.flatMap_cons, Content.print]
        simp [printContents]
      have short := first.segment.short
      rw [List.length_cons] at short
      obtain ⟨named, trimmedName, readName⟩ := first.segment.contents segment
        (content.line ++ '\n' :: printContents lines)
      obtain ⟨buffer, trimmed, read⟩ :=
        first.line.contents content.segment (printContents lines)
      rw [split, readName, contents,
        turnOf_segment_of_trimmed trimmedName (Nat.le_sub_one_of_lt (Nat.lt_of_succ_lt short))]
      simp only
      rw [read, contents, turnOf_content_of_trimmed trimmed first.isContent]
      simp only
      rw [rest]

theorem sourceContents_printContents {lines : List Content}
    (tidy : ∀ content ∈ lines, content.IsTidy) : sourceContents (printContents lines) = lines :=
  contents_printContents tidy []

theorem isTidy_of_mem_contents {buffers : List CString} {segment : CString}
    (trimmed : ∀ buffer ∈ buffers, IsTrimmed (stringTrim buffer))
    (short : ∀ buffer ∈ buffers, buffer.length < lineBufLen)
    (start : IsTidy ('.' :: segment)) {content : Content}
    (member : content ∈ contents segment buffers) : content.IsTidy := by
  induction buffers generalizing segment with
  | nil => cases member
  | cons buffer buffers ih =>
      have first := trimmed buffer (List.mem_cons_self ..)
      have rest : ∀ {segment}, IsTidy ('.' :: segment) → content ∈ contents segment buffers →
          content.IsTidy :=
        ih (fun other inside => trimmed other (List.mem_cons_of_mem buffer inside))
          (fun other inside => short other (List.mem_cons_of_mem buffer inside))
      have fits := short buffer (List.mem_cons_self ..)
      have shorter := Nat.lt_of_le_of_lt (stringTrim_length_le buffer) fits
      rw [contents] at member
      cases turn : turnOf buffer with
      | ignored =>
          rw [turn] at member
          exact rest start member
      | segment name =>
          rw [turn] at member
          have dotted : stringTrim buffer = '.' :: name := turnOf_segment turn fits
          rw [dotted] at first shorter
          exact rest ⟨first, List.cons_ne_nil _ _, shorter⟩ member
      | content line =>
          rw [turn] at member
          rcases List.mem_cons.mp member with rfl | later
          · obtain ⟨rfl, isContent⟩ := turnOf_content turn fits
            exact ⟨start, ⟨first, isContent.nonempty, shorter⟩, isContent⟩
          · exact rest start later

theorem sourceContents_isTidy (source : List Char) :
    ∀ content ∈ sourceContents source, content.IsTidy := by
  intro content member
  have start : IsTidy ['.'] :=
    ⟨⟨by simp [isspace], by decide, by simp, by simp⟩, List.cons_ne_nil _ _, by decide⟩
  exact isTidy_of_mem_contents (fun buffer => isTrimmed_stringTrim) (sourceLines_short source)
    start member

/-- The file with each line that counts trimmed and under the name of its segment. -/
def tidied (source : List Char) : List Char :=
  printContents (sourceContents source)

theorem sourceContents_tidied (source : List Char) :
    sourceContents (tidied source) = sourceContents source :=
  sourceContents_printContents (sourceContents_isTidy source)

/-- Indentation, blank lines, comment lines, the ends of lines and repeated segment names say
nothing: two files are read alike exactly when they are printed alike, and the printed file
does what the file does. -/
theorem tidied_outcome (source source' : List Char) :
    (∀ build baseVaddr, outcome build baseVaddr (tidied source) = outcome build baseVaddr source) ∧
      tidied (tidied source) = tidied source ∧
      (tidied source = tidied source' ↔ sourceContents source = sourceContents source') := by
  have read := sourceContents_tidied source
  refine ⟨fun build baseVaddr => outcome_congr build baseVaddr read, ?_, ?_⟩
  · rw [tidied, read]
    rfl
  · constructor
    · intro same
      rw [← read, same, sourceContents_tidied source']
    · intro same
      rw [tidied, same]
      rfl

end RiscvAs
