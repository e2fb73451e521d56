/-
Physical lines of a stream, and the buffers that `fgets` makes of them.

A physical line ends with its newline, or with the stream.  `fgets` never reads
across the end of one, and reads it in one buffer exactly when it fits.
-/

import RiscvAs.Stdio.Text

namespace Stdio

def physicalLines : List Char → List (List Char)
  | [] => []
  | c :: stream =>
      if c = '\n' then [c] :: physicalLines stream
      else
        match physicalLines stream with
        | [] => [[c]]
        | line :: lines => (c :: line) :: lines

/-- A nonempty text with no newline but at its end. -/
structure IsPhysicalLine (line : List Char) : Prop where
  nonempty : line ≠ []
  single : '\n' ∉ line.dropLast

theorem physicalLines_newline (stream : List Char) :
    physicalLines ('\n' :: stream) = ['\n'] :: physicalLines stream := by
  simp [physicalLines]

theorem physicalLines_cons {c : Char} (notNewline : c ≠ '\n') (stream : List Char) :
    (stream = [] ∧ physicalLines (c :: stream) = [[c]]) ∨
      ∃ line lines, physicalLines stream = line :: lines ∧
        physicalLines (c :: stream) = (c :: line) :: lines := by
  have nonempty : stream ≠ [] → physicalLines stream ≠ [] := by
    intro some
    obtain ⟨d, rest, rfl⟩ := List.exists_cons_of_ne_nil some
    unfold physicalLines
    split
    · exact List.cons_ne_nil _ _
    · split <;> exact List.cons_ne_nil _ _
  cases lines : physicalLines stream with
  | nil =>
      have empty : stream = [] := by
        by_contra some
        exact nonempty some lines
      subst empty
      exact Or.inl ⟨rfl, by simp [physicalLines, notNewline]⟩
  | cons line rest => exact Or.inr ⟨line, rest, rfl, by simp [physicalLines, notNewline, lines]⟩

theorem physicalLines_flatten (stream : List Char) : (physicalLines stream).flatten = stream := by
  induction stream with
  | nil => rfl
  | cons c stream ih =>
      by_cases newline : c = '\n'
      · subst newline
        rw [physicalLines_newline, List.flatten_cons, ih]
        rfl
      · rcases physicalLines_cons newline stream with ⟨rfl, whole⟩ | ⟨line, lines, rest, whole⟩
        · rw [whole]
          rfl
        · rw [rest, List.flatten_cons] at ih
          rw [whole, List.flatten_cons, List.cons_append, ih]

theorem isPhysicalLine_of_mem {stream line : List Char} (member : line ∈ physicalLines stream) :
    IsPhysicalLine line := by
  induction stream generalizing line with
  | nil => cases member
  | cons c stream ih =>
      by_cases newline : c = '\n'
      · subst newline
        rw [physicalLines_newline] at member
        rcases List.mem_cons.mp member with rfl | later
        · exact ⟨List.cons_ne_nil _ _, by simp⟩
        · exact ih later
      · rcases physicalLines_cons newline stream with ⟨rfl, whole⟩ | ⟨first, lines, rest, whole⟩
        · rw [whole, List.mem_singleton] at member
          subst member
          exact ⟨List.cons_ne_nil _ _, by simp⟩
        · rw [whole] at member
          rcases List.mem_cons.mp member with rfl | later
          · have firstLine := ih (rest ▸ List.mem_cons_self (a := first) (l := lines))
            refine ⟨List.cons_ne_nil _ _, ?_⟩
            rw [List.dropLast_cons_of_ne_nil firstLine.nonempty, List.mem_cons, not_or]
            exact ⟨Ne.symm newline, firstLine.single⟩
          · exact ih (rest ▸ List.mem_cons_of_mem first later)

/-- Every physical line but the last one ends with its newline. -/
theorem physicalLines_ended {stream line : List Char}
    (member : line ∈ (physicalLines stream).dropLast) : line.getLast? = some '\n' := by
  induction stream generalizing line with
  | nil => cases member
  | cons c stream ih =>
      by_cases newline : c = '\n'
      · subst newline
        rw [physicalLines_newline] at member
        cases lines : physicalLines stream with
        | nil =>
            rw [lines] at member
            cases member
        | cons next rest =>
            rw [lines, List.dropLast_cons_of_ne_nil (List.cons_ne_nil next rest)] at member
            rcases List.mem_cons.mp member with rfl | later
            · rfl
            · exact ih (lines ▸ later)
      · rcases physicalLines_cons newline stream with ⟨rfl, whole⟩ | ⟨first, lines, rest, whole⟩
        · rw [whole] at member
          cases member
        · rw [whole] at member
          cases lines with
          | nil => cases member
          | cons next lines =>
              have later : ∀ other ∈ (first :: next :: lines).dropLast,
                  other.getLast? = some '\n' := fun other inside => ih (rest ▸ inside)
              rw [List.dropLast_cons_of_ne_nil (List.cons_ne_nil next lines)] at member later
              rcases List.mem_cons.mp member with rfl | inside
              · have firstEnded := later first (List.mem_cons_self ..)
                obtain ⟨d, tail, rfl⟩ := List.exists_cons_of_ne_nil
                  (List.ne_nil_of_mem (List.mem_of_mem_getLast? firstEnded))
                rw [List.getLast?_cons_cons]
                exact firstEnded
              · exact later line (List.mem_cons_of_mem first inside)

theorem IsPhysicalLine.prepend {front line : List Char} (isLine : IsPhysicalLine line)
    (noNewline : '\n' ∉ front) : IsPhysicalLine (front ++ line) where
  nonempty := List.append_ne_nil_of_right_ne_nil front isLine.nonempty
  single := by
    rw [List.dropLast_append_of_ne_nil isLine.nonempty]
    intro member
    rcases List.mem_append.mp member with inFront | inLine
    · exact noNewline inFront
    · exact isLine.single inLine

/-- The buffers of a stream are those of its physical lines. -/
theorem fgetsLines_physicalLines {size : Nat} (hsize : 2 ≤ size) (stream : List Char) :
    fgetsLines size stream = (physicalLines stream).flatMap (fgetsLines size) := by
  have joined : fgetsLines size (physicalLines stream).flatten = _ :=
    fgetsLines_flatten hsize (fun part member => Or.inr (physicalLines_ended member))
  rw [physicalLines_flatten] at joined
  rw [joined, List.flatMap_def]

end Stdio
