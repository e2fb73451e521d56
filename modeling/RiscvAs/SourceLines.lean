/-
The lines of a file that a pass hands to its step.

Both passes skip blank and comment lines and let a dotted line name the current
segment.  `contents` keeps the other lines, each with the segment it stands in,
and a pass is its step run over them.
-/

import RiscvAs.Passes

namespace RiscvAs

open Stdio

/-- What the `fgets` loop makes of a buffer. -/
inductive Turn where
  | ignored
  | segment (name : CString)
  | content (line : CString)
  deriving DecidableEq

def turnOf (buffer : CString) : Turn :=
  if isIgnorableLine (stringTrim buffer) then .ignored
  else
    match stringTrim buffer with
    | '.' :: name => .segment (snprintf lineBufLen name)
    | line => .content line

structure IsContentLine (line : CString) : Prop where
  nonempty : line ≠ []
  front : Stops isspace line
  notComment : line.head? ≠ some '#'
  notDot : line.head? ≠ some '.'
  short : line.length < lineBufLen

theorem stringTrim_prefix_skipBlanks (s : CString) : stringTrim s <+: skipBlanks s := by
  unfold stringTrim
  split
  · rename_i empty
    simp [empty]
  · exact List.rdropWhile_prefix isspace (skipBlanks s)

theorem skipBlanks_suffix (s : CString) : skipBlanks s <:+ s :=
  List.dropWhile_suffix isspace

theorem stringTrim_length_le (s : CString) : (stringTrim s).length ≤ s.length :=
  Nat.le_trans (stringTrim_prefix_skipBlanks s).length_le (skipBlanks_suffix s).length_le

theorem stops_of_prefix {accept : Char → Bool} {s s' : CString} (prefixed : s <+: s')
    (stops : Stops accept s') : Stops accept s := by
  cases s with
  | nil => exact stops_nil accept
  | cons c s =>
      obtain ⟨rest, rfl⟩ := prefixed
      simpa using stops

theorem stops_stringTrim (s : CString) : Stops isspace (stringTrim s) :=
  stops_of_prefix (stringTrim_prefix_skipBlanks s) (stops_skipBlanks s)

theorem isIgnorableLine_of_stops {s : CString} (stops : Stops isspace s) :
    isIgnorableLine s = (s = [] ∨ s.head? = some '#' : Bool) := by
  unfold isIgnorableLine
  rw [skipBlanks_of_stops stops]
  cases s <;> simp

theorem turnOf_cases (buffer : CString) :
    (isIgnorableLine (stringTrim buffer) = true ∧ turnOf buffer = .ignored) ∨
      (isIgnorableLine (stringTrim buffer) = false ∧
        ((∃ name, stringTrim buffer = '.' :: name ∧
            turnOf buffer = .segment (snprintf lineBufLen name)) ∨
          ((stringTrim buffer).head? ≠ some '.' ∧
            turnOf buffer = .content (stringTrim buffer)))) := by
  unfold turnOf
  split
  · rename_i ignorable
    exact Or.inl ⟨ignorable, rfl⟩
  · rename_i kept
    refine Or.inr ⟨Bool.eq_false_iff.mpr kept, ?_⟩
    split
    · rename_i name dotted
      exact Or.inl ⟨name, dotted, rfl⟩
    · rename_i notDot
      refine Or.inr ⟨?_, rfl⟩
      intro dotted
      obtain ⟨name, same⟩ := List.head?_eq_some_iff.mp dotted
      exact notDot name same

theorem turnOf_content {buffer line : CString} (turn : turnOf buffer = .content line)
    (short : buffer.length < lineBufLen) : line = stringTrim buffer ∧ IsContentLine line := by
  have front := stops_stringTrim buffer
  rcases turnOf_cases buffer with ⟨-, ignored⟩ | ⟨kept, ⟨name, -, segment⟩ | ⟨notDot, content⟩⟩
  · rw [ignored] at turn
    cases turn
  · rw [segment] at turn
    cases turn
  · rw [content] at turn
    cases turn
    rw [isIgnorableLine_of_stops front] at kept
    simp only [Bool.decide_or, Bool.or_eq_false_iff, decide_eq_false_iff_not] at kept
    exact ⟨rfl, kept.1, front, kept.2, notDot,
      Nat.lt_of_le_of_lt (stringTrim_length_le buffer) short⟩

section Turns

variable {σ : Type} (process : CString → σ → CString → AssemblerError × σ) {state : CString × σ}
  {buffer : CString}

theorem sourceLine_ignored (turn : turnOf buffer = .ignored) :
    sourceLine process state buffer = (.ok, state) := by
  rcases turnOf_cases buffer with ⟨ignorable, -⟩ | ⟨-, ⟨name, -, segment⟩ | ⟨-, content⟩⟩
  · simp only [sourceLine, ignorable, if_true]
  · rw [segment] at turn
    cases turn
  · rw [content] at turn
    cases turn

theorem sourceLine_segment {name : CString} (turn : turnOf buffer = .segment name) :
    sourceLine process state buffer = (.ok, (name, state.2)) := by
  rcases turnOf_cases buffer with ⟨-, ignored⟩ | ⟨kept, ⟨name', dotted, segment⟩ | ⟨-, content⟩⟩
  · rw [ignored] at turn
    cases turn
  · rw [segment] at turn
    cases turn
    rw [dotted] at kept
    simp only [sourceLine, dotted, kept, Bool.false_eq_true, if_false]
  · rw [content] at turn
    cases turn

theorem sourceLine_content {line : CString} (turn : turnOf buffer = .content line) :
    sourceLine process state buffer =
      ((process state.1 state.2 line).1, (state.1, (process state.1 state.2 line).2)) := by
  rcases turnOf_cases buffer with ⟨-, ignored⟩ | ⟨kept, ⟨name, -, segment⟩ | ⟨notDot, content⟩⟩
  · rw [ignored] at turn
    cases turn
  · rw [segment] at turn
    cases turn
  · rw [content] at turn
    cases turn
    simp only [sourceLine, kept, Bool.false_eq_true, if_false]
    split
    · rename_i name dotted
      exact absurd (congrArg List.head? dotted) notDot
    · rfl

end Turns

/-! ### Content lines -/

structure Content where
  segment : CString
  line : CString
  deriving DecidableEq

def contents : CString → List CString → List Content
  | _, [] => []
  | segment, buffer :: buffers =>
      match turnOf buffer with
      | .ignored => contents segment buffers
      | .segment name => contents name buffers
      | .content line => ⟨segment, line⟩ :: contents segment buffers

def segmentAfter : CString → List CString → CString
  | segment, [] => segment
  | segment, buffer :: buffers =>
      match turnOf buffer with
      | .ignored | .content _ => segmentAfter segment buffers
      | .segment name => segmentAfter name buffers

theorem contents_append (segment : CString) (before after : List CString) :
    contents segment (before ++ after) =
      contents segment before ++ contents (segmentAfter segment before) after := by
  induction before generalizing segment with
  | nil => rfl
  | cons buffer before ih =>
      simp only [List.cons_append, contents, segmentAfter]
      cases turnOf buffer with
      | ignored => exact ih segment
      | segment name => exact ih name
      | content line => rw [List.cons_append, ih segment]

theorem contents_mem_split {segment : CString} {buffers : List CString} {content : Content}
    {before after : List Content} (split : contents segment buffers = before ++ content :: after) :
    ∃ first buffer second, buffers = first ++ buffer :: second ∧
      turnOf buffer = .content content.line ∧ content.segment = segmentAfter segment first ∧
      contents segment first = before := by
  induction buffers generalizing segment before with
  | nil =>
      cases before <;> cases split
  | cons buffer buffers ih =>
      simp only [contents] at split
      cases turn : turnOf buffer with
      | ignored =>
          simp only [turn] at split
          obtain ⟨first, found, second, rfl, line, stands, kept⟩ := ih split
          refine ⟨buffer :: first, found, second, rfl, line, ?_, ?_⟩
          · simp only [segmentAfter, turn, stands]
          · simp only [contents, turn, kept]
      | segment name =>
          simp only [turn] at split
          obtain ⟨first, found, second, rfl, line, stands, kept⟩ := ih split
          refine ⟨buffer :: first, found, second, rfl, line, ?_, ?_⟩
          · simp only [segmentAfter, turn, stands]
          · simp only [contents, turn, kept]
      | content line =>
          simp only [turn] at split
          cases before with
          | nil =>
              obtain ⟨rfl, -⟩ := List.cons.inj split
              exact ⟨[], buffer, buffers, rfl, turn, rfl, rfl⟩
          | cons head before =>
              obtain ⟨rfl, rest⟩ := List.cons.inj split
              obtain ⟨first, found, second, rfl, line', stands, kept⟩ := ih rest
              refine ⟨buffer :: first, found, second, rfl, line', ?_, ?_⟩
              · simp only [segmentAfter, turn, stands]
              · simp only [contents, turn, kept]

theorem isContentLine_of_mem {segment : CString} {buffers : List CString} {content : Content}
    (short : ∀ buffer ∈ buffers, buffer.length < lineBufLen)
    (member : content ∈ contents segment buffers) : IsContentLine content.line := by
  obtain ⟨before, after, split⟩ := List.append_of_mem member
  obtain ⟨first, buffer, second, rfl, turn, -, -⟩ := contents_mem_split split
  exact (turnOf_content turn (short buffer (by simp))).2

theorem sourceLines_short (source : List Char) :
    ∀ buffer ∈ fgetsLines lineBufLen source, buffer.length < lineBufLen :=
  fun _ member => fgetsLines_length_lt (by decide) member

section Runs

variable {σ : Type} (process : CString → σ → CString → AssemblerError × σ)

def contentStep (s : σ) (content : Content) : AssemblerError × σ :=
  process content.segment s content.line

/-- The loop of a pass ends as the run of its step over the content lines. -/
theorem run_sourceLine (segment : CString) (s : σ) (buffers : List CString) :
    (Loop.run .ok (sourceLine process) (segment, s) buffers).1 =
        (Loop.run .ok (contentStep process) s (contents segment buffers)).1 ∧
      (Loop.run .ok (sourceLine process) (segment, s) buffers).2.2 =
        (Loop.run .ok (contentStep process) s (contents segment buffers)).2 ∧
      ((Loop.run .ok (sourceLine process) (segment, s) buffers).1 = .ok →
        (Loop.run .ok (sourceLine process) (segment, s) buffers).2.1 =
          segmentAfter segment buffers) := by
  induction buffers generalizing segment s with
  | nil => exact ⟨rfl, rfl, fun _ => rfl⟩
  | cons buffer buffers ih =>
      cases turn : turnOf buffer with
      | ignored =>
          have step : sourceLine process (segment, s) buffer = (.ok, (segment, s)) :=
            sourceLine_ignored process turn
          rw [Loop.run_cons_of_ok step]
          simp only [contents, segmentAfter, turn]
          exact ih segment s
      | segment name =>
          have step : sourceLine process (segment, s) buffer = (.ok, (name, s)) :=
            sourceLine_segment process turn
          rw [Loop.run_cons_of_ok step]
          simp only [contents, segmentAfter, turn]
          exact ih name s
      | content line =>
          have step : sourceLine process (segment, s) buffer =
              ((process segment s line).1, (segment, (process segment s line).2)) :=
            sourceLine_content process turn
          simp only [contents, segmentAfter, turn]
          by_cases accepted : (process segment s line).1 = .ok
          · have stepContent : contentStep process s ⟨segment, line⟩ =
                (.ok, (process segment s line).2) := Prod.ext accepted rfl
            rw [accepted] at step
            rw [Loop.run_cons_of_ok step, Loop.run_cons_of_ok stepContent]
            exact ih segment (process segment s line).2
          · have failed : (sourceLine process (segment, s) buffer).1 ≠ .ok := by
              rw [step]
              exact accepted
            rw [Loop.run_cons_of_fail failed, Loop.run_cons_of_fail (by exact accepted), step]
            exact ⟨rfl, rfl, fun ok => absurd ok accepted⟩

theorem run_sourceLine_ok_iff {segment segment' : CString} {s s' : σ} {buffers : List CString} :
    Loop.run .ok (sourceLine process) (segment, s) buffers = (.ok, (segment', s')) ↔
      Loop.run .ok (contentStep process) s (contents segment buffers) = (.ok, s') ∧
        segment' = segmentAfter segment buffers := by
  obtain ⟨code, kept, after⟩ := run_sourceLine process segment s buffers
  constructor
  · intro ran
    rw [ran] at code kept after
    exact ⟨Prod.ext code.symm kept.symm, after rfl⟩
  · rintro ⟨ran, rfl⟩
    rw [ran] at code kept
    exact Prod.ext code (Prod.ext (after code) kept)

end Runs

end RiscvAs
