/-
The data directives of a file, as its author reads them.

A directive line is recognised by its directive, with or without a label, and a
dotted line is a segment line when it is no directive.  `denotedData` is what the
directive lines of the data segment denote, in source order.  The code decides
by the first character of a line alone, so it keeps all of this data exactly when
no directive line begins with a dot.
-/

import RiscvAs.EmittedBytes

namespace RiscvAs

open Stdio
open Bytes (Byte)
open Rv32 (Word)

def isDataDirective (directive : CString) : Bool :=
  isIntegerDirective directive || isStringDirective directive || directive = ".space".toList

/-- The directive of a line with its arguments, when the line is a data
directive, whatever segment it stands in. -/
def directiveLine (buffer : CString) : Option CString :=
  if isIgnorableLine (stringTrim buffer) then none
  else if isDataDirective (mnemonicOf (afterLabel (stringTrim buffer))) then
    some (afterLabel (stringTrim buffer))
  else none

/-- The segment after a line: a directive line is no segment line. -/
def sourceSegment (segment buffer : CString) : CString :=
  if (directiveLine buffer).isSome then segment
  else
    match turnOf buffer with
    | .segment name => name
    | _ => segment

def lineData (build : Build) (segment buffer : CString) : List Byte :=
  match directiveLine buffer with
  | some p => if segment = "data".toList then (dataLineBytes build p).getD [] else []
  | none => []

def denotedData (build : Build) : CString → List CString → List Byte
  | _, [] => []
  | segment, buffer :: buffers =>
      lineData build segment buffer ++ denotedData build (sourceSegment segment buffer) buffers

example : denotedData .native [] [".data\n".toList, ".byte 1\n".toList, "b: .byte 2\n".toList] =
    [1, 2] := by decide

/-- No data of the file is lost: the final data segment is what its directive
lines denote, and none of these lines changes the segment of a pass. -/
structure DataComplete (build : Build) (baseVaddr : Word) (source : List Char)
    (ctx1 ctx2 : AssemblerCtx) : Prop where
  bytes : ctx2.dataSegment.bytes = denotedData build [] (fgetsLines lineBufLen source)
  keepsSegment : ∀ before buffer after, fgetsLines lineBufLen source = before ++ buffer :: after →
    (directiveLine buffer).isSome → ∀ segment scan out,
    scanLines build (scanStart (initCtx baseVaddr)) before = (.ok, (segment, scan)) →
    assembleLines build (assembleStart ctx1) before = (.ok, (segment, out)) →
    (sourceLine (scanLine build) (segment, scan) buffer).2.1 = segment ∧
      (sourceLine (processAssemblyLine build) (segment, out) buffer).2.1 = segment

/-- A directive line that the passes take for a segment line. -/
def IsDottedDirective (buffer : CString) : Prop :=
  (directiveLine buffer).isSome ∧ (stringTrim buffer).head? = some '.'

instance (buffer : CString) : Decidable (IsDottedDirective buffer) :=
  inferInstanceAs (Decidable (_ ∧ _))

theorem isDataDirective_of_bytes {build : Build} {directive args : CString} {bytes : List Byte}
    (denoted : directiveBytes build directive args = some bytes) :
    isDataDirective directive = true := by
  unfold isDataDirective
  by_contra other
  simp only [Bool.or_eq_true, decide_eq_true_eq, not_or] at other
  obtain ⟨⟨notInteger, notString⟩, notSpace⟩ := other
  rw [directiveBytes, if_neg notInteger, if_neg notString, if_neg notSpace] at denoted
  cases denoted

/-- A directive is short, begins with its dot and is no label. -/
theorem isDataDirective_shape {directive : CString} (known : isDataDirective directive = true) :
    directive.length ≤ 7 ∧ directive.head? = some '.' ∧ directive.getLast? ≠ some ':' := by
  simp only [isDataDirective, isIntegerDirective, isStringDirective, Bool.or_eq_true,
    decide_eq_true_eq] at known
  rcases known with (((rfl | rfl) | rfl) | ((rfl | rfl) | rfl)) | rfl <;> decide

theorem isDataDirective_length {directive : CString} (known : isDataDirective directive = true) :
    directive.length ≤ 7 :=
  (isDataDirective_shape known).1

theorem isDataDirective_mnemonicOf {build : Build} {p : CString} {bytes : List Byte}
    (denoted : dataLineBytes build p = some bytes) : isDataDirective (mnemonicOf p) = true := by
  rcases directive_cases build p with ⟨directive, scanned, same⟩ | ⟨-, none⟩
  · have known := isDataDirective_of_bytes (same ▸ denoted)
    rw [formatDirective, sscanf_word] at scanned
    split at scanned
    · cases scanned
    · obtain rfl := Value.str.inj (List.cons.inj scanned).1
      have short := isDataDirective_length known
      rw [List.length_take, nameLen] at short
      rwa [List.take_of_length_le (by rw [nameLen]; omega)] at known
  · rw [none] at denoted
    cases denoted

/-- A directive line is content or dotted, never ignored. -/
theorem turnOf_directiveLine {buffer p : CString} (directive : directiveLine buffer = some p) :
    (∃ name, stringTrim buffer = '.' :: name ∧
        turnOf buffer = .segment (snprintf lineBufLen name)) ∨
      ((stringTrim buffer).head? ≠ some '.' ∧ turnOf buffer = .content (stringTrim buffer)) := by
  rcases turnOf_cases buffer with ⟨ignorable, -⟩ | ⟨-, turned⟩
  · rw [directiveLine, if_pos ignorable] at directive
    cases directive
  · exact turned

theorem directiveLine_of_denoted {build : Build} {buffer line : CString} {bytes : List Byte}
    (turn : turnOf buffer = .content line) (short : buffer.length < lineBufLen)
    (denoted : dataLineBytes build (afterLabel line) = some bytes) :
    directiveLine buffer = some (afterLabel line) := by
  obtain ⟨rfl, content⟩ := turnOf_content turn short
  have kept : isIgnorableLine (stringTrim buffer) = false := by
    rw [isIgnorableLine_of_stops content.front]
    simp [content.nonempty, content.notComment]
  rw [directiveLine, kept, if_neg (by decide), if_pos (isDataDirective_mnemonicOf denoted)]

theorem directiveLine_none {buffer : CString} (undotted : ¬ IsDottedDirective buffer)
    (notContent : ∀ line, turnOf buffer ≠ .content line) : directiveLine buffer = none := by
  cases directive : directiveLine buffer with
  | none => rfl
  | some p =>
      rcases turnOf_directiveLine directive with ⟨name, dotted, -⟩ | ⟨-, turn⟩
      · exact absurd ⟨by rw [directive]; rfl, by rw [dotted]; rfl⟩ undotted
      · exact absurd turn (notContent _)

/-! ### Without dotted directives -/

theorem lineData_of_ne (build : Build) {segment : CString} (notData : segment ≠ "data".toList)
    (buffer : CString) : lineData build segment buffer = [] := by
  unfold lineData
  split
  · rw [if_neg notData]
  · rfl

theorem EmitStep.lineData {build : Build} {segment buffer line : CString} {out out' : Output}
    (turn : turnOf buffer = .content line) (short : buffer.length < lineBufLen)
    (step : EmitStep build out segment line out') :
    out'.dataBytes = out.dataBytes ++ RiscvAs.lineData build segment buffer := by
  cases step with
  | text inText encoded fits =>
      have notData : segment ≠ "data".toList := by
        rintro rfl
        cases inText
      rw [lineData_of_ne build notData, List.append_nil, Output.appendWords_dataBytes]
  | data inData denoted fits =>
      rw [RiscvAs.lineData, directiveLine_of_denoted turn short denoted,
        Output.appendData_dataBytes]
      simp only [if_pos inData, denoted, Option.getD_some]
  | bss inBss =>
      have notData : segment ≠ "data".toList := by
        rw [inBss]
        decide
      rw [lineData_of_ne build notData, List.append_nil]

theorem sourceSegment_of_undotted {buffer : CString} (undotted : ¬ IsDottedDirective buffer)
    (segment : CString) : sourceSegment segment buffer = segmentAfter segment [buffer] := by
  unfold sourceSegment
  simp only [segmentAfter]
  cases turn : turnOf buffer with
  | content line => split <;> rfl
  | ignored => split <;> rfl
  | segment name =>
      rw [directiveLine_none undotted (by simp [turn])]
      rfl

theorem emitContents_denotedData {build : Build} {segment : CString} {buffers : List CString}
    {out final : Output} (short : ∀ buffer ∈ buffers, buffer.length < lineBufLen)
    (undotted : ∀ buffer ∈ buffers, ¬ IsDottedDirective buffer)
    (ran : emitContents build out (contents segment buffers) = (.ok, final))
    (bounded : out.Bounded) :
    final.dataBytes = out.dataBytes ++ denotedData build segment buffers := by
  induction buffers generalizing segment out with
  | nil =>
      obtain rfl := (Prod.mk.inj ran).2
      rw [denotedData, List.append_nil]
  | cons buffer buffers ih =>
      have first := undotted buffer (List.mem_cons_self ..)
      have rest : ∀ segment out, emitContents build out (contents segment buffers) = (.ok, final) →
          out.Bounded → final.dataBytes = out.dataBytes ++ denotedData build segment buffers :=
        fun segment out => ih (fun other member => short other (List.mem_cons_of_mem buffer member))
          (fun other member => undotted other (List.mem_cons_of_mem buffer member))
      rw [denotedData, sourceSegment_of_undotted first, ← List.append_assoc]
      simp only [contents] at ran
      simp only [segmentAfter]
      cases turn : turnOf buffer with
      | ignored =>
          simp only [turn] at ran
          rw [lineData, directiveLine_none first (by simp [turn]), List.append_nil]
          exact rest segment out ran bounded
      | segment name =>
          simp only [turn] at ran
          rw [lineData, directiveLine_none first (by simp [turn]), List.append_nil]
          exact rest name out ran bounded
      | content line =>
          simp only [turn] at ran
          have shortFirst := short buffer (List.mem_cons_self ..)
          obtain ⟨middle, step, ranRest⟩ :=
            (emitContents_cons_iff (turnOf_content turn shortFirst).2 bounded).mp ran
          rw [← step.lineData turn shortFirst]
          exact rest segment middle ranRest (step.bounded bounded)

theorem segmentAfter_cases (segment : CString) (buffers : List CString) :
    segmentAfter segment buffers = segment ∨
      ∃ buffer ∈ buffers, turnOf buffer = .segment (segmentAfter segment buffers) := by
  induction buffers generalizing segment with
  | nil => exact Or.inl rfl
  | cons buffer buffers ih =>
      have later : ∀ start,
        (∃ other ∈ buffers, turnOf other = .segment (segmentAfter start buffers)) →
          ∃ other ∈ buffer :: buffers, turnOf other = .segment (segmentAfter start buffers) := by
        rintro start ⟨other, member, turn⟩
        exact ⟨other, List.mem_cons_of_mem buffer member, turn⟩
      simp only [segmentAfter]
      cases turn : turnOf buffer with
      | ignored => exact (ih segment).imp id (later segment)
      | content line => exact (ih segment).imp id (later segment)
      | segment name =>
          rcases ih name with same | found
          · refine Or.inr ⟨buffer, List.mem_cons_self .., ?_⟩
            rw [turn]
            exact congrArg Turn.segment same.symm
          · exact Or.inr (later name found)

theorem turnOf_segment {buffer name : CString} (turn : turnOf buffer = .segment name)
    (short : buffer.length < lineBufLen) : stringTrim buffer = '.' :: name := by
  rcases turnOf_cases buffer with ⟨-, ignored⟩ | ⟨-, ⟨name', dotted, segment⟩ | ⟨-, content⟩⟩
  · rw [ignored] at turn
    cases turn
  · have length := stringTrim_length_le buffer
    rw [dotted, List.length_cons] at length
    have whole : snprintf lineBufLen name' = name' := List.take_of_length_le (by omega)
    rw [segment, whole] at turn
    rw [dotted, Turn.segment.inj turn]
  · rw [content] at turn
    cases turn

theorem isDottedDirective_congr {buffer buffer' : CString}
    (same : stringTrim buffer = stringTrim buffer') (dotted : IsDottedDirective buffer) :
    IsDottedDirective buffer' := by
  unfold IsDottedDirective directiveLine at *
  rwa [← same]

/-- The first dotted directive names a segment that no line before it named. -/
theorem segment_changes {before : List CString} {buffer : CString}
    (short : ∀ other ∈ before, other.length < lineBufLen) (shortBuffer : buffer.length < lineBufLen)
    (undotted : ∀ other ∈ before, ¬ IsDottedDirective other) (dotted : IsDottedDirective buffer) :
    ∃ name, turnOf buffer = .segment name ∧ name ≠ segmentAfter [] before := by
  obtain ⟨p, directive⟩ := Option.isSome_iff_exists.mp dotted.1
  rcases turnOf_directiveLine directive with ⟨name, line, turn⟩ | ⟨notDot, -⟩
  · refine ⟨_, turn, ?_⟩
    have line' := turnOf_segment turn shortBuffer
    intro same
    rcases segmentAfter_cases [] before with start | ⟨other, member, turnOther⟩
    · -- A lone dot is no directive.
      rw [same, start] at line'
      rw [directiveLine, line'] at directive
      have none := directive.symm.trans (show _ = (none : Option CString) by decide)
      cases none
    · have lineOther := turnOf_segment turnOther (short other member)
      rw [← same, ← line'] at lineOther
      exact undotted other member (isDottedDirective_congr lineOther.symm dotted)
  · exact absurd dotted.2 notDot

/-- An accepted file keeps all of its data exactly when none of its directive
lines begins with a dot. -/
theorem dataComplete_iff {build : Build} {baseVaddr : Word} {source : List Char}
    {ctx1 ctx2 : AssemblerCtx} (accepted : Accepted build baseVaddr source ctx1 ctx2) :
    DataComplete build baseVaddr source ctx1 ctx2 ↔
      ∀ buffer ∈ fgetsLines lineBufLen source, ¬ IsDottedDirective buffer := by
  have short := sourceLines_short source
  constructor
  · intro complete dottedBuffer dottedMember isDotted
    -- At the first dotted directive the passes stand in a segment of another name.
    have some : ((fgetsLines lineBufLen source).find? (fun buffer =>
        decide (IsDottedDirective buffer))).isSome := by
      rw [List.find?_isSome]
      exact ⟨dottedBuffer, dottedMember, decide_eq_true isDotted⟩
    obtain ⟨buffer, found⟩ := Option.isSome_iff_exists.mp some
    obtain ⟨dotted, before, after, split, undotted⟩ := List.find?_eq_some_iff_append.mp found
    simp only [decide_eq_true_eq, Bool.not_eq_true', decide_eq_false_iff_not] at dotted undotted
    obtain ⟨segment, scan, out, scanned, emitted, -⟩ := accepted.reached split
    obtain ⟨name, turn, differs⟩ := segment_changes
      (fun other member => short other (by simp [split, member])) (short buffer (by simp [split]))
      undotted dotted
    obtain ⟨kept, -⟩ :=
      complete.keepsSegment before buffer after split dotted.1 segment scan out scanned emitted
    rw [sourceLine_segment _ turn] at kept
    exact differs (kept.trans (scanLines_ok_iff.mp scanned).2)
  · intro undotted
    constructor
    · obtain ⟨scan, out, scanned, rfl, emitted, rfl, start⟩ := accepted.runs
      exact emitContents_denotedData short undotted emitted start.bounded
    · intro before buffer after split directive segment scan out _ _
      obtain ⟨p, found⟩ := Option.isSome_iff_exists.mp directive
      have member : buffer ∈ fgetsLines lineBufLen source := by simp [split]
      rcases turnOf_directiveLine found with ⟨name, dotted, -⟩ | ⟨-, turn⟩
      · exact absurd ⟨directive, by rw [dotted]; rfl⟩ (undotted buffer member)
      · rw [sourceLine_content _ turn, sourceLine_content _ turn]
        exact ⟨rfl, rfl⟩

theorem dataComplete_example :
    exampleAssembled.dataSegment.bytes =
      denotedData .native [] (fgetsLines lineBufLen exampleSource) :=
  ((dataComplete_iff exampleSource_accepted).mpr (by decide +kernel)).bytes

/-- A directive without a label is taken for a segment line and its word is
lost. -/
theorem unlabelledWord_not_dataComplete :
    ∃ source ctx1 ctx2, source = ".data\n.word 5\n".toList ∧
      Accepted .native 0x80000000 source ctx1 ctx2 ∧
      ctx2.dataSegment.bytes = [] ∧
      denotedData .native [] (fgetsLines lineBufLen source) = [5, 0, 0, 0] ∧
      ¬ DataComplete .native 0x80000000 source ctx1 ctx2 := by
  have accepted := accepted_of_codes
    (show (scanLabels .native (some ".data\n.word 5\n".toList) (initCtx 0x80000000)).1 = .ok by
      decide +kernel) (by decide +kernel)
  refine ⟨_, _, _, rfl, accepted, by decide +kernel, by decide +kernel, ?_⟩
  intro complete
  have lost := congrArg List.length complete.bytes
  exact absurd lost (by decide +kernel)

end RiscvAs
