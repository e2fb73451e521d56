/-
Data after the code that uses it.

A file with a `.data` block before its `.text` block is rewritten with the two
blocks in the opposite order.  Data lines and text lines work on different parts
of the state, so their steps commute, all but those of `la`: pass 1 looks its
symbol up before it has seen the label.
-/

import RiscvAs.DataLines
import RiscvAs.Trimming

namespace RiscvAs

open Stdio
open Bytes (Byte)
open Rv32 (Word)

/-- The lines of a block: its segment line, and after it no other segment line.
Blank and comment lines may stand before it. -/
structure IsBlock (name : CString) (buffers : List CString) : Prop where
  opens : ∃ before first rest, buffers = before ++ first :: rest ∧
    (∀ buffer ∈ before, turnOf buffer = .ignored) ∧ turnOf first = .segment name ∧
    ∀ buffer ∈ rest, ∀ other, turnOf buffer = .segment other → (directiveLine buffer).isSome

def terminated (text : List Char) : List Char :=
  if text.getLast? = some '\n' then text else text ++ ['\n']

theorem terminated_ended (text : List Char) : (terminated text).getLast? = some '\n' := by
  unfold terminated
  split
  · assumption
  · simp

theorem stringTrim_newline (s : CString) : stringTrim (s ++ ['\n']) = stringTrim s := by
  apply stringTrim_append_blanks
  intro c member
  rw [List.mem_singleton.mp member]
  rfl

theorem turnOf_newline (stream : List Char) :
    turnOf (cstring (stream ++ ['\n'])) = turnOf (cstring stream) := by
  have same : stringTrim (cstring (stream ++ ['\n'])) = stringTrim (cstring stream) := by
    by_cases plain : ∀ c ∈ stream, decide (c ≠ '\x00') = true
    · have whole : cstring stream = stream := List.takeWhile_eq_self_iff.mpr plain
      have longer : cstring (stream ++ ['\n']) = stream ++ ['\n'] := by
        rw [cstring, List.takeWhile_append_of_pos plain]
        rfl
      rw [whole, longer, stringTrim_newline]
    · have cut : cstring (stream ++ ['\n']) = cstring stream := by
        unfold cstring
        rw [List.takeWhile_append, if_neg]
        intro full
        exact plain (List.takeWhile_eq_self_iff.mp
          ((List.takeWhile_prefix _).eq_of_length full))
      rw [cut]
  simp only [turnOf, same]

theorem contents_newline (segment : CString) (stream : List Char) :
    contents segment (fgetsLines lineBufLen (stream ++ ['\n'])) =
      contents segment (fgetsLines lineBufLen stream) := by
  have size : 2 ≤ lineBufLen := by decide
  induction length : stream.length using Nat.strong_induction_on generalizing stream segment with
  | _ n ih =>
      cases stream with
      | nil => rfl
      | cons c rest =>
          have shorter := fgets_rest_length (lineBufLen - 2) c rest
          rw [show lineBufLen - 2 + 1 = lineBufLen - 1 from rfl] at shorter
          rw [List.length_cons] at length
          rw [List.cons_append, fgetsLines_cons _ size, fgetsLines_cons _ size, ← List.cons_append]
          rcases fgets_newline (lineBufLen - 1) (c :: rest) with split | ⟨whole, longer⟩
          · have tails := fun name => ih _ (by omega) name
              (fgets (lineBufLen - 1) (c :: rest)).2 rfl
            rw [split]
            simp only [contents, tails]
          · rw [whole, longer]
            simp only [contents, turnOf_newline, fgetsLines_nil]

theorem contents_terminated (segment : CString) (text : List Char) :
    contents segment (fgetsLines lineBufLen (terminated text)) =
      contents segment (fgetsLines lineBufLen text) := by
  unfold terminated
  split
  · rfl
  · exact contents_newline segment text

theorem contents_ignored {segment : CString} {buffers : List CString}
    (ignored : ∀ buffer ∈ buffers, turnOf buffer = .ignored) :
    contents segment buffers = [] ∧ segmentAfter segment buffers = segment := by
  induction buffers with
  | nil => exact ⟨rfl, rfl⟩
  | cons buffer buffers ih =>
      simp only [contents, segmentAfter, ignored buffer (List.mem_cons_self ..)]
      exact ih (fun other member => ignored other (List.mem_cons_of_mem buffer member))

/-- A block has the same content lines wherever it stands. -/
theorem IsBlock.contents_eq {name : CString} {buffers : List CString} (block : IsBlock name buffers)
    (segment : CString) : contents segment buffers = contents [] buffers := by
  obtain ⟨before, first, rest, rfl, ignored, opens, -⟩ := block.opens
  have body : ∀ start, contents start (before ++ first :: rest) = contents name rest := by
    intro start
    obtain ⟨nothing, kept⟩ := contents_ignored ignored
    rw [contents_append, nothing, kept]
    simp only [contents, opens, List.nil_append]
  rw [body, body]

/-- A content line of a block stands in its segment, or in one that a directive
line was taken for. -/
theorem IsBlock.segment_of_mem {name : CString} {buffers : List CString}
    (block : IsBlock name buffers) {content : Content} (member : content ∈ contents [] buffers) :
    content.segment = name ∨ ∃ buffer ∈ buffers, turnOf buffer = .segment content.segment ∧
      (directiveLine buffer).isSome := by
  obtain ⟨before, first, rest, rfl, ignored, opens, directives⟩ := block.opens
  obtain ⟨nothing, kept⟩ := contents_ignored ignored
  rw [contents_append, nothing, kept] at member
  simp only [contents, opens, List.nil_append] at member
  obtain ⟨left, right, split⟩ := List.append_of_mem member
  obtain ⟨earlier, buffer, later, rfl, -, stands, -⟩ := contents_mem_split split
  rcases segmentAfter_cases name earlier with same | ⟨other, otherMember, turn⟩
  · exact Or.inl (stands.trans same)
  · right
    rw [stands]
    exact ⟨other, by simp [otherMember], turn, directives other (by simp [otherMember]) _ turn⟩

theorem not_directiveLine_of_segment {buffer segment : CString}
    (turn : turnOf buffer = .segment segment) (short : buffer.length < lineBufLen)
    (known : isText segment = true ∨ segment = "data".toList) : directiveLine buffer = none := by
  have line := turnOf_segment turn short
  unfold directiveLine
  rw [line]
  rcases known with inText | rfl
  · simp only [isText, Bool.or_eq_true, decide_eq_true_eq] at inText
    rcases inText with rfl | rfl <;> decide
  · decide

inductive LineShape (build : Build) (content : Content) : Prop where
  | text {instr : Instruction} (inText : isText content.segment = true)
      (plain : leadingLabel content.line = none)
      (instruction : lineInstruction content.line = .ok instr)
  | data {name rest : CString} {bytes : List Byte} (inData : content.segment = "data".toList)
      (labelled : leadingLabel content.line = some (name, rest))
      (denoted : dataLineBytes build rest = some bytes)

theorem PassStep.lineShape {build : Build} {content : Content} {scan scan' : Scan}
    {out out' : Output} (step : PassStep build scan out content.segment content.line scan' out') :
    LineShape build content := by
  cases step with
  | text inText counted encoded fits =>
      obtain ⟨instr, instruction⟩ := lineInstruction_of_lineWords encoded
      exact .text inText (leadingLabel_of_instruction instruction) instruction
  | data inData labelled admits denoted fits => exact .data inData labelled denoted

theorem Accepted.lineShape {build : Build} {baseVaddr : Word} {source : List Char}
    {ctx1 ctx2 : AssemblerCtx} (accepted : Accepted build baseVaddr source ctx1 ctx2)
    {content : Content} (member : content ∈ sourceContents source) : LineShape build content := by
  obtain ⟨scan, out, scanned, -, emitted, -, start⟩ := accepted.runs
  obtain ⟨before, after, split⟩ := List.append_of_mem member
  obtain ⟨scan', out', scanNext, outNext, -, -, -, step, -, -⟩ :=
    passStep_of_split (fun _ => sourceContents_isContentLine) split scanned emitted start
  exact step.lineShape

theorem LineShape.segment {build : Build} {content : Content} (shape : LineShape build content) :
    isText content.segment = true ∨ content.segment = "data".toList := by
  cases shape with
  | text inText => exact Or.inl inText
  | data inData => exact Or.inr inData

/-- The content lines of a block of an accepted file stand in its segment. -/
theorem IsBlock.segment_eq {build : Build} {name : CString} {buffers : List CString}
    (block : IsBlock name buffers) (short : ∀ buffer ∈ buffers, buffer.length < lineBufLen)
    {content : Content} (member : content ∈ contents [] buffers)
    (shape : LineShape build content) : content.segment = name := by
  rcases block.segment_of_mem member with same | ⟨buffer, inBlock, turn, directive⟩
  · exact same
  · rw [not_directiveLine_of_segment turn (short buffer inBlock) shape.segment] at directive
    cases directive

section Commute

variable {build : Build} {data text : Content} (isData : IsContentLine data.line)
  (isText' : IsContentLine text.line) (inData : data.segment = "data".toList)
  (dataShape : LineShape build data) (inText : isText text.segment = true)
  (textShape : LineShape build text) (notLa : ¬ IsLa text.line)

include dataShape inData in
theorem LineShape.scanStep_data {scan scan' : Scan}
    (step : ScanStep build scan data.segment data.line scan') :
    ∃ name rest bytes, leadingLabel data.line = some (name, rest) ∧
      scan.ctx.table.Admits (name.take (labelLen - 1)) ∧ dataLineBytes build rest = some bytes ∧
      scan.dataOffset.toNat + bytes.length ≤ dataSize ∧
      scan' = (scan.enter (scan.dataSymbol name)).advanceData bytes := by
  cases dataShape with
  | text inText =>
      rw [inData] at inText
      cases inText
  | data _ labelled denoted =>
      cases step with
      | text _ plain =>
          rw [labelled] at plain
          cases plain
      | label labelled' =>
          rw [labelled] at labelled'
          cases labelled'
          cases denoted
      | labelledText inText =>
          rw [inData] at inText
          cases inText
      | labelledData _ labelled' entered admits denoted' fits =>
          rw [inData, Scan.symbol_data] at entered
          cases entered
          exact ⟨_, _, _, labelled', admits, denoted', fits, rfl⟩

include textShape inText in
theorem LineShape.scanStep_text {scan scan' : Scan}
    (step : ScanStep build scan text.segment text.line scan') :
    ∃ count, leadingLabel text.line = none ∧
      lineCount build scan.ctx text.line scan.textOffset = .ok count ∧
      scan' = scan.advanceText count := by
  have plain : leadingLabel text.line = none := by
    cases textShape with
    | text _ plain => exact plain
    | data inData =>
        rw [inData] at inText
        cases inText
  cases step with
  | text _ _ counted => exact ⟨_, plain, counted, rfl⟩
  | label labelled => exact absurd (plain.symm.trans labelled) (by simp)
  | labelledText _ labelled => exact absurd (plain.symm.trans labelled) (by simp)
  | labelledData _ labelled => exact absurd (plain.symm.trans labelled) (by simp)

include isData isText' inData dataShape inText textShape notLa

theorem scan_commutes :
    Loop.Commutes .ok (contentStep (scanLine build))
      (fun scan : Scan => scan.dataOffset.toNat ≤ dataSize) data text := by
  intro scan middle final bounded first second
  have dataStep := (scanLine_ok_iff isData bounded).mp first
  have textStep := (scanLine_ok_iff isText' (dataStep.bounded bounded)).mp second
  obtain ⟨name, rest, bytes, labelled, admits, denoted, fits, rfl⟩ :=
    dataShape.scanStep_data inData dataStep
  obtain ⟨count, plain, counted, rfl⟩ := textShape.scanStep_text inText textStep
  rw [lineCount_congr build notLa _ scan.ctx _ scan.textOffset] at counted
  refine ⟨scan.advanceText count,
    (scanLine_ok_iff isText' bounded).mpr (.text inText plain counted), ?_⟩
  have entered : (scan.advanceText count).symbol data.segment name =
      some (scan.dataSymbol name) := by
    rw [inData]
    exact Scan.symbol_data (scan.advanceText count) name
  exact (scanLine_ok_iff isData (by exact bounded)).mpr
    (.labelledData inData labelled entered admits denoted fits)

omit dataShape textShape in
theorem emit_commutes :
    Loop.Commutes .ok (contentStep (processAssemblyLine build)) Output.Bounded data text := by
  intro out middle final bounded first second
  have dataStep := (processAssemblyLine_ok_iff isData bounded).mp first
  have textStep := (processAssemblyLine_ok_iff isText' (dataStep.bounded bounded)).mp second
  cases dataStep with
  | text inText' =>
      rw [inData] at inText'
      cases inText'
  | bss inBss =>
      rw [inData] at inBss
      exact absurd inBss (by decide)
  | data _ denoted fits =>
      cases textStep with
      | data inData' =>
          rw [inData'] at inText
          cases inText
      | bss inBss =>
          rw [inBss] at inText
          cases inText
      | @text words _ encoded room =>
          rw [lineWords_congr build notLa _ out.ctx _ out.textOffset] at encoded
          have textFirst : EmitStep build out text.segment text.line (out.appendWords words) :=
            .text inText encoded room
          exact ⟨_, (processAssemblyLine_ok_iff isText' bounded).mpr textFirst,
            (processAssemblyLine_ok_iff isData (textFirst.bounded bounded)).mpr
              (.data inData denoted fits)⟩

end Commute

/-! ### The other order -/

def UsesLa (buffers : List CString) : Prop :=
  ∃ content ∈ contents [] buffers, IsLa content.line

section Swap

variable {build : Build} {baseVaddr : Word} {dataText textText : List Char}
  (dataBlock : IsBlock "data".toList (fgetsLines lineBufLen dataText))
  (textBlock : IsBlock "text".toList (fgetsLines lineBufLen textText))
  (ended : dataText.getLast? = some '\n')

include textBlock ended in
theorem sourceContents_blocks :
    sourceContents (dataText ++ textText) =
      contents [] (fgetsLines lineBufLen dataText) ++
        contents [] (fgetsLines lineBufLen textText) := by
  rw [sourceContents, fgetsLines_append (by decide) (Or.inr ended), contents_append,
    textBlock.contents_eq]

include dataBlock in
theorem sourceContents_swapped :
    sourceContents (terminated textText ++ dataText) =
      contents [] (fgetsLines lineBufLen textText) ++
        contents [] (fgetsLines lineBufLen dataText) := by
  rw [sourceContents, fgetsLines_append (by decide) (Or.inr (terminated_ended textText)),
    contents_append, contents_terminated, dataBlock.contents_eq]

include dataBlock textBlock ended

theorem swapped_accepted {ctx1 ctx2 : AssemblerCtx}
    (accepted : Accepted build baseVaddr (dataText ++ textText) ctx1 ctx2)
    (notLa : ¬ UsesLa (fgetsLines lineBufLen textText)) :
    Accepted build baseVaddr (terminated textText ++ dataText) ctx1 ctx2 := by
  obtain ⟨scan, out, scanned, rfl, emitted, rfl, start⟩ := accepted.runs
  have lines := sourceContents_blocks textBlock ended
  have isContent : ∀ content ∈ sourceContents (dataText ++ textText), IsContentLine content.line :=
    fun _ => sourceContents_isContentLine
  have shapes : ∀ content ∈ sourceContents (dataText ++ textText), LineShape build content :=
    fun _ => accepted.lineShape
  rw [lines] at scanned emitted isContent shapes
  have inData : ∀ content ∈ contents [] (fgetsLines lineBufLen dataText),
      content.segment = "data".toList := fun content member =>
    dataBlock.segment_eq (sourceLines_short dataText) member
      (shapes content (List.mem_append_left _ member))
  have inText : ∀ content ∈ contents [] (fgetsLines lineBufLen textText),
      isText content.segment = true := by
    intro content member
    rw [textBlock.segment_eq (sourceLines_short textText) member
      (shapes content (List.mem_append_right _ member))]
    rfl
  have scanSwapped := Loop.run_exchange
    (fun scan content next member bounded stepped =>
      ((scanLine_ok_iff (isContent content (List.mem_append.mpr member)) bounded).mp
        stepped).bounded bounded)
    (fun a aMember b bMember => scan_commutes (isContent a (List.mem_append_left _ aMember))
      (isContent b (List.mem_append_right _ bMember)) (inData a aMember)
      (shapes a (List.mem_append_left _ aMember)) (inText b bMember)
      (shapes b (List.mem_append_right _ bMember)) (fun la => notLa ⟨b, bMember, la⟩))
    (Nat.zero_le _) scanned
  have emitSwapped := Loop.run_exchange
    (fun out content next member bounded stepped =>
      ((processAssemblyLine_ok_iff (isContent content (List.mem_append.mpr member)) bounded).mp
        stepped).bounded bounded)
    (fun a aMember b bMember => emit_commutes (isContent a (List.mem_append_left _ aMember))
      (isContent b (List.mem_append_right _ bMember)) (inData a aMember) (inText b bMember)
      (fun la => notLa ⟨b, bMember, la⟩))
    start.bounded emitted
  constructor
  · apply scanLabels_ok_iff.mpr
    rw [sourceContents_swapped dataBlock]
    exact ⟨scan, scanSwapped, rfl⟩
  · apply assembleFile_ok_iff.mpr
    rw [sourceContents_swapped dataBlock]
    exact ⟨out, emitSwapped, rfl⟩

omit ended in
/-- In the other order pass 1 has no symbol when it meets an `la`. -/
theorem not_usesLa_of_swapped {ctx1 ctx2 : AssemblerCtx}
    (accepted : Accepted build baseVaddr (terminated textText ++ dataText) ctx1 ctx2) :
    ¬ UsesLa (fgetsLines lineBufLen textText) := by
  rintro ⟨content, member, la⟩
  obtain ⟨scan, out, scanned, rfl, emitted, rfl, start⟩ := accepted.runs
  have lines : sourceContents (terminated textText ++ dataText) =
      contents [] (fgetsLines lineBufLen textText) ++
        contents [] (fgetsLines lineBufLen dataText) := sourceContents_swapped dataBlock
  have isContent : ∀ content ∈ sourceContents (terminated textText ++ dataText),
      IsContentLine content.line := fun _ => sourceContents_isContentLine
  have shapes : ∀ content ∈ sourceContents (terminated textText ++ dataText),
      LineShape build content := fun _ => accepted.lineShape
  obtain ⟨before, after, split⟩ := List.append_of_mem member
  rw [lines, split, List.append_assoc, List.cons_append] at scanned emitted isContent shapes
  obtain ⟨scan', out', scanNext, outNext, reached, -, same, step, -, -⟩ :=
    passStep_of_split isContent rfl scanned emitted start
  -- The lines before it stand in the text segment, so none of them has a label.
  have unlabelled : ∀ other ∈ before, leadingLabel other.line = none := by
    intro other otherMember
    have inBlock : other ∈ contents [] (fgetsLines lineBufLen textText) := by
      rw [split]
      exact List.mem_append_left _ otherMember
    have shape := shapes other (List.mem_append_left _ otherMember)
    have inText := textBlock.segment_eq (sourceLines_short textText) inBlock shape
    cases shape with
    | text _ plain => exact plain
    | data inData =>
        rw [inData] at inText
        exact absurd inText (by decide)
  have noSymbol : ∀ symbol, symbol ∉ scan'.ctx.table.symbols := by
    intro symbol entered
    rcases symbols_of_run (fun other otherMember =>
      isContent other (List.mem_append_left _ otherMember)) (Nat.zero_le _) reached symbol entered
      with none | ⟨left, other, right, middle, name, rest, rfl, -, labelled, -⟩
    · cases none
    · rw [unlabelled other (by simp)] at labelled
      cases labelled
  cases step with
  | text inText counted =>
      obtain ⟨symbol, entered⟩ := lineCount_la la counted
      exact noSymbol symbol entered
  | data inData labelled =>
      have inBlock := textBlock.segment_eq (sourceLines_short textText) member
        (shapes content (by simp))
      rw [inData] at inBlock
      exact absurd inBlock (by decide)

/-- The file with its blocks in the other order is accepted with the same bytes
and symbols exactly when its text block has no `la` line. -/
theorem swapped_accepted_iff {ctx1 ctx2 : AssemblerCtx}
    (accepted : Accepted build baseVaddr (dataText ++ textText) ctx1 ctx2) :
    (∃ ctx1' ctx2', Accepted build baseVaddr (terminated textText ++ dataText) ctx1' ctx2' ∧
        ctx2'.textSegment.bytes = ctx2.textSegment.bytes ∧
        ctx2'.dataSegment.bytes = ctx2.dataSegment.bytes ∧
        ctx1'.table = ctx1.table) ↔
      ¬ UsesLa (fgetsLines lineBufLen textText) := by
  constructor
  · rintro ⟨ctx1', ctx2', swapped, -⟩
    exact not_usesLa_of_swapped dataBlock textBlock swapped
  · intro notLa
    exact ⟨ctx1, ctx2, swapped_accepted dataBlock textBlock ended accepted notLa, rfl, rfl, rfl⟩

end Swap

theorem isBlock_pair {name first second line : CString} (opens : turnOf first = .segment name)
    (content : turnOf second = .content line) : IsBlock name [first, second] := by
  refine ⟨[], first, [second], rfl, by simp, opens, ?_⟩
  intro buffer member other turn
  rw [List.mem_singleton.mp member, content] at turn
  cases turn

def tableText : List Char :=
  ".data\nv: .word 5\n".toList

theorem tableText_isBlock : IsBlock "data".toList (fgetsLines lineBufLen tableText) := by
  have content : turnOf "v: .word 5\n".toList = .content "v: .word 5".toList := by decide +kernel
  exact isBlock_pair (show turnOf ".data\n".toList = _ by decide) content

def loadText : List Char :=
  ".text\nli a0, 5\n".toList

def addressText : List Char :=
  ".text\nla a0, v\n".toList

theorem loadText_isBlock : IsBlock "text".toList (fgetsLines lineBufLen loadText) := by
  have content : turnOf "li a0, 5\n".toList = .content "li a0, 5".toList := by decide +kernel
  exact isBlock_pair (show turnOf ".text\n".toList = _ by decide) content

theorem addressText_isBlock : IsBlock "text".toList (fgetsLines lineBufLen addressText) := by
  have content : turnOf "la a0, v\n".toList = .content "la a0, v".toList := by decide +kernel
  exact isBlock_pair (show turnOf ".text\n".toList = _ by decide) content

theorem loadText_noLa : ¬ UsesLa (fgetsLines lineBufLen loadText) := by
  rintro ⟨content, member, la⟩
  have only : contents [] (fgetsLines lineBufLen loadText) =
      [⟨"text".toList, "li a0, 5".toList⟩] := by decide +kernel
  rw [only, List.mem_singleton] at member
  rw [member] at la
  exact absurd la (by decide)

theorem swapped_accepted_li :
    ∃ ctx1 ctx2, Accepted .native 0x80000000 (terminated loadText ++ tableText) ctx1 ctx2 := by
  have accepted := accepted_of_codes
    (show (scanLabels .native (some (tableText ++ loadText)) (initCtx 0x80000000)).1 = .ok by
      decide +kernel) (by decide +kernel)
  obtain ⟨ctx1, ctx2, swapped, -⟩ := (swapped_accepted_iff tableText_isBlock loadText_isBlock
    (by decide) accepted).mpr loadText_noLa
  exact ⟨ctx1, ctx2, swapped⟩

/-- `la` before the data that it refers to is not accepted. -/
theorem addressText_not_swapped :
    IsBlock "data".toList (fgetsLines lineBufLen tableText) ∧
      IsBlock "text".toList (fgetsLines lineBufLen addressText) ∧
      (∃ ctx1 ctx2, Accepted .native 0x80000000 (tableText ++ addressText) ctx1 ctx2) ∧
      ¬ ∃ ctx1 ctx2, Accepted .native 0x80000000
        (terminated addressText ++ tableText) ctx1 ctx2 := by
  refine ⟨tableText_isBlock, addressText_isBlock, ?_, ?_⟩
  · exact ⟨_, _, accepted_of_codes (by decide +kernel) (by decide +kernel)⟩
  · rintro ⟨ctx1, ctx2, swapped⟩
    have code : (scanLabels .native (some (terminated addressText ++ tableText))
        (initCtx 0x80000000)).1 = .fail .symNotFound := by decide +kernel
    rw [swapped.scanned] at code
    cases code

end RiscvAs
