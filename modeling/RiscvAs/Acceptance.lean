/-
Which files without `la` both passes accept.

Without `la` no line looks at what another line did.  So a file is accepted exactly when each of
its lines can be read, the bytes fit, and the labels are distinct and not too many; the segments
then hold the bytes of the lines in their order.
-/

import RiscvAs.ForwardReferences
import RiscvAs.Outcomes
import RiscvAs.LabelResolution

namespace RiscvAs

open Stdio
open Bytes (Byte)
open Rv32 (Word)

/-- The bytes that a content line adds to the text segment, when it is no `la`. -/
def Content.text (build : Build) (content : Content) : List Byte :=
  if isText content.segment then
    match lineWords build (initCtx 0) content.line 0 with
    | .ok words => words.flatMap wordBytes
    | .error _ => []
  else []

def Content.data (build : Build) (content : Content) : List Byte :=
  if content.segment = "data".toList then (dataLineBytes build (afterLabel content.line)).getD []
  else []

def Content.IsAccepted (build : Build) (content : Content) : Prop :=
  ∃ scan out scan' out', PassStep build scan out content.segment content.line scan' out'

inductive Content.IsRead (build : Build) (content : Content) : Prop where
  | text {words : List Word} (inText : isText content.segment = true)
      (encoded : lineWords build (initCtx 0) content.line 0 = .ok words)
  | data {name rest : CString} {bytes : List Byte} (inData : content.segment = "data".toList)
      (labelled : leadingLabel content.line = some (name, rest))
      (denoted : dataLineBytes build rest = some bytes)

structure Assembles (build : Build) (lines : List Content) (text data : List Byte) : Prop where
  read : ∀ content ∈ lines, content.IsRead build
  textBytes : lines.flatMap (Content.text build) = text
  dataBytes : lines.flatMap (Content.data build) = data
  textFits : text.length ≤ dataSize
  dataFits : data.length ≤ dataSize
  distinct : ((labelNames lines).map storedName).Nodup
  few : (labelNames lines).length ≤ maxSymbols

section Lines

variable {build : Build} {content : Content} {scan scan' : Scan} {out out' : Output}

theorem Content.data_of_text (inText : isText content.segment = true) :
    content.data build = [] := by
  rw [Content.data, if_neg]
  intro inData
  rw [inData] at inText
  cases inText

theorem Content.data_of_denoted {name rest : CString} {bytes : List Byte}
    (inData : content.segment = "data".toList)
    (labelled : leadingLabel content.line = some (name, rest))
    (denoted : dataLineBytes build rest = some bytes) : content.data build = bytes := by
  simp only [Content.data, if_pos inData, afterLabel, labelled, denoted, Option.getD_some]

theorem Content.text_of_encoded {words : List Word} (inText : isText content.segment = true)
    (encoded : lineWords build (initCtx 0) content.line 0 = .ok words) :
    content.text build = words.flatMap wordBytes := by
  simp only [Content.text, if_pos inText, encoded]

theorem Content.text_of_data (inData : content.segment = "data".toList) :
    content.text build = [] := by
  rw [Content.text, inData, if_neg (by decide)]

theorem PassStep.dataBytes
    (step : PassStep build scan out content.segment content.line scan' out') :
    out'.dataBytes = out.dataBytes ++ content.data build := by
  cases step with
  | text inText counted encoded fits =>
      rw [Content.data_of_text inText, List.append_nil, Output.appendWords_dataBytes]
  | data inData labelled admits denoted fits =>
      rw [Content.data_of_denoted inData labelled denoted, Output.appendData_dataBytes]

theorem PassStep.textBytes
    (step : PassStep build scan out content.segment content.line scan' out')
    (notLa : ¬ IsLa content.line) : out'.textBytes = out.textBytes ++ content.text build := by
  cases step with
  | text inText counted encoded fits =>
      rw [lineWords_congr build notLa out.ctx (initCtx 0) out.textOffset 0] at encoded
      rw [Content.text_of_encoded inText encoded, Output.appendWords_textBytes]
  | data inData labelled admits denoted fits =>
      rw [Content.text_of_data inData, List.append_nil, Output.appendData_textBytes]

theorem Content.IsAccepted.isRead (accepted : content.IsAccepted build)
    (notLa : ¬ IsLa content.line) : content.IsRead build := by
  obtain ⟨scan, out, scan', out', step⟩ := accepted
  cases step with
  | text inText counted encoded fits =>
      rw [lineWords_congr build notLa out.ctx (initCtx 0) out.textOffset 0] at encoded
      exact .text inText encoded
  | data inData labelled admits denoted fits => exact .data inData labelled denoted

theorem PassStep.scanStep {segment line : CString}
    (step : PassStep build scan out segment line scan' out') (same : InStep scan out) :
    ScanStep build scan segment line scan' := by
  cases step with
  | text inText counted encoded fits =>
      obtain ⟨instr, instruction⟩ := lineInstruction_of_lineWords encoded
      exact .text inText (leadingLabel_of_instruction instruction) counted
  | @data name rest bytes inData labelled admits denoted fits =>
      have entered : scan.symbol segment name = some (scan.dataSymbol name) := by
        rw [inData]
        exact scan.symbol_data name
      rw [← same.data] at fits
      exact .labelledData inData labelled entered admits denoted fits

theorem lineCount_of_lineWords {ctx ctx' : AssemblerCtx} {line : CString} {textOffset : Nat}
    {offset : Word} {words : List Word} (notLa : ¬ IsLa line)
    (encoded : lineWords build ctx line textOffset = .ok words) :
    lineCount build ctx' line offset = .ok words.length := by
  rw [lineCount_congr build notLa ctx' ctx offset (BitVec.ofNat 32 textOffset)]
  obtain ⟨instr, instruction⟩ := lineInstruction_of_lineWords encoded
  refine bind_eq_ok_iff.mpr ⟨instr, instruction, ?_⟩
  by_cases pseudo : instr.type = .P
  · rw [lineWords_of_pseudo instruction pseudo] at encoded
    obtain ⟨expansion, expanded, printed⟩ := bind_eq_ok_iff.mp encoded
    rw [if_pos pseudo]
    refine bind_eq_ok_iff.mpr ⟨expansion, expanded, ?_⟩
    rw [mapM_length printed]
    rfl
  · rw [lineWords_of_real instruction pseudo] at encoded
    rw [if_neg pseudo]
    obtain ⟨w, -, rfl⟩ := map_eq_ok_iff.mp encoded
    rfl

end Lines

section Runs

variable {build : Build} {lines : List Content} {scan scan' : Scan} {out out' : Output}
  (isContent : ∀ content ∈ lines, IsContentLine content.line)

include isContent

theorem bytes_of_runs (bytes : Output → List Byte) (added : Content → List Byte)
    (adds : ∀ content ∈ lines, ∀ scan out scan' out',
      PassStep build scan out content.segment content.line scan' out' →
        bytes out' = bytes out ++ added content)
    (scanned : scanContents build scan lines = (.ok, scan'))
    (emitted : emitContents build out lines = (.ok, out')) (same : InStep scan out) :
    bytes out' = bytes out ++ lines.flatMap added := by
  induction lines generalizing scan out with
  | nil =>
      obtain rfl := (Prod.mk.inj emitted).2
      exact (List.append_nil _).symm
  | cons content lines ih =>
      obtain ⟨scanNext, outNext, step, sameNext, scanRest, emitRest⟩ :=
        passStep_of_cons (isContent content (List.mem_cons_self ..)) scanned emitted same
      have first := adds content (List.mem_cons_self ..) _ _ _ _ step
      have rest := ih (fun other member => isContent other (List.mem_cons_of_mem content member))
        (fun other member => adds other (List.mem_cons_of_mem content member))
        scanRest emitRest sameNext
      rw [rest, first, List.flatMap_cons, List.append_assoc]

theorem isAccepted_of_runs (scanned : scanContents build scan lines = (.ok, scan'))
    (emitted : emitContents build out lines = (.ok, out')) (same : InStep scan out) :
    ∀ content ∈ lines, content.IsAccepted build := by
  intro content member
  obtain ⟨before, after, split⟩ := List.append_of_mem member
  obtain ⟨scanMiddle, outMiddle, scanNext, outNext, -, -, -, step, -, -⟩ :=
    passStep_of_split isContent split scanned emitted same
  exact ⟨scanMiddle, outMiddle, scanNext, outNext, step⟩

theorem dataBytes_of_runs (scanned : scanContents build scan lines = (.ok, scan'))
    (emitted : emitContents build out lines = (.ok, out')) (same : InStep scan out) :
    out'.dataBytes = out.dataBytes ++ lines.flatMap (Content.data build) :=
  bytes_of_runs isContent Output.dataBytes (Content.data build)
    (fun _ _ _ _ _ _ step => step.dataBytes) scanned emitted same

theorem textBytes_of_runs (notLa : ∀ content ∈ lines, ¬ IsLa content.line)
    (scanned : scanContents build scan lines = (.ok, scan'))
    (emitted : emitContents build out lines = (.ok, out')) (same : InStep scan out) :
    out'.textBytes = out.textBytes ++ lines.flatMap (Content.text build) :=
  bytes_of_runs isContent Output.textBytes (Content.text build)
    (fun content member _ _ _ _ step => step.textBytes (notLa content member)) scanned emitted same

theorem count_of_run (ran : scanContents build scan lines = (.ok, scan'))
    (bounded : scan.dataOffset.toNat ≤ dataSize) (few : scan.ctx.table.count ≤ maxSymbols) :
    scan'.ctx.table.count ≤ maxSymbols := by
  refine (scanContents_invariant (fun current : Scan => current.ctx.table.count ≤ maxSymbols)
    isContent ?_ ran bounded few).2
  intro current next content member few step
  rcases step.table with kept | ⟨name, rest, symbol, -, -, admits, pushed⟩
  · rw [kept]
    exact few
  · have room := admits.1
    rw [pushed, Symtable.push, Symtable.count, List.length_append, List.length_singleton]
    exact room

end Runs

/-! ### Files whose lines can be read -/

section Read

variable {build : Build} {lines : List Content}
  (isContent : ∀ content ∈ lines, IsContentLine content.line)
  (notLa : ∀ content ∈ lines, ¬ IsLa content.line) (read : ∀ content ∈ lines, content.IsRead build)

include isContent notLa read

omit isContent notLa read in
theorem Scan.admits_of_nodup {scan : Scan} {name : CString}
    (distinct : (scan.names ++ [storedName name]).Nodup) (room : scan.names.length < maxSymbols) :
    scan.ctx.table.Admits (scan.dataSymbol name).name := by
  have count : scan.ctx.table.count = scan.names.length := (List.length_map Symbol.name).symm
  refine ⟨count ▸ room, ?_⟩
  intro symbol member same
  have old : symbol.name ∈ scan.names := List.mem_map_of_mem member
  exact (List.nodup_append.mp distinct).2.2 symbol.name old (storedName name)
    (List.mem_singleton_self _) same

theorem scanContents_of_read {scan : Scan}
    (dataFits : scan.dataOffset.toNat + (lines.flatMap (Content.data build)).length ≤ dataSize)
    (distinct : (scan.names ++ (labelNames lines).map storedName).Nodup)
    (few : scan.names.length + (labelNames lines).length ≤ maxSymbols) :
    ∃ scan', scanContents build scan lines = (.ok, scan') := by
  induction lines generalizing scan with
  | nil => exact ⟨scan, rfl⟩
  | cons content lines ih =>
      have line := isContent content (List.mem_cons_self ..)
      have notLaFirst := notLa content (List.mem_cons_self ..)
      have rest := @ih (fun other member => isContent other (List.mem_cons_of_mem content member))
        (fun other member => notLa other (List.mem_cons_of_mem content member))
        (fun other member => read other (List.mem_cons_of_mem content member))
      have bounded : scan.dataOffset.toNat ≤ dataSize := by omega
      rw [List.flatMap_cons, List.length_append] at dataFits
      rw [labelNames_cons, List.map_append] at distinct
      rw [labelNames_cons, List.length_append] at few
      cases read content (List.mem_cons_self ..) with
      | @text words inText encoded =>
          obtain ⟨instr, instruction⟩ := lineInstruction_of_lineWords encoded
          have plain := leadingLabel_of_instruction instruction
          rw [labelNames_of_plain plain, List.map_nil, List.nil_append] at distinct
          rw [labelNames_of_plain plain, List.length_nil, Nat.zero_add] at few
          rw [Content.data_of_text inText, List.length_nil, Nat.zero_add] at dataFits
          obtain ⟨scan', ran⟩ := @rest (scan.advanceText words.length) dataFits distinct few
          have step : ScanStep build scan content.segment content.line
              (scan.advanceText words.length) :=
            .text inText plain (lineCount_of_lineWords notLaFirst encoded)
          exact ⟨scan', (scanContents_cons_iff line bounded).mpr ⟨_, step, ran⟩⟩
      | @data name after bytes inData labelled denoted =>
          rw [labelNames_of_labelled labelled, List.map_singleton, ← List.append_assoc] at distinct
          rw [labelNames_of_labelled labelled, List.length_singleton] at few
          rw [Content.data_of_denoted inData labelled denoted] at dataFits
          have fits : scan.dataOffset.toNat + bytes.length ≤ dataSize := by omega
          have entered : scan.symbol content.segment name = some (scan.dataSymbol name) := by
            rw [inData]
            exact scan.symbol_data name
          have admits : scan.ctx.table.Admits (scan.dataSymbol name).name :=
            Scan.admits_of_nodup (List.nodup_append.mp distinct).1 (by omega)
          have offset : ((scan.enter (scan.dataSymbol name)).advanceData bytes).dataOffset.toNat =
              scan.dataOffset.toNat + bytes.length := Scan.advanceData_dataOffset fits
          have names : ((scan.enter (scan.dataSymbol name)).advanceData bytes).names =
              scan.names ++ [storedName name] := scan.names_enter (scan.dataSymbol name)
          obtain ⟨scan', ran⟩ := @rest ((scan.enter (scan.dataSymbol name)).advanceData bytes)
            (by rw [offset]; omega) (by rw [names]; exact distinct)
            (by rw [names, List.length_append, List.length_singleton]; omega)
          have step : ScanStep build scan content.segment content.line
              ((scan.enter (scan.dataSymbol name)).advanceData bytes) :=
            .labelledData inData labelled entered admits denoted fits
          exact ⟨scan', (scanContents_cons_iff line bounded).mpr ⟨_, step, ran⟩⟩

theorem emitContents_of_read {out : Output} (bounded : out.Bounded)
    (textFits : out.textOffset + (lines.flatMap (Content.text build)).length ≤ dataSize)
    (dataFits : out.dataOffset + (lines.flatMap (Content.data build)).length ≤ dataSize) :
    ∃ out', emitContents build out lines = (.ok, out') := by
  induction lines generalizing out with
  | nil => exact ⟨out, rfl⟩
  | cons content lines ih =>
      have line := isContent content (List.mem_cons_self ..)
      have notLaFirst := notLa content (List.mem_cons_self ..)
      have rest := @ih (fun other member => isContent other (List.mem_cons_of_mem content member))
        (fun other member => notLa other (List.mem_cons_of_mem content member))
        (fun other member => read other (List.mem_cons_of_mem content member))
      rw [List.flatMap_cons, List.length_append] at textFits dataFits
      cases read content (List.mem_cons_self ..) with
      | @text words inText encoded =>
          rw [Content.text_of_encoded inText encoded, wordsBytes_length] at textFits
          rw [Content.data_of_text inText, List.length_nil, Nat.zero_add] at dataFits
          rw [lineWords_congr build notLaFirst (initCtx 0) out.ctx 0 out.textOffset] at encoded
          have step : EmitStep build out content.segment content.line (out.appendWords words) :=
            .text inText encoded (by omega)
          obtain ⟨out', ran⟩ := rest (step.bounded bounded)
            (by simp only [Output.appendWords]; omega) dataFits
          exact ⟨out', (emitContents_cons_iff line bounded).mpr ⟨_, step, ran⟩⟩
      | @data name after bytes inData labelled denoted =>
          rw [Content.text_of_data inData, List.length_nil, Nat.zero_add] at textFits
          rw [Content.data_of_denoted inData labelled denoted] at dataFits
          have afterName : dataLineBytes build (afterLabel content.line) = some bytes := by
            simp only [afterLabel, labelled]
            exact denoted
          have step : EmitStep build out content.segment content.line (out.appendData bytes) :=
            .data inData afterName (by omega)
          obtain ⟨out', ran⟩ := rest (step.bounded bounded) textFits
            (by simp only [Output.appendData]; omega)
          exact ⟨out', (emitContents_cons_iff line bounded).mpr ⟨_, step, ran⟩⟩

end Read

/-- Without `la`, an accepted file is one whose lines assemble. -/
theorem accepted_iff_assembles {build : Build} {baseVaddr : Word} {source : List Char}
    (notLa : ∀ content ∈ sourceContents source, ¬ IsLa content.line) (text data : List Byte) :
    (∃ ctx1 ctx2, Accepted build baseVaddr source ctx1 ctx2 ∧ ctx2.textSegment.bytes = text ∧
      ctx2.dataSegment.bytes = data) ↔ Assembles build (sourceContents source) text data := by
  have isContent : ∀ content ∈ sourceContents source, IsContentLine content.line :=
    fun _ => sourceContents_isContentLine
  constructor
  · rintro ⟨ctx1, ctx2, accepted, rfl, rfl⟩
    obtain ⟨scan, out, scanned, rfl, emitted, rfl, start⟩ := accepted.runs
    have bounded := (inStep_of_runs isContent scanned emitted start).bounded
    have names := names_of_run isContent (Nat.zero_le _) scanned
    have stored : scan.names = (labelNames (sourceContents source)).map storedName := names
    have textBytes := textBytes_of_runs isContent notLa scanned emitted start
    have dataBytes := dataBytes_of_runs isContent scanned emitted start
    refine ⟨fun content member => (isAccepted_of_runs isContent scanned emitted start content
        member).isRead (notLa content member), textBytes.symm, dataBytes.symm, ?_, ?_, ?_, ?_⟩
    · exact Output.textBytes_length out ▸ bounded.text
    · exact Output.dataBytes_length out ▸ bounded.data
    · rw [← stored]
      exact table_nodup isContent (Nat.zero_le _) scanned List.nodup_nil
    · have count := count_of_run isContent scanned (Nat.zero_le _) (Nat.zero_le _)
      have length := congrArg List.length stored
      rw [Scan.names, List.length_map, List.length_map] at length
      rw [← length]
      exact count
  · intro assembles
    have textFits := assembles.textFits
    have dataFits := assembles.dataFits
    have few := assembles.few
    rw [← assembles.textBytes] at textFits
    rw [← assembles.dataBytes] at dataFits
    obtain ⟨scan, scanned⟩ : ∃ scan, scanContents build (.start (initCtx baseVaddr))
        (sourceContents source) = (.ok, scan) :=
      scanContents_of_read isContent notLa assembles.read ((Nat.zero_add _).trans_le dataFits)
        assembles.distinct ((Nat.zero_add _).trans_le few)
    have first := scanLabels_ok_iff.mpr ⟨scan, scanned, rfl⟩
    have start : InStep (.start (initCtx baseVaddr)) (.start scan.finish) :=
      inStep_start (bounded_of_scanLabels first)
    obtain ⟨out, emitted⟩ := emitContents_of_read isContent notLa assembles.read start.bounded
      ((Nat.zero_add _).trans_le textFits) ((Nat.zero_add _).trans_le dataFits)
    have second := assembleFile_ok_iff.mpr ⟨out, emitted, rfl⟩
    refine ⟨scan.finish, out.finish, ⟨first, second⟩, ?_, ?_⟩
    · rw [← assembles.textBytes]
      exact textBytes_of_runs isContent notLa scanned emitted start
    · rw [← assembles.dataBytes]
      exact dataBytes_of_runs isContent scanned emitted start

end RiscvAs
