/-
Two files with the same text lines and the same data lines.

A data line can always be taken before a text line: text lines read of the data
only the symbols, which a later line would find too.  So both passes over an
accepted file end as if all its data lines stood in front, and how the segments
are interleaved does not show.
-/

import RiscvAs.ForwardReferences
import RiscvAs.Outcomes

namespace RiscvAs

open Stdio
open Bytes (Byte)
open Rv32 (Word)

theorem expandWith_ok {name : String} {instr : Instruction}
    (found : findInstruction name.toList = some instr) {expansion : PseudoExpansion}
    (room : expansion.count < 2) (text : CString) :
    ∃ expansion', expandWith expansion name text = .ok expansion' := by
  unfold expandWith pseudoExpansionAdd
  rw [found]
  simp only [if_neg (Nat.not_le.mpr room)]
  exact ⟨_, rfl⟩

theorem expandLaInstr_ok (rd : CString) (symbolAddr currentPc : Int) :
    ∃ expansion, expandLaInstr rd symbolAddr currentPc .reset = .ok expansion := by
  obtain ⟨auipc, foundAuipc⟩ : ∃ instr, findInstruction "auipc".toList = some instr := ⟨_, rfl⟩
  obtain ⟨addi, foundAddi⟩ : ∃ instr, findInstruction "addi".toList = some instr := ⟨_, rfl⟩
  obtain ⟨upper, expanded⟩ := expandWith_ok foundAuipc
    (show PseudoExpansion.reset.count < 2 by decide) ("auipc ".toList ++ rd ++ ", ".toList ++
      printInt (highPart (BitVec.ofInt 32 (symbolAddr - currentPc))).toInt)
  have count := expandWith_count expanded
  obtain ⟨expansion, added⟩ := expandWith_ok foundAddi
    (show upper.count < 2 by rw [count]; decide) ("addi ".toList ++ rd ++ ", ".toList ++ rd ++
      ", ".toList ++ printInt (lowPart (BitVec.ofInt 32 (symbolAddr - currentPc))).toInt)
  exact ⟨expansion, bind_eq_ok_iff.mpr ⟨upper, expanded, added⟩⟩

def Symtable.Within (table table' : Symtable) : Prop :=
  ∀ name offset, symtableLookup table name = some offset →
    ∃ offset', symtableLookup table' name = some offset'

theorem Symtable.within_push (table : Symtable) (symbol : Symbol) :
    table.Within (table.push symbol) := by
  intro name offset looked
  obtain ⟨found, entry, rfl⟩ := Option.map_eq_some_iff.mp looked
  refine ⟨found.offset, ?_⟩
  rw [symtableLookup, Symtable.push, List.find?_append, entry]
  rfl

theorem lineCount_within {build : Build} {ctx ctx' : AssemblerCtx} {line : CString}
    {textOffset : Word} {count : Nat} (within : ctx.table.Within ctx'.table)
    (counted : lineCount build ctx line textOffset = .ok count) (textOffset' : Word) :
    lineCount build ctx' line textOffset' = .ok count := by
  by_cases la : IsLa line
  · obtain ⟨instr, found, pseudo, name⟩ : ∃ instr, findInstruction "la".toList = some instr ∧
        instr.type = .P ∧ instr.name = "la" := ⟨_, rfl, rfl, rfl⟩
    have instruction := lineInstruction_of_mnemonicOf (la ▸ found)
    have notLi : instr.name ≠ "li" := by
      rw [name]
      decide
    simp only [lineCount, instruction, ok_bind, if_pos pseudo] at counted ⊢
    simp only [expandPseudoInstr, if_neg notLi, if_pos name] at counted ⊢
    obtain ⟨expansion, expanded, same⟩ := bind_eq_ok_iff.mp counted
    have two := expandLa_count expanded
    unfold expandLa at expanded ⊢
    split at expanded
    · rename_i rd symbolName scanned
      split at expanded
      · cases expanded
      · rename_i offset looked
        obtain ⟨offset', looked'⟩ := within symbolName offset looked
        obtain ⟨expansion', expanded'⟩ := expandLaInstr_ok rd
          (getDataVaddr ctx' ctx'.baseVaddr + offset').toNat
          (getTextVaddr ctx'.baseVaddr + textOffset').toInt
        have two' := expandLaInstr_count expanded'
        simp only [looked', expanded', ok_bind, two', ← same, two]
    · cases expanded
  · rw [lineCount_congr build la ctx' ctx textOffset' textOffset]
    exact counted

section Commute

variable {build : Build} {text data : Content} (isText' : IsContentLine text.line)
  (isData : IsContentLine data.line) (inText : isText text.segment = true)
  (textShape : LineShape build text) (inData : data.segment = "data".toList)
  (dataShape : LineShape build data)

include isText' isData inText textShape inData dataShape

theorem scan_textAfterData :
    Loop.Commutes .ok (contentStep (scanLine build))
      (fun scan : Scan => scan.dataOffset.toNat ≤ dataSize) text data := by
  intro scan middle final bounded first second
  have textStep := (scanLine_ok_iff isText' bounded).mp first
  have dataStep := (scanLine_ok_iff isData (textStep.bounded bounded)).mp second
  obtain ⟨count, plain, counted, rfl⟩ := textShape.scanStep_text inText textStep
  obtain ⟨name, rest, bytes, labelled, admits, denoted, fits, rfl⟩ :=
    dataShape.scanStep_data inData dataStep
  have entered : scan.symbol data.segment name = some (scan.dataSymbol name) := by
    rw [inData]
    exact Scan.symbol_data scan name
  have dataFirst : ScanStep build scan data.segment data.line
      ((scan.enter (scan.dataSymbol name)).advanceData bytes) :=
    .labelledData inData labelled entered admits denoted fits
  have counted' : lineCount build (scan.enter (scan.dataSymbol name)).ctx text.line
      scan.textOffset = .ok count :=
    lineCount_within (scan.ctx.table.within_push (scan.dataSymbol name)) counted _
  exact ⟨_, (scanLine_ok_iff isData bounded).mpr dataFirst,
    (scanLine_ok_iff isText' (dataFirst.bounded bounded)).mpr (.text inText plain counted')⟩

omit textShape dataShape in
theorem emit_textAfterData :
    Loop.Commutes .ok (contentStep (processAssemblyLine build)) Output.Bounded text data := by
  intro out middle final bounded first second
  have textStep := (processAssemblyLine_ok_iff isText' bounded).mp first
  have dataStep := (processAssemblyLine_ok_iff isData (textStep.bounded bounded)).mp second
  cases textStep with
  | data inData' =>
      rw [inData'] at inText
      cases inText
  | bss inBss =>
      rw [inBss] at inText
      cases inText
  | @text words _ encoded room =>
      cases dataStep with
      | text inText' =>
          rw [inData] at inText'
          cases inText'
      | bss inBss =>
          rw [inData] at inBss
          exact absurd inBss (by decide)
      | @data bytes _ denoted fits =>
          have dataFirst : EmitStep build out data.segment data.line (out.appendData bytes) :=
            .data inData denoted fits
          have encoded' : lineWords build (out.appendData bytes).ctx text.line
              (out.appendData bytes).textOffset = .ok words := encoded
          exact ⟨_, (processAssemblyLine_ok_iff isData bounded).mpr dataFirst,
            (processAssemblyLine_ok_iff isText' (dataFirst.bounded bounded)).mpr
              (.text inText encoded' room)⟩

end Commute

/-! ### Data lines in front -/

def isDataLine (content : Content) : Bool :=
  content.segment = "data".toList

def textLines (source : List Char) : List CString :=
  ((sourceContents source).filter (fun content => isText content.segment)).map Content.line

def dataLines (source : List Char) : List CString :=
  ((sourceContents source).filter isDataLine).map Content.line

def partedContents (source : List Char) : List Content :=
  (dataLines source).map (Content.mk "data".toList) ++
    (textLines source).map (Content.mk "text".toList)

def Content.parted (content : Content) : Content :=
  if isText content.segment then ⟨"text".toList, content.line⟩ else content

/-- Both names of the text segment are treated alike. -/
theorem process_parted (content : Content) :
    (∀ build scan, scanLine build content.parted.segment scan content.line =
        scanLine build content.segment scan content.line) ∧
      ∀ build out, processAssemblyLine build content.parted.segment out content.line =
        processAssemblyLine build content.segment out content.line := by
  unfold Content.parted
  split
  · rename_i inText
    have named : isText "text".toList = true := by decide
    refine ⟨fun build scan => ?_, fun build out => ?_⟩
    · simp only [scanLine, scanLabel, scanBody, inText, named, if_true]
    · simp only [processAssemblyLine, inText, named, if_true]
  · exact ⟨fun _ _ => rfl, fun _ _ => rfl⟩

theorem Content.parted_line (content : Content) : content.parted.line = content.line := by
  unfold Content.parted
  split <;> rfl

section Parted

variable {build : Build} {baseVaddr : Word} {source : List Char} {ctx1 ctx2 : AssemblerCtx}
  (accepted : Accepted build baseVaddr source ctx1 ctx2)

include accepted

theorem Accepted.notDataLine_isText {content : Content} (member : content ∈ sourceContents source) :
    (!isDataLine content) = isText content.segment := by
  rcases (accepted.lineShape member).segment with inText | inData
  · have notData : content.segment ≠ "data".toList := by
      intro inData
      rw [inData] at inText
      cases inText
    rw [isDataLine, decide_eq_false notData, inText]
    rfl
  · rw [isDataLine, inData]
    decide

theorem Accepted.partedContents_eq :
    ((sourceContents source).filter isDataLine ++
        (sourceContents source).filter (fun content => !isDataLine content)).map Content.parted =
      partedContents source := by
  have others : (sourceContents source).filter (fun content => !isDataLine content) =
      (sourceContents source).filter (fun content => isText content.segment) :=
    List.filter_congr (fun content member => accepted.notDataLine_isText member)
  rw [List.map_append, others, partedContents, dataLines, textLines, List.map_map, List.map_map]
  congr 1
  · apply List.map_congr_left
    intro content member
    have inData : content.segment = "data".toList := by
      simpa [isDataLine] using (List.mem_filter.mp member).2
    rw [Content.parted, inData, not_isText_data, if_neg (by decide), ← inData]
    rfl
  · apply List.map_congr_left
    intro content member
    rw [Content.parted, if_pos (List.mem_filter.mp member).2]
    rfl

theorem Accepted.parted_runs :
    ∃ scan out, scanContents build (.start (initCtx baseVaddr)) (partedContents source) =
        (.ok, scan) ∧ ctx1 = scan.finish ∧
      emitContents build (.start ctx1) (partedContents source) = (.ok, out) ∧
      ctx2 = out.finish := by
  obtain ⟨scan, out, scanned, ctx1Eq, emitted, ctx2Eq, start⟩ := accepted.runs
  have isContent : ∀ content ∈ sourceContents source, IsContentLine content.line :=
    fun _ => sourceContents_isContentLine
  have shapes : ∀ text ∈ sourceContents source, isDataLine text = false →
      isText text.segment = true := by
    intro text member notData
    rw [← accepted.notDataLine_isText member, notData]
    rfl
  have dataSegment : ∀ data, isDataLine data = true → data.segment = "data".toList := by
    intro data inData
    simpa [isDataLine] using inData
  refine ⟨scan, out, ?_, ctx1Eq, ?_, ctx2Eq⟩
  · rw [← accepted.partedContents_eq, scanContents, Loop.run_map_inputs]
    · refine Loop.run_partition (fun scan => scan.dataOffset.toNat ≤ dataSize) isDataLine ?_ ?_
        (Nat.zero_le _) scanned
      · intro current content next member bounded stepped
        exact ((scanLine_ok_iff (isContent content member) bounded).mp stepped).bounded bounded
      · intro text member notData data member' inData
        exact scan_textAfterData (isContent text member) (isContent data member')
          (shapes text member notData) (accepted.lineShape member) (dataSegment data inData)
          (accepted.lineShape member')
    · intro content _ current
      rw [contentStep, Content.parted_line]
      exact (process_parted content).1 build current
  · rw [← accepted.partedContents_eq, emitContents, Loop.run_map_inputs]
    · refine Loop.run_partition Output.Bounded isDataLine ?_ ?_ start.bounded emitted
      · intro current content next member bounded stepped
        exact ((processAssemblyLine_ok_iff (isContent content member) bounded).mp stepped).bounded
          bounded
      · intro text member notData data member' inData
        exact emit_textAfterData (isContent text member) (isContent data member')
          (shapes text member notData) (dataSegment data inData)
    · intro content _ current
      rw [contentStep, Content.parted_line]
      exact (process_parted content).2 build current

end Parted

/-- Accepted files with the same text lines and the same data lines give the same
bytes, the same symbols and the same ELF file. -/
theorem interleaving_irrelevant {build : Build} {baseVaddr : Word} {source source' : List Char}
    {ctx1 ctx2 ctx1' ctx2' : AssemblerCtx}
    (accepted : Accepted build baseVaddr source ctx1 ctx2)
    (accepted' : Accepted build baseVaddr source' ctx1' ctx2')
    (text : textLines source = textLines source') (data : dataLines source = dataLines source') :
    ctx2.textSegment.bytes = ctx2'.textSegment.bytes ∧
      ctx2.dataSegment.bytes = ctx2'.dataSegment.bytes ∧ ctx1.table = ctx1'.table ∧
      ctx2.table = ctx2'.table ∧ ∀ base, writer32 ctx2 base = writer32 ctx2' base := by
  have parted : partedContents source = partedContents source' := by
    rw [partedContents, partedContents, text, data]
  obtain ⟨scan, out, scanned, rfl, emitted, rfl⟩ := accepted.parted_runs
  obtain ⟨scan', out', scanned', rfl, emitted', rfl⟩ := accepted'.parted_runs
  rw [← parted, scanned] at scanned'
  obtain rfl := (Prod.mk.inj scanned').2
  rw [← parted, emitted] at emitted'
  obtain rfl := (Prod.mk.inj emitted').2
  exact ⟨rfl, rfl, rfl, rfl, fun _ => rfl⟩

theorem interleaving_irrelevant_example :
    (outcome .native 0x80000000 ".data\nv: .word 5\n.text\nnop\nla a0, v\n".toList).text =
      (outcome .native 0x80000000
        ".text\nnop\n.data\nv: .word 5\n.text\nla a0, v\n".toList).text := by
  have accepted := accepted_of_codes (show (scanLabels .native
    (some ".data\nv: .word 5\n.text\nnop\nla a0, v\n".toList) (initCtx 0x80000000)).1 = .ok by
      decide +kernel) (by decide +kernel)
  have accepted' := accepted_of_codes (show (scanLabels .native
    (some ".text\nnop\n.data\nv: .word 5\n.text\nla a0, v\n".toList)
      (initCtx 0x80000000)).1 = .ok by decide +kernel) (by decide +kernel)
  exact (interleaving_irrelevant accepted accepted' (by decide +kernel) (by decide +kernel)).1

end RiscvAs
