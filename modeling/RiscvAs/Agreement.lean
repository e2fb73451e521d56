/-
The two passes over one file agree.

`PassStep` is what both passes do to a content line that both accept: it is an
unlabelled text line, or a data line with a label and a directive.  From equal
offsets it leads to equal offsets, so at every line of an accepted file the
passes stand at the same text and data offsets.
-/

import RiscvAs.Constants
import RiscvAs.Emission

namespace RiscvAs

open Stdio
open Bytes (Byte)
open Rv32 (Word)

theorem expandWith_count {expansion expansion' : PseudoExpansion} {name : String} {text : CString}
    (expanded : expandWith expansion name text = .ok expansion') :
    expansion'.count = expansion.count + 1 := by
  unfold expandWith at expanded
  split at expanded
  · cases expanded
  · unfold pseudoExpansionAdd at expanded
    split at expanded
    · cases expanded
    · cases expanded
      simp [PseudoExpansion.count]

theorem expandLaInstr_count {rd : CString} {symbolAddr currentPc : Int}
    {expansion : PseudoExpansion}
    (expanded : expandLaInstr rd symbolAddr currentPc .reset = .ok expansion) :
    expansion.count = 2 := by
  obtain ⟨first, upper, lower⟩ := bind_eq_ok_iff.mp expanded
  rw [expandWith_count lower, expandWith_count upper]
  rfl

theorem expandLa_count {ctx : AssemblerCtx} {line : CString} {currentPc : Word}
    {expansion : PseudoExpansion} (expanded : expandLa ctx line currentPc = .ok expansion) :
    expansion.count = 2 := by
  unfold expandLa at expanded
  split at expanded
  · split at expanded
    · cases expanded
    · exact expandLaInstr_count expanded
  · cases expanded

theorem expandPseudoInstr_congr (build : Build) {instr : Instruction} (other : instr.name ≠ "la")
    (ctx ctx' : AssemblerCtx) (line : CString) (currentPc currentPc' : Word) :
    expandPseudoInstr build ctx instr line currentPc =
      expandPseudoInstr build ctx' instr line currentPc' := by
  simp only [expandPseudoInstr, if_neg other]

theorem expandPseudoInstr_count {build : Build} {ctx ctx' : AssemblerCtx} {instr : Instruction}
    {line : CString} {currentPc currentPc' : Word} {expansion expansion' : PseudoExpansion}
    (expanded : expandPseudoInstr build ctx instr line currentPc = .ok expansion)
    (expanded' : expandPseudoInstr build ctx' instr line currentPc' = .ok expansion') :
    expansion'.count = expansion.count := by
  by_cases la : instr.name = "la"
  · have notLi : instr.name ≠ "li" := by
      rw [la]
      decide
    simp only [expandPseudoInstr, if_neg notLi, if_pos la] at expanded expanded'
    rw [expandLa_count expanded, expandLa_count expanded']
  · rw [expandPseudoInstr_congr build la ctx ctx' line currentPc currentPc', expanded'] at expanded
    cases expanded
    rfl

/-- Pass 2 emits as many words for a line as pass 1 counted, whatever symbols and
offsets the two had. -/
theorem lineWords_length {build : Build} {ctx ctx' : AssemblerCtx} {line : CString}
    {counted : Word} {emitted : Nat} {count : Nat} {words : List Word}
    (scanned : lineCount build ctx line counted = .ok count)
    (encoded : lineWords build ctx' line emitted = .ok words) : words.length = count := by
  obtain ⟨instr, instruction, rest⟩ := bind_eq_ok_iff.mp scanned
  by_cases pseudo : instr.type = .P
  · rw [if_pos pseudo] at rest
    rw [lineWords_of_pseudo instruction pseudo] at encoded
    obtain ⟨expansion, expanded, same⟩ := bind_eq_ok_iff.mp rest
    obtain ⟨expansion', expanded', printed⟩ := bind_eq_ok_iff.mp encoded
    cases same
    rw [mapM_length printed]
    exact expandPseudoInstr_count expanded expanded'
  · rw [if_neg pseudo] at rest
    rw [lineWords_of_real instruction pseudo] at encoded
    cases rest
    obtain ⟨w, -, rfl⟩ := map_eq_ok_iff.mp encoded
    rfl

def IsLa (line : CString) : Prop :=
  mnemonicOf line = "la".toList

instance (line : CString) : Decidable (IsLa line) :=
  inferInstanceAs (Decidable (_ = _))

theorem name_of_not_isLa {line : CString} {instr : Instruction} (notLa : ¬ IsLa line)
    (instruction : lineInstruction line = .ok instr) : instr.name ≠ "la" := by
  intro la
  have name := findInstruction_name (lineInstruction_ok instruction)
  rw [la] at name
  exact notLa name.symm

section NoLa

variable (build : Build) {line : CString} (notLa : ¬ IsLa line) (ctx ctx' : AssemblerCtx)

include notLa

theorem lineCount_congr (textOffset textOffset' : Word) :
    lineCount build ctx line textOffset = lineCount build ctx' line textOffset' := by
  unfold lineCount
  cases instruction : lineInstruction line with
  | error e => rw [error_bind, error_bind]
  | ok instr =>
      have same := expandPseudoInstr_congr build (name_of_not_isLa notLa instruction) ctx ctx' line
        (getTextVaddr ctx.baseVaddr + textOffset) (getTextVaddr ctx'.baseVaddr + textOffset')
      rw [ok_bind, ok_bind, same]

theorem lineWords_congr (textOffset textOffset' : Nat) :
    lineWords build ctx line textOffset = lineWords build ctx' line textOffset' := by
  cases instruction : lineInstruction line with
  | error e => simp only [lineWords, instruction, error_bind]
  | ok instr =>
      by_cases pseudo : instr.type = .P
      · have same := expandPseudoInstr_congr build (name_of_not_isLa notLa instruction) ctx ctx'
          line (getTextVaddr ctx.baseVaddr + BitVec.ofNat 32 textOffset)
          (getTextVaddr ctx'.baseVaddr + BitVec.ofNat 32 textOffset')
        rw [lineWords_of_pseudo instruction pseudo, lineWords_of_pseudo instruction pseudo, same]
      · rw [lineWords_of_real instruction pseudo, lineWords_of_real instruction pseudo]

end NoLa

/-- Pass 1 looks the symbol of `la` up, so there must be one already. -/
theorem lineCount_la {build : Build} {ctx : AssemblerCtx} {line : CString} {textOffset : Word}
    {count : Nat} (la : IsLa line) (counted : lineCount build ctx line textOffset = .ok count) :
    ∃ symbol, symbol ∈ ctx.table.symbols := by
  obtain ⟨instr, found, pseudo, name⟩ : ∃ instr, findInstruction "la".toList = some instr ∧
      instr.type = .P ∧ instr.name = "la" := ⟨_, rfl, rfl, rfl⟩
  have instruction := lineInstruction_of_mnemonicOf (la ▸ found)
  simp only [lineCount, instruction, ok_bind, if_pos pseudo] at counted
  obtain ⟨expansion, expanded, -⟩ := bind_eq_ok_iff.mp counted
  have notLi : instr.name ≠ "li" := by
    rw [name]
    decide
  simp only [expandPseudoInstr, if_neg notLi, if_pos name, expandLa] at expanded
  split at expanded
  · split at expanded
    · cases expanded
    · rename_i offset looked
      obtain ⟨symbol, entry, -⟩ := Option.map_eq_some_iff.mp looked
      exact ⟨symbol, List.mem_of_find?_eq_some entry⟩
  · cases expanded

def Scan.dataSymbol (scan : Scan) (name : CString) : Symbol :=
  ⟨name.take (labelLen - 1), scan.dataOffset, .segmentData⟩

/-- What the two passes do to a content line that both accept. -/
inductive PassStep (build : Build) (scan : Scan) (out : Output) (segment line : CString) :
    Scan → Output → Prop where
  | text {words : List Word} (inText : isText segment = true)
      (counted : lineCount build scan.ctx line scan.textOffset = .ok words.length)
      (encoded : lineWords build out.ctx line out.textOffset = .ok words)
      (fits : out.textOffset + 4 * words.length ≤ dataSize) :
      PassStep build scan out segment line (scan.advanceText words.length)
        (out.appendWords words)
  | data {name rest : CString} {bytes : List Byte} (inData : segment = "data".toList)
      (labelled : leadingLabel line = some (name, rest))
      (admits : scan.ctx.table.Admits (name.take (labelLen - 1)))
      (denoted : dataLineBytes build rest = some bytes)
      (fits : out.dataOffset + bytes.length ≤ dataSize) :
      PassStep build scan out segment line ((scan.enter (scan.dataSymbol name)).advanceData bytes)
        (out.appendData bytes)

theorem lineInstruction_of_lineWords {build : Build} {ctx : AssemblerCtx} {line : CString}
    {textOffset : Nat} {words : List Word}
    (encoded : lineWords build ctx line textOffset = .ok words) :
    ∃ instr, lineInstruction line = .ok instr := by
  obtain ⟨instr, instruction, -⟩ := bind_eq_ok_iff.mp encoded
  exact ⟨instr, instruction⟩

theorem dataLineBytes_nil (build : Build) : dataLineBytes build [] = none := rfl

section Step

variable {build : Build} {segment line : CString} {scan scan' : Scan} {out out' : Output}

theorem Scan.symbol_data (scan : Scan) (name : CString) :
    scan.symbol "data".toList name = some (scan.dataSymbol name) := by
  rw [Scan.symbol, not_isText_data]
  rfl

/-- The shapes of line that one pass accepts and the other does not are gone. -/
theorem passStep_of_steps (scanned : ScanStep build scan segment line scan')
    (emitted : EmitStep build out segment line out') :
    PassStep build scan out segment line scan' out' := by
  cases emitted with
  | text inText encoded fits =>
      obtain ⟨instr, instruction⟩ := lineInstruction_of_lineWords encoded
      have unlabelled := leadingLabel_of_instruction instruction
      cases scanned with
      | text _ plain counted =>
          obtain rfl := lineWords_length counted encoded
          exact .text inText counted encoded fits
      | label labelled => exact absurd (unlabelled.symm.trans labelled) (by simp)
      | labelledText _ labelled => exact absurd (unlabelled.symm.trans labelled) (by simp)
      | labelledData _ labelled => exact absurd (unlabelled.symm.trans labelled) (by simp)
  | data inData denoted fits =>
      subst inData
      cases scanned with
      | text inText => exact absurd inText (by decide)
      | labelledText inText => exact absurd inText (by decide)
      | label labelled =>
          rw [afterLabel, labelled, dataLineBytes_nil] at denoted
          cases denoted
      | labelledData _ labelled entered admits counted =>
          simp only [afterLabel, labelled] at denoted
          rw [counted] at denoted
          cases denoted
          rw [Scan.symbol_data] at entered
          cases entered
          exact .data rfl labelled admits counted fits
  | bss inBss =>
      subst inBss
      cases scanned with
      | text inText => exact absurd inText (by decide)
      | labelledText inText => exact absurd inText (by decide)
      | labelledData inData => exact absurd inData (by decide)
      | label _ entered =>
          rcases scan.symbol_segment entered with inText | inData
          · exact absurd inText (by decide)
          · exact absurd inData (by decide)

theorem PassStep.emitStep (step : PassStep build scan out segment line scan' out') :
    EmitStep build out segment line out' := by
  cases step with
  | text inText counted encoded fits => exact .text inText encoded fits
  | data inData labelled admits denoted fits =>
      refine .data inData ?_ fits
      simp only [afterLabel, labelled]
      exact denoted

/-- The two passes stand at the same offsets, within the arrays. -/
structure InStep (scan : Scan) (out : Output) : Prop where
  text : scan.textOffset.toNat = out.textOffset
  data : scan.dataOffset.toNat = out.dataOffset
  bounded : out.Bounded

theorem InStep.scanBounded (same : InStep scan out) : scan.dataOffset.toNat ≤ dataSize := by
  rw [same.data]
  exact same.bounded.data

theorem Scan.advanceText_textOffset {count : Nat}
    (fits : scan.textOffset.toNat + 4 * count ≤ dataSize) :
    (scan.advanceText count).textOffset.toNat = scan.textOffset.toNat + 4 * count := by
  have size : dataSize = 2048 := rfl
  rw [advanceText, BitVec.toNat_add, BitVec.toNat_ofNat]
  omega

theorem PassStep.inStep (step : PassStep build scan out segment line scan' out')
    (same : InStep scan out) : InStep scan' out' := by
  have bounded := same.bounded
  cases step with
  | text inText counted encoded fits =>
      refine ⟨?_, same.data, bounded.textCapacity, bounded.dataCapacity, fits, bounded.data⟩
      rw [Scan.advanceText_textOffset (by rw [same.text]; exact fits), same.text]
      rfl
  | data inData labelled admits denoted fits =>
      refine ⟨same.text, ?_, bounded.textCapacity, bounded.dataCapacity, bounded.text, fits⟩
      rw [Scan.advanceData_dataOffset (by rw [← same.data] at fits; exact fits)]
      exact congrArg (· + _) same.data

end Step

theorem passStep_of_cons {build : Build} {content : Content} {rest : List Content}
    {scan scan' : Scan} {out out' : Output} (line : IsContentLine content.line)
    (scanned : scanContents build scan (content :: rest) = (.ok, scan'))
    (emitted : emitContents build out (content :: rest) = (.ok, out')) (same : InStep scan out) :
    ∃ scanNext outNext, PassStep build scan out content.segment content.line scanNext outNext ∧
      InStep scanNext outNext ∧ scanContents build scanNext rest = (.ok, scan') ∧
      emitContents build outNext rest = (.ok, out') := by
  obtain ⟨scanNext, scanStep, scanRest⟩ := (scanContents_cons_iff line same.scanBounded).mp scanned
  obtain ⟨outNext, emitStep, emitRest⟩ := (emitContents_cons_iff line same.bounded).mp emitted
  have step := passStep_of_steps scanStep emitStep
  exact ⟨scanNext, outNext, step, step.inStep same, scanRest, emitRest⟩

section Runs

variable {build : Build} {lines : List Content}
  (isContent : ∀ content ∈ lines, IsContentLine content.line)
  {scan scan' : Scan} {out out' : Output}

include isContent

theorem inStep_of_runs (scanned : scanContents build scan lines = (.ok, scan'))
    (emitted : emitContents build out lines = (.ok, out')) (same : InStep scan out) :
    InStep scan' out' := by
  refine Loop.run_simulation InStep ?_ scanned emitted same
  intro current current' content next next' member same stepped stepped'
  have line := isContent content member
  have scanStep := (scanLine_ok_iff line same.scanBounded).mp stepped
  have emitStep := (processAssemblyLine_ok_iff line same.bounded).mp stepped'
  exact (passStep_of_steps scanStep emitStep).inStep same

/-- At a content line that both passes accept, they stand at the same offsets
and take the same step. -/
theorem passStep_of_split {before after : List Content} {content : Content}
    (split : lines = before ++ content :: after)
    (scanned : scanContents build scan lines = (.ok, scan'))
    (emitted : emitContents build out lines = (.ok, out')) (same : InStep scan out) :
    ∃ scanMiddle outMiddle scanNext outNext,
      scanContents build scan before = (.ok, scanMiddle) ∧
      emitContents build out before = (.ok, outMiddle) ∧ InStep scanMiddle outMiddle ∧
      PassStep build scanMiddle outMiddle content.segment content.line scanNext outNext ∧
      scanContents build scanNext after = (.ok, scan') ∧
      emitContents build outNext after = (.ok, out') := by
  subst split
  obtain ⟨scanMiddle, scanBefore, scanRest⟩ := Loop.run_append_iff.mp scanned
  obtain ⟨outMiddle, outBefore, emitRest⟩ := Loop.run_append_iff.mp emitted
  have same' : InStep scanMiddle outMiddle := inStep_of_runs
    (fun other member => isContent other (List.mem_append_left _ member)) scanBefore outBefore same
  obtain ⟨scanNext, outNext, step, -, scanAfter, outAfter⟩ :=
    passStep_of_cons (isContent content (by simp)) scanRest emitRest same'
  exact ⟨scanMiddle, outMiddle, scanNext, outNext, scanBefore, outBefore, same', step, scanAfter,
    outAfter⟩

end Runs

theorem ScanStep.table {build : Build} {scan scan' : Scan} {segment line : CString}
    (step : ScanStep build scan segment line scan') :
    scan'.ctx.table = scan.ctx.table ∨
      ∃ name rest symbol, leadingLabel line = some (name, rest) ∧
        scan.symbol segment name = some symbol ∧ scan.ctx.table.Admits symbol.name ∧
        scan'.ctx.table = scan.ctx.table.push symbol := by
  cases step with
  | text => exact Or.inl rfl
  | label labelled entered admits => exact Or.inr ⟨_, _, _, labelled, entered, admits, rfl⟩
  | labelledText inText labelled more entered admits counted =>
      exact Or.inr ⟨_, _, _, labelled, entered, admits, rfl⟩
  | labelledData inData labelled entered admits denoted fits =>
      exact Or.inr ⟨_, _, _, labelled, entered, admits, rfl⟩

section Table

variable {build : Build} {lines : List Content}
  (isContent : ∀ content ∈ lines, IsContentLine content.line) {scan scan' : Scan}
  (bounded : scan.dataOffset.toNat ≤ dataSize)
  (ran : scanContents build scan lines = (.ok, scan'))

include isContent bounded ran

theorem table_grows : scan.ctx.table.symbols <+: scan'.ctx.table.symbols := by
  refine (scanContents_invariant (fun current : Scan =>
    scan.ctx.table.symbols <+: current.ctx.table.symbols) isContent ?_ ran bounded
    (List.prefix_refl _)).2
  intro current next content _ grows step
  rcases step.table with kept | ⟨name, rest, symbol, -, -, -, pushed⟩
  · rw [kept]
    exact grows
  · rw [pushed]
    exact grows.trans (List.prefix_append _ _)

/-- No two symbols have one name. -/
theorem table_nodup (distinct : (scan.ctx.table.symbols.map Symbol.name).Nodup) :
    (scan'.ctx.table.symbols.map Symbol.name).Nodup := by
  refine (scanContents_invariant (fun current : Scan =>
    (current.ctx.table.symbols.map Symbol.name).Nodup) isContent ?_ ran bounded distinct).2
  intro current next content _ distinct step
  rcases step.table with kept | ⟨name, rest, symbol, -, -, admits, pushed⟩
  · rw [kept]
    exact distinct
  · rw [pushed, Symtable.push, List.map_append, List.nodup_append]
    refine ⟨distinct, by simp, ?_⟩
    rintro old oldMember new newMember rfl
    obtain ⟨other, otherMember, same⟩ := List.mem_map.mp oldMember
    exact admits.2 other otherMember (same.trans (by simpa using newMember))

end Table

/-- Every symbol that pass 1 adds is the label of a line, with the offset that
pass 1 had there. -/
theorem symbols_of_run {build : Build} {lines : List Content}
    (isContent : ∀ content ∈ lines, IsContentLine content.line) {scan scan' : Scan}
    (bounded : scan.dataOffset.toNat ≤ dataSize)
    (ran : scanContents build scan lines = (.ok, scan')) :
    ∀ symbol ∈ scan'.ctx.table.symbols, symbol ∈ scan.ctx.table.symbols ∨
      ∃ before content after middle name rest, lines = before ++ content :: after ∧
        scanContents build scan before = (.ok, middle) ∧
        leadingLabel content.line = some (name, rest) ∧
        middle.symbol content.segment name = some symbol := by
  refine Loop.run_prefix_induction (fun (done : List Content) (current : Scan) =>
    ∀ symbol ∈ current.ctx.table.symbols, symbol ∈ scan.ctx.table.symbols ∨
      ∃ before content after middle name rest, done = before ++ content :: after ∧
        scanContents build scan before = (.ok, middle) ∧
        leadingLabel content.line = some (name, rest) ∧
        middle.symbol content.segment name = some symbol) ?_ ran (fun _ => Or.inl)
  intro before current content next prefixed reached known stepped symbol member
  obtain ⟨after, rfl⟩ := prefixed
  have currentBounded := (scanContents_invariant (fun _ => True)
    (fun other member => isContent other (by simp [member])) (fun _ _ _ _ _ _ => trivial)
    reached bounded trivial).1
  have step := (scanLine_ok_iff (isContent content (by simp)) currentBounded).mp stepped
  have earlier : symbol ∈ current.ctx.table.symbols →
      symbol ∈ scan.ctx.table.symbols ∨
        ∃ before' content' after middle name rest,
          before ++ [content] = before' ++ content' :: after ∧
          scanContents build scan before' = (.ok, middle) ∧
          leadingLabel content'.line = some (name, rest) ∧
          middle.symbol content'.segment name = some symbol := by
    intro old
    refine (known symbol old).imp id ?_
    rintro ⟨before', content', after, middle, name, rest, rfl, others⟩
    exact ⟨before', content', after ++ [content], middle, name, rest, by simp, others⟩
  rcases step.table with kept | ⟨name, rest, entered, labelled, isEntered, -, pushed⟩
  · rw [kept] at member
    exact earlier member
  · rw [pushed] at member
    rcases List.mem_append.mp member with old | new
    · exact earlier old
    · obtain rfl := List.mem_singleton.mp new
      exact Or.inr ⟨before, content, [], current, name, rest, rfl, reached, labelled, isEntered⟩

/-! ### Accepted files -/

/-- The two passes of `main` both accept the file. -/
structure Accepted (build : Build) (baseVaddr : Word) (source : List Char)
    (ctx1 ctx2 : AssemblerCtx) : Prop where
  scanned : scanLabels build (some source) (initCtx baseVaddr) = (.ok, ctx1)
  assembled : assembleFile build (some source) ctx1 = (.ok, ctx2)

theorem accepted_of_codes {build : Build} {baseVaddr : Word} {source : List Char}
    (scanned : (scanLabels build (some source) (initCtx baseVaddr)).1 = .ok)
    (assembled : (assembleFile build (some source)
      (scanLabels build (some source) (initCtx baseVaddr)).2).1 = .ok) :
    Accepted build baseVaddr source (scanLabels build (some source) (initCtx baseVaddr)).2
      (assembleFile build (some source)
        (scanLabels build (some source) (initCtx baseVaddr)).2).2 :=
  ⟨Prod.ext scanned rfl, Prod.ext assembled rfl⟩

theorem inStep_start {ctx ctx' : AssemblerCtx} (bounded : (Output.start ctx').Bounded) :
    InStep (.start ctx) (.start ctx') :=
  ⟨rfl, rfl, bounded⟩

theorem Accepted.runs {build : Build} {baseVaddr : Word} {source : List Char}
    {ctx1 ctx2 : AssemblerCtx} (accepted : Accepted build baseVaddr source ctx1 ctx2) :
    ∃ scan out, scanContents build (.start (initCtx baseVaddr)) (sourceContents source) =
        (.ok, scan) ∧ ctx1 = scan.finish ∧
      emitContents build (.start ctx1) (sourceContents source) = (.ok, out) ∧ ctx2 = out.finish ∧
      InStep (.start (initCtx baseVaddr)) (.start ctx1) := by
  obtain ⟨scan, scanned, ctx1Eq⟩ := scanLabels_ok_iff.mp accepted.scanned
  obtain ⟨out, emitted, ctx2Eq⟩ := assembleFile_ok_iff.mp accepted.assembled
  exact ⟨scan, out, scanned, ctx1Eq, emitted, ctx2Eq,
    inStep_start (bounded_of_scanLabels accepted.scanned)⟩

section AcceptedFile

variable {build : Build} {baseVaddr : Word} {source : List Char} {ctx1 ctx2 : AssemblerCtx}
  (accepted : Accepted build baseVaddr source ctx1 ctx2)

include accepted

/-- Every symbol is the label of a data line whose bytes pass 2 puts at the
symbol's offset. -/
theorem Accepted.symbol_line {symbol : Symbol} (member : symbol ∈ ctx1.table.symbols) :
    ∃ before content after name rest bytes out,
      sourceContents source = before ++ content :: after ∧ content.segment = "data".toList ∧
      leadingLabel content.line = some (name, rest) ∧
      symbol.name = name.take (labelLen - 1) ∧ dataLineBytes build rest = some bytes ∧
      emitContents build (.start ctx1) before = (.ok, out) ∧
      symbol.offset.toNat = out.dataOffset ∧
      processAssemblyLine build content.segment out content.line =
        (.ok, out.appendData bytes) := by
  obtain ⟨scan, final, scanned, rfl, emitted, -, start⟩ := accepted.runs
  have isContent : ∀ content ∈ sourceContents source, IsContentLine content.line :=
    fun _ => sourceContents_isContentLine
  rcases symbols_of_run isContent (Nat.zero_le _) scanned symbol member with none | found
  · cases none
  obtain ⟨before, content, after, middle, name, rest, split, reached, labelled, entered⟩ := found
  obtain ⟨scanMiddle, out, scanNext, outNext, scanBefore, outBefore, same, step, -, -⟩ :=
    passStep_of_split isContent split scanned emitted start
  obtain rfl : scanMiddle = middle := by
    rw [scanBefore] at reached
    exact (Prod.mk.inj reached).2
  have line : IsContentLine content.line := isContent content (by rw [split]; simp)
  have accepts := (processAssemblyLine_ok_iff line same.bounded).mpr step.emitStep
  cases step with
  | text inText counted encoded fits =>
      -- Pass 2 would have read the label as a mnemonic.
      obtain ⟨instr, instruction⟩ := lineInstruction_of_lineWords encoded
      rw [leadingLabel_of_instruction instruction] at labelled
      cases labelled
  | data inData labelled' admits denoted fits =>
      rw [labelled'] at labelled
      cases labelled
      rw [inData, Scan.symbol_data] at entered
      cases entered
      exact ⟨before, content, after, name, rest, _, out, split, inData, labelled', rfl, denoted,
        outBefore, same.data, accepts⟩

theorem Accepted.reached {before after : List CString}
    (split : fgetsLines lineBufLen source = before ++ after) :
    ∃ segment scan out,
      scanLines build (scanStart (initCtx baseVaddr)) before = (.ok, (segment, scan)) ∧
      assembleLines build (assembleStart ctx1) before = (.ok, (segment, out)) ∧
      InStep scan out := by
  obtain ⟨scan, out, scanned, -, emitted, -, start⟩ := accepted.runs
  have isContent := contents_isContentLine split
  rw [sourceContents, split, contents_append] at scanned emitted
  obtain ⟨scanMiddle, scanBefore, -⟩ := Loop.run_append_iff.mp scanned
  obtain ⟨outMiddle, outBefore, -⟩ := Loop.run_append_iff.mp emitted
  exact ⟨segmentAfter [] before, scanMiddle, outMiddle, scanLines_ok_iff.mpr ⟨scanBefore, rfl⟩,
    assembleLines_ok_iff.mpr ⟨outBefore, rfl⟩, inStep_of_runs isContent scanBefore outBefore start⟩

/-- The passes store the same sizes, stand at the same offsets before every
line, and the offset of every symbol is that of its directive in pass 2. -/
theorem passes_agree :
    (ctx2.textSegment.size = ctx1.textSegment.size ∧
      ctx2.dataSegment.size = ctx1.dataSegment.size) ∧
    (∀ before buffer after, fgetsLines lineBufLen source = before ++ buffer :: after →
      ∃ segment scan out,
        scanLines build (scanStart (initCtx baseVaddr)) before = (.ok, (segment, scan)) ∧
        assembleLines build (assembleStart ctx1) before = (.ok, (segment, out)) ∧
        scan.textOffset.toNat = out.textOffset ∧ scan.dataOffset.toNat = out.dataOffset) ∧
    (∀ symbol ∈ ctx1.table.symbols, ∃ before buffer after name rest bytes out,
      fgetsLines lineBufLen source = before ++ buffer :: after ∧
      leadingLabel (stringTrim buffer) = some (name, rest) ∧
      symbol.name = name.take (labelLen - 1) ∧ dataLineBytes build rest = some bytes ∧
      assembleLines build (assembleStart ctx1) before = (.ok, ("data".toList, out)) ∧
      symbol.offset.toNat = out.dataOffset ∧
      sourceLine (processAssemblyLine build) ("data".toList, out) buffer =
        (.ok, ("data".toList, out.appendData bytes))) := by
  refine ⟨?_, ?_, ?_⟩
  · obtain ⟨scan, out, scanned, rfl, emitted, rfl, start⟩ := accepted.runs
    have same := inStep_of_runs (fun _ => sourceContents_isContentLine) scanned emitted start
    exact ⟨same.text.symm, same.data.symm⟩
  · intro before buffer after split
    obtain ⟨segment, scan, out, scanned, emitted, same⟩ := accepted.reached split
    exact ⟨segment, scan, out, scanned, emitted, same.text, same.data⟩
  · intro symbol member
    obtain ⟨before, content, after, name, rest, bytes, out, split, inData, labelled, named,
      denoted, reached, offset, emits⟩ := accepted.symbol_line member
    obtain ⟨first, buffer, second, buffers, turn, stands, rfl⟩ := contents_mem_split split
    have short : buffer.length < lineBufLen := sourceLines_short source buffer (by simp [buffers])
    obtain ⟨trimmed, -⟩ := turnOf_content turn short
    rw [inData] at stands emits
    refine ⟨first, buffer, second, name, rest, bytes, out, buffers, trimmed ▸ labelled, named,
      denoted, assembleLines_ok_iff.mpr ⟨reached, stands⟩, offset, ?_⟩
    rw [sourceLine_content (processAssemblyLine build) turn, emits]

end AcceptedFile

def exampleSource : List Char :=
  ".data\nfirst: .word 1\nsecond: .word 2 # here\n.text\nla a0, second\n".toList

def exampleScanned : AssemblerCtx :=
  (scanLabels .native (some exampleSource) (initCtx 0x80000000)).2

def exampleAssembled : AssemblerCtx :=
  (assembleFile .native (some exampleSource) exampleScanned).2

theorem exampleSource_accepted :
    Accepted .native 0x80000000 exampleSource exampleScanned exampleAssembled :=
  accepted_of_codes (by decide +kernel) (by decide +kernel)

theorem passes_agree_example :
    exampleAssembled.textSegment.size = exampleScanned.textSegment.size :=
  (passes_agree exampleSource_accepted).1.1

end RiscvAs
