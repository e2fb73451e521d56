/-
What a rejected file is told.

Each pass stops at the first line that it cannot do.  Behind a first pass that has
accepted the file, the second fails for few reasons, and only where a line of text is
not encoded, does not fit, or where a label of data has no directive.
-/

import RiscvAs.Interleaving
import RiscvAs.EmittedWords
import RiscvAs.Driver

namespace RiscvAs

open Stdio
open Bytes (Byte)
open Rv32 (Word)

def FailsWith {α : Type} (failures : List Failure) (result : Except Failure α) : Prop :=
  ∀ f, result = .error f → f ∈ failures

section FailsWith

variable {α β : Type} {failures : List Failure}

theorem failsWith_ok (a : α) : FailsWith failures (.ok a) := by
  intro f failed
  cases failed

theorem failsWith_error {f : Failure} (member : f ∈ failures) :
    FailsWith failures (.error f : Except Failure α) := by
  intro g failed
  cases failed
  exact member

theorem FailsWith.bind {first : Except Failure α} {second : α → Except Failure β}
    (fails : FailsWith failures first) (later : ∀ a, FailsWith failures (second a)) :
    FailsWith failures (first >>= second) := by
  cases first with
  | error f => exact failsWith_error (fails f rfl)
  | ok a => exact later a

theorem FailsWith.mapM {γ : Type} {items : List γ} {step : γ → Except Failure α}
    (fails : ∀ item ∈ items, FailsWith failures (step item)) :
    FailsWith failures (items.mapM step) := by
  induction items with
  | nil => exact failsWith_ok []
  | cons item items ih =>
      obtain ⟨here, later⟩ := List.forall_mem_cons.mp fails
      rw [List.mapM_cons]
      exact here.bind fun _ => (ih later).bind fun _ => failsWith_ok _

end FailsWith

section Encoding

variable {build : Build} {failures : List Failure}

theorem checkImmediate_failsWith (listed : .invalidImmediate ∈ failures) (imm min max : Int) :
    FailsWith failures (checkImmediate imm min max) := by
  unfold checkImmediate
  split
  · exact failsWith_error listed
  · exact failsWith_ok ()

theorem checkImmAndLastB_failsWith (listed : .invalidImmediate ∈ failures) (imm min max : Int) :
    FailsWith failures (checkImmAndLastB imm min max) := by
  unfold checkImmAndLastB
  split
  · exact failsWith_error listed
  · exact failsWith_ok ()

theorem parseRegister_failsWith (listed : .invalidRegister ∈ failures) (reg : CString) :
    FailsWith failures (parseRegister build reg) := by
  intro f failed
  rw [parseRegister_error failed]
  exact listed

theorem scanOffsetOperands_failsWith (listed : .parseError ∈ failures) (line : CString) :
    FailsWith failures (scanOffsetOperands build line) := by
  unfold scanOffsetOperands
  split
  · exact failsWith_ok _
  · split
    · exact failsWith_ok _
    · exact failsWith_error listed

theorem scanITypeOperands_failsWith (listed : .parseError ∈ failures) (line name : CString) :
    FailsWith failures (scanITypeOperands build line name) := by
  unfold scanITypeOperands
  split
  · exact scanOffsetOperands_failsWith listed line
  · split
    · exact failsWith_ok _
    · exact failsWith_error listed

def encodeFailures : List Failure :=
  [.parseError, .invalidRegister, .invalidImmediate]

theorem encode_failsWith {instr : Instruction} (real : instr.type ≠ .P) (line name : CString) :
    FailsWith encodeFailures (encode build instr line name) := by
  have parse : .parseError ∈ encodeFailures := by decide
  have immediate : .invalidImmediate ∈ encodeFailures := by decide
  have register : ∀ reg, FailsWith encodeFailures (parseRegister build reg) :=
    parseRegister_failsWith (by decide)
  have last : ∀ w : Word, FailsWith encodeFailures (.ok w) := failsWith_ok
  cases format : instr.type with
  | R =>
      simp only [encode, format]
      split
      · exact (register _).bind fun _ => (register _).bind fun _ => (register _).bind fun _ =>
          last _
      · exact failsWith_error parse
  | I =>
      simp only [encode, format]
      exact (scanITypeOperands_failsWith parse line name).bind fun _ =>
        (checkImmediate_failsWith immediate _ _ _).bind fun _ =>
          (register _).bind fun _ => (register _).bind fun _ => last _
  | S =>
      simp only [encode, format]
      exact (scanOffsetOperands_failsWith parse line).bind fun _ =>
        (checkImmediate_failsWith immediate _ _ _).bind fun _ =>
          (register _).bind fun _ => (register _).bind fun _ => last _
  | B =>
      simp only [encode, format]
      split
      · exact (checkImmAndLastB_failsWith immediate _ _ _).bind fun _ =>
          (register _).bind fun _ => (register _).bind fun _ => last _
      · exact failsWith_error parse
  | U =>
      simp only [encode, format]
      split
      · exact (checkImmediate_failsWith immediate _ _ _).bind fun _ =>
          (register _).bind fun _ => last _
      · exact failsWith_error parse
  | J =>
      simp only [encode, format]
      split
      · exact (checkImmAndLastB_failsWith immediate _ _ _).bind fun _ =>
          (register _).bind fun _ => last _
      · exact failsWith_error parse
  | Z =>
      simp only [encode, format]
      exact last _
  | P => exact absurd format real

theorem encodePseudoInstr_failsWith {expansion : PseudoExpansion}
    (listed : expansion.IsListed) : FailsWith encodeFailures (encodePseudoInstr build expansion) :=
  FailsWith.mapM fun entry member =>
    encode_failsWith (listed entry member).2 entry.2 entry.1.name.toList

end Encoding

/-- The failures of an expansion. -/
def expandFailures : List Failure :=
  [.parseError, .invalidImmediate, .symNotFound]

theorem expandLiInstr_ok (rd : CString) (imm64 : Int) :
    ∃ expansion, expandLiInstr rd imm64 .reset = .ok expansion := by
  obtain ⟨lui, foundLui⟩ : ∃ instr, findInstruction "lui".toList = some instr := ⟨_, rfl⟩
  obtain ⟨addi, foundAddi⟩ : ∃ instr, findInstruction "addi".toList = some instr := ⟨_, rfl⟩
  have start : PseudoExpansion.reset.count < 2 := by decide
  unfold expandLiInstr
  simp only
  split
  · exact expandWith_ok foundAddi start _
  · obtain ⟨upper, expanded⟩ := expandWith_ok foundLui start ("lui ".toList ++ rd ++
      ", ".toList ++ printInt (highPart (BitVec.ofInt 32 imm64)).toInt)
    have room : upper.count < 2 := by
      rw [expandWith_count expanded]
      decide
    rw [expanded, ok_bind]
    split
    · exact expandWith_ok foundAddi room _
    · exact ⟨upper, rfl⟩

theorem expandPair_failsWith (line : CString)
    {expand : CString → CString → PseudoExpansion → Except Failure PseudoExpansion}
    (expands : ∀ rs rd, ∃ expansion, expand rs rd .reset = .ok expansion) :
    FailsWith expandFailures (expandPair line expand) := by
  unfold expandPair
  split
  · rename_i rd rs scanned
    obtain ⟨expansion, expanded⟩ := expands rs rd
    rw [expanded]
    exact failsWith_ok expansion
  · exact failsWith_error (by decide)

theorem expandLi_failsWith (build : Build) (line : CString) :
    FailsWith expandFailures (expandLi build line) := by
  unfold expandLi
  split
  · rename_i rd value scanned
    refine (checkImmediate_failsWith (by decide) _ _ _).bind fun _ => ?_
    obtain ⟨expansion, expanded⟩ := expandLiInstr_ok rd (storeLong build value)
    rw [expanded]
    exact failsWith_ok expansion
  · exact failsWith_error (by decide)

theorem expandLa_failsWith (ctx : AssemblerCtx) (line : CString) (currentPc : Word) :
    FailsWith expandFailures (expandLa ctx line currentPc) := by
  unfold expandLa
  split
  · rename_i rd symbolName scanned
    split
    · exact failsWith_error (by decide)
    · rename_i offset looked
      obtain ⟨expansion, expanded⟩ := expandLaInstr_ok rd
        (getDataVaddr ctx ctx.baseVaddr + offset).toNat currentPc.toInt
      rw [expanded]
      exact failsWith_ok expansion
  · exact failsWith_error (by decide)

theorem expandPseudoInstr_failsWith {build : Build} {ctx : AssemblerCtx} {instr : Instruction}
    {line : CString} {currentPc : Word} (member : instr ∈ instructions)
    (pseudo : instr.type = .P) :
    FailsWith expandFailures (expandPseudoInstr build ctx instr line currentPc) := by
  have names : ∀ instr ∈ instructions, instr.type = .P →
      instr.name ∈ ["li", "la", "mv", "neg", "nop", "not", "seqz", "snez"] := by decide
  have listed := names instr member pseudo
  have start : PseudoExpansion.reset.count < 2 := by decide
  unfold expandPseudoInstr
  split
  · exact expandLi_failsWith build line
  split
  · exact expandLa_failsWith ctx line currentPc
  split
  · exact expandPair_failsWith line fun _ _ => expandWith_ok rfl start _
  split
  · exact expandPair_failsWith line fun _ _ => expandWith_ok rfl start _
  split
  · exact failsWith_ok _
  split
  · exact expandPair_failsWith line fun _ _ => expandWith_ok rfl start _
  split
  · rename_i isRet
    rw [isRet] at listed
    exact absurd listed (by decide)
  split
  · exact expandPair_failsWith line fun _ _ => expandWith_ok rfl start _
  split
  · exact expandPair_failsWith line fun _ _ => expandWith_ok rfl start _
  · simp_all

/-! ### The first pass -/

/-- The failures of `scan_labels` on a file that was opened. -/
def scanFailures : List Failure :=
  [.err, .unknownInstruction, .parseError, .invalidImmediate, .symNotFound, .unknownPseudo]

/-- A directive fails for want of room, or it denotes nothing. -/
def DirectiveFails (denoted : Option (List Byte)) (f : Failure) : Prop :=
  f = .err ∨ denoted = none ∧ f ∈ [.parseError, .unknownPseudo]

theorem DirectiveFails.listed {denoted : Option (List Byte)} {f : Failure}
    (fails : DirectiveFails denoted f) : f ∈ scanFailures := by
  have known : ∀ f ∈ [Failure.parseError, .unknownPseudo], f ∈ scanFailures := by decide
  rcases fails with rfl | ⟨-, member⟩
  · decide
  · exact known f member

theorem handleDataIntegerLoop_fail {step capacity : Nat} {tokens : List CString}
    {cursor : DataCursor} {f : Failure}
    (failed : (handleDataIntegerLoop step capacity tokens cursor).1 = .fail f) :
    DirectiveFails (integersBytes step tokens) f := by
  induction tokens generalizing cursor with
  | nil => cases failed
  | cons token tokens ih =>
      rw [handleDataIntegerLoop_cons] at failed
      rw [integersBytes_cons]
      cases read : tokenValue token with
      | none =>
          rw [read] at failed
          cases failed
          exact Or.inr ⟨rfl, by decide⟩
      | some value =>
          simp only [read] at failed
          split at failed
          · cases failed
            exact Or.inl rfl
          · rcases ih failed with rfl | ⟨undenoted, listed⟩
            · exact Or.inl rfl
            · refine Or.inr ⟨?_, listed⟩
              rw [undenoted]
              rfl

theorem handleDataStringLoop_fail {capacity : Nat} {text : CString} {cursor : DataCursor}
    {f : Failure} (failed : (handleDataStringLoop capacity text cursor).1 = .fail f) :
    f = .err := by
  induction text, cursor using handleDataStringLoop.induct capacity with
  | case1 => cases failed
  | case2 cursor c rest full =>
      rw [handleDataStringLoop, if_pos full] at failed
      cases failed
      rfl
  | case3 cursor c rest room ih =>
      rw [handleDataStringLoop, if_neg room] at failed
      exact ih failed
  | case4 cursor c rest notEscape full =>
      rw [handleDataStringLoop, if_pos full] at failed
      · cases failed
        rfl
      · exact notEscape
  | case5 cursor c rest notEscape room ih =>
      rw [handleDataStringLoop, if_neg room] at failed
      · exact ih failed
      · exact notEscape

theorem handleDataString_fail {args : CString} {cursor : DataCursor} {capacity : Nat} {f : Failure}
    (failed : (handleDataString args cursor capacity).1 = .fail f) :
    DirectiveFails (stringBytes args) f := by
  unfold handleDataString at failed
  split at failed
  · rename_i unquoted
    cases failed
    refine Or.inr ⟨?_, by decide⟩
    rw [stringBytes, unquoted]
    rfl
  · split at failed
    · split at failed
      · cases failed
        exact Or.inl rfl
      · cases failed
    · exact Or.inl (handleDataStringLoop_fail failed)

theorem handleDataSpace_fail {build : Build} {args : CString} {cursor : DataCursor}
    {capacity : Nat} {f : Failure}
    (failed : (handleDataSpace build args cursor capacity).1 = .fail f) :
    DirectiveFails (spaceBytes build args) f := by
  unfold handleDataSpace at failed
  unfold spaceBytes
  cases tokens : strtok ',' args with
  | nil =>
      rw [tokens] at failed
      cases failed
      exact Or.inr ⟨rfl, by decide⟩
  | cons countToken rest =>
      rcases tokenValue_cases countToken with ⟨count, scanned, read⟩ | ⟨unread, read⟩
      · simp only [tokens, scanned, spaceFill_eq] at failed
        simp only [read, Option.bind_some]
        by_cases negative : count < 0
        · simp only [if_pos negative] at failed ⊢
          cases failed
          exact Or.inr ⟨rfl, by decide⟩
        · simp only [if_neg negative] at failed ⊢
          cases filled : fillValue rest with
          | none =>
              rw [filled] at failed
              cases failed
              exact Or.inr ⟨rfl, by decide⟩
          | some fill =>
              simp only [filled, Option.elim_some] at failed
              split at failed
              · cases failed
                exact Or.inl rfl
              · cases failed
      · rw [tokens] at failed
        simp only at failed
        cases failed
        refine Or.inr ⟨?_, by decide⟩
        simp only [read, Option.bind_none]

theorem parseDataDirective_fail {build : Build} {directive args : CString} {cursor : DataCursor}
    {capacity : Nat} {f : Failure}
    (failed : (parseDataDirective build directive args cursor capacity).1 = .fail f) :
    DirectiveFails (directiveBytes build directive args) f := by
  unfold parseDataDirective at failed
  unfold directiveBytes
  split at failed
  · rename_i integer
    rw [if_pos integer]
    exact handleDataIntegerLoop_fail failed
  rename_i notInteger
  rw [if_neg notInteger]
  split at failed
  · rename_i string
    rw [if_pos string]
    exact handleDataString_fail failed
  rename_i notString
  rw [if_neg notString]
  split at failed
  · rename_i space
    rw [if_pos space]
    exact handleDataSpace_fail failed
  · rename_i notSpace
    cases failed
    exact Or.inr ⟨if_neg notSpace, by decide⟩

theorem expandFailures_scan : ∀ f ∈ expandFailures, f ∈ scanFailures := by decide

section FirstPass

variable {build : Build} {segment p : CString} {scan : Scan} {f : Failure}

theorem scanText_fail (failed : (scanText build scan p).1 = .fail f) : f ∈ scanFailures := by
  unfold scanText at failed
  split at failed
  · rename_i name scanned
    split at failed
    · cases failed
      decide
    · rename_i instr found
      split at failed
      · rename_i pseudo
        simp only at failed
        split at failed
        · rename_i e expanded
          cases failed
          have listed := expandPseudoInstr_failsWith (List.mem_of_find?_eq_some found) pseudo _
            expanded
          exact expandFailures_scan _ listed
        · cases failed
      · cases failed
  · cases failed

theorem scanBody_fail (failed : (scanBody build segment scan p).1 = .fail f) :
    f ∈ scanFailures := by
  unfold scanBody at failed
  split at failed
  · exact scanText_fail failed
  split at failed
  · unfold scanData at failed
    split at failed
    · cases failed
      decide
    · rename_i parsed directive
      split at failed
      · cases failed
      · unfold scanDirective at directive
        split at directive
        · cases directive
          exact (parseDataDirective_fail failed).listed
        · cases directive
  · cases failed
    decide

theorem scanLabel_fail {label : CString} (refused : scanLabel segment scan label = .error f) :
    f = .err := by
  unfold scanLabel at refused
  split at refused
  · unfold scanLabel.insertAt at refused
    split at refused <;> cases refused
    rfl
  · split at refused
    · unfold scanLabel.insertAt at refused
      split at refused <;> cases refused
      rfl
    · cases refused
      rfl

theorem scanLine_fail (failed : (scanLine build segment scan p).1 = .fail f) :
    f ∈ scanFailures := by
  unfold scanLine at failed
  simp only at failed
  split at failed
  · exact scanBody_fail failed
  · rename_i label rest labelled
    split at failed
    · rename_i e refused
      cases failed
      rw [scanLabel_fail refused]
      decide
    · split at failed
      · cases failed
      · exact scanBody_fail failed

end FirstPass

theorem scanLabels_fail {build : Build} {source : List Char} {ctx : AssemblerCtx} {f : Failure}
    (failed : (scanLabels build (some source) ctx).1 = .fail f) : f ∈ scanFailures := by
  rw [scanLabels_ended, Scan.ended] at failed
  split at failed
  · cases failed
  · obtain ⟨before, content, after, scan, -, -, stepped⟩ :=
      (Loop.run_fail_iff (fun same => by cases same)).mp failed
    exact scanLine_fail stepped

/-! ### The second pass -/

def assembleFailures : List Failure :=
  [.unknownInstruction, .parseError, .invalidRegister, .invalidImmediate, .err]

/-- Why the second pass stops at a line. -/
inductive Blames (build : Build) (out : Output) (content : Content) : Failure → Prop where
  | words {f : Failure} (inText : isText content.segment = true)
      (rejected : lineWords build out.ctx content.line out.textOffset = .error f) :
      Blames build out content f
  | room {words : List Word} (inText : isText content.segment = true)
      (encoded : lineWords build out.ctx content.line out.textOffset = .ok words)
      (full : dataSize < out.textOffset + 4 * words.length) : Blames build out content .err
  | label {name : CString} (inData : content.segment = "data".toList)
      (labelled : leadingLabel content.line = some (name, [])) :
      Blames build out content .parseError

theorem processSegmentText_fail_iff {build : Build} {out : Output} {line : CString} {f : Failure}
    (bounded : out.Bounded) :
    (processSegmentText build out line).1 = .fail f ↔
      lineWords build out.ctx line out.textOffset = .error f ∨
        ∃ words, lineWords build out.ctx line out.textOffset = .ok words ∧
          dataSize < out.textOffset + 4 * words.length ∧ f = .err := by
  have capacity := bounded.textCapacity
  have below := bounded.text
  cases encoded : lineWords build out.ctx line out.textOffset with
  | error e =>
      rw [processSegmentText_of_error encoded]
      simp
  | ok words =>
      by_cases fits : out.textOffset + 4 * words.length ≤ dataSize
      · rw [processSegmentText_of_words encoded (by rw [capacity]; exact fits)]
        simp [Nat.not_lt.mpr fits]
      · have bytes := wordsBytes_length words
        have failed := copyText_not_fits (words.flatMap wordBytes) out.ctx.textSegment
          out.textOffset (List.ne_nil_of_length_pos (by omega)) (by omega)
        have code : (processSegmentText build out line).1 = .fail .err := by
          simp only [processSegmentText, encoded]
          split
          · rename_i segment currentSize copied
            rw [copied] at failed
            cases failed
          · rename_i e segment currentSize notOk copied
            rw [copied] at failed
            exact failed
        rw [code]
        simp [Nat.not_le.mp fits, eq_comm]

section SecondPass

variable {build : Build} {scan scan' : Scan} {out : Output} {content : Content} {f : Failure}
  (line : IsContentLine content.line)
  (scanned : ScanStep build scan content.segment content.line scan') (same : InStep scan out)

theorem not_isText_of_data {segment : CString} (inData : segment = "data".toList) :
    ¬ isText segment = true := by
  rw [inData]
  decide

include scanned in
theorem ScanStep.segment_cases :
    isText content.segment = true ∨ content.segment = "data".toList := by
  cases scanned with
  | text inText => exact Or.inl inText
  | label _ entered => exact scan.symbol_segment entered
  | labelledText inText => exact Or.inl inText
  | labelledData inData => exact Or.inr inData

include line scanned same

theorem processAssemblyLine_fail_iff :
    (processAssemblyLine build content.segment out content.line).1 = .fail f ↔
      Blames build out content f := by
  rcases scanned.segment_cases with inText | inData
  · rw [processAssemblyLine, if_pos inText, processSegmentText_fail_iff same.bounded]
    constructor
    · rintro (rejected | ⟨words, encoded, full, rfl⟩)
      · exact .words inText rejected
      · exact .room inText encoded full
    · intro blames
      cases blames with
      | words _ rejected => exact Or.inl rejected
      | room _ encoded full => exact Or.inr ⟨_, encoded, full, rfl⟩
      | label inData => exact absurd inText (not_isText_of_data inData)
  · have notText := not_isText_of_data inData
    have front : skipBlanks content.line = content.line := skipBlanks_of_stops line.front
    cases scanned with
    | text inText => exact absurd inText notText
    | labelledText inText => exact absurd inText notText
    | label labelled =>
        have code : (processAssemblyLine build content.segment out content.line).1 =
            .fail .parseError := by
          rw [processAssemblyLine, if_neg notText, if_pos inData]
          simp only [processSegmentData, front, afterLabel, labelled]
          rfl
        rw [code]
        constructor
        · intro failed
          cases failed
          exact .label inData labelled
        · intro blames
          cases blames with
          | words inText => exact absurd inText notText
          | room inText => exact absurd inText notText
          | label => rfl
    | @labelledData name rest symbol bytes _ labelled entered admits denoted fits =>
        have step : EmitStep build out content.segment content.line (out.appendData bytes) := by
          refine .data inData ?_ (by rw [← same.data]; exact fits)
          simp only [afterLabel, labelled]
          exact denoted
        rw [(processAssemblyLine_ok_iff line same.bounded).mpr step]
        refine iff_of_false (fun failed => by cases failed) fun blames => ?_
        cases blames with
        | words inText => exact notText inText
        | room inText => exact notText inText
        | label _ bare =>
            rw [labelled] at bare
            cases bare
            rw [dataLineBytes_nil] at denoted
            cases denoted

omit line same in
theorem lineWords_fail (within : scan.ctx.table.Within out.ctx.table)
    (inText : isText content.segment = true)
    (rejected : lineWords build out.ctx content.line out.textOffset = .error f) :
    f ∈ .unknownInstruction :: encodeFailures := by
  cases instruction : lineInstruction content.line with
  | error e =>
      have same : e = f := by
        rw [lineWords, instruction] at rejected
        exact Except.error.inj rejected
      rw [← same]
      unfold lineInstruction at instruction
      split at instruction
      · split at instruction <;> cases instruction
        decide
      · cases instruction
        decide
  | ok instr =>
      have listed := List.mem_of_find?_eq_some (lineInstruction_ok instruction)
      have unlabelled := leadingLabel_of_instruction instruction
      by_cases pseudo : instr.type = .P
      · rw [lineWords_of_pseudo instruction pseudo] at rejected
        cases scanned with
        | label labelled => exact absurd (unlabelled.symm.trans labelled) (by simp)
        | labelledText _ labelled => exact absurd (unlabelled.symm.trans labelled) (by simp)
        | labelledData inData => exact absurd inText (not_isText_of_data inData)
        | text _ _ counted =>
            have recounted := lineCount_within within counted (BitVec.ofNat 32 out.textOffset)
            simp only [lineCount, instruction, ok_bind, if_pos pseudo] at recounted
            obtain ⟨expansion, expanded, -⟩ := bind_eq_ok_iff.mp recounted
            rw [expanded, ok_bind] at rejected
            exact List.mem_cons_of_mem _
              (encodePseudoInstr_failsWith (expandPseudoInstr_isListed expanded) f rejected)
      · rw [lineWords_of_real instruction pseudo] at rejected
        cases encoded : encode build instr content.line instr.name.toList with
        | ok w =>
            rw [encoded] at rejected
            cases rejected
        | error e =>
            rw [encoded] at rejected
            cases rejected
            exact List.mem_cons_of_mem _ (encode_failsWith pseudo _ _ _ encoded)

end SecondPass

theorem Symtable.within_of_prefix {table table' : Symtable}
    (front : table.symbols <+: table'.symbols) : table.Within table' := by
  obtain ⟨more, joined⟩ := front
  intro name offset looked
  obtain ⟨found, entry, rfl⟩ := Option.map_eq_some_iff.mp looked
  refine ⟨found.offset, ?_⟩
  rw [symtableLookup, ← joined, List.find?_append, entry]
  rfl

section Rejected

variable {build : Build} {baseVaddr : Word} {source : List Char} {ctx1 : AssemblerCtx}
  (scanned : scanLabels build (some source) (initCtx baseVaddr) = (.ok, ctx1))

include scanned

theorem passes_before {before after : List Content} {content : Content} {out : Output}
    (split : sourceContents source = before ++ content :: after)
    (emitted : emitContents build (.start ctx1) before = (.ok, out)) :
    ∃ scan scan', InStep scan out ∧ IsContentLine content.line ∧
      ScanStep build scan content.segment content.line scan' ∧
      scan.ctx.table.Within out.ctx.table := by
  obtain ⟨final, ran, rfl⟩ := scanLabels_ok_iff.mp scanned
  have isContent : ∀ content ∈ sourceContents source, IsContentLine content.line :=
    fun _ => sourceContents_isContentLine
  have start := @inStep_start (initCtx baseVaddr) final.finish (bounded_of_scanLabels scanned)
  rw [split] at ran isContent
  obtain ⟨isBefore, isLater⟩ := List.forall_mem_append.mp isContent
  have line := isLater content (List.mem_cons_self ..)
  obtain ⟨scan, scanBefore, scanLater⟩ := Loop.run_append_iff.mp ran
  have same := inStep_of_runs isBefore scanBefore emitted start
  obtain ⟨scan', step, -⟩ := (scanContents_cons_iff line same.scanBounded).mp scanLater
  have grows := table_grows isLater same.scanBounded scanLater
  have kept := (emitContents_extends isBefore emitted start.bounded).table
  refine ⟨scan, scan', same, line, step, Symtable.within_of_prefix ?_⟩
  rw [kept]
  exact grows

theorem assembleFile_blamed {f : Failure} :
    (assembleFile build (some source) ctx1).1 = .fail f ↔
      ∃ before content after out, sourceContents source = before ++ content :: after ∧
        emitContents build (.start ctx1) before = (.ok, out) ∧ Blames build out content f := by
  rw [(assembleFile_ended build source ctx1).1, emitContents,
    Loop.run_fail_iff (fun same => by cases same)]
  constructor
  · rintro ⟨before, content, after, out, split, emitted, failed⟩
    obtain ⟨scan, scan', same, line, step, -⟩ := passes_before scanned split emitted
    exact ⟨before, content, after, out, split, emitted,
      (processAssemblyLine_fail_iff line step same).mp failed⟩
  · rintro ⟨before, content, after, out, split, emitted, blames⟩
    obtain ⟨scan, scan', same, line, step, -⟩ := passes_before scanned split emitted
    exact ⟨before, content, after, out, split, emitted,
      (processAssemblyLine_fail_iff line step same).mpr blames⟩

theorem assembleFile_code {f : Failure}
    (failed : (assembleFile build (some source) ctx1).1 = .fail f) :
    f ∈ [.unknownInstruction, .parseError, .invalidRegister, .invalidImmediate] ∨
      f = .err ∧ ∃ before content after out words,
        sourceContents source = before ++ content :: after ∧
        emitContents build (.start ctx1) before = (.ok, out) ∧
        lineWords build out.ctx content.line out.textOffset = .ok words ∧
        dataSize < out.textOffset + 4 * words.length := by
  obtain ⟨before, content, after, out, split, emitted, blames⟩ :=
    (assembleFile_blamed scanned).mp failed
  obtain ⟨scan, scan', same, line, step, within⟩ := passes_before scanned split emitted
  cases blames with
  | words inText rejected => exact Or.inl (lineWords_fail step within inText rejected)
  | room inText encoded full =>
      exact Or.inr ⟨rfl, before, content, after, out, _, split, emitted, encoded, full⟩
  | label => exact Or.inl (by decide)

theorem assembleFile_code_listed {f : Failure}
    (failed : (assembleFile build (some source) ctx1).1 = .fail f) : f ∈ assembleFailures := by
  rcases assembleFile_code scanned failed with listed | ⟨rfl, -⟩
  · exact List.mem_append_left [.err] listed
  · decide

/-- Behind a first pass that accepts the file, the second fails at the first line that is
blamed, with one of five codes; it returns `ASSEMBLER_ERR` only where the text segment is full. -/
theorem assembleFile_fail_iff (f : Failure) :
    ((assembleFile build (some source) ctx1).1 = .fail f ↔
      ∃ before content after out, sourceContents source = before ++ content :: after ∧
        emitContents build (.start ctx1) before = (.ok, out) ∧ Blames build out content f) ∧
    ((assembleFile build (some source) ctx1).1 = .fail f →
      f ∈ [.unknownInstruction, .parseError, .invalidRegister, .invalidImmediate] ∨
        f = .err ∧ ∃ before content after out words,
          sourceContents source = before ++ content :: after ∧
          emitContents build (.start ctx1) before = (.ok, out) ∧
          lineWords build out.ctx content.line out.textOffset = .ok words ∧
          dataSize < out.textOffset + 4 * words.length) :=
  ⟨assembleFile_blamed scanned, assembleFile_code scanned⟩

end Rejected

def unknownRegister : List Char :=
  ".text\nnop\nadd a0, q1, a1\n".toList

theorem assembleFile_fail_iff_example :
    ∃ before content after out, sourceContents unknownRegister = before ++ content :: after ∧
      emitContents .native
        (.start (scanLabels .native (some unknownRegister) (initCtx 0x80000000)).2) before =
          (.ok, out) ∧ Blames .native out content .invalidRegister := by
  have code : (scanLabels .native (some unknownRegister) (initCtx 0x80000000)).1 = .ok := by
    decide +kernel
  exact (assembleFile_fail_iff (Prod.ext code rfl) .invalidRegister).1.mp (by decide +kernel)

/-! ### Messages -/

inductive Phase where
  | scanLabels
  | assembleFile
  | writer32

def Phase.text : Phase → String
  | .scanLabels => "scan_labels() failed: "
  | .assembleFile => "assemble_file() failed: "
  | .writer32 => "writer32() failed: "

/-- The failures that a call can return. -/
def Phase.failures : Phase → List Failure
  | .scanLabels => .fileError :: scanFailures
  | .assembleFile => assembleFailures
  | .writer32 => [.elfError]

def Phase.message (phase : Phase) (f : Failure) : String :=
  phase.text ++ assemblerErrorStr (.fail f)

/-- The call of `main` that fails, and how. -/
inductive Fails (build : Build) (host : Host) (arguments : Arguments) : Phase → Failure → Prop where
  | scanLabels {infile : CString} {f : Failure} (given : arguments.infile = some infile)
      (rejected : (RiscvAs.scanLabels build (host.files infile)
        (initCtx arguments.baseVaddr)).1 = .fail f) :
      Fails build host arguments .scanLabels f
  | assembleFile {infile : CString} {ctx1 : AssemblerCtx} {f : Failure}
      (given : arguments.infile = some infile)
      (scanned : RiscvAs.scanLabels build (host.files infile) (initCtx arguments.baseVaddr) =
        (.ok, ctx1))
      (rejected : (RiscvAs.assembleFile build (host.files infile) ctx1).1 = .fail f) :
      Fails build host arguments .assembleFile f
  | writer32 {ctx : AssemblerCtx} {f : Failure}
      (assembled : assembleInput build host arguments = .ok ctx)
      (nonempty : ctx.textSegment.size ≠ 0)
      (unwritten : (runCalls (nativeWriter32 host.stdio ctx arguments.baseVaddr)).1 = .fail f) :
      Fails build host arguments .writer32 f

section Messages

variable {build : Build} {host : Host} {arguments : Arguments}

theorem Fails.listed {phase : Phase} {f : Failure} (fails : Fails build host arguments phase f) :
    f ∈ phase.failures := by
  cases fails with
  | @scanLabels infile _ given rejected =>
      cases read : host.files infile with
      | none =>
          rw [read] at rejected
          cases rejected
          exact List.mem_cons_self ..
      | some source =>
          rw [read] at rejected
          exact List.mem_cons_of_mem _ (scanLabels_fail rejected)
  | @assembleFile infile ctx1 _ given scanned rejected =>
      cases read : host.files infile with
      | none =>
          rw [read] at scanned
          cases scanned
      | some source =>
          rw [read] at scanned rejected
          exact assembleFile_code_listed scanned rejected
  | writer32 _ _ unwritten =>
      rcases nativeWriter32_code host.stdio _ arguments.baseVaddr with ok | failed
      · rw [ok] at unwritten
        cases unwritten
      · rw [failed] at unwritten
        cases unwritten
        exact List.mem_cons_self ..

end Messages

end RiscvAs
