/-
Lines read on their own.

A text line is read into its words, or for `la` into code with its symbol left open;
a data line is read into the bytes of its label.  No other line is looked at.
-/

import RiscvAs.Relocation
import RiscvAs.Rv32.Words
import RiscvAs.ExpansionWords
import RiscvAs.PositionIndependence
import RiscvAs.Interleaving
import RiscvAs.Acceptance

namespace RiscvAs

open Stdio
open Bytes (Byte)
open Rv32
open Relocation (Fragment Patch)

def registerOf (build : Build) (text : CString) : Option Reg :=
  match parseRegister build text with
  | .ok value => some (toReg value)
  | .error _ => none

def instrsBytes (instrs : List Instr) : List Byte :=
  (instrs.map wordOf).flatMap wordBytes

theorem instrsBytes_length (instrs : List Instr) :
    (instrsBytes instrs).length = 4 * instrs.length := by
  rw [instrsBytes, wordsBytes_length, List.length_map]

def laPatch (rd : Reg) : Patch Byte where
  size := 8
  emit distance := instrsBytes (laInstrs rd (BitVec.ofInt 32 distance))
  emit_length _ := instrsBytes_length _

def readLa (build : Build) (line : CString) : Option (Fragment CString Byte) :=
  match sscanf formatLa line with
  | [.str rd, .str symbolName] =>
      (registerOf build rd).map (fun rd => .reference symbolName (laPatch rd))
  | _ => none

def readWords (build : Build) (line : CString) : Option (Fragment CString Byte) :=
  match lineWords build (initCtx 0) line 0 with
  | .ok words => some (.code (words.flatMap wordBytes))
  | .error _ => none

def readData (build : Build) (line : CString) : Option (Fragment CString Byte) :=
  (leadingLabel line).bind (fun label =>
    (dataLineBytes build label.2).map (.data (storedName label.1)))

/-- A line on its own. -/
def readFragment (build : Build) (content : Content) : Option (Fragment CString Byte) :=
  if isText content.segment then
    if IsLa content.line then readLa build content.line else readWords build content.line
  else if content.segment = "data".toList then readData build content.line
  else none

def ReadAs (build : Build) (lines : List Content) (fragments : List (Fragment CString Byte)) :
    Prop :=
  List.Forall₂ (fun content fragment => readFragment build content = some fragment) lines fragments

theorem registerOf_eq_some_iff {build : Build} {text : CString} {r : Reg} :
    registerOf build text = some r ↔ Names build text r := by
  unfold registerOf
  constructor
  · intro read
    cases parsed : parseRegister build text with
    | error e =>
        rw [parsed] at read
        cases read
    | ok value =>
        obtain ⟨named, rfl, names⟩ := exists_names parsed
        rw [parsed] at read
        cases read
        rwa [toReg_regByte]
  · intro names
    rw [names.parsed]
    exact congrArg some (toReg_regByte r)

theorem names_of_encode_upper {build : Build} {op : UOp} {instr : Instruction} {first : CString}
    {value : Int} {w : Word} (isFirst : IsField first)
    (record : Record (upperMnemonic op) .U (upperOpcode op) instr)
    (encoded : encode build instr
        ((upperMnemonic op).toList ++ ' ' :: (first ++ ',' :: ' ' :: printInt value))
        (upperMnemonic op).toList = .ok w) : ∃ rd, Names build first rd := by
  obtain ⟨literal, spelled, rfl⟩ := exists_literal_printInt value
  have read := sscanf_formatU (findInstruction_isToken record.found) isFirst build literal
  rw [spelled] at read
  simp only [encode, record.type, read] at encoded
  obtain ⟨done, -, handled⟩ := bind_eq_ok_iff.mp encoded
  obtain ⟨rdVal, parsed, -⟩ := bind_eq_ok_iff.mp handled
  obtain ⟨rd, -, names⟩ := exists_names parsed
  exact ⟨rd, names⟩

theorem expandWith_inv {expansion expansion' : PseudoExpansion} {name : String} {text : CString}
    (expanded : expandWith expansion name text = .ok expansion') :
    ∃ instr text', findInstruction name.toList = some instr ∧
      expansion' = ⟨expansion.lines ++ [(instr, text')]⟩ ∧
      (text.length < lineBufLen → text' = text) := by
  unfold expandWith at expanded
  split at expanded
  · cases expanded
  · rename_i instr found
    unfold pseudoExpansionAdd at expanded
    split at expanded
    · cases expanded
    · cases expanded
      refine ⟨instr, _, found, rfl, fun short => ?_⟩
      have copied : snprintf lineBufLen text = text := List.take_of_length_le (by omega)
      rw [copied, copied]

theorem names_of_expandLaInstr {build : Build} {first : CString} {symbolAddr currentPc : Int}
    {expansion : PseudoExpansion} {words : List Word} (isFirst : IsField first)
    (expanded : expandLaInstr first symbolAddr currentPc .reset = .ok expansion)
    (encoded : encodePseudoInstr build expansion = .ok words) : ∃ rd, Names build first rd := by
  obtain ⟨low, high⟩ := highPart_range (BitVec.ofInt 32 (symbolAddr - currentPc))
  obtain ⟨record, isRecord⟩ := upperRecord .auipc
  have short := printed_upper_short isFirst (by simp only [int32Min]; omega)
    (show (highPart (BitVec.ofInt 32 (symbolAddr - currentPc))).toInt ≤ int32Max by
      simp only [int32Max]; omega) .auipc
  obtain ⟨middle, expandedUpper, expandedLower⟩ := bind_eq_ok_iff.mp expanded
  rw [expandWith_auipc] at expandedUpper
  obtain ⟨instr, text, found, rfl, copied⟩ := expandWith_inv expandedUpper
  obtain rfl : instr = record := Option.some.inj (found.symm.trans isRecord.found)
  obtain ⟨instr', text', -, rfl, -⟩ := expandWith_inv expandedLower
  -- Both lines are encoded, so the first one is.
  rw [encodePseudoInstr_append] at encoded
  obtain ⟨words', encodedUpper, -⟩ := bind_eq_ok_iff.mp encoded
  rw [encodePseudoInstr_append] at encodedUpper
  obtain ⟨start, -, encodedLine⟩ := bind_eq_ok_iff.mp encodedUpper
  obtain ⟨w, encodedWord, -⟩ := map_eq_ok_iff.mp encodedLine
  rw [copied short, findInstruction_name isRecord.found] at encodedWord
  exact names_of_encode_upper isFirst isRecord encodedWord

theorem lineWords_la_eq {build : Build} {line : CString} (la : IsLa line) (ctx : AssemblerCtx)
    (textOffset : Nat) :
    lineWords build ctx line textOffset =
      (expandLa ctx line (getTextVaddr ctx.baseVaddr + BitVec.ofNat 32 textOffset) >>=
        encodePseudoInstr build) := by
  obtain ⟨instr, found, pseudo, name⟩ : ∃ instr, findInstruction "la".toList = some instr ∧
      instr.type = .P ∧ instr.name = "la" := ⟨_, rfl, rfl, rfl⟩
  have instruction := lineInstruction_of_mnemonicOf (la ▸ found)
  have notLi : instr.name ≠ "li" := by
    rw [name]
    decide
  rw [lineWords_of_pseudo instruction pseudo, expandPseudoInstr, if_neg notLi, if_pos name]

theorem lineCount_la_eq {build : Build} {line : CString} (la : IsLa line) (ctx : AssemblerCtx)
    (textOffset : Word) :
    lineCount build ctx line textOffset =
      (expandLa ctx line (getTextVaddr ctx.baseVaddr + textOffset) >>= fun expansion =>
        .ok expansion.count) := by
  obtain ⟨instr, found, pseudo, name⟩ : ∃ instr, findInstruction "la".toList = some instr ∧
      instr.type = .P ∧ instr.name = "la" := ⟨_, rfl, rfl, rfl⟩
  have instruction := lineInstruction_of_mnemonicOf (la ▸ found)
  have notLi : instr.name ≠ "li" := by
    rw [name]
    decide
  simp only [lineCount, instruction, ok_bind, if_pos pseudo, expandPseudoInstr, if_neg notLi,
    if_pos name, pure_eq_ok]

theorem expandLa_ok_iff {ctx : AssemblerCtx} {line : CString} {currentPc : Word}
    {expansion : PseudoExpansion} :
    expandLa ctx line currentPc = .ok expansion ↔
      ∃ rd symbolName offset, sscanf formatLa line = [.str rd, .str symbolName] ∧
        symtableLookup ctx.table symbolName = some offset ∧
        expandLaInstr rd (getDataVaddr ctx ctx.baseVaddr + offset).toNat currentPc.toInt .reset =
          .ok expansion := by
  unfold expandLa
  constructor
  · intro expanded
    split at expanded
    · rename_i rd symbolName scanned
      split at expanded
      · cases expanded
      · rename_i offset looked
        exact ⟨rd, symbolName, offset, scanned, looked, expanded⟩
    · cases expanded
  · rintro ⟨rd, symbolName, offset, scanned, looked, expanded⟩
    simp only [scanned, looked, expanded]

/-- Pass 1 counts two instructions for `la` when the symbol is known. -/
theorem lineCount_la_iff {build : Build} {ctx : AssemblerCtx} {line : CString} {textOffset : Word}
    {count : Nat} (la : IsLa line) :
    lineCount build ctx line textOffset = .ok count ↔
      count = 2 ∧ ∃ rd symbolName, sscanf formatLa line = [.str rd, .str symbolName] ∧
        (symtableLookup ctx.table symbolName).isSome := by
  rw [lineCount_la_eq la, bind_eq_ok_iff]
  constructor
  · rintro ⟨expansion, expanded, counted⟩
    obtain ⟨rd, symbolName, offset, scanned, looked, -⟩ := expandLa_ok_iff.mp expanded
    rw [expandLa_count expanded] at counted
    exact ⟨(Except.ok.inj counted).symm, rd, symbolName, scanned, by rw [looked]; rfl⟩
  · rintro ⟨rfl, rd, symbolName, scanned, known⟩
    obtain ⟨offset, looked⟩ := Option.isSome_iff_exists.mp known
    obtain ⟨expansion, printed⟩ := expandLaInstr_ok rd
      (getDataVaddr ctx ctx.baseVaddr + offset).toNat
      (getTextVaddr ctx.baseVaddr + textOffset).toInt
    have expanded := expandLa_ok_iff.mpr ⟨rd, symbolName, offset, scanned, looked, printed⟩
    exact ⟨expansion, expanded, by rw [expandLa_count expanded]⟩

theorem lineWords_la_iff {build : Build} {ctx : AssemblerCtx} {line : CString} {textOffset : Nat}
    {words : List Word} (la : IsLa line) :
    lineWords build ctx line textOffset = .ok words ↔
      ∃ rdText symbolName rd offset, sscanf formatLa line = [.str rdText, .str symbolName] ∧
        Names build rdText rd ∧ symtableLookup ctx.table symbolName = some offset ∧
        words = (laInstrs rd (getDataVaddr ctx ctx.baseVaddr + offset -
          (getTextVaddr ctx.baseVaddr + BitVec.ofNat 32 textOffset))).map wordOf := by
  constructor
  · intro encoded
    have printed := encoded
    rw [lineWords_la_eq la] at printed
    obtain ⟨expansion, expanded, words'⟩ := bind_eq_ok_iff.mp printed
    obtain ⟨rdText, symbolName, offset, scanned, looked, expandedLines⟩ :=
      expandLa_ok_iff.mp expanded
    obtain ⟨first, after, same, isField, -, -⟩ := firstField_inv scanned
    obtain rfl := Value.str.inj same
    obtain ⟨rd, hRd⟩ := names_of_expandLaInstr isField expandedLines words'
    obtain ⟨offset', looked', decodes⟩ := lineWords_la la scanned hRd encoded
    exact ⟨rdText, symbolName, rd, offset', scanned, hRd, looked', decodes.eq_wordOf⟩
  · rintro ⟨rdText, symbolName, rd, offset, scanned, hRd, looked, rfl⟩
    obtain ⟨first, after, same, isField, -, -⟩ := firstField_inv scanned
    obtain rfl := Value.str.inj same
    obtain ⟨expansion, expanded, words, printed, decodes⟩ := expandLaInstr_encodes isField hRd
      (getDataVaddr ctx ctx.baseVaddr + offset)
      (getTextVaddr ctx.baseVaddr + BitVec.ofNat 32 textOffset)
    rw [lineWords_la_eq la, ← decodes.eq_wordOf]
    exact bind_eq_ok_iff.mpr ⟨expansion,
      expandLa_ok_iff.mpr ⟨rdText, symbolName, offset, scanned, looked, expanded⟩, printed⟩

theorem leadingLabel_of_la {line : CString} (la : IsLa line) : leadingLabel line = none := by
  obtain ⟨instr, found⟩ : ∃ instr, findInstruction "la".toList = some instr := ⟨_, rfl⟩
  exact leadingLabel_of_instruction (lineInstruction_of_mnemonicOf (la ▸ found))

/-! ### What a reading says of its line -/

inductive Reading (build : Build) (content : Content) : Fragment CString Byte → Prop where
  | words {words : List Word} (inText : isText content.segment = true)
      (notLa : ¬ IsLa content.line)
      (encoded : lineWords build (initCtx 0) content.line 0 = .ok words) :
      Reading build content (.code (words.flatMap wordBytes))
  | la {rdText symbolName : CString} {rd : Reg} (inText : isText content.segment = true)
      (isLa : IsLa content.line) (scanned : sscanf formatLa content.line =
        [.str rdText, .str symbolName]) (hRd : Names build rdText rd) :
      Reading build content (.reference symbolName (laPatch rd))
  | data {name rest : CString} {bytes : List Byte} (inData : content.segment = "data".toList)
      (labelled : leadingLabel content.line = some (name, rest))
      (denoted : dataLineBytes build rest = some bytes) :
      Reading build content (.data (storedName name) bytes)

theorem readFragment_eq_some_iff {build : Build} {content : Content}
    {fragment : Fragment CString Byte} :
    readFragment build content = some fragment ↔ Reading build content fragment := by
  constructor
  · intro read
    unfold readFragment at read
    split at read
    · rename_i inText
      split at read
      · rename_i isLa
        unfold readLa at read
        split at read
        · rename_i rdText symbolName scanned
          obtain ⟨rd, named, rfl⟩ := Option.map_eq_some_iff.mp read
          exact .la inText isLa scanned (registerOf_eq_some_iff.mp named)
        · cases read
      · rename_i notLa
        unfold readWords at read
        split at read
        · rename_i words encoded
          cases read
          exact .words inText notLa encoded
        · cases read
    · split at read
      · rename_i inData
        obtain ⟨⟨name, rest⟩, labelled, found⟩ := Option.bind_eq_some_iff.mp read
        obtain ⟨bytes, denoted, rfl⟩ := Option.map_eq_some_iff.mp found
        exact .data inData labelled denoted
      · cases read
  · intro reading
    cases reading with
    | words inText notLa encoded =>
        rw [readFragment, if_pos inText, if_neg notLa, readWords, encoded]
    | la inText isLa scanned hRd =>
        rw [readFragment, if_pos inText, if_pos isLa, readLa, scanned]
        exact Option.map_eq_some_iff.mpr ⟨_, registerOf_eq_some_iff.mpr hRd, rfl⟩
    | data inData labelled denoted =>
        rw [readFragment, inData, not_isText_data, if_neg (by decide), if_pos rfl, readData,
          labelled, Option.bind_some, denoted, Option.map_some]

section TextLine

variable {build : Build} {content : Content} {fragment : Fragment CString Byte}
  (reading : Reading build content fragment) (inText : isText content.segment = true)
  {ctx : AssemblerCtx} (known : ∀ name ∈ fragment.uses, (symtableLookup ctx.table name).isSome)

include reading inText known

theorem Reading.counted (textOffset : Word) :
    leadingLabel content.line = none ∧
      ∃ count, lineCount build ctx content.line textOffset = .ok count := by
  cases reading with
  | @words words _ notLa encoded =>
      obtain ⟨instr, instruction⟩ := lineInstruction_of_lineWords encoded
      exact ⟨leadingLabel_of_instruction instruction, words.length,
        lineCount_of_lineWords notLa encoded⟩
  | @la rdText symbolName rd _ isLa scanned hRd =>
      exact ⟨leadingLabel_of_la isLa, 2, (lineCount_la_iff isLa).mpr ⟨rfl, rdText, symbolName,
        scanned, known symbolName (List.mem_singleton_self symbolName)⟩⟩
  | data inData =>
      rw [inData] at inText
      exact absurd inText (by decide)

theorem Reading.encoded (textOffset : Nat) :
    ∃ words, lineWords build ctx content.line textOffset = .ok words ∧
      4 * words.length = fragment.textSize := by
  cases reading with
  | @words words _ notLa encoded =>
      rw [lineWords_congr build notLa (initCtx 0) ctx 0 textOffset] at encoded
      exact ⟨words, encoded, (wordsBytes_length words).symm⟩
  | @la rdText symbolName rd _ isLa scanned hRd =>
      obtain ⟨offset, looked⟩ :=
        Option.isSome_iff_exists.mp (known symbolName (List.mem_singleton_self symbolName))
      exact ⟨_, (lineWords_la_iff isLa).mpr
        ⟨rdText, symbolName, rd, offset, scanned, hRd, looked, rfl⟩, rfl⟩
  | data inData =>
      rw [inData] at inText
      exact absurd inText (by decide)

end TextLine

end RiscvAs
