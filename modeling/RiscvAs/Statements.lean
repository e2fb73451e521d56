/-
Source programs, as they are written.

A program is a list of statements and of named data.  Each item is printed as one
line, which is read as the fragment of the item: the instructions that a statement
stands for, or the bytes of a value.
-/

import RiscvAs.Linking
import RiscvAs.Canonical
import RiscvAs.Shifts
import RiscvAs.Pairs
import RiscvAs.DataDirectives
import RiscvAs.AddedLabels
import RiscvAs.OperandBlanks

namespace RiscvAs

open Stdio
open Bytes (Byte)
open Rv32
open Relocation (Fragment Patch)

inductive Statement where
  | plain (line : CanonicalLine)
  | shift (line : ShiftLine)
  | li (rd : RegName) (literal : Literal)
  | la (rd : RegName) (symbol : SymbolWord)
  | pair (op : PairOp) (rd rs : RegName)
  | nop

/-- The value of a definition: numbers of one size, a string with a zero byte behind
it, or repeated bytes. -/
inductive DataValue where
  | numbers (directive : CString) (isInteger : isIntegerDirective directive = true)
      (first : DataOperand) (others : List DataOperand)
  | string (directive : CString) (isString : isStringDirective directive = true)
      (text : List Byte)
  | space (count : DataOperand) (fill : Option DataOperand)

structure Definition where
  label : CString
  isName : IsLabelName label
  value : DataValue

inductive Item where
  | text (statement : Statement)
  | data (definition : Definition)

abbrev Program := List Item

def Statement.text : Statement → CString
  | .plain line => line.text
  | .shift line => line.text
  | .li rd literal => liLine rd literal
  | .la rd symbol => "la".toList ++ ' ' :: (rd.text ++ ',' :: ' ' :: symbol.val)
  | .pair op rd rs => op.mnemonic.toList ++ ' ' :: (rd.text ++ ',' :: ' ' :: rs.text)
  | .nop => "nop".toList

def DataValue.directive : DataValue → CString
  | .numbers directive _ _ _ => directive
  | .string directive _ _ => directive
  | .space _ _ => ".space".toList

theorem DataValue.known (value : DataValue) : isDataDirective value.directive = true := by
  cases value with
  | numbers directive isInteger first others =>
      simp [isDataDirective, DataValue.directive, isInteger]
  | string directive isString text =>
      simp [isDataDirective, DataValue.directive, isString]
  | space count fill => rfl

def DataValue.args : DataValue → CString
  | .numbers _ _ first others => operandList (first :: others)
  | .string _ _ text => '"' :: escaped text ++ ['"']
  | .space count fill => operandList (count :: fill.toList)

theorem IsLabelName.short_token {name : CString} (isName : IsLabelName name) :
    name.length ≤ 254 :=
  Nat.le_trans isName.short (by decide)

theorem isspace_of_mem_space : ∀ c ∈ [' '], isspace c = true := by
  simp [isspace]

def Definition.line (definition : Definition) : DataLine where
  label := definition.label
  gap := [' ']
  directive := definition.value.directive
  space := [' ']
  args := definition.value.args
  labelShort := definition.isName.short_token
  labelNoBlank := definition.isName.noBlank
  gapNonempty := List.cons_ne_nil _ _
  gapBlank := isspace_of_mem_space
  known := definition.value.known
  spaceNonempty := List.cons_ne_nil _ _
  spaceBlank := isBlanks_space

def Content.IsItem (content : Content) : Item → Prop
  | .text statement => isText content.segment = true ∧ content.line = statement.text
  | .data definition =>
      content.segment = "data".toList ∧ content.line = definition.line.text

/-- The source has these items, whatever stands between their lines. -/
def Spelled (source : List Char) (program : Program) : Prop :=
  List.Forall₂ Content.IsItem (sourceContents source) program

/-- The instructions of a statement, once the distance of each symbol is known. -/
def Statement.instrs (distance : CString → Word) : Statement → List Instr
  | .plain line => [line.instr]
  | .shift line => [line.instr]
  | .li rd literal => liInstrs rd.number literal.value
  | .la rd symbol => laInstrs rd.number (distance symbol.val)
  | .pair op rd rs => [op.instr rd.number rs.number]
  | .nop => [.imm .addi 0 0 0]

def Statement.fragment : Statement → Fragment CString Byte
  | .plain line => .code (instrsBytes [line.instr])
  | .shift line => .code (instrsBytes [line.instr])
  | .li rd literal => .code (instrsBytes (liInstrs rd.number literal.value))
  | .la rd symbol => .reference symbol.val (laPatch rd.number)
  | .pair op rd rs => .code (instrsBytes [op.instr rd.number rs.number])
  | .nop => .code (instrsBytes [.imm .addi 0 0 0])

theorem Statement.emit_fragment (statement : Statement) (place : CString → Int) (offset : Nat) :
    statement.fragment.emit place offset =
      instrsBytes (statement.instrs (fun name => BitVec.ofInt 32 (place name - offset))) := by
  cases statement <;> rfl

def DataValue.bytes : DataValue → List Byte
  | .numbers directive _ first others =>
      (first :: others).flatMap (fun operand => elementBytes (integerStep directive) operand.value)
  | .string _ _ text => text ++ [0]
  | .space count fill => List.replicate count.value.toNat (BitVec.ofInt 8 (fillOf fill))

def Item.fragment : Item → Fragment CString Byte
  | .text statement => statement.fragment
  | .data definition => .data definition.label definition.value.bytes

def Program.fragments (program : Program) : List (Fragment CString Byte) :=
  program.map Item.fragment

def Statement.InRange : Statement → Prop
  | .plain line => line.InRange
  | .li _ literal => int32Min ≤ literal.value ∧ literal.value ≤ int32Max
  | .shift _ | .la _ _ | .pair _ _ _ | .nop => True

/-- The numbers of a value have the size of its elements, and a count is not negative. -/
def DataValue.Meaningful : DataValue → Prop
  | .numbers directive _ first others =>
      ∀ operand ∈ first :: others, InElement (integerStep directive) operand.value
  | .string _ _ _ => True
  | .space count fill =>
      (0 ≤ count.value ∧ count.value < 2 ^ 63) ∧ 0 ≤ fillOf fill ∧ fillOf fill ≤ 255

/-- The item has a meaning.  An arithmetic shift is left out: its line is assembled to a
logical one. -/
def Item.Meaningful : Item → Prop
  | .text (.shift line) =>
      line.op ≠ .srai ∧ 0 ≤ line.literal.value ∧ line.literal.value ≤ 31
  | .text _ => True
  | .data definition => definition.value.Meaningful

def Item.InRange : Item → Prop
  | .text statement => statement.InRange
  | .data _ => True

/-! ### Reading printed lines -/

section Reading

variable {content : Content}

theorem readFragment_of_words {words : List Word} (inText : isText content.segment = true)
    (notLa : ¬ IsLa content.line)
    (encoded : lineWords .native (initCtx 0) content.line 0 = .ok words) :
    readFragment .native content = some (.code (words.flatMap wordBytes)) :=
  readFragment_eq_some_iff.mpr (.words inText notLa encoded)

theorem readFragment_of_error {e : Failure} (inText : isText content.segment = true)
    (notLa : ¬ IsLa content.line)
    (rejected : lineWords .native (initCtx 0) content.line 0 = .error e) :
    readFragment .native content = none := by
  rw [readFragment, if_pos inText, if_neg notLa, readWords, rejected]

theorem readFragment_of_decodes {words : List Word} {instrs : List Instr}
    (inText : isText content.segment = true) (notLa : ¬ IsLa content.line)
    (encoded : lineWords .native (initCtx 0) content.line 0 = .ok words)
    (decodes : Decodes words instrs) :
    readFragment .native content = some (.code (instrsBytes instrs)) := by
  rw [readFragment_of_words inText notLa encoded, decodes.eq_wordOf]
  rfl

end Reading

theorem mnemonicOf_printed {name : String} {instr : Instruction}
    (found : findInstruction name.toList = some instr) {rest : CString}
    (stops : Stops (fun c => !isspace c) rest) :
    mnemonicOf (name.toList ++ rest) = name.toList := by
  have isToken := findInstruction_isToken found
  have front : Stops isspace (name.toList ++ rest) :=
    (stops_append isToken.nonempty _).mpr (stops_of_rejected isToken.noBlank)
  exact mnemonicOf_eq (skipBlanks_of_stops front) isToken.noBlank stops

theorem not_isLa_printed {name : String} {instr : Instruction}
    (found : findInstruction name.toList = some instr) {rest : CString}
    (stops : Stops (fun c => !isspace c) rest) (other : name.toList ≠ "la".toList) :
    ¬ IsLa (name.toList ++ rest) := by
  rw [IsLa, mnemonicOf_printed found stops]
  exact other

theorem ne_la_of_real {name : String} {instr : Instruction}
    (found : findInstruction name.toList = some instr) (real : instr.type ≠ .P) :
    name.toList ≠ "la".toList := by
  intro same
  rw [same] at found
  cases found
  exact real rfl

theorem findInstruction_la : findInstruction "la".toList = some ⟨"la", 0x17, 0x0, 0x00, .P⟩ := rfl

theorem findInstruction_li : findInstruction "li".toList = some ⟨"li", 0x13, 0x0, 0x00, .P⟩ := rfl

theorem sscanf_formatLa_printed (rd : RegName) (symbol : SymbolWord) :
    sscanf formatLa ("la".toList ++ ' ' :: (rd.text ++ ',' :: ' ' :: symbol.val)) =
      [.str rd.text, .str symbol.val] := by
  obtain ⟨text, nonempty, noBlank⟩ := symbol
  have isToken := findInstruction_isToken findInstruction_la
  have front : Stops isspace text := stops_of_rejected noBlank
  have token : sscanf [.token none] (text ++ []) = [.str text] := by
    rw [sscanf_token _ nonempty noBlank (by simp) (stops_nil _)]
    rfl
  rw [List.append_nil] at token
  rw [formatLa, sscanf_firstField _ isToken rd.isField, skipBlanks_space,
    skipBlanks_of_stops front, token]

section Pair

variable (op : PairOp) (rd rs : RegName)

theorem mnemonicOf_pair :
    mnemonicOf (Statement.pair op rd rs).text = op.mnemonic.toList := by
  obtain ⟨instr, found, -⟩ := op.exists_record
  exact mnemonicOf_printed found (by simp [isspace])

theorem lineWords_pair_printed :
    ∃ words, lineWords .native (initCtx 0) (Statement.pair op rd rs).text 0 = .ok words ∧
      Decodes words [op.instr rd.number rs.number] := by
  obtain ⟨instr, found, -⟩ := op.exists_record
  obtain ⟨target, foundTarget⟩ := op.target_found
  have read := sscanf_formatPair (findInstruction_isToken found) rd.isField rs.isLastField
  have noComma : ',' ∉ rs.text := fun member => rs.isField.noComma ',' member (by simp)
  have short := op.text_short rd.isField.short rs.isField.short
  obtain ⟨w, encoded, decoded⟩ := encode_pair_plain op foundTarget rd.isField rs.isLastField
    (fun _ => noComma) (rd.names .native) (rs.names .native)
  refine ⟨[w], ?_, List.Forall₂.cons decoded List.Forall₂.nil⟩
  have words : (expandWith .reset op.kind.target (op.kind.text rd.text rs.text) >>=
      encodePseudoInstr .native) = .ok [w] := by
    rw [encodePseudoInstr_expandWith foundTarget short, encoded]
    rfl
  rw [lineWords_pair_expand (mnemonicOf_pair op rd rs), ← words]
  simp only [expandPair, Statement.text, read]

end Pair

section Items

variable {content : Content}

/-- A statement in range is read as its fragment, another one is not read at all. -/
theorem Statement.readFragment {statement : Statement}
    (meaningful : (Item.text statement).Meaningful)
    (isItem : content.IsItem (.text statement)) :
    (statement.InRange → RiscvAs.readFragment .native content = some statement.fragment) ∧
      (¬ statement.InRange → RiscvAs.readFragment .native content = none) := by
  obtain ⟨inText, line⟩ := isItem
  cases statement with
  | plain spelled =>
      obtain ⟨instr, encoded⟩ := spelled.exists_encoded .native
      have words : lineWords .native (initCtx 0) content.line 0 =
          (encode .native instr spelled.text spelled.mnemonic.toList).map (fun w => [w]) := by
        rw [line]
        exact lineWords_canonical encoded (initCtx 0) 0
      have notLa : ¬ IsLa content.line := by
        rw [line]
        exact not_isLa_printed encoded.found spelled.stops_operands
          (ne_la_of_real encoded.found encoded.notPseudo)
      constructor
      · intro inRange
        obtain ⟨w, encodedWord, decoded⟩ := encoded.inRange inRange
        rw [encodedWord] at words
        exact readFragment_of_decodes inText notLa words
          (List.Forall₂.cons decoded List.Forall₂.nil)
      · intro outside
        rw [encoded.outside outside] at words
        exact readFragment_of_error inText notLa words
  | shift spelled =>
      obtain ⟨notSrai, low, high⟩ := meaningful
      refine ⟨fun _ => ?_, fun outside => absurd trivial outside⟩
      obtain ⟨instr, record, -⟩ := shiftRecord spelled.op
      have notLa : ¬ IsLa content.line := by
        rw [line]
        exact not_isLa_printed record.found (by simp [isspace])
          (ne_la_of_real record.found (by rw [record.type]; decide))
      have selected : selectedShift spelled.op = spelled.op := by
        cases op : spelled.op with
        | slli | srli => rfl
        | srai => exact absurd op notSrai
      rcases spelled.lineWords_eq .native (initCtx 0) 0 with ⟨outside, -⟩ | ⟨-, w, words, decodes⟩
      · exact absurd ⟨by omega, by omega⟩ outside
      · rw [← show content.line = spelled.text from line] at words
        have decoded := decodes low high
        rw [selected] at decoded
        exact readFragment_of_decodes inText notLa words
          (List.Forall₂.cons decoded List.Forall₂.nil)
  | li rd literal =>
      have notLa : ¬ IsLa content.line := by
        rw [line]
        exact not_isLa_printed findInstruction_li (by simp [isspace]) (by decide)
      constructor
      · rintro ⟨low, high⟩
        obtain ⟨words, encoded, decodes⟩ := lineWords_li_of_range rd literal low high (initCtx 0) 0
        rw [← show content.line = liLine rd literal from line] at encoded
        exact readFragment_of_decodes inText notLa encoded decodes
      · intro outside
        have rejected := lineWords_li_of_not_range rd literal outside (initCtx 0) 0
        rw [← show content.line = liLine rd literal from line] at rejected
        exact readFragment_of_error inText notLa rejected
  | la rd symbol =>
      refine ⟨fun _ => ?_, fun outside => absurd trivial outside⟩
      have isLa : IsLa content.line := by
        rw [line]
        exact mnemonicOf_printed findInstruction_la (by simp [isspace])
      exact readFragment_eq_some_iff.mpr (.la inText isLa
        (line ▸ sscanf_formatLa_printed rd symbol) (rd.names .native))
  | pair op rd rs =>
      refine ⟨fun _ => ?_, fun outside => absurd trivial outside⟩
      obtain ⟨words, encoded, decodes⟩ := lineWords_pair_printed op rd rs
      have notLa : ¬ IsLa content.line := by
        rw [line, IsLa, mnemonicOf_pair op rd rs]
        cases op <;> decide
      rw [← line] at encoded
      exact readFragment_of_decodes inText notLa encoded decodes
  | nop =>
      refine ⟨fun _ => ?_, fun outside => absurd trivial outside⟩
      have notLa : ¬ IsLa content.line := by
        rw [line]
        decide
      have encoded : lineWords .native (initCtx 0) content.line 0 = .ok [0x00000013#32] := by
        rw [line]
        decide
      have decoded : decode 0x00000013#32 = some (.imm .addi 0 0 0) := by decide
      exact readFragment_of_decodes inText notLa encoded
        (List.Forall₂.cons decoded List.Forall₂.nil)

end Items

theorem saturate_count {count : Int} (nonneg : 0 ≤ count) (high : count < 2 ^ 63) :
    saturate 64 count = count := by
  apply saturate_of_range
  · omega
  · omega

theorem DataValue.directiveBytes {value : DataValue} (meaningful : value.Meaningful) :
    RiscvAs.directiveBytes .native value.directive (skipBlanks value.args) =
      some value.bytes := by
  cases value with
  | numbers directive isInteger first others =>
      rw [RiscvAs.directiveBytes, DataValue.directive, if_pos isInteger, DataValue.args,
        tokens_operandList, ← List.map_cons]
      refine integersBytes_operands (integerStep_le _) (first.front :: others) ?_
      intro operand member
      rcases List.mem_cons.mp member with rfl | later
      · exact meaningful first (List.mem_cons_self ..)
      · exact meaningful operand (List.mem_cons_of_mem _ later)
  | string directive isString text =>
      have notInteger : ¬ isIntegerDirective directive = true := by
        rw [(stringDirective_other isString).1]
        decide
      have front : skipBlanks ('"' :: escaped text ++ ['"']) = '"' :: escaped text ++ ['"'] :=
        skipBlanks_of_stops (by simp [isspace])
      rw [RiscvAs.directiveBytes, DataValue.directive, if_neg notInteger, if_pos isString,
        DataValue.args, front]
      exact stringBytes_escaped text
  | space count fill =>
      obtain ⟨⟨nonneg, high⟩, isByte⟩ := meaningful
      have kept : saturate 64 count.front.value = count.value := saturate_count nonneg high
      have notInteger : ¬ isIntegerDirective ".space".toList = true := by decide
      have notString : ¬ isStringDirective ".space".toList = true := by decide
      have size : Build.native.toSize count.value = count.value.toNat := by
        simp only [Build.toSize, Build.longBits]
        rw [Int.emod_eq_of_lt nonneg (by omega)]
      rw [RiscvAs.directiveBytes, DataValue.directive, if_neg notInteger, if_neg notString,
        if_pos rfl, DataValue.args, spaceBytes, tokens_operandList]
      simp only [count.front.tokenValue_text, kept, fillValue_operands isByte, Option.bind_some,
        Option.map_some, size]
      exact if_neg (by omega)

theorem Definition.leadingLabel_text (definition : Definition) :
    leadingLabel definition.line.text = some (definition.label, definition.line.body) := by
  have split : definition.line.text = definition.label ++ ':' :: (' ' :: definition.line.body) := by
    simp [DataLine.text, DataLine.body, Definition.line]
  rw [split, leadingLabel_of_name definition.isName (by simp [isspace]), skipBlanks_space,
    skipBlanks_of_stops definition.line.body_stops]

theorem Definition.denoted {definition : Definition} (meaningful : definition.value.Meaningful) :
    dataLineBytes .native definition.line.body = some definition.value.bytes := by
  rw [dataLineBytes, definition.line.sscanf_body, definition.line.directiveArgs_body]
  exact DataValue.directiveBytes meaningful

/-- A definition is read as its bytes. -/
theorem Definition.readFragment {definition : Definition} {content : Content}
    (meaningful : definition.value.Meaningful) (isItem : content.IsItem (.data definition)) :
    RiscvAs.readFragment .native content =
      some (.data definition.label definition.value.bytes) := by
  obtain ⟨inData, line⟩ := isItem
  have labelled := definition.leadingLabel_text
  rw [← line] at labelled
  have read := readFragment_eq_some_iff.mpr
    (Reading.data inData labelled (Definition.denoted meaningful))
  rwa [definition.isName.storedName_eq] at read

theorem Item.readFragment {item : Item} {content : Content} (meaningful : item.Meaningful)
    (isItem : content.IsItem item) :
    (item.InRange → RiscvAs.readFragment .native content = some item.fragment) ∧
      (¬ item.InRange → RiscvAs.readFragment .native content = none) := by
  cases item with
  | text statement => exact Statement.readFragment meaningful isItem
  | data definition =>
      exact ⟨fun _ => Definition.readFragment meaningful isItem,
        fun outside => absurd trivial outside⟩

/-- A program is read as its fragments when all of its items are in range, and else its
file is not read. -/
theorem readAs_iff {lines : List Content} {program : Program}
    (meaningful : ∀ item ∈ program, item.Meaningful)
    (spelled : List.Forall₂ Content.IsItem lines program)
    (fragments : List (Fragment CString Byte)) :
    ReadAs .native lines fragments ↔
      (∀ item ∈ program, item.InRange) ∧ fragments = Program.fragments program := by
  induction spelled generalizing fragments with
  | nil => simp [ReadAs, Program.fragments]
  | @cons content item lines program isItem rest ih =>
      have first := Item.readFragment (meaningful item (List.mem_cons_self ..)) isItem
      have others := ih fun other member => meaningful other (List.mem_cons_of_mem item member)
      rw [ReadAs, List.forall₂_cons_left_iff]
      constructor
      · rintro ⟨fragment, tail, read, readRest, rfl⟩
        obtain ⟨inRange, rfl⟩ := (others tail).mp readRest
        have here : item.InRange := by
          by_contra outside
          rw [first.2 outside] at read
          cases read
        rw [first.1 here] at read
        obtain rfl := Option.some.inj read
        exact ⟨List.forall_mem_cons.mpr ⟨here, inRange⟩, rfl⟩
      · rintro ⟨inRange, rfl⟩
        obtain ⟨here, later⟩ := List.forall_mem_cons.mp inRange
        exact ⟨_, _, first.1 here, (others _).mpr ⟨later, rfl⟩, rfl⟩

end RiscvAs
