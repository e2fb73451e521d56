/-
Blanks around the operands of a line.

A pattern skips the blanks after a comma, but the ones before a comma or after an
opening parenthesis are counted with the register in a field of four characters,
and no blank is skipped before a literal parenthesis.  `Operands.Fits` is the
spacing that is read like the canonical one.
-/

import RiscvAs.LeftoverText
import RiscvAs.ExpansionWords

namespace RiscvAs

open Stdio
open Rv32 (Word Reg)

def IsBlanks (s : CString) : Prop :=
  ∀ c ∈ s, c = ' ' ∨ c = '\t'

abbrev Blanks := {s : CString // IsBlanks s}

def Blanks.none : Blanks := ⟨[], List.forall_mem_nil _⟩

theorem isBlanks_space : IsBlanks [' '] := by
  simp [IsBlanks]

def Blanks.space : Blanks := ⟨[' '], isBlanks_space⟩

/-- The blanks around each comma and parenthesis of a line, and at its end. -/
structure Spacing where
  beforeFirst : Blanks
  afterFirst : Blanks
  beforeSecond : Blanks
  afterSecond : Blanks
  beforeOpen : Blanks
  afterOpen : Blanks
  beforeClose : Blanks
  atEnd : Blanks

def Spacing.canonical : Spacing where
  beforeFirst := Blanks.none
  afterFirst := Blanks.space
  beforeSecond := Blanks.none
  afterSecond := Blanks.space
  beforeOpen := Blanks.none
  afterOpen := Blanks.none
  beforeClose := Blanks.none
  atEnd := Blanks.none

abbrev SymbolWord := {s : CString // s ≠ [] ∧ ∀ c ∈ s, isspace c = false}

inductive Operands where
  | registers (rd rs1 rs2 : RegName)
  | immediate (first second : RegName) (literal : Literal)
  | number (rd : RegName) (literal : Literal)
  | offset (r : RegName) (literal : Literal) (base : RegName)
  | pair (first second : RegName)
  | symbol (rd : RegName) (name : SymbolWord)
  | none

def commaField (r : RegName) (before after : Blanks) (rest : CString) : CString :=
  r.text ++ (before.val ++ ',' :: (after.val ++ rest))

def Operands.text (spacing : Spacing) : Operands → CString
  | .registers rd rs1 rs2 => ' ' :: commaField rd spacing.beforeFirst spacing.afterFirst
      (commaField rs1 spacing.beforeSecond spacing.afterSecond (rs2.text ++ spacing.atEnd.val))
  | .immediate first second literal => ' ' :: commaField first spacing.beforeFirst
      spacing.afterFirst (commaField second spacing.beforeSecond spacing.afterSecond
        (literal.text ++ spacing.atEnd.val))
  | .number rd literal => ' ' :: commaField rd spacing.beforeFirst spacing.afterFirst
      (literal.text ++ spacing.atEnd.val)
  | .offset r literal base => ' ' :: commaField r spacing.beforeFirst spacing.afterFirst
      (literal.text ++ (spacing.beforeOpen.val ++ '(' :: (spacing.afterOpen.val ++
        (base.text ++ spacing.beforeClose.val) ++ ')' :: spacing.atEnd.val)))
  | .pair first second => ' ' :: commaField first spacing.beforeFirst spacing.afterFirst
      (second.text ++ spacing.atEnd.val)
  | .symbol rd name => ' ' :: commaField rd spacing.beforeFirst spacing.afterFirst
      (name.val ++ spacing.atEnd.val)
  | .none => spacing.atEnd.val

def Operands.Matches (instr : Instruction) : Operands → Prop
  | .registers _ _ _ => instr.type = .R
  | .immediate _ _ _ =>
      (instr.type = .I ∧ isLoadStore instr.name.toList = false) ∨ instr.type = .B
  | .number _ _ => instr.type = .U ∨ instr.name = "li"
  | .offset _ _ _ => isLoadStore instr.name.toList = true
  | .pair _ _ => isLoadStore instr.name.toList = true ∨ ∃ op : PairOp, instr.name = op.mnemonic
  | .symbol _ _ => instr.name = "la"
  | .none => instr.type = .Z ∨ instr.name = "nop"

def spacedLine (instr : Instruction) (operands : Operands) (spacing : Spacing) : CString :=
  instr.name.toList ++ operands.text spacing

/-- The spaced line is accepted like the canonical one and leaves the same output. -/
def BlanksIgnored (build : Build) (out : Output) (instr : Instruction) (operands : Operands)
    (spacing : Spacing) : Prop :=
  ∀ out', processSegmentText build out (spacedLine instr operands .canonical) = (.ok, out') →
    processSegmentText build out (spacedLine instr operands spacing) = (.ok, out')

/-- A register fits a field with the blanks that are counted with it. -/
def FitsField (r : RegName) (blanks : Blanks) : Prop :=
  blanks.val.length + r.text.length ≤ registerLen - 1

def Operands.Fits (spacing : Spacing) : Operands → Prop
  | .registers first second _ | .immediate first second _ =>
      FitsField first spacing.beforeFirst ∧ FitsField second spacing.beforeSecond
  | .number first _ | .pair first _ | .symbol first _ => FitsField first spacing.beforeFirst
  | .offset first _ base =>
      FitsField first spacing.beforeFirst ∧ spacing.beforeOpen.val = [] ∧
        FitsField base spacing.afterOpen
  | .none => True

instance (r : RegName) (blanks : Blanks) : Decidable (FitsField r blanks) :=
  inferInstanceAs (Decidable (_ ≤ _))

instance (operands : Operands) (spacing : Spacing) : Decidable (operands.Fits spacing) :=
  match operands with
  | .registers _ _ _ | .immediate _ _ _ => inferInstanceAs (Decidable (_ ∧ _))
  | .number first _ | .pair first _ | .symbol first _ =>
      inferInstanceAs (Decidable (FitsField first spacing.beforeFirst))
  | .offset _ _ _ => inferInstanceAs (Decidable (_ ∧ _ ∧ _))
  | .none => inferInstanceAs (Decidable True)

example : spacedLine ⟨"lw", 0x03, 0x2, 0x00, .I⟩ (.offset .ra ⟨.minus, .octal [] (by simp)⟩ .sp)
    .canonical = "lw ra, -0(sp)".toList := by decide

theorem fitsField_none (r : RegName) : FitsField r Blanks.none := by
  have short := r.isField.short
  simpa [FitsField, Blanks.none] using short

theorem Operands.fits_canonical (operands : Operands) : operands.Fits .canonical := by
  cases operands with
  | registers first second _ => exact ⟨fitsField_none first, fitsField_none second⟩
  | immediate first second _ => exact ⟨fitsField_none first, fitsField_none second⟩
  | number first _ => exact fitsField_none first
  | offset first _ base => exact ⟨fitsField_none first, rfl, fitsField_none base⟩
  | pair first _ => exact fitsField_none first
  | symbol first _ => exact fitsField_none first
  | none => trivial

theorem IsBlanks.blank {s : CString} (blanks : IsBlanks s) : ∀ c ∈ s, isspace c = true := by
  intro c member
  rcases blanks c member with rfl | rfl
  · rfl
  · rfl

theorem IsBlanks.not_mem {s : CString} (blanks : IsBlanks s) {c : Char}
    (notBlank : isspace c = false) : c ∉ s := by
  intro member
  rw [blanks.blank c member] at notBlank
  cases notBlank

theorem skipBlanks_blanks {before : CString} (blanks : IsBlanks before) (rest : CString) :
    skipBlanks (before ++ rest) = skipBlanks rest :=
  List.dropWhile_append_of_pos blanks.blank

theorem RegName.stops_blank (r : RegName) (rest : CString) : Stops isspace (r.text ++ rest) := by
  have skipped := skipBlanks_name (List.forall_mem_nil _) r rest
  rw [List.nil_append] at skipped
  rw [← skipped]
  exact stops_skipBlanks _

theorem registerToken_word {before word after : CString} (blanksBefore : IsBlanks before)
    (noBlank : ∀ c ∈ word, isspace c = false) (blanksAfter : IsBlanks after) :
    registerToken (before ++ (word ++ after)) = word := by
  have inWord : ∀ c ∈ word, decide (c ∉ [' ', '\t', '\r', '\n']) = true := by
    intro c member
    have plain := noBlank c member
    rw [decide_eq_true_eq]
    intro stop
    simp only [List.mem_cons, List.not_mem_nil, or_false] at stop
    rcases stop with rfl | rfl | rfl | rfl <;> cases plain
  rw [registerToken, skipBlanks_blanks blanksBefore]
  cases word with
  | nil =>
      rw [List.nil_append, skipBlanks, List.dropWhile_eq_nil_iff.mpr blanksAfter.blank]
      rfl
  | cons c word =>
      have front : Stops isspace (c :: word ++ after) := by
        simpa using noBlank c (List.mem_cons_self ..)
      rw [skipBlanks_of_stops front]
      apply takeWhile_append_stops inWord
      cases after with
      | nil => exact stops_nil _
      | cons c after =>
          rw [stops_cons]
          rcases blanksAfter c (List.mem_cons_self ..) with rfl | rfl
          · decide
          · decide

theorem RegName.names_spaced (build : Build) (r : RegName) {before after : CString}
    (blanksBefore : IsBlanks before) (blanksAfter : IsBlanks after) :
    Names build (before ++ (r.text ++ after)) r.number :=
  ⟨parseRegister_of_name (registerToken_word blanksBefore r.noBlank blanksAfter)⟩

theorem RegName.names_padded (build : Build) (r : RegName) {after : CString}
    (blanksAfter : IsBlanks after) : Names build (r.text ++ after) r.number :=
  r.names_spaced build (List.forall_mem_nil _) blanksAfter

/-! ### The parts of a spaced line -/

theorem comma_not_mem_padded (r : RegName) (blanks : Blanks) : ',' ∉ r.text ++ blanks.val := by
  intro member
  rcases List.mem_append.mp member with inName | inBlanks
  · exact r.isField.noComma ',' inName (List.mem_singleton_self _)
  · exact blanks.property.not_mem (by rfl) inBlanks

theorem stops_of_noBlank {text : CString} (nonempty : text ≠ [])
    (noBlank : ∀ c ∈ text, isspace c = false) (rest : CString) : Stops isspace (text ++ rest) :=
  (stops_append nonempty rest).mpr (stops_of_rejected noBlank)

theorem fieldOf_commaField (r : RegName) (before after : Blanks) (rest : CString) :
    fieldOf (commaField r before after rest) = r.text ++ before.val := by
  rw [commaField, ← List.append_assoc]
  apply takeWhile_append_stops
  · intro c member
    rw [decide_eq_true_eq]
    rintro rfl
    exact comma_not_mem_padded r before member
  · simp

theorem afterComma_commaField (r : RegName) (before after : Blanks) (rest : CString) :
    afterComma (commaField r before after rest) = skipBlanks rest := by
  have field := fieldOf_commaField r before after rest
  have split := List.takeWhile_append_dropWhile (p := fun c => decide (c ≠ ','))
    (l := commaField r before after rest)
  rw [show List.takeWhile _ _ = _ from field, commaField, ← List.append_assoc] at split
  rw [afterComma, commaField, ← List.append_assoc, List.append_cancel_left split, List.drop_one,
    List.tail_cons, skipBlanks_blanks after.property]

/-- The line begins with a register, blanks and a comma; `rest` is the text after the comma. -/
structure BeginsWith (instr : Instruction) (line : CString) (r : RegName) (before : Blanks)
    (rest : CString) : Prop where
  mnemonic : mnemonicOf line = instr.name.toList
  first : firstOperand line = r.text ++ before.val
  second : secondText line = rest

structure BeginsWithTwo (instr : Instruction) (line : CString) (r : RegName) (before : Blanks)
    (r' : RegName) (before' : Blanks) (rest : CString) : Prop where
  mnemonic : mnemonicOf line = instr.name.toList
  first : firstOperand line = r.text ++ before.val
  middle : middleOperand line = r'.text ++ before'.val
  third : thirdText line = rest

section Parts

variable {instr : Instruction} (known : findInstruction instr.name.toList = some instr)
  {r r' : RegName} {before after before' after' : Blanks} {rest : CString}

include known

theorem parts_of_rest (stops : Stops (fun c => !isspace c) rest) :
    mnemonicOf (instr.name.toList ++ rest) = instr.name.toList ∧
      operandsOf (instr.name.toList ++ rest) = skipBlanks rest := by
  have isToken := findInstruction_isToken known
  have front : skipBlanks (instr.name.toList ++ rest) = instr.name.toList ++ rest :=
    skipBlanks_of_stops (stops_of_noBlank isToken.nonempty isToken.noBlank rest)
  exact ⟨mnemonicOf_eq front isToken.noBlank stops, operandsOf_eq front isToken.noBlank stops⟩

theorem beginsWith (front : Stops isspace rest) :
    BeginsWith instr (instr.name.toList ++ ' ' :: commaField r before after rest) r before
      rest := by
  have stops : Stops (fun c => !isspace c) (' ' :: commaField r before after rest) := by
    simp [isspace]
  obtain ⟨mnemonic, operands⟩ := parts_of_rest known stops
  have frontField : Stops isspace (commaField r before after rest) := r.stops_blank _
  rw [skipBlanks_space, skipBlanks_of_stops frontField] at operands
  refine ⟨mnemonic, ?_, ?_⟩
  · rw [firstOperand_eq, operands, fieldOf_commaField]
  · rw [secondText_eq, operands, afterComma_commaField, skipBlanks_of_stops front]

theorem beginsWithTwo (front : Stops isspace rest) :
    BeginsWithTwo instr (instr.name.toList ++ ' ' ::
      commaField r before after (commaField r' before' after' rest)) r before r' before' rest := by
  have frontField : Stops isspace (commaField r' before' after' rest) := r'.stops_blank _
  obtain ⟨mnemonic, first, second⟩ := beginsWith known frontField
  refine ⟨mnemonic, first, ?_, ?_⟩
  · rw [middleOperand, second, fieldOf_commaField]
  · rw [thirdText, second, afterComma_commaField, skipBlanks_of_stops front]

end Parts

theorem fitsField_iff {r : RegName} {blanks : Blanks} :
    FitsField r blanks ↔ (r.text ++ blanks.val).length ≤ registerLen - 1 := by
  rw [FitsField, List.length_append, Nat.add_comm]

theorem fitsField_of_isRegisterField {build : Build} {r : RegName} {blanks : Blanks}
    (field : IsRegisterField build (r.text ++ blanks.val)) : FitsField r blanks :=
  fitsField_iff.mpr field.short

theorem names_cutField (build : Build) (r : RegName) (atEnd : Blanks) :
    Names build (cutField ['#', '\n'] (r.text ++ atEnd.val)) r.number := by
  have isLast := r.isLastField
  rw [cutField_of_unstopped isLast.noEnd, List.take_of_length_le isLast.short]
  refine r.names_padded build (fun c member => ?_)
  exact atEnd.property c ((List.takeWhile_prefix _).subset (List.mem_of_mem_take member))

theorem scanNumber_padded (literal : Literal) (atEnd : Blanks) :
    scanNumber 0 (literal.text ++ atEnd.val) =
      some (literal.sign.negative, literal.magnitude.value, atEnd.val) :=
  scanNumber_literal literal atEnd.val (endsLiteral_of_blank atEnd.property.blank)

def ReadsAlike (build : Build) (ctx : AssemblerCtx) (textOffset : Nat) (instr : Instruction)
    (operands : Operands) : Prop :=
  ∃ result, ∀ spacing, operands.Fits spacing →
    lineWords build ctx (spacedLine instr operands spacing) textOffset = result

theorem lineWords_real (build : Build) {instr : Instruction} {line : CString}
    (known : findInstruction instr.name.toList = some instr) (real : instr.type ≠ .P)
    (mnemonic : mnemonicOf line = instr.name.toList) (ctx : AssemblerCtx) (textOffset : Nat) :
    lineWords build ctx line textOffset =
      (encode build instr line instr.name.toList).map (fun w => [w]) :=
  lineWords_of_real (lineInstruction_of_mnemonicOf (mnemonic ▸ known)) real

theorem nonempty_of_mnemonic {instr : Instruction} {line : CString}
    (known : findInstruction instr.name.toList = some instr)
    (mnemonic : mnemonicOf line = instr.name.toList) : mnemonicOf line ≠ [] := by
  rw [mnemonic]
  exact (findInstruction_isToken known).nonempty

section Fields

variable {build : Build} {instr : Instruction} {line rest field : CString} {r r' : RegName}
  {before before' : Blanks}

theorem FitsField.reads (build : Build) (fits : FitsField r before) :
    ReadsRegister build (r.text ++ before.val) r.number :=
  ⟨fitsField_iff.mp fits, r.names_padded build before.property⟩

theorem BeginsWith.reads (build : Build) (begins : BeginsWith instr line r before rest)
    (fits : FitsField r before) : ReadsRegister build (firstOperand line) r.number := by
  rw [begins.first]
  exact fits.reads build

theorem BeginsWithTwo.reads (build : Build)
    (begins : BeginsWithTwo instr line r before r' before' rest) (fits : FitsField r before) :
    ReadsRegister build (firstOperand line) r.number := by
  rw [begins.first]
  exact fits.reads build

theorem BeginsWithTwo.readsMiddle (build : Build)
    (begins : BeginsWithTwo instr line r before r' before' rest) (fits : FitsField r' before') :
    ReadsRegister build (middleOperand line) r'.number := by
  rw [begins.middle]
  exact fits.reads build

end Fields

theorem scanNumber_beforeOpen (literal : Literal) (beforeOpen : Blanks) (rest : CString) :
    scanNumber 0 (literal.text ++ (beforeOpen.val ++ '(' :: rest)) =
      some (literal.sign.negative, literal.magnitude.value, beforeOpen.val ++ '(' :: rest) := by
  apply scanNumber_literal
  obtain ⟨blanks, isBlanks⟩ := beforeOpen
  cases blanks with
  | nil =>
      rw [List.nil_append, endsLiteral_cons]
      decide
  | cons c blanks =>
      rw [List.cons_append, endsLiteral_cons]
      rcases isBlanks c (List.mem_cons_self ..) with rfl | rfl
      · decide
      · decide

theorem insideBase_spaced (base : RegName) (afterOpen beforeClose : Blanks) (rest : CString) :
    insideBase (afterOpen.val ++ (base.text ++ beforeClose.val) ++ ')' :: rest) =
      afterOpen.val ++ (base.text ++ beforeClose.val) := by
  apply insideBase_eq
  intro member
  simp only [List.mem_append] at member
  rcases member with inBlanks | inName | inBlanks
  · exact afterOpen.property.not_mem (by rfl) inBlanks
  · exact base.isPlainField.noEnd ')' inName (by decide)
  · exact beforeClose.property.not_mem (by rfl) inBlanks

theorem names_insideBase (build : Build) {base : RegName} {afterOpen : Blanks}
    (fits : FitsField base afterOpen) (beforeClose : Blanks) (rest : CString) :
    Names build ((insideBase (afterOpen.val ++ (base.text ++ beforeClose.val) ++
      ')' :: rest)).take (registerLen - 1)) base.number := by
  rw [insideBase_spaced, ← List.append_assoc, List.take_append, List.take_of_length_le
    (by rw [List.length_append]; exact fits), List.append_assoc]
  apply base.names_spaced build afterOpen.property
  exact fun c member => beforeClose.property c (List.mem_of_mem_take member)

theorem ReadsRegister.isField {build : Build} {line : CString} {r : Reg}
    (first : ReadsRegister build (firstOperand line) r) : IsField (firstOperand line) :=
  isField_of_names first.short first.names

theorem loadStore_real {instr : Instruction}
    (known : findInstruction instr.name.toList = some instr)
    (loadStore : isLoadStore instr.name.toList = true) : instr.type ≠ .P := by
  rcases (instruction_types known).2 loadStore with type | type
  · simp [type]
  · simp [type]

theorem stops_word (blanks : Blanks) : Stops (fun c => !isspace c) blanks.val := by
  obtain ⟨s, isBlanks⟩ := blanks
  cases s with
  | nil => exact stops_nil _
  | cons c s => simpa using isBlanks.blank c (List.mem_cons_self ..)

/-! ### Real instructions -/

section Real

variable (build : Build) {instr : Instruction}
  (known : findInstruction instr.name.toList = some instr) (ctx : AssemblerCtx) (textOffset : Nat)

include known

theorem readsAlike_registers (type : instr.type = .R) (rd rs1 rs2 : RegName) :
    ReadsAlike build ctx textOffset instr (.registers rd rs1 rs2) := by
  refine ⟨.ok [assembleRType instr (regByte rs2.number) (regByte rs1.number)
    (regByte rd.number)], ?_⟩
  rintro spacing ⟨fitsFirst, fitsSecond⟩
  have begins : BeginsWithTwo instr (spacedLine instr (.registers rd rs1 rs2) spacing) _ _ _ _ _ :=
    beginsWithTwo known (rs2.stops_blank _)
  have nonempty := nonempty_of_mnemonic known begins.mnemonic
  have last := names_cutField build rs2 spacing.atEnd
  rw [← begins.third] at last
  rw [lineWords_real build known (by simp [type]) begins.mnemonic,
    encode_rType_eq nonempty type (begins.reads build fitsFirst)
      (begins.readsMiddle build fitsSecond) last]
  rfl

theorem readsAlike_immediate (format : (instr.type = .I ∧ isLoadStore instr.name.toList = false) ∨
    instr.type = .B) (first second : RegName) (literal : Literal) :
    ReadsAlike build ctx textOffset instr (.immediate first second literal) := by
  have reads : ∀ spacing, (Operands.immediate first second literal).Fits spacing →
      ∃ line, line = spacedLine instr (.immediate first second literal) spacing ∧
        mnemonicOf line = instr.name.toList ∧
        ReadsRegister build (firstOperand line) first.number ∧
        ReadsRegister build (middleOperand line) second.number ∧
        scanNumber 0 (thirdText line) =
          some (literal.sign.negative, literal.magnitude.value, spacing.atEnd.val) := by
    rintro spacing ⟨fitsFirst, fitsSecond⟩
    have begins : BeginsWithTwo instr (spacedLine instr (.immediate first second literal) spacing)
        _ _ _ _ _ := beginsWithTwo known (literal.stops_blank _)
    refine ⟨_, rfl, begins.mnemonic, begins.reads build fitsFirst,
      begins.readsMiddle build fitsSecond, ?_⟩
    rw [begins.third, scanNumber_padded]
  rcases format with ⟨type, notLoad⟩ | type
  · apply Exists.intro
    intro spacing fits
    obtain ⟨line, rfl, mnemonic, hRd, hRs1, number⟩ := reads spacing fits
    rw [lineWords_real build known (by simp [type]) mnemonic,
      encode_immediate_eq (nonempty_of_mnemonic known mnemonic) hRd hRs1 number type notLoad]
  · apply Exists.intro
    intro spacing fits
    obtain ⟨line, rfl, mnemonic, hRs1, hRs2, number⟩ := reads spacing fits
    rw [lineWords_real build known (by simp [type]) mnemonic,
      encode_bType_eq (nonempty_of_mnemonic known mnemonic) hRs1 hRs2 number type]

theorem readsAlike_upper (type : instr.type = .U) (rd : RegName) (literal : Literal) :
    ReadsAlike build ctx textOffset instr (.number rd literal) := by
  apply Exists.intro
  intro spacing fits
  have begins : BeginsWith instr (spacedLine instr (.number rd literal) spacing) _ _ _ :=
    beginsWith known (literal.stops_blank _)
  have number := scanNumber_padded literal spacing.atEnd
  rw [← begins.second] at number
  rw [lineWords_real build known (by simp [type]) begins.mnemonic,
    encode_uType_eq (nonempty_of_mnemonic known begins.mnemonic) type (begins.reads build fits)
      number]

theorem readsAlike_offset (loadStore : isLoadStore instr.name.toList = true) (r : RegName)
    (literal : Literal) (base : RegName) :
    ReadsAlike build ctx textOffset instr (.offset r literal base) := by
  obtain ⟨result, encodes⟩ := exists_encode_loadStore build loadStore known r.number base.number
    (saturate build.longBits literal.value)
  refine ⟨result.map (fun w => [w]), ?_⟩
  rintro spacing ⟨fits, noBlank, fitsBase⟩
  have begins : BeginsWith instr (spacedLine instr (.offset r literal base) spacing) _ _ _ :=
    beginsWith known (literal.stops_blank _)
  have number := scanNumber_beforeOpen literal spacing.beforeOpen (spacing.afterOpen.val ++
    (base.text ++ spacing.beforeClose.val) ++ ')' :: spacing.atEnd.val)
  rw [← begins.second, noBlank, List.nil_append] at number
  have names := names_insideBase build fitsBase spacing.beforeClose spacing.atEnd.val
  have scanned := scanOffsetOperands_of_number (nonempty_of_mnemonic known begins.mnemonic)
    (begins.reads build fits).isField number names
  rw [lineWords_real build known (loadStore_real known loadStore) begins.mnemonic,
    encodes _ _ _ scanned (begins.reads build fits).names names]

theorem readsAlike_loadStorePair (loadStore : isLoadStore instr.name.toList = true)
    (r base : RegName) : ReadsAlike build ctx textOffset instr (.pair r base) := by
  obtain ⟨result, encodes⟩ := exists_encode_loadStore build loadStore known r.number base.number 0
  refine ⟨result.map (fun w => [w]), ?_⟩
  intro spacing fits
  have begins : BeginsWith instr (spacedLine instr (.pair r base) spacing) _ _ _ :=
    beginsWith known (base.stops_blank _)
  have names := names_cutField build base spacing.atEnd
  rw [← begins.second] at names
  have scanned := scanOffsetOperands_of_register (nonempty_of_mnemonic known begins.mnemonic)
    (begins.reads build fits).isField names
  rw [lineWords_real build known (loadStore_real known loadStore) begins.mnemonic,
    encodes _ _ _ scanned (begins.reads build fits).names names]

theorem readsAlike_noOperands (type : instr.type = .Z) :
    ReadsAlike build ctx textOffset instr .none := by
  refine ⟨.ok [assembleZType instr], ?_⟩
  intro spacing fits
  have mnemonic : mnemonicOf (spacedLine instr .none spacing) = instr.name.toList :=
    (parts_of_rest known (stops_word spacing.atEnd)).1
  rw [lineWords_real build known (by simp [type]) mnemonic]
  simp only [encode, type, Except.map]

end Real

section Pseudo

variable (build : Build) {instr : Instruction}
  (known : findInstruction instr.name.toList = some instr) (ctx : AssemblerCtx) (textOffset : Nat)

include known

theorem lineWords_pseudo {line : CString} (pseudo : instr.type = .P)
    (mnemonic : mnemonicOf line = instr.name.toList) :
    lineWords build ctx line textOffset =
      (expandPseudoInstr build ctx instr line
        (getTextVaddr ctx.baseVaddr + BitVec.ofNat 32 textOffset) >>= encodePseudoInstr build) :=
  lineWords_of_pseudo (lineInstruction_of_mnemonicOf (mnemonic ▸ known)) pseudo

theorem pseudo_of_name (name : instr.name = "nop" ∨ instr.name = "la") : instr.type = .P := by
  have types : ∀ instr ∈ instructions, instr.name = "nop" ∨ instr.name = "la" →
      instr.type = .P := by
    decide
  exact types instr (List.mem_of_find?_eq_some known) name

theorem readsAlike_nop (name : instr.name = "nop") :
    ReadsAlike build ctx textOffset instr .none := by
  refine ⟨expandNopInstr .reset >>= encodePseudoInstr build, ?_⟩
  intro spacing fits
  have mnemonic : mnemonicOf (spacedLine instr .none spacing) = instr.name.toList :=
    (parts_of_rest known (stops_word spacing.atEnd)).1
  rw [lineWords_pseudo build known ctx textOffset (pseudo_of_name known (Or.inl name)) mnemonic]
  simp [expandPseudoInstr, name]

theorem readsAlike_li (name : instr.name = "li") (rd : RegName) (literal : Literal) :
    ReadsAlike build ctx textOffset instr (.number rd literal) := by
  obtain ⟨words, encodes⟩ := exists_li_words .native rd.number
    (storeLong build (saturate build.longBits literal.value))
  refine ⟨checkImmediate (storeLong build (saturate build.longBits literal.value))
    int32Min int32Max >>= fun _ => .ok words, ?_⟩
  intro spacing fits
  have begins : BeginsWith instr (spacedLine instr (.number rd literal) spacing) _ _ _ :=
    beginsWith known (literal.stops_blank _)
  have first := begins.reads .native fits
  have number := scanNumber_padded literal spacing.atEnd
  rw [← begins.second] at number
  have scanned : sscanf (formatU build) (spacedLine instr (.number rd literal) spacing) =
      [.str (firstOperand (spacedLine instr (.number rd literal) spacing)),
        .int (saturate build.longBits literal.value)] :=
    (sscanf_formatU_iff (nonempty_of_mnemonic known begins.mnemonic)).mpr
      ⟨rfl, nonempty_of_names first.names, first.short, _, _, _, number, rfl⟩
  rw [lineWords_li_eq (begins.mnemonic.trans (by rw [name])), scanned]
  simp only
  rw [liWords, encodes _ first.isField first.names]

theorem readsAlike_la (name : instr.name = "la") (rd : RegName) (symbol : SymbolWord) :
    ReadsAlike build ctx textOffset instr (.symbol rd symbol) := by
  obtain ⟨text, nonempty, noBlank⟩ := symbol
  obtain ⟨result, expands⟩ : ∃ result, ∀ line first,
      sscanf formatLa line = [.str first, .str text] → IsField first → Names build first rd.number →
      (expandLa ctx line (getTextVaddr ctx.baseVaddr + BitVec.ofNat 32 textOffset) >>=
        encodePseudoInstr build) = result := by
    cases looked : symtableLookup ctx.table text with
    | none =>
        refine ⟨.error .symNotFound, ?_⟩
        intro line first scanned isFirst hRd
        simp only [expandLa, scanned, looked, error_bind]
    | some offset =>
        obtain ⟨words, encodes⟩ := exists_la_words build rd.number
          (getDataVaddr ctx ctx.baseVaddr + offset).toNat
          (getTextVaddr ctx.baseVaddr + BitVec.ofNat 32 textOffset).toInt
        refine ⟨.ok words, ?_⟩
        intro line first scanned isFirst hRd
        simp only [expandLa, scanned, looked, encodes first isFirst hRd]
  refine ⟨result, ?_⟩
  intro spacing fits
  have begins : BeginsWith instr (spacedLine instr (.symbol rd ⟨text, nonempty, noBlank⟩) spacing)
      _ _ _ := beginsWith known (stops_of_noBlank nonempty noBlank _)
  have first := begins.reads build fits
  have token : sscanf [.token none] (text ++ spacing.atEnd.val) = [.str text] := by
    rw [sscanf_token _ nonempty noBlank (by simp) (stops_word spacing.atEnd)]
    rfl
  rw [← begins.second] at token
  have scanned : sscanf formatLa (spacedLine instr (.symbol rd ⟨text, nonempty, noBlank⟩) spacing) =
      [.str (firstOperand (spacedLine instr (.symbol rd ⟨text, nonempty, noBlank⟩) spacing)),
        .str text] :=
    (sscanf_firstField_iff (nonempty_of_mnemonic known begins.mnemonic)).mpr
      ⟨rfl, nonempty_of_names first.names, first.short, token⟩
  rw [← expands _ _ scanned first.isField first.names,
    lineWords_pseudo build known ctx textOffset (pseudo_of_name known (Or.inr name))
      begins.mnemonic]
  simp [expandPseudoInstr, name]

theorem readsAlike_pair (op : PairOp) (name : instr.name = op.mnemonic) (first second : RegName) :
    ReadsAlike build ctx textOffset instr (.pair first second) := by
  obtain ⟨target, found⟩ := op.target_found
  obtain ⟨w, encodes⟩ := exists_encode_pair build op found first.number second.number
  refine ⟨.ok [w], ?_⟩
  intro spacing fits
  have begins : BeginsWith instr (spacedLine instr (.pair first second) spacing) _ _ _ :=
    beginsWith known (second.stops_blank _)
  have reads := begins.reads build fits
  have last : Names build (secondField (spacedLine instr (.pair first second) spacing))
      second.number := by
    have names := names_cutField build second spacing.atEnd
    rwa [← begins.second] at names
  have nonempty := nonempty_of_names last
  rw [lineWords_pair (begins.mnemonic.trans (by rw [name])) ctx textOffset found reads.isField
    nonempty, encodes _ _ reads.isField reads.names (secondField_isLast nonempty) ?_ last]
  · rfl
  · intro comma
    have inText : ',' ∈ secondText (spacedLine instr (.pair first second) spacing) :=
      (List.takeWhile_prefix _).subset (List.mem_of_mem_take comma)
    rw [begins.second] at inText
    exact comma_not_mem_padded second spacing.atEnd inText

theorem readsAlike_of_matches {operands : Operands} (matched : operands.Matches instr) :
    ReadsAlike build ctx textOffset instr operands := by
  cases operands with
  | registers rd rs1 rs2 => exact readsAlike_registers build known ctx textOffset matched rd rs1 rs2
  | immediate first second literal =>
      exact readsAlike_immediate build known ctx textOffset matched first second literal
  | number rd literal =>
      rcases matched with type | name
      · exact readsAlike_upper build known ctx textOffset type rd literal
      · exact readsAlike_li build known ctx textOffset name rd literal
  | offset r literal base =>
      exact readsAlike_offset build known ctx textOffset matched r literal base
  | pair first second =>
      rcases matched with loadStore | ⟨op, name⟩
      · exact readsAlike_loadStorePair build known ctx textOffset loadStore first second
      · exact readsAlike_pair build known ctx textOffset op name first second
  | symbol rd name => exact readsAlike_la build known ctx textOffset matched rd name
  | none =>
      rcases matched with type | name
      · exact readsAlike_noOperands build known ctx textOffset type
      · exact readsAlike_nop build known ctx textOffset name

end Pseudo

theorem BeginsWith.fits {instr : Instruction} {line rest : CString} {r : RegName} {before : Blanks}
    (begins : BeginsWith instr line r before rest)
    (short : (firstOperand line).length ≤ registerLen - 1) : FitsField r before := by
  rw [begins.first] at short
  exact fitsField_iff.mpr short

section OneField

variable {build : Build} {instr : Instruction} {ctx : AssemblerCtx} {textOffset : Nat}
  {words : List Word} {line rest : CString} {r : RegName} {before : Blanks}
  (begins : BeginsWith instr line r before rest)
  (encoded : lineWords build ctx line textOffset = .ok words)

include begins encoded

theorem fits_of_li (named : mnemonicOf line = "li".toList) : FitsField r before := by
  rw [lineWords_li_eq named] at encoded
  split at encoded
  · rename_i rd value scanned
    exact begins.fits (firstOperand_short scanned)
  · cases encoded

theorem fits_of_pair (op : PairOp) (named : mnemonicOf line = op.mnemonic.toList) :
    FitsField r before :=
  begins.fits (lineWords_pair_ok named ctx textOffset encoded).1.short

end OneField

section Accepted

variable {build : Build} {instr : Instruction}
  (known : findInstruction instr.name.toList = some instr) {ctx : AssemblerCtx} {textOffset : Nat}
  {words : List Word}

include known

theorem encoded_of_words {line : CString} (real : instr.type ≠ .P)
    (mnemonic : mnemonicOf line = instr.name.toList)
    (encoded : lineWords build ctx line textOffset = .ok words) :
    ∃ w, encode build instr line instr.name.toList = .ok w := by
  rw [lineWords_real build known real mnemonic] at encoded
  obtain ⟨w, result, -⟩ := map_eq_ok_iff.mp encoded
  exact ⟨w, result⟩

variable {line rest : CString} {r r' : RegName} {before before' : Blanks}

section TwoFields

variable (begins : BeginsWithTwo instr line r before r' before' rest)
  (encoded : lineWords build ctx line textOffset = .ok words)

include begins encoded

theorem fits_of_twoFields (format : instr.type = .R ∨
    (instr.type = .I ∧ isLoadStore instr.name.toList = false) ∨ instr.type = .B) :
    FitsField r before ∧ FitsField r' before' := by
  have nonempty := nonempty_of_mnemonic known begins.mnemonic
  have fields : IsRegisterField build (firstOperand line) ∧
      IsRegisterField build (middleOperand line) := by
    rcases format with type | ⟨type, notLoad⟩ | type
    · have accepted := encoded_of_words known (by simp [type]) begins.mnemonic encoded
      obtain ⟨first, second, -⟩ := (encode_rType_ok_iff nonempty type).mp accepted
      exact ⟨first, second⟩
    · have accepted := encoded_of_words known (by simp [type]) begins.mnemonic encoded
      obtain ⟨first, second, -⟩ := (encode_immediate_ok_iff nonempty type notLoad).mp accepted
      exact ⟨first, second⟩
    · have accepted := encoded_of_words known (by simp [type]) begins.mnemonic encoded
      obtain ⟨first, second, -⟩ := (encode_bType_ok_iff nonempty type).mp accepted
      exact ⟨first, second⟩
  rw [begins.first, begins.middle] at fields
  exact ⟨fitsField_of_isRegisterField fields.1, fitsField_of_isRegisterField fields.2⟩

end TwoFields

section OneField

variable (begins : BeginsWith instr line r before rest)
  (encoded : lineWords build ctx line textOffset = .ok words)

include begins encoded

theorem fits_of_upper (type : instr.type = .U) : FitsField r before := by
  have accepted := encoded_of_words known (by simp [type]) begins.mnemonic encoded
  exact begins.fits ((encode_uType_ok_iff (nonempty_of_mnemonic known begins.mnemonic)
    type).mp accepted).1.short

theorem fits_of_loadStore (loadStore : isLoadStore instr.name.toList = true) :
    FitsField r before := by
  have accepted := encoded_of_words known (loadStore_real known loadStore) begins.mnemonic encoded
  exact begins.fits ((encode_loadStore_ok_iff (nonempty_of_mnemonic known begins.mnemonic)
    loadStore known).mp accepted).1.short

theorem fits_of_la (name : instr.name = "la") : FitsField r before := by
  rw [lineWords_pseudo build known ctx textOffset (pseudo_of_name known (Or.inr name))
    begins.mnemonic] at encoded
  obtain ⟨expansion, expanded, -⟩ := bind_eq_ok_iff.mp encoded
  have expandedLa : expandLa ctx line (getTextVaddr ctx.baseVaddr + BitVec.ofNat 32 textOffset) =
      .ok expansion := by
    simpa [expandPseudoInstr, name] using expanded
  unfold expandLa at expandedLa
  split at expandedLa
  · rename_i rd symbol scanned
    exact begins.fits (firstOperand_short scanned)
  · cases expandedLa

end OneField

end Accepted

/-! ### A base that is cut -/

/-- A proper front of a name is not parsed as its register. -/
abbrev RegName.Uncut (build : Build) (name : RegName) : Prop :=
  ∀ count < name.text.length,
    parseRegister build (name.text.take count) ≠ .ok (regByte name.number)

theorem RegName.uncut (build : Build) (name : RegName) : name.Uncut build := by
  have both : name.Uncut .native ∧ name.Uncut .rp2350 := by
    cases name with
    | x n => revert n; decide
    | zero | ra | sp | gp | tp => decide
    | t n => revert n; decide
    | s n => revert n; decide
    | a n => revert n; decide
  cases build with
  | native => exact both.1
  | rp2350 => exact both.2

theorem cutBase_names {build : Build} {base : RegName} {afterOpen : Blanks}
    (cut : ¬ FitsField base afterOpen) {beforeClose : Blanks} {rest : CString} {r : Reg}
    (names : Names build ((insideBase (afterOpen.val ++ (base.text ++ beforeClose.val) ++
      ')' :: rest)).take (registerLen - 1)) r) : r ≠ base.number := by
  have short := base.isField.short
  have positive := List.length_pos_iff.mpr base.isField.nonempty
  rw [FitsField, not_le] at cut
  rw [insideBase_spaced, List.take_append, List.take_append_of_le_length (by omega)] at names
  rintro rfl
  apply base.uncut build (registerLen - 1 - afterOpen.val.length) (by omega)
  rw [← names.parsed]
  apply parseRegister_congr
  have noBlank : ∀ c ∈ base.text.take (registerLen - 1 - afterOpen.val.length), isspace c = false :=
    fun c member => base.noBlank c (List.mem_of_mem_take member)
  have blanks : IsBlanks (afterOpen.val.take (registerLen - 1)) :=
    fun c member => afterOpen.property c (List.mem_of_mem_take member)
  have none : IsBlanks [] := List.forall_mem_nil _
  have alone := registerToken_word none noBlank none
  have after := registerToken_word blanks noBlank none
  rw [List.nil_append, List.append_nil] at alone
  rw [List.append_nil] at after
  rw [alone, after]

theorem readsBase_of_offset {build : Build} {instr : Instruction} {r base : RegName}
    {literal : Literal} {spacing : Spacing}
    (known : findInstruction instr.name.toList = some instr)
    (loadStore : isLoadStore instr.name.toList = true) {ctx : AssemblerCtx} {textOffset : Nat}
    {words : List Word}
    (encoded : lineWords build ctx (spacedLine instr (.offset r literal base) spacing) textOffset =
      .ok words) :
    spacing.beforeOpen.val = [] ∧
      ReadsBase build (secondText (spacedLine instr (.offset r literal base) spacing))
        literal.sign.negative literal.magnitude.value
        (spacing.afterOpen.val ++ (base.text ++ spacing.beforeClose.val) ++
          ')' :: spacing.atEnd.val) := by
  have begins : BeginsWith instr (spacedLine instr (.offset r literal base) spacing) _ _ _ :=
    beginsWith known (literal.stops_blank _)
  have number := scanNumber_beforeOpen literal spacing.beforeOpen (spacing.afterOpen.val ++
    (base.text ++ spacing.beforeClose.val) ++ ')' :: spacing.atEnd.val)
  rw [← begins.second] at number
  have accepted := encoded_of_words known (loadStore_real known loadStore) begins.mnemonic encoded
  obtain ⟨-, ⟨negative, magnitude, rest, reads⟩ | ⟨reg, names⟩⟩ :=
    (encode_loadStore_ok_iff (nonempty_of_mnemonic known begins.mnemonic) loadStore known).mp
      accepted
  · have same := reads.number
    rw [number] at same
    simp only [Option.some.injEq, Prod.mk.injEq] at same
    obtain ⟨rfl, rfl, text⟩ := same
    have noBlank : spacing.beforeOpen.val = [] := by
      cases blanks : spacing.beforeOpen.val with
      | nil => rfl
      | cons c more =>
          rw [blanks, List.cons_append, List.cons.injEq] at text
          have blank := spacing.beforeOpen.property.blank c (by simp [blanks])
          rw [text.1] at blank
          cases blank
    rw [noBlank, List.nil_append, List.cons.injEq] at text
    obtain ⟨-, rfl⟩ := text
    exact ⟨noBlank, reads⟩
  · have none := scanNumber_register (secondText_front _) names.parsed []
    rw [List.append_nil, number] at none
    cases none

section Offset

variable {build : Build} {out out' : Output} {instr : Instruction} {r base : RegName}
  {literal : Literal} {spacing : Spacing}
  (known : findInstruction instr.name.toList = some instr)
  (loadStore : isLoadStore instr.name.toList = true)

include known loadStore

theorem appended_of_offset
    (accepted : processSegmentText build out (spacedLine instr (.offset r literal base) spacing) =
      (.ok, out')) :
    ∃ next rb, (∀ other, out.Appended out' other ↔ other = next) ∧
      baseOffset next = some (rb, literal.value) ∧
      Names build ((insideBase (spacing.afterOpen.val ++ (base.text ++ spacing.beforeClose.val) ++
        ')' :: spacing.atEnd.val)).take (registerLen - 1)) rb := by
  obtain ⟨words, encoded, -, -⟩ := processSegmentText_ok accepted
  have begins : BeginsWith instr (spacedLine instr (.offset r literal base) spacing) _ _ _ :=
    beginsWith known (literal.stops_blank _)
  have first := begins.reads build (fits_of_loadStore known begins encoded loadStore)
  obtain ⟨-, reads⟩ := readsBase_of_offset known loadStore encoded
  obtain ⟨rb, names⟩ := reads.base
  have scanned := scanOffsetOperands_of_number (nonempty_of_mnemonic known begins.mnemonic)
    first.isField reads.number names
  rw [saturate_of_int12 build reads.range] at scanned
  rw [← begins.mnemonic] at loadStore
  obtain ⟨-, -, -, -, room⟩ := processSegmentText_loadStore_ok loadStore accepted
  obtain ⟨out'', next, processed, appended, operands⟩ :=
    processSegmentText_loadStore loadStore room scanned reads.range first.names names
  rw [accepted] at processed
  obtain rfl := (Prod.mk.inj processed).2
  exact ⟨next, rb, appended, operands, names⟩

theorem fitsBase_of_same
    (canonical : processSegmentText build out
      (spacedLine instr (.offset r literal base) .canonical) = (.ok, out'))
    (spaced : processSegmentText build out (spacedLine instr (.offset r literal base) spacing) =
      (.ok, out')) : FitsField base spacing.afterOpen := by
  obtain ⟨next, rb, appended, operands, names⟩ := appended_of_offset known loadStore canonical
  obtain ⟨next', rb', appended', operands', names'⟩ := appended_of_offset known loadStore spaced
  obtain rfl : next = next' := (appended' next).mp ((appended next).mpr rfl)
  rw [operands] at operands'
  obtain ⟨rfl, -⟩ := Prod.mk.inj (Option.some.inj operands')
  have whole := names_insideBase build (fitsField_none base) Spacing.canonical.beforeClose
    Spacing.canonical.atEnd.val
  by_contra cut
  apply cutBase_names cut names'
  have parsed := names.parsed.symm.trans whole.parsed
  have same := congrArg toReg (Except.ok.inj parsed)
  rwa [toReg_regByte, toReg_regByte] at same

end Offset

theorem findInstruction_of_mem {instr : Instruction} (member : instr ∈ instructions) :
    findInstruction instr.name.toList = some instr := by
  have found : ∀ instr ∈ instructions, findInstruction instr.name.toList = some instr := by decide
  exact found instr member

theorem blanksIgnored_of_fits {build : Build} {out : Output} {instr : Instruction}
    (known : findInstruction instr.name.toList = some instr) {operands : Operands}
    (matched : operands.Matches instr) {spacing : Spacing} (fits : operands.Fits spacing) :
    BlanksIgnored build out instr operands spacing := by
  obtain ⟨result, reads⟩ := readsAlike_of_matches build known out.ctx out.textOffset matched
  intro out' accepted
  have same := (reads spacing fits).trans (reads .canonical operands.fits_canonical).symm
  rw [← accepted]
  simp only [processSegmentText, same]

/-- The blanks of an accepted canonical line are ignored exactly when they fit. -/
theorem blanksIgnored_iff (build : Build) (out : Output) (instr : Instruction)
    (member : instr ∈ instructions) (operands : Operands) (matched : operands.Matches instr)
    (spacing : Spacing)
    (accepted : (processSegmentText build out (spacedLine instr operands .canonical)).1 = .ok) :
    BlanksIgnored build out instr operands spacing ↔ operands.Fits spacing := by
  have known := findInstruction_of_mem member
  constructor
  · intro ignored
    have canonical : processSegmentText build out (spacedLine instr operands .canonical) =
        (.ok, (processSegmentText build out (spacedLine instr operands .canonical)).2) :=
      Prod.ext accepted rfl
    have spaced := ignored _ canonical
    obtain ⟨words, encoded, -, -⟩ := processSegmentText_ok spaced
    cases operands with
    | registers rd rs1 rs2 =>
        exact fits_of_twoFields known (beginsWithTwo known (rs2.stops_blank _)) encoded
          (Or.inl matched)
    | immediate first second literal =>
        exact fits_of_twoFields known (beginsWithTwo known (literal.stops_blank _)) encoded
          (Or.inr matched)
    | number rd literal =>
        have begins : BeginsWith instr (spacedLine instr (.number rd literal) spacing) _ _ _ :=
          beginsWith known (literal.stops_blank _)
        rcases matched with type | name
        · exact fits_of_upper known begins encoded type
        · exact fits_of_li begins encoded (begins.mnemonic.trans (by rw [name]))
    | offset r literal base =>
        have begins : BeginsWith instr (spacedLine instr (.offset r literal base) spacing) _ _ _ :=
          beginsWith known (literal.stops_blank _)
        exact ⟨fits_of_loadStore known begins encoded matched,
          (readsBase_of_offset known matched encoded).1,
          fitsBase_of_same known matched canonical spaced⟩
    | pair first second =>
        have begins : BeginsWith instr (spacedLine instr (.pair first second) spacing) _ _ _ :=
          beginsWith known (second.stops_blank _)
        rcases matched with loadStore | ⟨op, name⟩
        · exact fits_of_loadStore known begins encoded loadStore
        · exact fits_of_pair begins encoded op (begins.mnemonic.trans (by rw [name]))
    | symbol rd name =>
        exact fits_of_la known
          (beginsWith known (stops_of_noBlank name.property.1 name.property.2 _)) encoded matched
    | none => trivial
  · exact blanksIgnored_of_fits known matched

theorem blanksIgnored_lw :
    BlanksIgnored .native ⟨initCtx 0, 0, 0⟩ ⟨"lw", 0x03, 0x2, 0x00, .I⟩
      (.offset (.a 0) ⟨.none, .decimal '4' [] (by decide) (by simp; decide)⟩ (.a 1))
      { Spacing.canonical with afterOpen := Blanks.space, beforeClose := Blanks.space } :=
  (blanksIgnored_iff .native ⟨initCtx 0, 0, 0⟩ ⟨"lw", 0x03, 0x2, 0x00, .I⟩ (by decide)
    (.offset (.a 0) ⟨.none, .decimal '4' [] (by decide) (by simp; decide)⟩ (.a 1)) rfl _
    (by decide)).mpr (by decide)

/-- `add zero , a1, a2` is rejected, and `add zero, a1, a2` is not. -/
theorem add_zero_not_ignored :
    (processSegmentText .native ⟨initCtx 0, 0, 0⟩ (spacedLine ⟨"add", 0x33, 0x0, 0x00, .R⟩
        (.registers .zero (.a 1) (.a 2)) .canonical)).1 = .ok ∧
      ¬ BlanksIgnored .native ⟨initCtx 0, 0, 0⟩ ⟨"add", 0x33, 0x0, 0x00, .R⟩
        (.registers .zero (.a 1) (.a 2))
        { Spacing.canonical with beforeFirst := Blanks.space } := by
  have accepted : (processSegmentText .native ⟨initCtx 0, 0, 0⟩ (spacedLine
      ⟨"add", 0x33, 0x0, 0x00, .R⟩ (.registers .zero (.a 1) (.a 2)) .canonical)).1 = .ok := by
    decide
  have rejected : (processSegmentText .native ⟨initCtx 0, 0, 0⟩ (spacedLine
      ⟨"add", 0x33, 0x0, 0x00, .R⟩ (.registers .zero (.a 1) (.a 2))
      { Spacing.canonical with beforeFirst := Blanks.space })).1 = .fail .parseError := by
    decide
  refine ⟨accepted, ?_⟩
  intro ignored
  have spaced := ignored _ (Prod.ext accepted rfl)
  rw [spaced] at rejected
  cases rejected

end RiscvAs
