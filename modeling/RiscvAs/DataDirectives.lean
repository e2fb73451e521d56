/-
What `process_segment_data` emits for a well-formed directive.

A data line is a label, a directive and its arguments.  Numbers emit their low
bytes and strings their characters with a zero byte, exactly when the capacity
is not passed.  A `.space` whose count does not fit in `size_t` is measured by
what is left of the count in that type.
-/

import RiscvAs.CommentedData
import RiscvAs.Emission

namespace RiscvAs

open Stdio
open Bytes (Byte)

/-- The line is accepted exactly when the bytes fit, and then they are appended. -/
def Emits (build : Build) (out : Output) (line : CString) (bytes : List Byte) : Prop :=
  ∀ out', processSegmentData build out line = (.ok, out') ↔
    out.dataOffset + bytes.length ≤ out.ctx.dataSegment.capacity ∧ out' = out.appendData bytes

/-- `label: directive args`.  `%255s` reads the label with its colon. -/
structure DataLine where
  label : CString
  gap : CString
  directive : CString
  space : CString
  args : CString
  labelShort : label.length ≤ 254
  labelNoBlank : ∀ c ∈ label, isspace c = false
  gapNonempty : gap ≠ []
  gapBlank : ∀ c ∈ gap, isspace c = true
  known : isDataDirective directive = true
  spaceNonempty : space ≠ []
  spaceBlank : ∀ c ∈ space, c = ' ' ∨ c = '\t'

def DataLine.text (line : DataLine) : CString :=
  line.label ++ ':' :: line.gap ++ line.directive ++ line.space ++ line.args

def DataLine.body (line : DataLine) : CString :=
  line.directive ++ (line.space ++ line.args)

theorem isDataDirective_noBlank {directive : CString} (known : isDataDirective directive = true) :
    directive ≠ [] ∧ ∀ c ∈ directive, isspace c = false := by
  simp only [isDataDirective, isIntegerDirective, isStringDirective, Bool.or_eq_true,
    decide_eq_true_eq] at known
  rcases known with (((rfl | rfl) | rfl) | ((rfl | rfl) | rfl)) | rfl <;> simp [isspace]

section Lines

variable (line : DataLine)

theorem DataLine.space_isspace : ∀ c ∈ line.space, isspace c = true := by
  intro c member
  rcases line.spaceBlank c member with rfl | rfl <;> decide

theorem DataLine.space_stops : Stops (fun c => !isspace c) (line.space ++ line.args) := by
  obtain ⟨c, rest, shape⟩ := List.exists_cons_of_ne_nil line.spaceNonempty
  rw [shape, List.cons_append, stops_cons, line.space_isspace c (by simp [shape])]
  rfl

theorem DataLine.body_stops : Stops isspace line.body := by
  obtain ⟨nonempty, noBlank⟩ := isDataDirective_noBlank line.known
  obtain ⟨c, rest, shape⟩ := List.exists_cons_of_ne_nil nonempty
  rw [body, shape, List.cons_append, stops_cons]
  exact noBlank c (by simp [shape])

theorem DataLine.afterLabel_text : afterLabel (skipBlanks line.text) = line.body := by
  have split : line.text = line.label ++ ':' :: (line.gap ++ line.body) := by
    simp [text, body]
  have front : Stops isspace line.text := by
    rw [split]
    cases shape : line.label with
    | nil => simp [isspace]
    | cons c label =>
        rw [List.cons_append, stops_cons]
        exact line.labelNoBlank c (by simp [shape])
  have stops : Stops (fun c => !isspace c) (line.gap ++ line.body) := by
    obtain ⟨c, rest, shape⟩ := List.exists_cons_of_ne_nil line.gapNonempty
    rw [shape, List.cons_append, stops_cons, line.gapBlank c (by simp [shape])]
    rfl
  have labelled := leadingLabel_append line.labelNoBlank line.labelShort stops
  rw [skipBlanks_of_stops front, split, afterLabel, labelled]
  exact dropWhile_append_stops line.gapBlank line.body_stops

theorem DataLine.sscanf_body : sscanf formatDirective line.body = [.str line.directive] := by
  obtain ⟨nonempty, noBlank⟩ := isDataDirective_noBlank line.known
  have short := isDataDirective_length line.known
  rw [formatDirective, body, sscanf_token [] nonempty noBlank _ line.space_stops]
  · rfl
  · intro width member
    cases member
    rw [nameLen]
    omega

theorem DataLine.directiveArgs_body : directiveArgs line.body = skipBlanks line.args := by
  have span : afterSpan [' ', '\t'] line.body = line.space ++ line.args := by
    apply dropWhile_append_stops
    · intro c member
      have plain := (isDataDirective_noBlank line.known).2 c member
      rw [decide_eq_true_eq, List.mem_cons, List.mem_singleton]
      rintro (rfl | rfl) <;> cases plain
    · obtain ⟨c, rest, shape⟩ := List.exists_cons_of_ne_nil line.spaceNonempty
      rw [shape, List.cons_append, stops_cons]
      rcases line.spaceBlank c (by simp [shape]) with rfl | rfl <;> decide
  rw [directiveArgs, span, skipBlanks, List.dropWhile_append_of_pos line.space_isspace]
  rfl

theorem DataLine.emits {build : Build} {out : Output} {bytes : List Byte}
    (stores : isStringDirective line.directive = true ∨
      out.dataOffset ≤ out.ctx.dataSegment.capacity)
    (denoted : directiveBytes build line.directive (skipBlanks line.args) = some bytes) :
    Emits build out line.text bytes := by
  intro out'
  have denotes : dataLineBytes build (afterLabel (skipBlanks line.text)) = some bytes := by
    rw [line.afterLabel_text, dataLineBytes, line.sscanf_body, line.directiveArgs_body]
    exact denoted
  rw [processSegmentData_ok_iff_of_appends, denotes]
  · simp
  · intro directive args scanned
    rw [line.afterLabel_text, line.sscanf_body] at scanned
    obtain rfl := Value.str.inj (List.cons.inj scanned).1
    rcases stores with isString | bounded
    · have notInteger : ¬ isIntegerDirective line.directive = true := by
        rw [(stringDirective_other isString).1]
        decide
      rw [parseDataDirective, directiveBytes, if_neg notInteger, if_pos isString,
        if_neg notInteger, if_pos isString]
      exact handleDataString_appends _ _ _
    · exact parseDataDirective_appends build _ _ _ _ bounded

end Lines

/-! ### Lists of numbers -/

structure DataOperand where
  before : CString
  literal : Literal
  after : CString
  beforeBlank : ∀ c ∈ before, isspace c = true
  afterBlank : ∀ c ∈ after, isspace c = true

def DataOperand.text (operand : DataOperand) : CString :=
  operand.before ++ (operand.literal.text ++ operand.after)

def DataOperand.value (operand : DataOperand) : Int :=
  operand.literal.value

def DataOperand.front (operand : DataOperand) : DataOperand :=
  { operand with before := [], beforeBlank := by simp }

def operandList (operands : List DataOperand) : CString :=
  [','].intercalate (operands.map DataOperand.text)

section Operands

variable (operand : DataOperand)

theorem DataOperand.text_nonempty : operand.text ≠ [] := by
  obtain ⟨c, rest, shape, -⟩ := operand.literal.text_front
  simp [text, shape]

theorem DataOperand.comma_not_mem : ',' ∉ operand.text := by
  intro member
  rcases List.mem_append.mp member with inBefore | later
  · exact absurd (operand.beforeBlank _ inBefore) (by decide)
  · rcases List.mem_append.mp later with inLiteral | inAfter
    · exact operand.literal.comma_not_mem inLiteral
    · exact absurd (operand.afterBlank _ inAfter) (by decide)

theorem DataOperand.tokenValue_text :
    tokenValue operand.text = some (saturate 64 operand.value) := by
  have skipped : skipBlanks operand.text = operand.literal.text ++ operand.after :=
    dropWhile_append_stops operand.beforeBlank (operand.literal.stops_blank operand.after)
  have ends : EndsLiteral operand.after := endsLiteral_of_blank operand.afterBlank
  have scanned : sscanf formatInteger operand.text = [.int (saturate 64 operand.value)] := by
    rw [formatInteger, sscanf_blank, skipped, sscanf_int_literal _ _ _ _ ends]
    rfl
  rw [tokenValue, scanned]

theorem splitOn_operandList {operands : List DataOperand} (nonempty : operands ≠ []) :
    (operandList operands).splitOn ',' = operands.map DataOperand.text := by
  apply List.splitOn_intercalate
  · intro field member
    obtain ⟨operand, -, rfl⟩ := List.mem_map.mp member
    exact operand.comma_not_mem
  · simpa using nonempty

theorem strtok_operandList {operands : List DataOperand} (nonempty : operands ≠ []) :
    strtok ',' (operandList operands) = operands.map DataOperand.text := by
  rw [strtok, splitOn_operandList nonempty, List.filter_eq_self]
  intro field member
  obtain ⟨operand, -, rfl⟩ := List.mem_map.mp member
  simpa using operand.text_nonempty

theorem skipBlanks_operandList (operands : List DataOperand) :
    skipBlanks (operandList (operand :: operands)) = operandList (operand.front :: operands) := by
  have skipped : ∀ tail, skipBlanks (operand.text ++ tail) = operand.front.text ++ tail := by
    intro tail
    rw [DataOperand.text, List.append_assoc, List.append_assoc, skipBlanks,
      dropWhile_append_stops operand.beforeBlank (operand.literal.stops_blank _)]
    simp [DataOperand.text, DataOperand.front]
  cases operands with
  | nil =>
      have alone := skipped []
      rw [List.append_nil, List.append_nil] at alone
      simpa [operandList] using alone
  | cons next operands =>
      simp only [operandList, List.map_cons, List.intercalate_cons_cons, List.append_assoc]
      exact skipped _

theorem tokens_operandList (operands : List DataOperand) :
    strtok ',' (skipBlanks (operandList (operand :: operands))) =
      operand.front.text :: operands.map DataOperand.text := by
  rw [skipBlanks_operandList, strtok_operandList (List.cons_ne_nil _ _)]
  rfl

end Operands

/-- The value has the element size, signed or unsigned. -/
def InElement (step : Nat) (value : Int) : Prop :=
  -(2 ^ (8 * step - 1) : Int) ≤ value ∧ value < 2 ^ (8 * step)

instance (step : Nat) (value : Int) : Decidable (InElement step value) :=
  inferInstanceAs (Decidable (_ ∧ _))

def elementBytes (step : Nat) (value : Int) : List Byte :=
  Bytes.littleEndian step (value % 2 ^ (8 * step)).toNat

theorem integerBytes_eq {step : Nat} (narrow : step ≤ 8) (value : Int) :
    integerBytes step value = elementBytes step value := by
  have size : (256 : Nat) ^ step = 2 ^ (8 * step) := by
    rw [show 256 = 2 ^ 8 from rfl, ← pow_mul]
  have divides : (2 : Int) ^ (8 * step) ∣ 2 ^ 64 := pow_dvd_pow 2 (by omega)
  have low : (value % 2 ^ 64).toNat % 256 ^ step = (value % 2 ^ (8 * step)).toNat := by
    have wrapped : 0 ≤ value % 2 ^ 64 := Int.emod_nonneg value (by decide)
    have element : ((2 : Int) ^ (8 * step)).toNat = 2 ^ (8 * step) := by
      rw [Int.toNat_pow_of_nonneg (by decide)]
      rfl
    rw [size, ← Int.emod_emod_of_dvd value divides, Int.toNat_emod wrapped (by positivity), element]
  rw [integerBytes, elementBytes, BitVec.toNat_ofInt, ← low, Bytes.littleEndian_mod]
  rfl

theorem integerStep_le (directive : CString) : integerStep directive ≤ 4 := by
  unfold integerStep
  split
  · decide
  · split <;> decide

theorem saturate_of_inElement {step : Nat} {value : Int} (narrow : step ≤ 4)
    (inElement : InElement step value) : saturate 64 value = value := by
  have low : (2 : Int) ^ (8 * step - 1) ≤ 2 ^ 31 := pow_le_pow_right₀ (by decide) (by omega)
  have high : (2 : Int) ^ (8 * step) ≤ 2 ^ 32 := pow_le_pow_right₀ (by decide) (by omega)
  apply saturate_of_range
  · have bound := inElement.1
    omega
  · have bound := inElement.2
    omega

theorem integersBytes_operands {step : Nat} (narrow : step ≤ 4) (operands : List DataOperand)
    (inElement : ∀ operand ∈ operands, InElement step operand.value) :
    integersBytes step (operands.map DataOperand.text) =
      some (operands.flatMap (fun operand => elementBytes step operand.value)) := by
  induction operands with
  | nil => rfl
  | cons operand operands ih =>
      have first := inElement operand (List.mem_cons_self ..)
      have rest := ih fun other member => inElement other (List.mem_cons_of_mem _ member)
      rw [List.map_cons, integersBytes_cons, operand.tokenValue_text,
        saturate_of_inElement narrow first, rest, Option.bind_some, Option.map_some,
        integerBytes_eq (by omega)]
      rfl

theorem integers_emitted {build : Build} {out : Output} {line : DataLine}
    {operands : List DataOperand} (bounded : out.Bounded)
    (isInteger : isIntegerDirective line.directive = true) (nonempty : operands ≠ [])
    (given : line.args = operandList operands)
    (inElement : ∀ operand ∈ operands,
      InElement (integerStep line.directive) operand.value) :
    Emits build out line.text
      (operands.flatMap (fun operand =>
        elementBytes (integerStep line.directive) operand.value)) := by
  apply line.emits (Or.inr (by rw [bounded.dataCapacity]; exact bounded.data))
  obtain ⟨operand, operands, rfl⟩ := List.exists_cons_of_ne_nil nonempty
  rw [directiveBytes, if_pos isInteger, given, tokens_operandList, ← List.map_cons]
  exact integersBytes_operands (integerStep_le _) (operand.front :: operands)
    (fun other member => by
      rcases List.mem_cons.mp member with rfl | later
      · exact inElement operand (List.mem_cons_self ..)
      · exact inElement other (List.mem_cons_of_mem _ later))

/-- The count of a `.space` as `memset` gets it: saturated by the conversion, then of type
`size_t`. -/
def storedCount (build : Build) (count : Int) : Nat :=
  build.toSize (saturate 64 count)

def fillOf (fill : Option DataOperand) : Int :=
  fill.elim 0 DataOperand.value

theorem fillValue_operands {fill : Option DataOperand}
    (isByte : 0 ≤ fillOf fill ∧ fillOf fill ≤ 255) :
    fillValue (fill.toList.map DataOperand.text) = some (fillOf fill) := by
  cases fill with
  | none => rfl
  | some operand =>
      have kept : saturate 64 operand.value = operand.value := by
        apply saturate_of_range
        · exact Int.le_trans (by decide) isByte.1
        · exact Int.le_trans isByte.2 (by decide)
      rw [Option.toList_some, List.map_cons, fillValue, operand.tokenValue_text, kept,
        Option.filter_some]
      exact if_pos (decide_eq_true isByte)

section Space

variable {build : Build} {out : Output} {line : DataLine} {count : DataOperand}
  {fill : Option DataOperand} (bounded : out.Bounded)
  (isSpace : line.directive = ".space".toList)
  (given : line.args = operandList (count :: fill.toList)) (nonneg : 0 ≤ count.value)
  (isByte : 0 ≤ fillOf fill ∧ fillOf fill ≤ 255)

include bounded isSpace given nonneg isByte

theorem space_emitted :
    Emits build out line.text
      (List.replicate (storedCount build count.value) (BitVec.ofInt 8 (fillOf fill))) := by
  apply line.emits (Or.inr (by rw [bounded.dataCapacity]; exact bounded.data))
  have notInteger : ¬ isIntegerDirective line.directive = true := by
    rw [isSpace]
    decide
  have notString : ¬ isStringDirective line.directive = true := by
    rw [isSpace]
    decide
  have counted : ¬ saturate 64 count.value < 0 := by
    simp only [saturate]
    omega
  rw [directiveBytes, if_neg notInteger, if_neg notString, if_pos isSpace, given, spaceBytes,
    tokens_operandList]
  simp only [count.front.tokenValue_text, fillValue_operands isByte, Option.bind_some,
    Option.map_some]
  exact if_neg counted

/-- The count that is stored is the one of the line, or it is cut where it matters. -/
theorem space_emitted_iff :
    Emits build out line.text
        (List.replicate count.value.toNat (BitVec.ofInt 8 (fillOf fill))) ↔
      build = .native ∨ count.value < 2 ^ 32 ∨
        dataSize < out.dataOffset + storedCount .rp2350 count.value := by
  have emitted : Emits build out line.text
      (List.replicate (storedCount build count.value) (BitVec.ofInt 8 (fillOf fill))) :=
    space_emitted bounded isSpace given nonneg isByte
  have capacity := bounded.dataCapacity
  have size : dataSize = 2048 := rfl
  constructor
  · intro emits
    cases build with
    | native => exact Or.inl rfl
    | rp2350 =>
        by_contra cut
        simp only [reduceCtorEq, false_or, not_or] at cut
        have accepted := (emitted _).mpr ⟨by rw [List.length_replicate]; omega, rfl⟩
        have fits := ((emits _).mp accepted).1
        rw [List.length_replicate] at fits
        omega
  · intro kept
    by_cases same : storedCount build count.value = count.value.toNat
    · rwa [same] at emitted
    · intro out'
      -- Both counts are past the capacity.
      have past : dataSize < out.dataOffset + storedCount build count.value ∧
          dataSize < out.dataOffset + count.value.toNat := by
        cases build with
        | native =>
            simp only [storedCount, Build.toSize, Build.longBits, saturate] at same ⊢
            omega
        | rp2350 =>
            simp only [storedCount, Build.toSize, Build.longBits, saturate, reduceCtorEq,
              false_or] at same kept ⊢
            omega
      rw [emitted out', capacity, List.length_replicate, List.length_replicate]
      omega

end Space

/-- Numeric directives emit their values: lists of integers always, and `.space` except where
the count is cut to the 32 bits of `size_t` and what is left of it fits. -/
theorem numbers_emitted_iff (build : Build) (line : DataLine) {out : Output}
    (bounded : out.Bounded) :
    (∀ operands, isIntegerDirective line.directive = true → operands ≠ [] →
      line.args = operandList operands →
      (∀ operand ∈ operands, InElement (integerStep line.directive) operand.value) →
      Emits build out line.text (operands.flatMap (fun operand =>
        elementBytes (integerStep line.directive) operand.value))) ∧
    ∀ count fill, line.directive = ".space".toList →
      line.args = operandList (count :: fill.toList) → 0 ≤ count.value →
      (0 ≤ fillOf fill ∧ fillOf fill ≤ 255) →
      (Emits build out line.text
          (List.replicate count.value.toNat (BitVec.ofInt 8 (fillOf fill))) ↔
        build = .native ∨ count.value < 2 ^ 32 ∨
          dataSize < out.dataOffset + storedCount .rp2350 count.value) := by
  constructor
  · intro operands isInteger nonempty given inElement
    exact integers_emitted bounded isInteger nonempty given inElement
  · intro count fill isSpace given nonneg isByte
    exact space_emitted_iff bounded isSpace given nonneg isByte

def wideSpaceLine : DataLine where
  label := ['v']
  gap := [' ']
  directive := ".space".toList
  space := [' ']
  args := "4294967296".toList
  labelShort := by decide
  labelNoBlank := by simp [isspace]
  gapNonempty := by decide
  gapBlank := by simp [isspace]
  known := by decide
  spaceNonempty := by decide
  spaceBlank := by simp

def wideCount : DataOperand where
  before := []
  literal := ⟨.none, .decimal '4' "294967296".toList (by decide) (by simp [isDigitOf, digitValue])⟩
  after := []
  beforeBlank := by simp
  afterBlank := by simp

theorem bounded_init : (assembleStart (initCtx 0)).2.Bounded :=
  ⟨rfl, rfl, Nat.zero_le _, Nat.zero_le _⟩

theorem wideSpace_not_emitted : ¬ Emits .rp2350 (assembleStart (initCtx 0)).2 wideSpaceLine.text
    (List.replicate 4294967296 0) := by
  rw [show (4294967296 : Nat) = wideCount.value.toNat by rfl]
  intro emits
  have filled : Emits .rp2350 (assembleStart (initCtx 0)).2 wideSpaceLine.text
      (List.replicate wideCount.value.toNat (BitVec.ofInt 8 (fillOf none))) := emits
  have accepted := (space_emitted_iff bounded_init rfl rfl (by decide) (by decide)).mp filled
  revert accepted
  decide

theorem numbers_emitted_wideSpace :
    Emits .native (assembleStart (initCtx 0)).2 wideSpaceLine.text
      (List.replicate wideCount.value.toNat (BitVec.ofInt 8 (fillOf none))) :=
  ((numbers_emitted_iff .native wideSpaceLine bounded_init).2 wideCount none rfl rfl (by decide)
    (by decide)).mpr (Or.inl rfl)

/-! ### Strings -/

/-- `esc` of one byte: the five characters with an escape of their own are written as it. -/
def escapedByte (byte : Byte) : CString :=
  if byte = 0x0a then ['\\', 'n']
  else if byte = 0x09 then ['\\', 't']
  else if byte = 0x0d then ['\\', 'r']
  else if byte = 0x5c then ['\\', '\\']
  else if byte = 0x22 then ['\\', '"']
  else [Char.ofNat byte.toNat]

def escaped (bytes : List Byte) : CString :=
  bytes.flatMap escapedByte

example : escaped [0x61, 0x22, 0x5c, 0x0a] = "a\\\"\\\\\\n".toList := by decide

theorem charByte_ofNat (byte : Byte) : charByte (Char.ofNat byte.toNat) = byte := by
  have valid : byte.toNat.isValidChar := Or.inl (by have bound := byte.isLt; omega)
  rw [charByte, Char.ofNat, dif_pos valid]
  apply BitVec.eq_of_toNat_eq
  rw [BitVec.toNat_ofNat]
  exact Nat.mod_eq_of_lt byte.isLt

theorem units_escapedByte (byte : Byte) (rest : CString) :
    units (escapedByte byte ++ rest) = [byte] :: units rest := by
  unfold escapedByte
  split
  · rename_i newline
    rw [newline]
    rfl
  split
  · rename_i tab
    rw [tab]
    rfl
  split
  · rename_i carriageReturn
    rw [carriageReturn]
    rfl
  split
  · rename_i backslash
    rw [backslash]
    rfl
  split
  · rename_i quote
    rw [quote]
    rfl
  · rename_i notBackslash notQuote
    have plain : Char.ofNat byte.toNat ≠ '\\' := by
      intro same
      have value := charByte_ofNat byte
      rw [same] at value
      exact notBackslash value.symm
    rw [List.singleton_append, units_plain plain, charByte_ofNat]

theorem units_escaped (bytes : List Byte) :
    units (escaped bytes) = bytes.map (fun byte => [byte]) := by
  induction bytes with
  | nil => rfl
  | cons byte bytes ih =>
      rw [escaped, List.flatMap_cons, units_escapedByte, List.map_cons, ← ih]
      rfl

theorem stringBytes_escaped (bytes : List Byte) :
    stringBytes ('"' :: escaped bytes ++ ['"']) = some (bytes ++ [0]) := by
  have quoted : quotedText ('"' :: escaped bytes ++ ['"']) = some (escaped bytes) := by
    rw [quotedText, List.cons_append, afterFirst, if_pos rfl, Option.bind_some]
    exact beforeLast_last (List.not_mem_nil) _
  rw [stringBytes, quoted, Option.map_some, units_escaped, ← List.flatMap_def,
    List.flatMap_singleton']

/-- A quoted string is stored as it was before it was escaped, with a zero byte after it. -/
theorem strings_roundTrip {build : Build} {out : Output} {line : DataLine} {bytes : List Byte}
    (isString : isStringDirective line.directive = true)
    (quoted : line.args = '"' :: escaped bytes ++ ['"']) :
    Emits build out line.text (bytes ++ [0]) := by
  apply line.emits (Or.inl isString)
  have notInteger : ¬ isIntegerDirective line.directive = true := by
    rw [(stringDirective_other isString).1]
    decide
  have front : skipBlanks line.args = line.args := by
    apply skipBlanks_of_stops
    simp [quoted, isspace]
  rw [directiveBytes, if_neg notInteger, if_pos isString, front, quoted]
  exact stringBytes_escaped bytes

def messageLine : DataLine where
  label := "msg".toList
  gap := [' ']
  directive := ".asciz".toList
  space := [' ']
  args := "\"a\\\"\\\\\"".toList
  labelShort := by decide
  labelNoBlank := by simp [isspace]
  gapNonempty := by decide
  gapBlank := by simp [isspace]
  known := by decide
  spaceNonempty := by decide
  spaceBlank := by simp

theorem strings_roundTrip_messageLine :
    Emits .native (assembleStart (initCtx 0)).2 messageLine.text ([0x61, 0x22, 0x5c] ++ [0]) :=
  strings_roundTrip (by decide) (by decide)

end RiscvAs
