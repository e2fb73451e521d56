/-
Loads and stores with a base in parentheses.

The first pattern reads `offset(base)`; when it does not give all three values,
the line is read again as a register and a base without an offset.  Both
patterns read at most four characters of the base, so the second one takes the
front of an operand for its base, and the first one may take the front of a
longer text between the parentheses.
-/

import RiscvAs.Pairs
import RiscvAs.RegisterNames

namespace RiscvAs

open Stdio
open Rv32

/-- The operands before a comment. -/
def operandText (line : CString) : CString :=
  (operandsOf line).takeWhile (fun c => c ≠ '#')

def HasBase (text : CString) : Prop :=
  ∃ before inner after, text = before ++ '(' :: (inner ++ ')' :: after)

/-- A base register and the literal before it, as the text spells them. -/
def WritesBase (text : CString) (base : Reg) (offset : Int) : Prop :=
  ∃ (first blanks : CString) (literal : Literal) (inner after : CString) (name : RegName),
    text = first ++ ',' :: (blanks ++ (literal.text ++ '(' :: (inner ++ ')' :: after))) ∧
      ',' ∉ first ∧ (∀ c ∈ blanks, isspace c = true) ∧ literal.value = offset ∧
      Spells inner name ∧ name.number = base

def IsRegisterPair (text : CString) : Prop :=
  ∃ first second name name', text = first ++ ',' :: second ∧ Spells first name ∧ Spells second name'

def baseOffset : Instr → Option (Reg × Int)
  | .load _ _ rs1 imm => some (rs1, imm)
  | .store _ rs1 _ imm => some (rs1, imm)
  | _ => none

/-- The first pattern does not give three values. -/
def TakesRetry (build : Build) (line : CString) : Prop :=
  ∀ reg imm base, sscanf (formatOffset build) line ≠ [.str reg, .int imm, .str base]

/-- An accepted line has the base and the offset that its text spells, if there is a base in
parentheses, and the operands of the second pattern only when its text is `reg, reg`. -/
structure BaseKept (build : Build) (out : Output) (line : CString) : Prop where
  explicit : HasBase (operandText line) → ∀ out', processSegmentText build out line = (.ok, out') →
    ∃ instr base offset, out.Appended out' instr ∧ baseOffset instr = some (base, offset) ∧
      WritesBase (operandText line) base offset
  implicit : ∀ out', processSegmentText build out line = (.ok, out') → TakesRetry build line →
    IsRegisterPair (operandText line)

/-! ### When it does something else -/

def insideBase (rest : CString) : CString :=
  rest.takeWhile (fun c => c ≠ ')')

/-- The second operand does not begin as `number(base`, its first four characters are a register,
and the text is not `reg, reg`. -/
structure RetryLost (build : Build) (line : CString) : Prop where
  notOffset : ∀ negative magnitude rest,
    scanNumber 0 (secondText line) = some (negative, magnitude, '(' :: rest) → insideBase rest = []
  base : ∃ r, Names build (secondField line) r
  notPair : ¬ IsRegisterPair (operandText line)

/-- The second operand begins as `number(base`, the number fits, and of the text between the
parentheses the first four characters are a register; but that text does not spell the
register, or the number is a `0x` without digits. -/
def OffsetLost (build : Build) (line : CString) : Prop :=
  HasBase (operandText line) ∧ ∃ negative magnitude rest r,
    scanNumber 0 (secondText line) = some (negative, magnitude, '(' :: rest) ∧
    IsInt12 (signedValue negative magnitude) ∧
    Names build ((insideBase rest).take (registerLen - 1)) r ∧
    ((∀ name : RegName, name.number = r → ¬ Spells (insideBase rest) name) ∨
      ∃ sign x, (x = 'x' ∨ x = 'X') ∧ secondText line = Sign.text sign ++ '0' :: x :: '(' :: rest)

structure BaseLost (build : Build) (out : Output) (line : CString) : Prop where
  room : out.textOffset + 4 ≤ out.ctx.textSegment.capacity
  short : (firstOperand line).length ≤ registerLen - 1
  first : ∃ r, Names build (firstOperand line) r
  operands : RetryLost build line ∨ OffsetLost build line

theorem scanNumber_nonempty {base : Nat} {s : CString} {read : Bool × Nat × CString}
    (scanned : scanNumber base s = some read) : s ≠ [] := by
  rintro rfl
  cases scanned

theorem sscanf_base_eq (rest : CString) :
    sscanf [.set (registerLen - 1) [')'], .char ')'] rest =
      if insideBase rest = [] then []
      else [.str ((insideBase rest).take (registerLen - 1))] := by
  have same : (fun c : Char => decide (c ∉ [')'])) = fun c => decide (c ≠ ')') := by
    funext c
    simp
  by_cases empty : insideBase rest = []
  · have ran : scanRun (some (registerLen - 1)) (fun c => decide (c ∉ [')'])) rest = none := by
      rw [insideBase] at empty
      rw [scanRun, same, empty]
      rfl
    rw [if_pos empty]
    exact sscanf_fail (by simp only [convert, ran, Option.map_none]) _
  · have nonempty : (insideBase rest).take (registerLen - 1) ≠ [] := by
      intro none
      rcases List.take_eq_nil_iff.mp none with zero | nil
      · exact absurd zero (by decide)
      · exact empty nil
    obtain ⟨after, ran⟩ : ∃ after, scanRun (some (registerLen - 1))
        (fun c => decide (c ∉ [')'])) rest =
          some ((insideBase rest).take (registerLen - 1), after) := by
      rw [scanRun, same]
      exact ⟨_, if_neg nonempty⟩
    have read : convert (.set (registerLen - 1) [')']) rest =
        some ([.str ((insideBase rest).take (registerLen - 1))], after) := by
      simp only [convert, ran, Option.map_some]
    have closing : sscanf [.char ')'] after = [] := by
      cases after with
      | nil => rfl
      | cons c after =>
          by_cases same : c = ')'
          · rw [same, sscanf_char]
            rfl
          · rw [sscanf_char_ne [] same]
    rw [if_neg empty, sscanf_convert read, closing]
    rfl

theorem sscanf_formatOffset_iff {build : Build} {line reg base : CString} {imm : Int}
    (mnemonic : mnemonicOf line ≠ []) :
    sscanf (formatOffset build) line = [.str reg, .int imm, .str base] ↔
      reg = firstOperand line ∧ IsField (firstOperand line) ∧ ∃ negative magnitude rest,
        scanNumber 0 (secondText line) = some (negative, magnitude, '(' :: rest) ∧
        insideBase rest ≠ [] ∧ base = (insideBase rest).take (registerLen - 1) ∧
        imm = saturate build.longBits (signedValue negative magnitude) := by
  constructor
  · intro scanned
    obtain ⟨first, after, same, isField, split, others⟩ := firstField_inv scanned
    cases same
    obtain ⟨firstEq, secondEq⟩ := operandsOf_split isField.noComma split
    obtain ⟨values, left, converted, joined⟩ := sscanf_eq_cons others
    obtain ⟨⟨negative, magnitude, unread⟩, number, read⟩ := Option.map_eq_some_iff.mp converted
    obtain ⟨rfl, rfl⟩ := Prod.mk.inj read
    obtain ⟨rfl, tail⟩ : imm = saturate build.longBits (signedValue negative magnitude) ∧
        sscanf [.char '(', .set (registerLen - 1) [')'], .char ')'] unread = [.str base] := by
      simpa [eq_comm] using joined
    obtain ⟨rest, rfl, last⟩ := sscanf_char_inv tail
    rw [sscanf_base_eq] at last
    split at last
    · cases last
    · rename_i nonempty
      cases last
      rw [firstEq, secondEq]
      exact ⟨rfl, isField, negative, magnitude, rest, number, nonempty, rfl, rfl⟩
  · rintro ⟨rfl, isField, negative, magnitude, rest, number, nonempty, rfl, rfl⟩
    obtain ⟨after, split, secondEq⟩ := operandsOf_comma (scanNumber_nonempty number)
    rw [secondEq] at number
    have converted : convert (.int build.longBits) (skipBlanks after) =
        some ([.int (saturate build.longBits (signedValue negative magnitude))], '(' :: rest) := by
      simp only [convert, number, Option.map_some]
    rw [formatOffset, sscanf_operands mnemonic, split, sscanf_nextField _ isField,
      sscanf_convert converted, sscanf_char, sscanf_base_eq, if_neg nonempty]
    rfl

theorem loadStore_cases {name : CString} (loadStore : isLoadStore name = true) :
    (∃ op, name = (loadMnemonic op).toList) ∨ ∃ op, name = (storeMnemonic op).toList := by
  simp only [isLoadStore, Bool.or_eq_true, decide_eq_true_eq] at loadStore
  rcases loadStore with ((((((rfl | rfl) | rfl) | rfl) | rfl) | rfl) | rfl) | rfl
  · exact Or.inl ⟨.lb, rfl⟩
  · exact Or.inl ⟨.lh, rfl⟩
  · exact Or.inl ⟨.lw, rfl⟩
  · exact Or.inl ⟨.lbu, rfl⟩
  · exact Or.inl ⟨.lhu, rfl⟩
  · exact Or.inr ⟨.sb, rfl⟩
  · exact Or.inr ⟨.sh, rfl⟩
  · exact Or.inr ⟨.sw, rfl⟩

structure EncodedFrom (build : Build) (line reg : CString) (imm : Int) (base : CString) : Prop where
  scanned : scanOffsetOperands build line = .ok (reg, imm, base)
  range : IsInt12 imm
  first : ∃ r, Names build reg r
  second : ∃ r, Names build base r

theorem handleSTypeInstr_ok {build : Build} {instr : Instruction} {first second : CString}
    {imm : Word} {w : Word} (handled : handleSTypeInstr build instr second first imm = .ok w) :
    (∃ r, Names build first r) ∧ ∃ r, Names build second r := by
  obtain ⟨rs2Val, hRs2, rest⟩ := bind_eq_ok_iff.mp handled
  obtain ⟨rs1Val, hRs1, -⟩ := bind_eq_ok_iff.mp rest
  obtain ⟨rs2, -, names⟩ := exists_names hRs2
  obtain ⟨rs1, -, names'⟩ := exists_names hRs1
  exact ⟨⟨rs2, names⟩, rs1, names'⟩

/-- A load or a store is encoded exactly from operands that were scanned and are in range, and
its base and offset are theirs. -/
theorem encode_loadStore {name : CString} (loadStore : isLoadStore name = true) :
    ∃ instr, findInstruction name = some instr ∧ instr.type ≠ .P ∧ ∀ build line,
      (∀ reg imm base rr rb, scanOffsetOperands build line = .ok (reg, imm, base) → IsInt12 imm →
        Names build reg rr → Names build base rb →
        ∃ next, EncodesTo (encode build instr line name) next ∧ baseOffset next = some (rb, imm)) ∧
      ∀ w, encode build instr line name = .ok w → ∃ reg imm base,
        EncodedFrom build line reg imm base := by
  rcases loadStore_cases loadStore with ⟨op, rfl⟩ | ⟨op, rfl⟩
  · obtain ⟨instr, record, isLoadStore, selects⟩ := loadRecord op
    have operands : ∀ build line, scanITypeOperands build line (loadMnemonic op).toList =
        scanOffsetOperands build line := fun build line => if_pos isLoadStore
    refine ⟨instr, record.found, by simp [record.type], fun build line => ⟨?_, ?_⟩⟩
    · intro reg imm base rr rb scanned range hReg hBase
      exact ⟨_, encode_load_of_scanned record selects ((operands build line).trans scanned) hReg
        hBase range.1 range.2, rfl⟩
    · intro w encoded
      cases scanned : scanOffsetOperands build line with
      | error e =>
          rw [encode, record.type] at encoded
          simp only [operands, scanned, error_bind] at encoded
          cases encoded
      | ok read =>
          obtain ⟨reg, imm, base⟩ := read
          obtain ⟨range, first, second⟩ := encode_iType_ok record.type
            ((operands build line).trans scanned) encoded
          exact ⟨reg, imm, base, scanned, range, first, second⟩
  · obtain ⟨instr, record, selects⟩ := storeRecord op
    refine ⟨instr, record.found, by simp [record.type], fun build line => ⟨?_, ?_⟩⟩
    · intro reg imm base rr rb scanned range hReg hBase
      exact ⟨_, encode_store_of_scanned record selects scanned hReg hBase range.1 range.2, rfl⟩
    · intro w encoded
      cases scanned : scanOffsetOperands build line with
      | error e =>
          rw [encode, record.type] at encoded
          simp only [scanned, error_bind] at encoded
          cases encoded
      | ok read =>
          obtain ⟨reg, imm, base⟩ := read
          rw [encode_of_scanSType record.type scanned] at encoded
          obtain ⟨done, checked, handled⟩ := bind_eq_ok_iff.mp encoded
          obtain ⟨first, second⟩ := handleSTypeInstr_ok handled
          exact ⟨reg, imm, base, scanned, checkImmediate_ok_iff.mp checked, first, second⟩

section Lines

variable {build : Build} {out : Output} {line : CString}
  (loadStore : isLoadStore (mnemonicOf line) = true)

include loadStore

theorem loadStore_mnemonic : mnemonicOf line ≠ [] := by
  intro empty
  rw [empty] at loadStore
  exact absurd loadStore (by decide)

theorem processSegmentText_loadStore {reg base : CString} {imm : Int} {rr rb : Reg}
    (room : out.textOffset + 4 ≤ out.ctx.textSegment.capacity)
    (scanned : scanOffsetOperands build line = .ok (reg, imm, base)) (range : IsInt12 imm)
    (hReg : Names build reg rr) (hBase : Names build base rb) :
    ∃ out' next, processSegmentText build out line = (.ok, out') ∧
      (∀ instr, out.Appended out' instr ↔ instr = next) ∧ baseOffset next = some (rb, imm) := by
  obtain ⟨instr, found, notPseudo, encodes⟩ := encode_loadStore loadStore
  obtain ⟨next, ⟨w, encoded, decoded⟩, operands⟩ :=
    (encodes build line).1 reg imm base rr rb scanned range hReg hBase
  have words : lineWords build out.ctx line out.textOffset =
      (encode build instr line instr.name.toList).map (fun w => [w]) :=
    lineWords_of_real (lineInstruction_of_mnemonicOf found) notPseudo
  rw [findInstruction_name found, encoded] at words
  refine ⟨out.appendWords [w], next, processSegmentText_of_words words room, ?_, operands⟩
  intro instr
  rw [out.appended_appendWords_iff, decoded, Option.some.injEq]
  exact eq_comm

/-- What an accepted line was encoded from. -/
theorem processSegmentText_loadStore_ok {out' : Output}
    (accepted : processSegmentText build out line = (.ok, out')) :
    ∃ reg imm base, EncodedFrom build line reg imm base ∧
      out.textOffset + 4 ≤ out.ctx.textSegment.capacity := by
  obtain ⟨instr, found, notPseudo, encodes⟩ := encode_loadStore loadStore
  obtain ⟨words, encoded, room, rfl⟩ := processSegmentText_ok accepted
  rw [lineWords_of_real (lineInstruction_of_mnemonicOf found) notPseudo,
    findInstruction_name found] at encoded
  obtain ⟨w, result, rfl⟩ := map_eq_ok_iff.mp encoded
  obtain ⟨reg, imm, base, encodedFrom⟩ := (encodes build line).2 w result
  exact ⟨reg, imm, base, encodedFrom, room (by simp)⟩

end Lines

theorem hasBase_of_front {text whole : CString} (prefixed : text <+: whole)
    (hasBase : HasBase text) : HasBase whole := by
  obtain ⟨more, rfl⟩ := prefixed
  obtain ⟨before, inner, after, rfl⟩ := hasBase
  exact ⟨before, inner, after ++ more, by simp⟩

theorem hasBase_of_append {first tail : CString} (hasBase : HasBase (first ++ tail))
    (notClosed : ')' ∉ tail) : HasBase first := by
  obtain ⟨before, inner, after, split⟩ := hasBase
  have closed : before ++ '(' :: (inner ++ ')' :: after) =
      (before ++ '(' :: inner) ++ ')' :: after := by simp
  rw [closed] at split
  rcases List.append_eq_append_iff.mp split with ⟨t, -, rest⟩ | ⟨t, whole, rest⟩
  · exact absurd (by rw [rest]; simp) notClosed
  · cases t with
    | nil => exact absurd (by rw [← List.nil_append tail, ← rest]; simp) notClosed
    | cons c t =>
        obtain ⟨rfl, -⟩ := List.cons.inj rest
        exact ⟨before, inner, t, by rw [whole]; simp⟩

theorem Spells.noParen {text : CString} {name : RegName} (spells : Spells text name) :
    '(' ∉ text ∧ ')' ∉ text := by
  obtain ⟨before, after, rfl, blank, blank'⟩ := spells
  have plain : ∀ c ∈ ['(', ')'], c ∉ before ++ (name.text ++ after) := by
    intro c paren member
    have notBlank : isspace c = false := by
      simp only [List.mem_cons, List.not_mem_nil, or_false] at paren
      rcases paren with rfl | rfl <;> decide
    rcases List.mem_append.mp member with first | others
    · rw [blank c first] at notBlank
      cases notBlank
    · rcases List.mem_append.mp others with inName | last
      · apply name.isPlainField.noEnd c inName
        simp only [List.mem_cons, List.not_mem_nil, or_false] at paren ⊢
        tauto
      · rw [blank' c last] at notBlank
        cases notBlank
  exact ⟨plain '(' (by simp), plain ')' (by simp)⟩

/-- The word of a register has no parenthesis in it. -/
theorem noParen_of_names {build : Build} {text : CString} {r : Reg} (names : Names build text r) :
    '(' ∉ registerToken text := by
  intro member
  rcases name_or_loose_of_ok names.parsed with ⟨name, token⟩ | loose
  · rw [token] at member
    exact name.isPlainField.noEnd '(' member (by simp)
  · obtain ⟨-, -, letter, limit, s, blanks, sign, digits, token, known, numeral, -⟩ := loose
    rw [token, numeral.split] at member
    rcases List.mem_cons.mp member with rfl | others
    · cases known
    · rcases List.mem_append.mp others with blank | signed
      · exact absurd (numeral.blank '(' blank) (by decide)
      · rcases List.mem_append.mp signed with inSign | digit
        · cases sign <;> simp [Sign.text] at inSign
        · exact absurd (numeral.decimal '(' digit) (by decide)

/-- A register in four characters leaves no room for parentheses. -/
theorem not_hasBase_of_names {build : Build} {first : CString} {r : Reg}
    (short : first.length ≤ registerLen - 1) (front : Stops isspace first)
    (names : Names build first r) : ¬ HasBase first := by
  rintro ⟨before, inner, after, split⟩
  have long := (parseRegister_ok names.parsed).1
  have noParen := noParen_of_names names
  have stops := stops_dropWhile (fun c => decide (c ∉ [' ', '\t', '\r', '\n'])) first
  have parts : registerToken first ++ first.dropWhile (fun c => c ∉ [' ', '\t', '\r', '\n']) =
      first := by
    rw [registerToken, skipBlanks_of_stops front]
    exact List.takeWhile_append_dropWhile
  generalize registerToken first = token at long noParen parts
  generalize first.dropWhile (fun c => decide (c ∉ [' ', '\t', '\r', '\n'])) = tail at stops parts
  rw [← parts] at split short
  have notStop : ∀ rest, tail ≠ '(' :: rest := by
    rintro rest rfl
    exact absurd ((stops_cons _ '(' rest).mp stops) (by decide)
  rcases List.append_eq_append_iff.mp split with ⟨t, beforeEq, tailEq⟩ | ⟨t, tokenEq, restEq⟩
  · cases t with
    | nil => exact notStop _ tailEq
    | cons c t =>
        rw [tailEq] at short
        simp only [registerLen, List.length_append, List.length_cons] at short
        omega
  · cases t with
    | nil => exact notStop _ (by rw [← List.nil_append tail, ← restEq])
    | cons c t =>
        obtain ⟨rfl, -⟩ := List.cons.inj restEq
        exact noParen (by rw [tokenEq]; simp)

theorem hexDigit_plain {c : Char} (digit : isDigitOf 16 c = true) :
    c ≠ '#' ∧ c ≠ ')' := by
  refine ⟨?_, ?_⟩ <;>
    · rintro rfl
      exact absurd digit (by decide)

/-- What `%li` has read is neither the end of the operands nor a parenthesis. -/
structure NumberText (number : CString) : Prop where
  noComment : '#' ∉ number
  noParen : ')' ∉ number

theorem numberText_magnitude (magnitude : Magnitude) : NumberText magnitude.text := by
  have digits : ∀ (base : Nat) (run : CString), base ≤ 16 → (∀ c ∈ run, isDigitOf base c = true) →
      '#' ∉ run ∧ ')' ∉ run := fun base run le all =>
    ⟨fun member => (hexDigit_plain (isDigitOf_mono le (all _ member))).1 rfl,
      fun member => (hexDigit_plain (isDigitOf_mono le (all _ member))).2 rfl⟩
  cases magnitude with
  | decimal first run nonzero decimalDigits =>
      obtain ⟨noComment, noParen⟩ := digits 10 _ (by decide) decimalDigits
      exact ⟨noComment, noParen⟩
  | hex x run marker nonempty hexDigits =>
      obtain ⟨noComment, noParen⟩ := digits 16 _ (by decide) hexDigits
      constructor <;> rcases marker with rfl | rfl <;> simp [Magnitude.text, noComment, noParen]
  | octal run octalDigits =>
      obtain ⟨noComment, noParen⟩ := digits 8 _ (by decide) octalDigits
      constructor <;> simp [Magnitude.text, noComment, noParen]

theorem numberText_sign (sign : Sign) : NumberText sign.text := by
  cases sign <;> constructor <;> decide

theorem NumberText.append {first second : CString} (hFirst : NumberText first)
    (hSecond : NumberText second) : NumberText (first ++ second) :=
  ⟨by simp [hFirst.noComment, hSecond.noComment], by simp [hFirst.noParen, hSecond.noParen]⟩

theorem exists_numberText {s rest : CString} {negative : Bool} {magnitude : Nat}
    (front : Stops isspace s) (read : scanNumber 0 s = some (negative, magnitude, '(' :: rest)) :
    ∃ number, s = number ++ '(' :: rest ∧ NumberText number := by
  rcases scanNumber_zero_inv read with ⟨literal, text, -⟩ | ⟨sign, x, marker, text, -⟩
  · rw [skipBlanks_of_stops front] at text
    exact ⟨literal.text, text, (numberText_sign _).append (numberText_magnitude _)⟩
  · rw [skipBlanks_of_stops front] at text
    refine ⟨sign.text ++ ['0', x], by rw [text]; simp, (numberText_sign sign).append ?_⟩
    rcases marker with rfl | rfl <;> constructor <;> decide

theorem insideBase_eq {inner : CString} (noParen : ')' ∉ inner) (after : CString) :
    insideBase (inner ++ ')' :: after) = inner := by
  apply takeWhile_append_stops
  · intro c member
    rw [decide_eq_true_eq]
    rintro rfl
    exact noParen member
  · simp

section Text

variable {line rest : CString} {negative : Bool} {magnitude : Nat}
  (read : scanNumber 0 (secondText line) = some (negative, magnitude, '(' :: rest))

include read

/-- Where the base of the first pattern stands in the operands. -/
theorem operandText_of_offset (notInFirst : ¬ HasBase (firstOperand line))
    (hasBase : HasBase (operandText line)) :
    ∃ blanks number after, (∀ c ∈ blanks, isspace c = true) ∧
      secondText line = number ++ '(' :: rest ∧
      operandText line = firstOperand line ++
        ',' :: (blanks ++ (number ++ '(' :: (insideBase rest ++ ')' :: after))) := by
  obtain ⟨after, split, secondEq⟩ := operandsOf_comma (scanNumber_nonempty read)
  obtain ⟨blanks, second, rfl, blank, stops⟩ := takeWhile_decompose isspace after
  have skipped : skipBlanks (blanks ++ second) = second := dropWhile_append_stops blank stops
  rw [skipped] at secondEq
  rw [secondEq] at read
  obtain ⟨number, rfl, isNumber⟩ := exists_numberText stops read
  have commentBlank : ∀ c ∈ blanks, decide (c ≠ '#') = true := by
    intro c member
    rw [decide_eq_true_eq]
    rintro rfl
    exact absurd (blank '#' member) (by decide)
  have commentNumber : ∀ c ∈ number, decide (c ≠ '#') = true := by
    intro c member
    rw [decide_eq_true_eq]
    rintro rfl
    exact isNumber.noComment member
  have text : operandText line = firstOperand line ++
      ',' :: (blanks ++ (number ++ '(' :: rest.takeWhile (fun c => c ≠ '#'))) := by
    rw [operandText, split, List.takeWhile_append] at hasBase ⊢
    split at hasBase
    · rename_i whole
      rw [if_pos whole, List.takeWhile_cons_of_pos (by decide),
        List.takeWhile_append_of_pos commentBlank, List.takeWhile_append_of_pos commentNumber,
        List.takeWhile_cons_of_pos (by decide)]
    · exact absurd (hasBase_of_front (List.takeWhile_prefix _) hasBase) notInFirst
  have closed : ')' ∈ rest.takeWhile (fun c => c ≠ '#') := by
    by_contra notClosed
    rw [text] at hasBase
    refine notInFirst (hasBase_of_append hasBase ?_)
    have blanksOpen : ')' ∉ blanks := fun member => absurd (blank ')' member) (by decide)
    simp only [List.mem_cons, List.mem_append, not_or]
    exact ⟨by decide, blanksOpen, isNumber.noParen, by decide, notClosed⟩
  obtain ⟨inner, after, inside, noParen⟩ := List.eq_append_cons_of_mem closed
  have whole : insideBase rest = inner := by
    have parts := (List.takeWhile_append_dropWhile (p := fun c => decide (c ≠ '#'))
      (l := rest)).symm
    rw [inside, List.append_assoc, List.cons_append] at parts
    rw [parts, insideBase_eq noParen]
  refine ⟨blanks, number, after, blank, secondEq, ?_⟩
  rw [text, inside, whole]

/-- The base and the literal that the text spells are those of the first pattern. -/
theorem writesBase_of_offset {base : Reg} {offset : Int}
    (writes : WritesBase (operandText line) base offset) :
    offset = signedValue negative magnitude ∧
      (∃ name : RegName, name.number = base ∧ Spells (insideBase rest) name) ∧
      ∃ literal : Literal, secondText line = literal.text ++ '(' :: rest := by
  obtain ⟨first, blanks, literal, inner, after, name, text, noComma, blank,
    value, spells, number⟩ :=
    writes
  have parts := (List.takeWhile_append_dropWhile (p := fun c => decide (c ≠ '#'))
    (l := operandsOf line)).symm
  rw [show (operandsOf line).takeWhile (fun c => decide (c ≠ '#')) = operandText line from rfl,
    text] at parts
  generalize (operandsOf line).dropWhile (fun c => decide (c ≠ '#')) = more at parts
  have second : secondText line = literal.text ++ '(' :: (inner ++ ')' :: (after ++ more)) := by
    have split : operandsOf line = first ++ ',' :: (blanks ++
        (literal.text ++ '(' :: (inner ++ ')' :: (after ++ more)))) := by
      rw [parts]
      simp
    have noComma' : ∀ c ∈ first, c ∉ [','] := by
      intro c member comma
      rw [List.mem_singleton.mp comma] at member
      exact noComma member
    rw [(operandsOf_split noComma' split).2]
    exact dropWhile_append_stops blank (literal.stops_blank _)
  rw [second, scanNumber_literal literal _ (by simp; decide)] at read
  obtain ⟨rfl, rfl, restEq⟩ : literal.sign.negative = negative ∧
    literal.magnitude.value = magnitude ∧
      inner ++ ')' :: (after ++ more) = rest := by simpa using read
  subst restEq
  refine ⟨value.symm, ⟨name, number, ?_⟩, literal, second⟩
  rw [insideBase_eq spells.noParen.2]
  exact spells

end Text

theorem not_hasBase_of_pair {text : CString} (pair : IsRegisterPair text) : ¬ HasBase text := by
  obtain ⟨first, second, name, name', rfl, spells, spells'⟩ := pair
  rintro ⟨before, inner, after, split⟩
  have member : '(' ∈ first ++ ',' :: second := by
    rw [split]
    simp
  simp only [List.mem_append, List.mem_cons] at member
  rcases member with inFirst | comma | inSecond
  · exact spells.noParen.1 inFirst
  · cases comma
  · exact spells'.noParen.1 inSecond

/-! ### Which lines keep their base -/

section Scanned

variable {build : Build} {line reg base : CString} {imm : Int}

theorem scanOffsetOperands_of_first
    (scanned : sscanf (formatOffset build) line = [.str reg, .int imm, .str base]) :
    scanOffsetOperands build line = .ok (reg, imm, base) := by
  simp only [scanOffsetOperands, scanned]

theorem scanOffsetOperands_of_retry (retry : TakesRetry build line)
    (scanned : sscanf formatPair line = [.str reg, .str base]) :
    scanOffsetOperands build line = .ok (reg, 0, base) := by
  unfold scanOffsetOperands
  split
  · rename_i reg' imm' base' first
    exact absurd first (retry reg' imm' base')
  · simp only [scanned]

theorem scanOffsetOperands_cases (scanned : scanOffsetOperands build line = .ok (reg, imm, base)) :
    sscanf (formatOffset build) line = [.str reg, .int imm, .str base] ∨
      (TakesRetry build line ∧ sscanf formatPair line = [.str reg, .str base]) := by
  unfold scanOffsetOperands at scanned
  split at scanned
  · rename_i first
    cases scanned
    exact Or.inl first
  · rename_i retry
    split at scanned
    · rename_i pair
      cases scanned
      exact Or.inr ⟨retry, pair⟩
    · cases scanned

end Scanned

theorem nonempty_of_names {build : Build} {text : CString} {r : Reg} (names : Names build text r) :
    text ≠ [] := by
  rintro rfl
  have token := (parseRegister_ok names.parsed).1
  exact absurd token (by decide)

theorem saturate_of_int12 (build : Build) {value : Int} (range : IsInt12 value) :
    saturate build.longBits value = value := by
  simp only [IsInt12, int12Min, int12Max] at range
  exact saturate_longBits build (by omega) (by omega)

theorem int12_of_saturate (build : Build) {value : Int}
    (range : IsInt12 (saturate build.longBits value)) : IsInt12 value :=
  (saturate_longBits_iff build (by decide) (by decide)).mp range

section Kept

variable {build : Build} {out : Output} {line : CString}
  (loadStore : isLoadStore (mnemonicOf line) = true)

include loadStore

theorem pair_of_retry (notLost : ¬ BaseLost build out line) {reg base : CString} {imm : Int}
    (encoded : EncodedFrom build line reg imm base)
    (room : out.textOffset + 4 ≤ out.ctx.textSegment.capacity) (retry : TakesRetry build line)
    (scanned : sscanf formatPair line = [.str reg, .str base]) :
    IsRegisterPair (operandText line) := by
  obtain ⟨first, second, isField, nonempty⟩ := sscanf_formatPair_inv scanned
  obtain ⟨rfl, rfl⟩ : reg = firstOperand line ∧ base = secondField line :=
    ⟨Value.str.inj first, Value.str.inj second⟩
  by_contra notPair
  refine notLost ⟨room, isField.short, encoded.first, Or.inl ⟨?_, encoded.second, notPair⟩⟩
  intro negative magnitude rest read
  by_contra inside
  exact retry _ _ _ ((sscanf_formatOffset_iff (loadStore_mnemonic loadStore)).mpr
    ⟨rfl, isField, negative, magnitude, rest, read, inside, rfl, rfl⟩)

theorem baseKept_of_not_lost (notLost : ¬ BaseLost build out line) : BaseKept build out line := by
  constructor
  · intro hasBase out' accepted
    obtain ⟨reg, imm, base, encoded, room⟩ := processSegmentText_loadStore_ok loadStore accepted
    rcases scanOffsetOperands_cases encoded.scanned with scanned | ⟨retry, scanned⟩
    · obtain ⟨rfl, isField, negative, magnitude, rest, read, -, rfl, rfl⟩ :=
        (sscanf_formatOffset_iff (loadStore_mnemonic loadStore)).mp scanned
      obtain ⟨rr, hReg⟩ := encoded.first
      obtain ⟨rb, hBase⟩ := encoded.second
      have range := int12_of_saturate build encoded.range
      have right := fun wrong => notLost ⟨room, isField.short, ⟨rr, hReg⟩,
        Or.inr ⟨hasBase, negative,
        magnitude, rest, rb, read, range, hBase, wrong⟩⟩
      simp only [imp_false, not_or, not_forall, not_not] at right
      obtain ⟨⟨name, number, spells⟩, notBare⟩ := right
      have front : skipBlanks (secondText line) = secondText line := skipBlanks_skipBlanks _
      rcases scanNumber_zero_inv read with ⟨literal, text, value⟩ | ⟨sign, x, marker, text, -⟩
      · obtain ⟨blanks, digits, after, blank, second, whole⟩ := operandText_of_offset read
          (not_hasBase_of_names isField.short (firstOperand_front line) hReg) hasBase
        obtain rfl : digits = literal.text := by
          rw [front, second] at text
          exact List.append_cancel_right text
        obtain ⟨out'', next, accepted', appended, operands⟩ :=
          processSegmentText_loadStore loadStore room encoded.scanned encoded.range hReg hBase
        obtain rfl : out'' = out' := by
          rw [accepted] at accepted'
          exact (Prod.mk.inj accepted').2.symm
        rw [saturate_of_int12 build range] at operands
        refine ⟨next, rb, _, (appended next).mpr rfl, operands, ?_⟩
        refine ⟨firstOperand line, blanks, literal, insideBase rest, after, name, whole, ?_, blank,
          value, spells, number⟩
        exact fun comma => isField.noComma ',' comma (List.mem_singleton_self ',')
      · rw [front] at text
        exact absurd ⟨sign, x, marker, text⟩ notBare
    · exact absurd hasBase (not_hasBase_of_pair
        (pair_of_retry loadStore notLost encoded room retry scanned))
  · intro out' accepted retry
    obtain ⟨reg, imm, base, encoded, room⟩ := processSegmentText_loadStore_ok loadStore accepted
    rcases scanOffsetOperands_cases encoded.scanned with scanned | ⟨-, scanned⟩
    · exact absurd scanned (retry reg imm base)
    · exact pair_of_retry loadStore notLost encoded room retry scanned

theorem not_kept_of_retryLost (room : out.textOffset + 4 ≤ out.ctx.textSegment.capacity)
    (short : (firstOperand line).length ≤ registerLen - 1) {rr : Reg}
    (hReg : Names build (firstOperand line) rr) (lost : RetryLost build line) :
    ¬ BaseKept build out line := by
  intro kept
  obtain ⟨rb, hBase⟩ := lost.base
  have mnemonic := loadStore_mnemonic loadStore
  have isField := isField_of_names short hReg
  have retry : TakesRetry build line := by
    intro reg imm base scanned
    obtain ⟨-, -, negative, magnitude, rest, read, inside, -⟩ :=
      (sscanf_formatOffset_iff mnemonic).mp scanned
    exact inside (lost.notOffset negative magnitude rest read)
  have scanned := scanOffsetOperands_of_retry retry
    (sscanf_formatPair_eq mnemonic isField (nonempty_of_names hBase))
  obtain ⟨out', next, accepted, -⟩ :=
    processSegmentText_loadStore loadStore room scanned (by decide) hReg hBase
  exact lost.notPair (kept.implicit out' accepted retry)

theorem not_kept_of_offsetLost (room : out.textOffset + 4 ≤ out.ctx.textSegment.capacity)
    (short : (firstOperand line).length ≤ registerLen - 1) {rr : Reg}
    (hReg : Names build (firstOperand line) rr) (lost : OffsetLost build line) :
    ¬ BaseKept build out line := by
  intro kept
  obtain ⟨hasBase, negative, magnitude, rest, rb, read, range, hBase, wrong⟩ := lost
  have isField := isField_of_names short hReg
  have inside : insideBase rest ≠ [] := by
    intro empty
    exact nonempty_of_names hBase (by rw [empty, List.take_nil])
  have offset : sscanf (formatOffset build) line = [.str (firstOperand line),
      .int (saturate build.longBits (signedValue negative magnitude)),
      .str ((insideBase rest).take (registerLen - 1))] :=
    (sscanf_formatOffset_iff (loadStore_mnemonic loadStore)).mpr
      ⟨rfl, isField, negative, magnitude, rest, read, inside, rfl, rfl⟩
  have scanned := scanOffsetOperands_of_first offset
  rw [saturate_of_int12 build range] at scanned
  obtain ⟨out', next, accepted, appended, operands⟩ :=
    processSegmentText_loadStore loadStore room scanned range hReg hBase
  obtain ⟨instr, base, offset, isNext, operands', writes⟩ := kept.explicit hasBase out' accepted
  obtain rfl := (appended instr).mp isNext
  obtain ⟨rfl, rfl⟩ : rb = base ∧ signedValue negative magnitude = offset := by
    rw [operands] at operands'
    exact Prod.mk.inj (Option.some.inj operands')
  obtain ⟨-, ⟨name, number, spells⟩, literal, text⟩ := writesBase_of_offset read writes
  rcases wrong with noName | ⟨sign, x, marker, bare⟩
  · exact noName name number spells
  · rw [text] at bare
    have whole : literal.text ++ '(' :: rest = (sign.text ++ ['0', x]) ++ '(' :: rest := by
      rw [bare]
      simp
    exact literal.ne_bare sign marker (List.append_cancel_right whole)

end Kept

/-- A load or a store keeps its base and its offset exactly when they are not lost. -/
theorem baseKept_iff (build : Build) (out : Output) (line : CString)
    (loadStore : isLoadStore (mnemonicOf line) = true) :
    BaseKept build out line ↔ ¬ BaseLost build out line := by
  constructor
  · rintro kept ⟨room, short, ⟨rr, hReg⟩, retry | offset⟩
    · exact not_kept_of_retryLost loadStore room short hReg retry kept
    · exact not_kept_of_offsetLost loadStore room short hReg offset kept
  · exact baseKept_of_not_lost loadStore

theorem baseKept_lw : BaseKept .native ⟨initCtx 0, 0, 0⟩ "lw a0, 4(a1)".toList := by
  refine (baseKept_iff .native ⟨initCtx 0, 0, 0⟩ "lw a0, 4(a1)".toList (by decide)).mpr ?_
  have second : secondText "lw a0, 4(a1)".toList = "4(a1)".toList := by decide
  have number : scanNumber 0 "4(a1)".toList = some (false, 4, "(a1)".toList) := by decide
  rintro ⟨-, -, -, retry | ⟨-, negative, magnitude, rest, r, scanned, -, names, wrong⟩⟩
  · rw [← second] at number
    exact absurd (retry.notOffset _ _ _ number) (by decide)
  · rw [second, number] at scanned
    cases scanned
    rcases wrong with noName | ⟨sign, x, -, text⟩
    · have same := (RegName.names .native (.a 1)).parsed.symm.trans names.parsed
      have number : RegName.number (.a 1) = r := by
        rw [← toReg_regByte (RegName.number (.a 1)), Except.ok.inj same, toReg_regByte]
      exact noName (.a 1) number ⟨[], [], by decide, by simp, by simp⟩
    · rw [second] at text
      cases sign <;> simp [Sign.text] at text

/-- `lw a0, zero(a1)` is assembled as `lw a0, 0(zero)`. -/
theorem lw_symbol_not_baseKept : ¬ BaseKept .native ⟨initCtx 0, 0, 0⟩ "lw a0, zero(a1)".toList := by
  intro kept
  have accepted : processSegmentText .native ⟨initCtx 0, 0, 0⟩ "lw a0, zero(a1)".toList =
      (.ok, (processSegmentText .native ⟨initCtx 0, 0, 0⟩ "lw a0, zero(a1)".toList).2) :=
    Prod.ext (by decide +kernel) rfl
  have retry : TakesRetry .native "lw a0, zero(a1)".toList := by
    intro reg imm base scanned
    have first : sscanf (formatOffset .native) "lw a0, zero(a1)".toList = [.str "a0".toList] := by
      decide +kernel
    rw [first] at scanned
    cases scanned
  have hasBase : HasBase (operandText "lw a0, zero(a1)".toList) :=
    ⟨"a0, zero".toList, "a1".toList, [], by decide⟩
  exact not_hasBase_of_pair (kept.implicit _ accepted retry) hasBase

end RiscvAs
