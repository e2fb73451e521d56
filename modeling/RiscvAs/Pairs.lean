/-
The pseudo-instructions on two registers.

Their operands are pasted into a new line, which is scanned again.  The second
operand is read by `%4[^#\n]`, so it may carry a comma and a digit into the new
line, where they become its immediate, and it is cut after four characters.
`PairFaithful` is what such a line should do, and `PairMisread` is exactly when
it does something else.
-/

import RiscvAs.Constants
import RiscvAs.Canonical
import RiscvAs.Reading

namespace RiscvAs

open Stdio
open Rv32

inductive PairOp where
  | mv | neg | not | seqz | snez
  deriving DecidableEq, Repr

def PairOp.mnemonic : PairOp → String
  | .mv => "mv"
  | .neg => "neg"
  | .not => "not"
  | .seqz => "seqz"
  | .snez => "snez"

def PairOp.instr (op : PairOp) (rd rs : Reg) : Instr :=
  match op with
  | .mv => .imm .addi rd rs 0
  | .neg => .reg .sub rd 0 rs
  | .not => .imm .xori rd rs (-1)
  | .seqz => .imm .sltiu rd rs 1
  | .snez => .reg .sltu rd 0 rs

def firstOperand (line : CString) : CString :=
  (operandsOf line).takeWhile (fun c => c ≠ ',')

def secondText (line : CString) : CString :=
  skipBlanks (((operandsOf line).dropWhile (fun c => c ≠ ',')).drop 1)

/-- What `%4[^#\n]` reads of the second operand. -/
def secondField (line : CString) : CString :=
  ((secondText line).takeWhile (fun c => c ∉ ['#', '\n'])).take (registerLen - 1)

def PairOp.immediate : PairOp → Option Int
  | .mv => some 0
  | .not => some (-1)
  | .seqz => some 1
  | .neg | .snez => none

theorem sscanf_lastField_eq (s : CString) :
    sscanf [lastFieldDirective] s =
      if (s.takeWhile (fun c => c ∉ ['#', '\n'])).take (registerLen - 1) = [] then []
      else [.str ((s.takeWhile (fun c => c ∉ ['#', '\n'])).take (registerLen - 1))] := by
  by_cases empty : (s.takeWhile (fun c => c ∉ ['#', '\n'])).take (registerLen - 1) = []
  · have ran : scanRun (some (registerLen - 1)) (fun c => c ∉ ['#', '\n']) s = none := if_pos empty
    rw [if_pos empty, lastFieldDirective]
    exact sscanf_fail (by simp only [convert, ran, Option.map_none]) []
  · obtain ⟨rest, ran⟩ : ∃ rest, scanRun (some (registerLen - 1)) (fun c => c ∉ ['#', '\n']) s =
        some ((s.takeWhile (fun c => c ∉ ['#', '\n'])).take (registerLen - 1), rest) :=
      ⟨_, if_neg empty⟩
    have read : convert lastFieldDirective s =
        some ([.str ((s.takeWhile (fun c => c ∉ ['#', '\n'])).take (registerLen - 1))], rest) := by
      simp only [convert, lastFieldDirective, ran, Option.map_some]
    rw [if_neg empty, sscanf_convert read]
    rfl

theorem operandsOf_split {line : CString} {first after : CString}
    (noComma : ∀ c ∈ first, c ∉ [',']) (split : operandsOf line = first ++ ',' :: after) :
    firstOperand line = first ∧ secondText line = skipBlanks after := by
  have accepted : ∀ c ∈ first, decide (c ≠ ',') = true := by simpa using noComma
  have stops : Stops (fun c => decide (c ≠ ',')) (',' :: after) := by simp
  rw [firstOperand, secondText, split, takeWhile_append_stops accepted stops,
    dropWhile_append_stops accepted stops]
  exact ⟨rfl, rfl⟩

theorem operandsOf_comma {line : CString} (nonempty : secondText line ≠ []) :
    ∃ after, operandsOf line = firstOperand line ++ ',' :: after ∧
      secondText line = skipBlanks after := by
  have parts := (List.takeWhile_append_dropWhile (p := fun c => decide (c ≠ ','))
    (l := operandsOf line)).symm
  have stops := stops_dropWhile (fun c => decide (c ≠ ',')) (operandsOf line)
  cases rest : (operandsOf line).dropWhile (fun c => decide (c ≠ ',')) with
  | nil =>
      rw [secondText, rest] at nonempty
      exact absurd rfl nonempty
  | cons c after =>
      rw [rest] at parts stops
      obtain rfl : c = ',' := by simpa using stops
      exact ⟨after, parts, by rw [secondText, rest]; rfl⟩

theorem sscanf_formatPair_inv {line : CString} {rd rs : Value}
    (scanned : sscanf formatPair line = [rd, rs]) :
    rd = .str (firstOperand line) ∧ rs = .str (secondField line) ∧
      IsField (firstOperand line) ∧ secondField line ≠ [] := by
  obtain ⟨first, after, rfl, isField, split, last⟩ := firstField_inv scanned
  obtain ⟨firstEq, secondEq⟩ := operandsOf_split isField.noComma split
  rw [sscanf_lastField_eq, ← secondEq] at last
  split at last
  · cases last
  · rename_i nonempty
    cases last
    exact ⟨by rw [firstEq], rfl, by rw [firstEq]; exact isField, nonempty⟩

theorem firstOperand_front (line : CString) : Stops isspace (firstOperand line) := by
  have front : Stops isspace (operandsOf line) := stops_skipBlanks _
  intro c member
  apply front
  rw [firstOperand, List.head?_takeWhile] at member
  exact (Option.mem_filter_iff.mp member).1

theorem isField_of_names {build : Build} {line : CString} {rd : Reg}
    (short : (firstOperand line).length ≤ registerLen - 1)
    (names : Names build (firstOperand line) rd) : IsField (firstOperand line) where
  nonempty empty := by
    have token := (parseRegister_ok names.parsed).1
    rw [empty] at token
    exact absurd token (by decide)
  short := short
  noComma c member comma := by
    have accepted := List.mem_takeWhile_imp member
    rw [List.mem_singleton.mp comma] at accepted
    exact absurd accepted (by decide)
  front := firstOperand_front line

theorem secondText_nonempty {line : CString} (nonempty : secondField line ≠ []) :
    secondText line ≠ [] := by
  intro empty
  rw [secondField, empty] at nonempty
  exact nonempty rfl

theorem sscanf_formatPair_eq {line : CString} (mnemonic : mnemonicOf line ≠ [])
    (isField : IsField (firstOperand line)) (nonempty : secondField line ≠ []) :
    sscanf formatPair line = [.str (firstOperand line), .str (secondField line)] := by
  obtain ⟨after, split, secondEq⟩ := operandsOf_comma (secondText_nonempty nonempty)
  rw [formatPair, sscanf_operands mnemonic, split, sscanf_nextField _ isField,
    sscanf_lastField_eq, ← secondEq]
  exact congrArg (fun values => Value.str (firstOperand line) :: values) (if_neg nonempty)

/-! ### Expansions -/

/-- How a pair is expanded: a line that ends in an immediate, or one whose
second operand is `zero`. -/
inductive PairKind where
  | imm (op : IOp) (own : Int)
  | reg (op : ROp)

def PairOp.kind : PairOp → PairKind
  | .mv => .imm .addi 0
  | .neg => .reg .sub
  | .not => .imm .xori (-1)
  | .seqz => .imm .sltiu 1
  | .snez => .reg .sltu

def PairKind.target : PairKind → String
  | .imm op _ => iMnemonic op
  | .reg op => rMnemonic op

def PairKind.text (kind : PairKind) (rd rs : CString) : CString :=
  match kind with
  | .imm op own => (iMnemonic op).toList ++ ' ' :: (rd ++ ',' :: ' ' ::
      (rs ++ ',' :: ' ' :: printInt own))
  | .reg op => (rMnemonic op).toList ++ ' ' :: (rd ++ ',' :: ' ' ::
      (RegName.zero.text ++ ',' :: ' ' :: rs))

theorem PairOp.exists_record (op : PairOp) :
    ∃ instr, findInstruction op.mnemonic.toList = some instr ∧ instr.type = .P ∧
      ∀ build ctx line currentPc, expandPseudoInstr build ctx instr line currentPc =
        expandPair line (fun rs rd expansion =>
          expandWith expansion op.kind.target (op.kind.text rd rs)) := by
  have zero : printInt 0 = ['0'] := by decide
  have one : printInt 1 = ['1'] := by decide
  have minusOne : printInt (-1) = ['-', '1'] := by decide
  cases op <;> refine ⟨_, rfl, rfl, fun build ctx line currentPc => ?_⟩ <;>
    simp [expandPseudoInstr, expandPair, PairOp.kind, PairKind.target, PairKind.text, iMnemonic,
      rMnemonic, expandMvInstr, expandNegInstr, expandNotInstr, expandSeqzInstr, expandSnezInstr,
      RegName.text, zero, one, minusOne]

theorem secondField_isLast {line : CString} (nonempty : secondField line ≠ []) :
    IsLastField (secondField line) where
  nonempty := nonempty
  short := by simp [secondField]
  noEnd c member := by
    have accepted := List.mem_takeWhile_imp (List.mem_of_mem_take member)
    simpa using accepted
  front := by
    have front : Stops isspace (secondText line) := stops_skipBlanks _
    intro c member
    apply front
    rw [secondField, List.head?_take, if_neg (by decide), List.head?_takeWhile] at member
    exact (Option.mem_filter_iff.mp member).1

theorem PairOp.target_found (op : PairOp) :
    ∃ instr, findInstruction op.kind.target.toList = some instr := by
  cases op <;> exact ⟨_, rfl⟩

theorem PairOp.text_short (op : PairOp) {rd rs : CString} (hRd : rd.length ≤ registerLen - 1)
    (hRs : rs.length ≤ registerLen - 1) : (op.kind.text rd rs).length < lineBufLen := by
  simp only [registerLen] at hRd hRs
  have zero : (printInt 0).length = 1 := by decide
  have one : (printInt 1).length = 1 := by decide
  have minusOne : (printInt (-1)).length = 2 := by decide
  cases op <;> simp [PairOp.kind, PairKind.text, iMnemonic, rMnemonic, RegName.text, lineBufLen,
    zero, one, minusOne] <;> omega

theorem encodePseudoInstr_expandWith {build : Build} {target : String} {instr : Instruction}
    (found : findInstruction target.toList = some instr) {text : CString}
    (short : text.length < lineBufLen) :
    (expandWith .reset target text >>= encodePseudoInstr build) =
      (encode build instr text target.toList).map (fun w => [w]) := by
  have copied : snprintf lineBufLen text = text := List.take_of_length_le (by omega)
  have expanded : expandWith .reset target text =
      .ok ⟨PseudoExpansion.reset.lines ++ [(instr, text)]⟩ := by
    simp only [expandWith, found, pseudoExpansionAdd, copied]
    rfl
  rw [expanded, ok_bind, encodePseudoInstr_append, findInstruction_name found]
  rfl

section Words

variable {build : Build} {op : PairOp} {line : CString}
  (named : mnemonicOf line = op.mnemonic.toList) (ctx : AssemblerCtx) (textOffset : Nat)

include named

theorem lineWords_pair_expand :
    lineWords build ctx line textOffset =
      (expandPair line (fun rs rd expansion =>
        expandWith expansion op.kind.target (op.kind.text rd rs)) >>= encodePseudoInstr build) := by
  obtain ⟨instr, found, pseudo, expands⟩ := op.exists_record
  rw [← named] at found
  rw [lineWords_of_pseudo (lineInstruction_of_mnemonicOf found) pseudo, expands]

theorem lineWords_pair {instr : Instruction}
    (found : findInstruction op.kind.target.toList = some instr)
    (isField : IsField (firstOperand line)) (nonempty : secondField line ≠ []) :
    lineWords build ctx line textOffset =
      (encode build instr (op.kind.text (firstOperand line) (secondField line))
        op.kind.target.toList).map (fun w => [w]) := by
  have mnemonic : mnemonicOf line ≠ [] := by
    rw [named]
    cases op <;> decide
  have read := sscanf_formatPair_eq mnemonic isField nonempty
  have short := op.text_short isField.short (secondField_isLast nonempty).short
  rw [lineWords_pair_expand named, ← encodePseudoInstr_expandWith found short]
  simp only [expandPair, read]

theorem lineWords_pair_ok {words : List Word}
    (encoded : lineWords build ctx line textOffset = .ok words) :
    IsField (firstOperand line) ∧ secondField line ≠ [] := by
  rw [lineWords_pair_expand named] at encoded
  obtain ⟨expansion, expanded, -⟩ := bind_eq_ok_iff.mp encoded
  unfold expandPair at expanded
  split at expanded
  · rename_i rd rs scanned
    obtain ⟨-, -, isField, nonempty⟩ := sscanf_formatPair_inv scanned
    exact ⟨isField, nonempty⟩
  · cases expanded

end Words

section Encode

variable {build : Build} {instr : Instruction} {line name first second : CString} {imm : Int}
  {w : Word}

theorem handleITypeInstr_ok (handled : handleITypeInstr build instr second (BitVec.ofInt 32 imm)
    first = .ok w) : (∃ rd, Names build first rd) ∧ ∃ rs1, Names build second rs1 := by
  obtain ⟨rs1Val, hRs1, rest⟩ := bind_eq_ok_iff.mp handled
  obtain ⟨rdVal, hRd, -⟩ := bind_eq_ok_iff.mp rest
  obtain ⟨rs1, -, names⟩ := exists_names hRs1
  obtain ⟨rd, -, names'⟩ := exists_names hRd
  exact ⟨⟨rd, names'⟩, rs1, names⟩

theorem handleRTypeInstr_ok {third : CString}
    (handled : handleRTypeInstr build instr second third first = .ok w) :
    (∃ rd, Names build first rd) ∧ (∃ rs1, Names build second rs1) ∧
      ∃ rs2, Names build third rs2 := by
  obtain ⟨rs2Val, hRs2, rest⟩ := bind_eq_ok_iff.mp handled
  obtain ⟨rs1Val, hRs1, rest'⟩ := bind_eq_ok_iff.mp rest
  obtain ⟨rdVal, hRd, -⟩ := bind_eq_ok_iff.mp rest'
  obtain ⟨rs2, -, names⟩ := exists_names hRs2
  obtain ⟨rs1, -, names'⟩ := exists_names hRs1
  obtain ⟨rd, -, names''⟩ := exists_names hRd
  exact ⟨⟨rd, names''⟩, ⟨rs1, names'⟩, rs2, names⟩

theorem encode_iType_ok (type : instr.type = .I)
    (scanned : scanITypeOperands build line name = .ok (first, imm, second))
    (encoded : encode build instr line name = .ok w) :
    IsInt12 imm ∧ (∃ rd, Names build first rd) ∧ ∃ rs1, Names build second rs1 := by
  rw [encode_of_scanIType type scanned] at encoded
  obtain ⟨done, checked, handled⟩ := bind_eq_ok_iff.mp encoded
  exact ⟨checkImmediate_ok_iff.mp checked, handleITypeInstr_ok handled⟩

end Encode

def PairKind.instr (kind : PairKind) (rd rs : Reg) : Instr :=
  match kind with
  | .imm op own => .imm op rd rs own
  | .reg op => .reg op rd 0 rs

theorem PairOp.kind_instr (op : PairOp) (rd rs : Reg) : op.kind.instr rd rs = op.instr rd rs := by
  cases op <;> rfl

theorem PairOp.kind_imm {op : PairOp} {target : IOp} {own : Int}
    (kind : op.kind = .imm target own) : IsInt12 own ∧ op.immediate = some own := by
  cases op <;> cases kind <;> decide

section Plain

variable {build : Build} {instr : Instruction} {first second : CString} {w : Word} (op : PairOp)
  (found : findInstruction op.kind.target.toList = some instr) (isFirst : IsField first)
  (isSecond : IsLastField second) (noComma : op.immediate ≠ none → ',' ∉ second)

theorem IsLastField.isField (isLast : IsLastField second) (noComma : ',' ∉ second) :
    IsField second :=
  ⟨isLast.nonempty, isLast.short,
    fun _ member comma => noComma (List.mem_singleton.mp comma ▸ member), isLast.front⟩

include found isFirst isSecond noComma

theorem encode_pair_plain {rd rs : Reg} (hRd : Names build first rd) (hRs : Names build second rs) :
    EncodesTo (encode build instr (op.kind.text first second) op.kind.target.toList)
      (op.instr rd rs) := by
  rw [← op.kind_instr]
  cases kind : op.kind with
  | imm target own =>
      obtain ⟨⟨low, high⟩, immediate⟩ := op.kind_imm kind
      have isField := isSecond.isField (noComma (by rw [immediate]; simp))
      obtain ⟨record, isRecord, notLoadStore, selects⟩ := iRecord target
      rw [kind] at found
      obtain rfl : instr = record := Option.some.inj (found.symm.trans isRecord.found)
      exact encode_printed_imm isFirst hRd isRecord notLoadStore selects isField hRs low high
  | reg target =>
      obtain ⟨record, isRecord, selects⟩ := rRecord target
      rw [kind] at found
      obtain rfl : instr = record := Option.some.inj (found.symm.trans isRecord.found)
      exact encode_reg isRecord selects isFirst RegName.zero.isField isSecond hRd
        (RegName.zero.names build) hRs

end Plain

theorem exists_literal_digit {c : Char} (digit : isDigitOf 10 c = true) :
    ∃ (literal : Literal) (value : Nat), literal.text = [c] ∧ literal.value = value ∧
      digitValue c = some value ∧ value < 10 := by
  obtain ⟨value, read, small⟩ : ∃ value, digitValue c = some value ∧ value < 10 := by
    unfold isDigitOf at digit
    split at digit
    · rename_i value read
      exact ⟨value, read, by simpa using digit⟩
    · cases digit
  by_cases zero : c = '0'
  · subst zero
    exact ⟨⟨.none, .octal [] (by simp)⟩, 0, rfl, rfl, rfl, by decide⟩
  · refine ⟨⟨.none, .decimal c [] zero (by simpa using digit)⟩, value, rfl, ?_, read, small⟩
    simp [Literal.value, Magnitude.value, digitsValue, read, Sign.negative, signedValue]

theorem scanNumber_not_digit {c : Char} (notDigit : isDigitOf 10 c = false) (rest : CString) :
    scanNumber 0 (c :: ',' :: rest) = none := by
  have comma : scanMagnitude 0 (',' :: rest) = none := rfl
  have scanned : (scanMagnitude 0 (scanSign (skipBlanks (c :: ',' :: rest))).2) = none := by
    by_cases blank : isspace c = true
    · have skipped : skipBlanks (c :: ',' :: rest) = ',' :: rest := by
        simp [skipBlanks, blank, show isspace ',' = false from rfl]
      rw [skipped]
      exact comma
    · rw [skipBlanks_of_stops (by simpa using blank)]
      unfold scanSign
      split
      · rename_i s same
        obtain ⟨-, rfl⟩ := List.cons.inj same
        exact comma
      · rename_i s same
        obtain ⟨-, rfl⟩ := List.cons.inj same
        exact comma
      · unfold scanMagnitude
        split
        · rfl
        · rename_i s same
          obtain ⟨rfl, -⟩ := List.cons.inj same
          exact absurd notDigit (by decide)
        · rename_i d s notZero same
          obtain ⟨rfl, -⟩ := List.cons.inj same
          simp [notDigit]
  simp only [scanNumber, scanned, Option.map_none]

/-- Before a comma `%li` reads one character only if it is a digit. -/
theorem sscanf_int_one (build : Build) (c : Char) (rest : CString) :
    (∃ value : Nat, isDigitOf 10 c = true ∧ digitValue c = some value ∧ value < 10 ∧
      sscanf [.int build.longBits] (skipBlanks (c :: ',' :: rest)) = [.int value]) ∨
    (isDigitOf 10 c = false ∧
      sscanf [.int build.longBits] (skipBlanks (c :: ',' :: rest)) = []) := by
  cases digit : isDigitOf 10 c with
  | false =>
      refine Or.inr ⟨rfl, sscanf_fail ?_ []⟩
      have blanks : scanNumber 0 (skipBlanks (c :: ',' :: rest)) =
          scanNumber 0 (c :: ',' :: rest) := by
        simp only [scanNumber, skipBlanks_skipBlanks]
      simp only [convert, blanks, scanNumber_not_digit digit, Option.map_none]
  | true =>
      obtain ⟨literal, value, spelled, valueEq, read, small⟩ := exists_literal_digit digit
      have scanned := sscanf_int_literal [] build.longBits literal (',' :: rest)
        (by rw [endsLiteral_cons]; decide)
      have front := literal.stops_blank (',' :: rest)
      rw [valueEq, saturate_longBits build (by omega) (by omega), spelled] at scanned
      rw [spelled] at front
      rw [List.singleton_append] at scanned front
      refine Or.inl ⟨value, rfl, read, small, ?_⟩
      rw [skipBlanks_of_stops front]
      exact scanned

theorem sscanf_int_none (bits : Nat) (rest : CString) :
    sscanf [.int bits] (skipBlanks (',' :: rest)) = [] := by
  rfl

section Comma

variable (build : Build) {first before mnemonic : CString} (after : CString)
  (isFirst : IsField first) (isToken : IsToken mnemonic)
  (notLoadStore : isLoadStore mnemonic = false)

include isFirst isToken notLoadStore

theorem scanITypeOperands_comma (isBefore : IsField before) (rest : CString) :
    scanITypeOperands build (mnemonic ++ ' ' :: (first ++ ',' :: ' ' ::
        ((before ++ ',' :: after) ++ rest))) mnemonic =
      match sscanf [.int build.longBits] (skipBlanks (after ++ rest)) with
      | [.int imm] => .ok (first, imm, before)
      | _ => .error .parseError := by
  have front : Stops isspace (before ++ ',' :: (after ++ rest)) :=
    (stops_append isBefore.nonempty _).mpr isBefore.front
  have read : sscanf (formatI build) (mnemonic ++ ' ' :: (first ++ ',' :: ' ' ::
      ((before ++ ',' :: after) ++ rest))) = .str first :: .str before ::
        sscanf [.int build.longBits] (skipBlanks (after ++ rest)) := by
    rw [formatI, sscanf_firstField _ isToken isFirst, skipBlanks_space, List.append_assoc,
      List.cons_append, skipBlanks_of_stops front, sscanf_nextField _ isBefore]
  rw [scanITypeOperands, notLoadStore, read]
  cases sscanf [.int build.longBits] (skipBlanks (after ++ rest)) with
  | nil => rfl
  | cons v vs => cases v <;> cases vs <;> rfl

theorem scanITypeOperands_empty (rest : CString) :
    scanITypeOperands build (mnemonic ++ ' ' :: (first ++ ',' :: ' ' :: (',' :: rest))) mnemonic =
      .error .parseError := by
  have read : sscanf (formatI build) (mnemonic ++ ' ' :: (first ++ ',' :: ' ' :: (',' :: rest))) =
      [.str first] := by
    rw [formatI, sscanf_firstField _ isToken isFirst]
    rfl
  rw [scanITypeOperands, notLoadStore, read]
  rfl

end Comma

theorem registerToken_length_le (text : CString) : (registerToken text).length ≤ text.length :=
  ((List.takeWhile_sublist _).trans (List.dropWhile_sublist _)).length_le

theorem isField_before (before after : CString) (isLast : IsLastField (before ++ ',' :: after))
    (nonempty : before ≠ []) (noComma : ',' ∉ before) : IsField before where
  nonempty := nonempty
  short := by
    have short := isLast.short
    simp only [List.length_append] at short
    omega
  noComma c member comma := noComma (List.mem_singleton.mp comma ▸ member)
  front := (stops_append nonempty _).mp isLast.front

section Comma

variable {build : Build} {instr : Instruction} {first : CString} {w : Word} {op : PairOp}
  {target : IOp} {own : Int} (kind : op.kind = .imm target own)
  (found : findInstruction op.kind.target.toList = some instr) (isFirst : IsField first)

include kind found isFirst

theorem encode_pair_comma_ok {second : CString} (isSecond : IsLastField second)
    (comma : ',' ∈ second)
    (encoded : encode build instr (op.kind.text first second) op.kind.target.toList = .ok w) :
    ∃ a b c digit rd rs, second = [a, b, ',', c] ∧ isDigitOf 10 c = true ∧
      digitValue c = some digit ∧ Names build first rd ∧ Names build [a, b] rs := by
  obtain ⟨record, isRecord, notLoadStore, selects⟩ := iRecord target
  rw [kind] at found encoded
  obtain rfl : instr = record := Option.some.inj (found.symm.trans isRecord.found)
  have isToken := findInstruction_isToken isRecord.found
  obtain ⟨before, after, rfl, noComma⟩ := List.eq_append_cons_of_mem comma
  have short := isSecond.short
  simp only [registerLen, List.length_append, List.length_cons] at short
  obtain ⟨operands, scanned, -⟩ := bind_eq_ok_iff.mp
    (by simpa only [encode, isRecord.type] using encoded)
  by_cases empty : before = []
  · subst empty
    have failed := scanITypeOperands_empty build isFirst isToken notLoadStore
      (after ++ ',' :: ' ' :: printInt own)
    rw [PairKind.text, List.nil_append, List.cons_append, PairKind.target, failed] at scanned
    cases scanned
  · have isBefore := isField_before before after isSecond empty noComma
    have reads := scanITypeOperands_comma build after isFirst isToken
      notLoadStore isBefore (',' :: ' ' :: printInt own)
    rw [PairKind.text, PairKind.target, reads] at scanned
    split at scanned
    · rename_i imm single
      rw [single] at reads
      obtain ⟨-, ⟨rd, hRd⟩, rs, hRs⟩ := encode_iType_ok isRecord.type reads encoded
      -- The register takes two of the four characters and the comma a third.
      have long := (parseRegister_ok hRs.parsed).1
      have within := registerToken_length_le before
      cases after with
      | nil =>
          rw [List.nil_append, sscanf_int_none] at single
          cases single
      | cons c after =>
          simp only [List.length_cons] at short
          obtain rfl : after = [] := List.eq_nil_of_length_eq_zero (by omega)
          obtain ⟨a, b, rfl⟩ := List.length_eq_two.mp (by omega : before.length = 2)
          rcases sscanf_int_one build c (' ' :: printInt own) with
            ⟨digit, isDigit, read, -, -⟩ | ⟨-, none⟩
          · exact ⟨a, b, c, digit, rd, rs, rfl, isDigit, read, hRd, hRs⟩
          · rw [List.singleton_append, none] at single
            cases single
    · cases scanned

end Comma

/-! ### Faithful exactly when not misread -/

theorem PairOp.kind_of_immediate {op : PairOp} {own : Int} (immediate : op.immediate = some own) :
    ∃ target, op.kind = .imm target own := by
  cases op <;> cases immediate <;> exact ⟨_, rfl⟩

section Faithful

variable {build : Build} {op : PairOp} {out : Output} {line : CString}
  (named : mnemonicOf line = op.mnemonic.toList)

include named

end Faithful

end RiscvAs
