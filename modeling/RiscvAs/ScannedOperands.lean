/-
What the patterns read, in terms of the parts of a line.

A line with a mnemonic is cut at its first two commas.  Each pattern matches
exactly when the fields before the commas are short enough and the text after
them begins as its last directive wants, and `encode` accepts exactly the matches
whose registers and immediate are valid.
-/

import RiscvAs.CommentedText
import RiscvAs.LongWidth

namespace RiscvAs

open Stdio
open Rv32 (Word Reg)

def fieldOf (s : CString) : CString :=
  s.takeWhile (fun c => c ≠ ',')

def middleOperand (line : CString) : CString :=
  fieldOf (secondText line)

/-- A field that the patterns read whole, and that names a register. -/
structure IsRegisterField (build : Build) (field : CString) : Prop where
  short : field.length ≤ registerLen - 1
  names : ∃ r, Names build field r

structure ReadsRegister (build : Build) (field : CString) (r : Reg) : Prop where
  short : field.length ≤ registerLen - 1
  names : Names build field r

theorem IsRegisterField.reads {build : Build} {field : CString}
    (isField : IsRegisterField build field) : ∃ r, ReadsRegister build field r := by
  obtain ⟨r, names⟩ := isField.names
  exact ⟨r, isField.short, names⟩

theorem firstOperand_eq (line : CString) : firstOperand line = fieldOf (operandsOf line) := rfl

section Patterns

variable {format : List Directive} {s line : CString} {v w : Value} {vs : List Value}

theorem sscanf_field_iff :
    sscanf (fieldDirective :: .char ',' :: .blank :: format) s = v :: w :: vs ↔
      v = .str (fieldOf s) ∧ fieldOf s ≠ [] ∧ (fieldOf s).length ≤ registerLen - 1 ∧
        sscanf format (afterComma s) = w :: vs := by
  constructor
  · intro scanned
    have others := (sscanf_field_append scanned).1
    obtain ⟨run, rest, rfl, nonempty, noComma, short, -, rfl, comma⟩ := sscanf_set_inv scanned
    obtain ⟨after, rfl, -⟩ := sscanf_char_inv comma
    have accepted : ∀ c ∈ run, decide (c ≠ ',') = true := by simpa using noComma
    have field : fieldOf (run ++ ',' :: after) = run :=
      takeWhile_append_stops accepted (by simp)
    rw [field]
    exact ⟨rfl, nonempty, short, others⟩
  · rintro ⟨rfl, nonempty, short, others⟩
    obtain ⟨run, rest, rfl, accepted, stops⟩ := takeWhile_decompose (fun c => c ≠ ',') s
    have field : fieldOf (run ++ rest) = run := takeWhile_append_stops accepted stops
    rw [afterComma, dropWhile_append_stops accepted stops] at others
    rw [field] at nonempty short ⊢
    cases rest with
    | nil =>
        rw [List.drop_nil, skipBlanks, List.dropWhile_nil, sscanf_nil] at others
        cases others
    | cons c after =>
        obtain rfl : c = ',' := by simpa using stops
        rw [fieldDirective, sscanf_set _ nonempty (by simpa using accepted) short (by simp),
          sscanf_char, sscanf_blank]
        exact congrArg _ others

theorem sscanf_firstField_iff (mnemonic : mnemonicOf line ≠ []) :
    sscanf (.skipToken :: .blank :: fieldDirective :: .char ',' :: .blank :: format) line =
        v :: w :: vs ↔
      v = .str (firstOperand line) ∧ firstOperand line ≠ [] ∧
        (firstOperand line).length ≤ registerLen - 1 ∧
        sscanf format (secondText line) = w :: vs := by
  rw [sscanf_operands mnemonic, sscanf_field_iff]
  rfl

theorem firstOperand_short (scanned : sscanf (.skipToken :: .blank :: fieldDirective ::
    .char ',' :: .blank :: format) line = v :: w :: vs) :
    (firstOperand line).length ≤ registerLen - 1 :=
  ((sscanf_firstField_iff (mnemonicOf_nonempty_of_skipToken scanned)).mp scanned).2.2.1

end Patterns

section Formats

variable {build : Build} {line a b c : CString} {imm : Int} (mnemonic : mnemonicOf line ≠ [])

include mnemonic

theorem sscanf_formatU_iff :
    sscanf (formatU build) line = [.str a, .int imm] ↔
      a = firstOperand line ∧ a ≠ [] ∧ a.length ≤ registerLen - 1 ∧
        ∃ negative magnitude rest,
          scanNumber 0 (secondText line) = some (negative, magnitude, rest) ∧
            imm = saturate build.longBits (signedValue negative magnitude) := by
  rw [formatU, sscanf_firstField_iff mnemonic, sscanf_int_eq]
  simp only [Value.str.injEq, Value.int.injEq]
  constructor
  · rintro ⟨rfl, nonempty, short, number⟩
    exact ⟨rfl, nonempty, short, number⟩
  · rintro ⟨rfl, nonempty, short, number⟩
    exact ⟨rfl, nonempty, short, number⟩

theorem sscanf_formatI_iff :
    sscanf (formatI build) line = [.str a, .str b, .int imm] ↔
      a = firstOperand line ∧ a ≠ [] ∧ a.length ≤ registerLen - 1 ∧
        b = middleOperand line ∧ b ≠ [] ∧ b.length ≤ registerLen - 1 ∧
        ∃ negative magnitude rest,
          scanNumber 0 (thirdText line) = some (negative, magnitude, rest) ∧
            imm = saturate build.longBits (signedValue negative magnitude) := by
  rw [formatI, sscanf_firstField_iff mnemonic, sscanf_field_iff, sscanf_int_eq]
  simp only [Value.str.injEq, Value.int.injEq]
  constructor
  · rintro ⟨rfl, nonempty, short, rfl, nonempty', short', number⟩
    exact ⟨rfl, nonempty, short, rfl, nonempty', short', number⟩
  · rintro ⟨rfl, nonempty, short, rfl, nonempty', short', number⟩
    exact ⟨rfl, nonempty, short, rfl, nonempty', short', number⟩

theorem sscanf_formatR_iff :
    sscanf formatR line = [.str a, .str b, .str c] ↔
      a = firstOperand line ∧ a ≠ [] ∧ a.length ≤ registerLen - 1 ∧
        b = middleOperand line ∧ b ≠ [] ∧ b.length ≤ registerLen - 1 ∧
        c = cutField ['#', '\n'] (thirdText line) ∧ c ≠ [] := by
  have last : sscanf [lastFieldDirective] (thirdText line) = [.str c] ↔
      c = cutField ['#', '\n'] (thirdText line) ∧ c ≠ [] := by
    have reads : sscanf [lastFieldDirective] (thirdText line) =
        if cutField ['#', '\n'] (thirdText line) = [] then []
        else [.str (cutField ['#', '\n'] (thirdText line))] := sscanf_lastField_eq _
    rw [reads]
    split
    · rename_i empty
      simp [empty]
    · rename_i nonempty
      simp only [List.cons.injEq, Value.str.injEq, and_true]
      constructor
      · rintro rfl
        exact ⟨rfl, nonempty⟩
      · rintro ⟨rfl, -⟩
        rfl
  rw [formatR, sscanf_firstField_iff mnemonic, sscanf_field_iff, ← thirdText, last]
  simp only [Value.str.injEq]
  constructor
  · rintro ⟨rfl, nonempty, short, rfl, nonempty', short', whole⟩
    exact ⟨rfl, nonempty, short, rfl, nonempty', short', whole⟩
  · rintro ⟨rfl, nonempty, short, rfl, nonempty', short', whole⟩
    exact ⟨rfl, nonempty, short, rfl, nonempty', short', whole⟩

end Formats

def IsBranchOffset (value : Int) : Prop :=
  (int13Min ≤ value ∧ value ≤ int13Max) ∧ value % 2 = 0

theorem isBranchOffset_saturate (build : Build) (value : Int) :
    IsBranchOffset (saturate build.longBits value) ↔ IsBranchOffset value := by
  have range : (int13Min ≤ saturate build.longBits value ∧
      saturate build.longBits value ≤ int13Max) ↔ (int13Min ≤ value ∧ value ≤ int13Max) :=
    saturate_longBits_iff build (by decide) (by decide)
  have kept : int13Min ≤ value ∧ value ≤ int13Max → saturate build.longBits value = value := by
    rintro ⟨low, high⟩
    simp only [int13Min, int13Max] at low high
    exact saturate_longBits build (by omega) (by omega)
  constructor
  · rintro ⟨inside, even⟩
    have inside' := range.mp inside
    rw [kept inside'] at even
    exact ⟨inside', even⟩
  · rintro ⟨inside, even⟩
    refine ⟨range.mpr inside, ?_⟩
    rw [kept inside]
    exact even

theorem names_iff {build : Build} {field : CString} :
    (∃ value, parseRegister build field = .ok value) ↔ ∃ r, Names build field r := by
  constructor
  · rintro ⟨value, parsed⟩
    obtain ⟨r, -, names⟩ := exists_names parsed
    exact ⟨r, names⟩
  · rintro ⟨r, names⟩
    exact ⟨_, names.parsed⟩

/-! ### Words of read operands -/

section Values

variable {build : Build} {instr : Instruction} {line name : CString} {rd rs1 rs2 : Reg}
  (mnemonic : mnemonicOf line ≠ [])

include mnemonic

theorem encode_rType_eq (type : instr.type = .R)
    (first : ReadsRegister build (firstOperand line) rd)
    (second : ReadsRegister build (middleOperand line) rs1)
    (last : Names build (cutField ['#', '\n'] (thirdText line)) rs2) :
    encode build instr line name =
      .ok (assembleRType instr (regByte rs2) (regByte rs1) (regByte rd)) := by
  have scanned := (sscanf_formatR_iff mnemonic).mpr ⟨rfl, nonempty_of_names first.names,
    first.short, rfl, nonempty_of_names second.names, second.short, rfl, nonempty_of_names last⟩
  simp only [encode, type, scanned, handleRTypeInstr, first.names.parsed, second.names.parsed,
    last.parsed, ok_bind, pure_eq_ok]

theorem encode_uType_eq (type : instr.type = .U)
    (first : ReadsRegister build (firstOperand line) rd)
    {negative : Bool} {magnitude : Nat} {rest : CString}
    (number : scanNumber 0 (secondText line) = some (negative, magnitude, rest)) :
    encode build instr line name =
      (checkImmediate (saturate build.longBits (signedValue negative magnitude))
          int20Min int20Max >>=
        fun _ => .ok (assembleUType instr (regByte rd)
          (BitVec.ofInt 32 (saturate build.longBits (signedValue negative magnitude))))) := by
  have scanned : sscanf (formatU build) line = [.str (firstOperand line),
      .int (saturate build.longBits (signedValue negative magnitude))] :=
    (sscanf_formatU_iff mnemonic).mpr ⟨rfl, nonempty_of_names first.names, first.short, negative,
      magnitude, rest, number, rfl⟩
  simp only [encode, type, scanned, handleUTypeInstr, first.names.parsed, ok_bind, pure_eq_ok]

variable (first : ReadsRegister build (firstOperand line) rd)
  (second : ReadsRegister build (middleOperand line) rs1) {negative : Bool} {magnitude : Nat}
  {rest : CString} (number : scanNumber 0 (thirdText line) = some (negative, magnitude, rest))

include first second number

theorem sscanf_formatI_eq :
    sscanf (formatI build) line = [.str (firstOperand line), .str (middleOperand line),
      .int (saturate build.longBits (signedValue negative magnitude))] :=
  (sscanf_formatI_iff mnemonic).mpr ⟨rfl, nonempty_of_names first.names, first.short, rfl,
    nonempty_of_names second.names, second.short, negative, magnitude, rest, number, rfl⟩

theorem encode_immediate_eq (type : instr.type = .I) (notLoad : isLoadStore name = false) :
    encode build instr line name =
      (checkImmediate (saturate build.longBits (signedValue negative magnitude))
          int12Min int12Max >>=
        fun _ => .ok (assembleIType instr (regByte rs1)
          (BitVec.ofInt 32 (saturate build.longBits (signedValue negative magnitude)))
          (regByte rd))) := by
  have scanned : scanITypeOperands build line name = .ok (firstOperand line,
      saturate build.longBits (signedValue negative magnitude), middleOperand line) := by
    rw [scanITypeOperands, notLoad, sscanf_formatI_eq mnemonic first second number]
    rfl
  rw [encode_of_scanIType type scanned]
  simp only [handleITypeInstr, first.names.parsed, second.names.parsed, ok_bind, pure_eq_ok]

theorem encode_bType_eq (type : instr.type = .B) :
    encode build instr line name =
      (checkImmAndLastB (saturate build.longBits (signedValue negative magnitude))
          int13Min int13Max >>=
        fun _ => .ok (assembleBType instr (regByte rd) (regByte rs1)
          (BitVec.ofInt 32 (saturate build.longBits (signedValue negative magnitude))))) := by
  have scanned := sscanf_formatI_eq mnemonic first second number
  simp only [encode, type, scanned, handleBTypeInstr, first.names.parsed, second.names.parsed,
    ok_bind, pure_eq_ok]

end Values

section Encode

variable {build : Build} {instr : Instruction} {line name : CString}
  (mnemonic : mnemonicOf line ≠ [])

include mnemonic

theorem encode_rType_ok_iff (type : instr.type = .R) :
    (∃ w, encode build instr line name = .ok w) ↔
      IsRegisterField build (firstOperand line) ∧ IsRegisterField build (middleOperand line) ∧
        ∃ r, Names build (cutField ['#', '\n'] (thirdText line)) r := by
  constructor
  · rintro ⟨w, encoded⟩
    simp only [encode, type] at encoded
    split at encoded
    · rename_i rd rs1 rs2 scanned
      obtain ⟨rfl, -, short, rfl, -, short', rfl, -⟩ := (sscanf_formatR_iff mnemonic).mp scanned
      obtain ⟨first, second, last⟩ := handleRTypeInstr_ok encoded
      exact ⟨⟨short, first⟩, ⟨short', second⟩, last⟩
    · cases encoded
  · rintro ⟨first, second, rs2, last⟩
    obtain ⟨rd, hRd⟩ := first.reads
    obtain ⟨rs1, hRs1⟩ := second.reads
    exact ⟨_, encode_rType_eq mnemonic type hRd hRs1 last⟩

theorem encode_immediate_ok_iff (type : instr.type = .I) (notLoad : isLoadStore name = false) :
    (∃ w, encode build instr line name = .ok w) ↔
      IsRegisterField build (firstOperand line) ∧ IsRegisterField build (middleOperand line) ∧
        ∃ negative magnitude rest,
          scanNumber 0 (thirdText line) = some (negative, magnitude, rest) ∧
            IsInt12 (signedValue negative magnitude) := by
  constructor
  · rintro ⟨w, encoded⟩
    cases scanned : scanITypeOperands build line name with
    | error e =>
        simp only [encode, type, scanned, error_bind] at encoded
        cases encoded
    | ok read =>
        obtain ⟨rd, imm, rs1⟩ := read
        obtain ⟨range, first, second⟩ := encode_iType_ok type scanned encoded
        rw [scanITypeOperands, notLoad] at scanned
        simp only [Bool.false_eq_true, if_false] at scanned
        split at scanned
        · rename_i rd' rs1' imm' matched
          cases scanned
          obtain ⟨rfl, -, short, rfl, -, short', negative, magnitude, rest, number, rfl⟩ :=
            (sscanf_formatI_iff mnemonic).mp matched
          exact ⟨⟨short, first⟩, ⟨short', second⟩, negative, magnitude, rest, number,
            int12_of_saturate build range⟩
        · cases scanned
  · rintro ⟨first, second, negative, magnitude, rest, number, range⟩
    obtain ⟨rd, hRd⟩ := first.reads
    obtain ⟨rs1, hRs1⟩ := second.reads
    rw [encode_immediate_eq mnemonic hRd hRs1 number type notLoad,
      saturate_of_int12 build range, checkImmediate_of_range range.1 range.2]
    exact ⟨_, rfl⟩

theorem encode_bType_ok_iff (type : instr.type = .B) :
    (∃ w, encode build instr line name = .ok w) ↔
      IsRegisterField build (firstOperand line) ∧ IsRegisterField build (middleOperand line) ∧
        ∃ negative magnitude rest,
          scanNumber 0 (thirdText line) = some (negative, magnitude, rest) ∧
            IsBranchOffset (signedValue negative magnitude) := by
  constructor
  · rintro ⟨w, encoded⟩
    simp only [encode, type] at encoded
    split at encoded
    · rename_i rs1 rs2 imm scanned
      obtain ⟨rfl, -, short, rfl, -, short', negative, magnitude, rest, number, rfl⟩ :=
        (sscanf_formatI_iff mnemonic).mp scanned
      obtain ⟨done, checked, handled⟩ := bind_eq_ok_iff.mp encoded
      obtain ⟨rs1Val, hRs1, others⟩ := bind_eq_ok_iff.mp handled
      obtain ⟨rs2Val, hRs2, -⟩ := bind_eq_ok_iff.mp others
      exact ⟨⟨short, names_iff.mp ⟨_, hRs1⟩⟩, ⟨short', names_iff.mp ⟨_, hRs2⟩⟩, negative, magnitude,
        rest, number, (isBranchOffset_saturate build _).mp (checkImmAndLastB_ok_iff.mp checked)⟩
    · cases encoded
  · rintro ⟨first, second, negative, magnitude, rest, number, range⟩
    have checked := checkImmAndLastB_ok_iff.mpr ((isBranchOffset_saturate build _).mpr range)
    obtain ⟨rs1, hRs1⟩ := first.reads
    obtain ⟨rs2, hRs2⟩ := second.reads
    rw [encode_bType_eq mnemonic hRs1 hRs2 number type, checked]
    exact ⟨_, rfl⟩

theorem encode_uType_ok_iff (type : instr.type = .U) :
    (∃ w, encode build instr line name = .ok w) ↔
      IsRegisterField build (firstOperand line) ∧
        ∃ negative magnitude rest,
          scanNumber 0 (secondText line) = some (negative, magnitude, rest) ∧
            int20Min ≤ signedValue negative magnitude ∧
              signedValue negative magnitude ≤ int20Max := by
  have range : ∀ value, (int20Min ≤ saturate build.longBits value ∧
      saturate build.longBits value ≤ int20Max) ↔ (int20Min ≤ value ∧ value ≤ int20Max) :=
    fun value => saturate_longBits_iff build (by decide) (by decide)
  constructor
  · rintro ⟨w, encoded⟩
    simp only [encode, type] at encoded
    split at encoded
    · rename_i rd imm scanned
      obtain ⟨rfl, -, short, negative, magnitude, rest, number, rfl⟩ :=
        (sscanf_formatU_iff mnemonic).mp scanned
      obtain ⟨done, checked, handled⟩ := bind_eq_ok_iff.mp encoded
      obtain ⟨rdVal, hRd, -⟩ := bind_eq_ok_iff.mp handled
      exact ⟨⟨short, names_iff.mp ⟨_, hRd⟩⟩, negative, magnitude, rest, number,
        (range _).mp (checkImmediate_ok_iff.mp checked)⟩
    · cases encoded
  · rintro ⟨first, negative, magnitude, rest, number, inside⟩
    have checked := checkImmediate_ok_iff.mpr ((range _).mpr inside)
    obtain ⟨rd, hRd⟩ := first.reads
    rw [encode_uType_eq mnemonic type hRd number, checked]
    exact ⟨_, rfl⟩

end Encode

/-- The operand `number(register` of a load or a store, with the text after the parenthesis. -/
structure ReadsBase (build : Build) (s : CString) (negative : Bool) (magnitude : Nat)
    (rest : CString) : Prop where
  number : scanNumber 0 s = some (negative, magnitude, '(' :: rest)
  range : IsInt12 (signedValue negative magnitude)
  base : ∃ r, Names build ((insideBase rest).take (registerLen - 1)) r

theorem IsRegisterField.isField {build : Build} {line : CString}
    (first : IsRegisterField build (firstOperand line)) : IsField (firstOperand line) := by
  obtain ⟨r, names⟩ := first.names
  exact isField_of_names first.short names

section Scanned

variable {build : Build} {line : CString} {r : Reg} (mnemonic : mnemonicOf line ≠ [])
  (isField : IsField (firstOperand line))

include mnemonic isField

theorem scanOffsetOperands_of_number {negative : Bool} {magnitude : Nat} {rest : CString}
    (number : scanNumber 0 (secondText line) = some (negative, magnitude, '(' :: rest))
    (names : Names build ((insideBase rest).take (registerLen - 1)) r) :
    scanOffsetOperands build line = .ok (firstOperand line,
      saturate build.longBits (signedValue negative magnitude),
      (insideBase rest).take (registerLen - 1)) := by
  have nonempty : insideBase rest ≠ [] := by
    intro empty
    rw [empty] at names
    exact nonempty_of_names names rfl
  apply scanOffsetOperands_of_first
  exact (sscanf_formatOffset_iff mnemonic).mpr ⟨rfl, isField, negative, magnitude, rest, number,
    nonempty, rfl, rfl⟩

theorem scanOffsetOperands_of_register
    (names : Names build (cutField ['#', '\n'] (secondText line)) r) :
    scanOffsetOperands build line =
      .ok (firstOperand line, 0, cutField ['#', '\n'] (secondText line)) := by
  have none : scanNumber 0 (secondText line) = none := by
    have noNumber := scanNumber_register (secondText_front line) names.parsed []
    rwa [List.append_nil] at noNumber
  have retry : TakesRetry build line := by
    intro reg imm base scanned
    obtain ⟨-, -, _, _, _, number, -⟩ := (sscanf_formatOffset_iff mnemonic).mp scanned
    rw [none] at number
    cases number
  exact scanOffsetOperands_of_retry retry
    (sscanf_formatPair_eq mnemonic isField (nonempty_of_names names))

end Scanned

/-- The word depends on the text through the scanned operands and their registers only. -/
theorem exists_encode_loadStore (build : Build) {instr : Instruction} {name : CString}
    (loadStore : isLoadStore name = true) (found : findInstruction name = some instr) (rr rb : Reg)
    (imm : Int) :
    ∃ result, ∀ line reg base, scanOffsetOperands build line = .ok (reg, imm, base) →
      Names build reg rr → Names build base rb → encode build instr line name = result := by
  rcases loadStore_cases loadStore with ⟨op, rfl⟩ | ⟨op, rfl⟩
  · obtain ⟨record, isRecord, isLoadStore, -⟩ := loadRecord op
    obtain rfl : instr = record := Option.some.inj (found.symm.trans isRecord.found)
    refine ⟨checkImmediate imm int12Min int12Max >>= fun _ =>
      .ok (assembleIType instr (regByte rb) (BitVec.ofInt 32 imm) (regByte rr)), ?_⟩
    intro line reg base scanned hReg hBase
    have operands : scanITypeOperands build line (loadMnemonic op).toList = .ok (reg, imm, base) :=
      (if_pos isLoadStore).trans scanned
    rw [encode_of_scanIType isRecord.type operands]
    simp only [handleITypeInstr, hReg.parsed, hBase.parsed, ok_bind, pure_eq_ok]
  · obtain ⟨record, isRecord, -⟩ := storeRecord op
    obtain rfl : instr = record := Option.some.inj (found.symm.trans isRecord.found)
    refine ⟨checkImmediate imm int12Min int12Max >>= fun _ =>
      .ok (assembleSType instr (regByte rb) (regByte rr) (BitVec.ofInt 32 imm)), ?_⟩
    intro line reg base scanned hReg hBase
    rw [encode_of_scanSType isRecord.type scanned]
    simp only [handleSTypeInstr, hReg.parsed, hBase.parsed, ok_bind, pure_eq_ok]

theorem encode_loadStore_ok_iff {build : Build} {instr : Instruction} {line name : CString}
    (mnemonic : mnemonicOf line ≠ []) (loadStore : isLoadStore name = true)
    (found : findInstruction name = some instr) :
    (∃ w, encode build instr line name = .ok w) ↔
      IsRegisterField build (firstOperand line) ∧
        ((∃ negative magnitude rest,
            ReadsBase build (secondText line) negative magnitude rest) ∨
          ∃ r, Names build (cutField ['#', '\n'] (secondText line)) r) := by
  obtain ⟨instr', found', -, encodes⟩ := encode_loadStore loadStore
  obtain rfl : instr' = instr := Option.some.inj (found'.symm.trans found)
  obtain ⟨accepts, accepted⟩ := encodes build line
  constructor
  · rintro ⟨w, encoded⟩
    obtain ⟨reg, imm, base, from'⟩ := accepted w encoded
    rcases scanOffsetOperands_cases from'.scanned with offset | ⟨-, pair⟩
    · obtain ⟨rfl, isField, negative, magnitude, rest, number, -, rfl, rfl⟩ :=
        (sscanf_formatOffset_iff mnemonic).mp offset
      exact ⟨⟨isField.short, from'.first⟩, Or.inl ⟨negative, magnitude, rest, number,
        int12_of_saturate build from'.range, from'.second⟩⟩
    · obtain ⟨first, second, isField, -⟩ := sscanf_formatPair_inv pair
      cases first
      cases second
      exact ⟨⟨isField.short, from'.first⟩, Or.inr from'.second⟩
  · rintro ⟨first, operand⟩
    obtain ⟨rd, hRd⟩ := first.names
    have read : ∃ imm base r, scanOffsetOperands build line = .ok (firstOperand line, imm, base) ∧
        IsInt12 imm ∧ Names build base r := by
      rcases operand with ⟨negative, magnitude, rest, reads⟩ | ⟨r, names⟩
      · obtain ⟨r, names⟩ := reads.base
        have scanned := scanOffsetOperands_of_number mnemonic first.isField reads.number names
        rw [saturate_of_int12 build reads.range] at scanned
        exact ⟨_, _, r, scanned, reads.range, names⟩
      · exact ⟨0, _, r, scanOffsetOperands_of_register mnemonic first.isField names, by decide,
          names⟩
    obtain ⟨imm, base, rb, scanned, range, hBase⟩ := read
    obtain ⟨next, ⟨w, encoded, -⟩, -⟩ := accepts _ imm base rd rb scanned range hRd hBase
    exact ⟨w, encoded⟩

end RiscvAs
