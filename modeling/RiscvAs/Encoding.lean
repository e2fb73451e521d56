/-
What `encode` returns on a line in the shape of its format.

The registers are any fields that `parse_register` accepts, so that these facts
serve the lines of a source file and the lines of an expansion alike.  In range
the word decodes to the instruction that the line spells; out of range there is
no word.
-/

import RiscvAs.Operands

namespace RiscvAs

open Stdio
open Rv32

def rMnemonic : ROp → String
  | .add => "add"
  | .sub => "sub"
  | .xor => "xor"
  | .or => "or"
  | .and => "and"
  | .sll => "sll"
  | .srl => "srl"
  | .sra => "sra"
  | .slt => "slt"
  | .sltu => "sltu"

def iMnemonic : IOp → String
  | .addi => "addi"
  | .xori => "xori"
  | .ori => "ori"
  | .andi => "andi"
  | .slti => "slti"
  | .sltiu => "sltiu"

def loadMnemonic : LoadOp → String
  | .lb => "lb"
  | .lh => "lh"
  | .lw => "lw"
  | .lbu => "lbu"
  | .lhu => "lhu"

def storeMnemonic : StoreOp → String
  | .sb => "sb"
  | .sh => "sh"
  | .sw => "sw"

def branchMnemonic : BranchOp → String
  | .beq => "beq"
  | .bne => "bne"
  | .blt => "blt"
  | .bge => "bge"
  | .bltu => "bltu"
  | .bgeu => "bgeu"

def upperMnemonic : UOp → String
  | .lui => "lui"
  | .auipc => "auipc"

theorem findInstruction_name {name : CString} {instr : Instruction}
    (found : findInstruction name = some instr) : instr.name.toList = name := by
  simpa using List.find?_some found

theorem findInstruction_fits {name : CString} {instr : Instruction}
    (found : findInstruction name = some instr) : instr.Fits :=
  instructions_fit instr (List.mem_of_find?_eq_some found)

theorem instructions_isToken : ∀ instr ∈ instructions, IsToken instr.name.toList := by
  have checked : ∀ instr ∈ instructions, instr.name.toList ≠ [] ∧
      instr.name.toList.length ≤ nameLen - 1 ∧
      instr.name.toList.all (fun c => !isspace c) = true := by
    decide
  intro instr member
  obtain ⟨nonempty, short, noBlank⟩ := checked instr member
  exact ⟨nonempty, short, fun c inside => by simpa using List.all_eq_true.mp noBlank c inside⟩

theorem findInstruction_isToken {name : CString} {instr : Instruction}
    (found : findInstruction name = some instr) : IsToken name :=
  findInstruction_name found ▸ instructions_isToken instr (List.mem_of_find?_eq_some found)

structure Record (mnemonic : String) (type : InstrType) (opcode : Nat) (instr : Instruction) :
    Prop where
  found : findInstruction mnemonic.toList = some instr
  type : instr.type = type
  opcode : instr.opcode.toNat = opcode

theorem rRecord (op : ROp) : ∃ instr, Record (rMnemonic op) .R 0x33 instr ∧
    rOp instr.funct7.toNat instr.funct3.toNat = some op := by
  cases op <;> exact ⟨_, ⟨rfl, rfl, rfl⟩, rfl⟩

theorem iRecord (op : IOp) : ∃ instr, Record (iMnemonic op) .I 0x13 instr ∧
    isLoadStore (iMnemonic op).toList = false ∧
    ∀ funct7 rd rs1 shamt imm, opImm funct7 instr.funct3.toNat rd rs1 shamt imm =
      some (.imm op rd rs1 imm) := by
  cases op <;> exact ⟨_, ⟨rfl, rfl, rfl⟩, by decide, fun _ _ _ _ _ => rfl⟩

theorem loadRecord (op : LoadOp) : ∃ instr, Record (loadMnemonic op) .I 0x03 instr ∧
    isLoadStore (loadMnemonic op).toList = true ∧ loadOp instr.funct3.toNat = some op := by
  cases op <;> exact ⟨_, ⟨rfl, rfl, rfl⟩, by decide, rfl⟩

theorem storeRecord (op : StoreOp) : ∃ instr, Record (storeMnemonic op) .S 0x23 instr ∧
    storeOp instr.funct3.toNat = some op := by
  cases op <;> exact ⟨_, ⟨rfl, rfl, rfl⟩, rfl⟩

theorem branchRecord (op : BranchOp) : ∃ instr, Record (branchMnemonic op) .B 0x63 instr ∧
    branchOp instr.funct3.toNat = some op := by
  cases op <;> exact ⟨_, ⟨rfl, rfl, rfl⟩, rfl⟩

theorem upperRecord (op : UOp) :
    ∃ instr, Record (upperMnemonic op) .U (upperOpcode op) instr := by
  cases op <;> exact ⟨_, ⟨rfl, rfl, rfl⟩⟩

theorem ecallRecord : ∃ instr, Record "ecall" .Z 0x73 instr ∧
    assembleZType instr = 0x00000073#32 :=
  ⟨_, ⟨rfl, rfl, rfl⟩, by decide⟩

section Scanned

variable {build : Build} {instr : Instruction} {line name first last : CString} {imm : Int}

theorem encode_of_scanIType (type : instr.type = .I)
    (scanned : scanITypeOperands build line name = .ok (first, imm, last)) :
    encode build instr line name =
      (checkImmediate imm int12Min int12Max >>= fun _ =>
        handleITypeInstr build instr last (BitVec.ofInt 32 imm) first) := by
  simp only [encode, type, scanned, ok_bind]

theorem encode_of_scanSType (type : instr.type = .S)
    (scanned : scanOffsetOperands build line = .ok (first, imm, last)) :
    encode build instr line name =
      (checkImmediate imm int12Min int12Max >>= fun _ =>
        handleSTypeInstr build instr last first (BitVec.ofInt 32 imm)) := by
  simp only [encode, type, scanned, ok_bind]

end Scanned

/-! ### One format at a time -/

def EncodesTo (encoded : Except Failure Word) (instr : Instr) : Prop :=
  ∃ w, encoded = .ok w ∧ decode w = some instr

section Formats

variable {build : Build} {mnemonic : String} {instr : Instruction}
  {first second last base : CString} {rd rs1 rs2 : Reg}

theorem encode_reg {op : ROp} (record : Record mnemonic .R 0x33 instr)
    (selects : rOp instr.funct7.toNat instr.funct3.toNat = some op)
    (isFirst : IsField first) (isSecond : IsField second) (isLast : IsLastField last)
    (hRd : Names build first rd) (hRs1 : Names build second rs1) (hRs2 : Names build last rs2) :
    EncodesTo (encode build instr (mnemonic.toList ++ ' ' :: (first ++ ',' :: ' ' ::
        (second ++ ',' :: ' ' :: last))) mnemonic.toList)
      (.reg op rd rs1 rs2) := by
  have read := sscanf_formatR (findInstruction_isToken record.found) isFirst isSecond isLast
  have decoded := decode_assembleRType (findInstruction_fits record.found) (regByte_lt rs1)
    (regByte_lt rs2) (regByte_lt rd) record.opcode selects
  simp only [toReg_regByte] at decoded
  refine ⟨assembleRType instr (regByte rs2) (regByte rs1) (regByte rd), ?_, decoded⟩
  simp only [encode, record.type, read, handleRTypeInstr, hRd.parsed, hRs1.parsed, hRs2.parsed,
    ok_bind, pure_eq_ok]

theorem encode_imm_of_scanned {op : IOp} {line : CString} {imm : Int}
    (record : Record mnemonic .I 0x13 instr)
    (selects : ∀ funct7 rd rs1 shamt imm, opImm funct7 instr.funct3.toNat rd rs1 shamt imm =
      some (.imm op rd rs1 imm))
    (scanned : scanITypeOperands build line mnemonic.toList = .ok (first, imm, second))
    (hRd : Names build first rd) (hRs1 : Names build second rs1)
    (low : int12Min ≤ imm) (high : imm ≤ int12Max) :
    EncodesTo (encode build instr line mnemonic.toList) (.imm op rd rs1 imm) := by
  have decoded := decode_assembleIType (findInstruction_fits record.found) (regByte_lt rs1)
    (regByte_lt rd) imm record.opcode selects low (by simp only [int12Max] at high; omega)
  simp only [toReg_regByte] at decoded
  refine ⟨assembleIType instr (regByte rs1) (BitVec.ofInt 32 imm) (regByte rd), ?_, decoded⟩
  simp only [encode_of_scanIType record.type scanned, checkImmediate_of_range low high,
    handleITypeInstr, hRd.parsed, hRs1.parsed, ok_bind, pure_eq_ok]

theorem encode_load_of_scanned {op : LoadOp} {line : CString} {imm : Int}
    (record : Record mnemonic .I 0x03 instr) (selects : loadOp instr.funct3.toNat = some op)
    (scanned : scanITypeOperands build line mnemonic.toList = .ok (first, imm, base))
    (hRd : Names build first rd) (hRs1 : Names build base rs1)
    (low : int12Min ≤ imm) (high : imm ≤ int12Max) :
    EncodesTo (encode build instr line mnemonic.toList) (.load op rd rs1 imm) := by
  have decoded := decode_assembleIType_load (findInstruction_fits record.found) (regByte_lt rs1)
    (regByte_lt rd) imm record.opcode selects low (by simp only [int12Max] at high; omega)
  simp only [toReg_regByte] at decoded
  refine ⟨assembleIType instr (regByte rs1) (BitVec.ofInt 32 imm) (regByte rd), ?_, decoded⟩
  simp only [encode_of_scanIType record.type scanned, checkImmediate_of_range low high,
    handleITypeInstr, hRd.parsed, hRs1.parsed, ok_bind, pure_eq_ok]

theorem encode_store_of_scanned {op : StoreOp} {line : CString} {imm : Int}
    (record : Record mnemonic .S 0x23 instr) (selects : storeOp instr.funct3.toNat = some op)
    (scanned : scanOffsetOperands build line = .ok (first, imm, base))
    (hRs2 : Names build first rs2) (hRs1 : Names build base rs1)
    (low : int12Min ≤ imm) (high : imm ≤ int12Max) :
    EncodesTo (encode build instr line mnemonic.toList) (.store op rs1 rs2 imm) := by
  have decoded := decode_assembleSType (findInstruction_fits record.found) (regByte_lt rs1)
    (regByte_lt rs2) imm record.opcode selects low (by simp only [int12Max] at high; omega)
  simp only [toReg_regByte] at decoded
  refine ⟨assembleSType instr (regByte rs1) (regByte rs2) (BitVec.ofInt 32 imm), ?_, decoded⟩
  simp only [encode_of_scanSType record.type scanned, checkImmediate_of_range low high,
    handleSTypeInstr, hRs1.parsed, hRs2.parsed, ok_bind, pure_eq_ok]

theorem encode_branch {op : BranchOp} (record : Record mnemonic .B 0x63 instr)
    (selects : branchOp instr.funct3.toNat = some op)
    (isFirst : IsField first) (isSecond : IsField second)
    (hRs1 : Names build first rs1) (hRs2 : Names build second rs2) (literal : Literal)
    (low : int13Min ≤ literal.value) (high : literal.value ≤ int13Max)
    (even : literal.value % 2 = 0) :
    EncodesTo (encode build instr (mnemonic.toList ++ ' ' :: (first ++ ',' :: ' ' ::
        (second ++ ',' :: ' ' :: literal.text))) mnemonic.toList)
      (.branch op rs1 rs2 literal.value) := by
  have read := sscanf_formatI (findInstruction_isToken record.found) isFirst isSecond build literal
  simp only [int13Min, int13Max] at low high
  rw [saturate_longBits build (by omega) (by omega)] at read
  have decoded := decode_assembleBType (findInstruction_fits record.found) (regByte_lt rs1)
    (regByte_lt rs2) literal.value record.opcode selects even low (by omega)
  simp only [toReg_regByte] at decoded
  have checked : checkImmAndLastB literal.value int13Min int13Max = .ok () := by
    rw [checkImmAndLastB, if_neg (by simp only [int13Min, int13Max]; omega)]
  refine ⟨assembleBType instr (regByte rs1) (regByte rs2) (BitVec.ofInt 32 literal.value), ?_,
    decoded⟩
  simp only [encode, record.type, read, checked, handleBTypeInstr, hRs1.parsed, hRs2.parsed,
    ok_bind, pure_eq_ok]

theorem encode_upper {op : UOp} (record : Record mnemonic .U (upperOpcode op) instr)
    (isFirst : IsField first) (hRd : Names build first rd) (literal : Literal)
    (low : int20Min ≤ literal.value) (high : literal.value ≤ int20Max) :
    EncodesTo (encode build instr (mnemonic.toList ++ ' ' :: (first ++ ',' :: ' ' ::
        literal.text)) mnemonic.toList)
      (.upper op rd (literal.value % 2 ^ 20).toNat) := by
  have read := sscanf_formatU (findInstruction_isToken record.found) isFirst build literal
  simp only [int20Min, int20Max] at low high
  rw [saturate_longBits build (by omega) (by omega)] at read
  have decoded := decode_assembleUType (findInstruction_fits record.found) (regByte_lt rd)
    record.opcode (BitVec.ofInt 32 literal.value)
  have masked : (BitVec.ofInt 32 literal.value).toNat % 2 ^ 20 =
      (literal.value % 2 ^ 20).toNat := by
    rw [← ofInt_toNat_mod literal.value 20 (by decide), Int.toNat_natCast]
  rw [toReg_regByte, masked] at decoded
  have checked : checkImmediate literal.value int20Min int20Max = .ok () :=
    checkImmediate_of_range low high
  refine ⟨assembleUType instr (regByte rd) (BitVec.ofInt 32 literal.value), ?_, decoded⟩
  simp only [encode, record.type, read, checked, handleUTypeInstr, hRd.parsed, ok_bind,
    pure_eq_ok]

theorem encode_iType_rejects {line : CString} {imm : Int} (type : instr.type = .I)
    (scanned : scanITypeOperands build line mnemonic.toList = .ok (first, imm, base))
    (outside : ¬ (int12Min ≤ imm ∧ imm ≤ int12Max)) :
    encode build instr line mnemonic.toList = .error .invalidImmediate := by
  rw [encode_of_scanIType type scanned, checkImmediate_of_not_range outside, error_bind]

theorem encode_sType_rejects {line : CString} {imm : Int} (type : instr.type = .S)
    (scanned : scanOffsetOperands build line = .ok (first, imm, base))
    (outside : ¬ (int12Min ≤ imm ∧ imm ≤ int12Max)) :
    encode build instr line mnemonic.toList = .error .invalidImmediate := by
  rw [encode_of_scanSType type scanned, checkImmediate_of_not_range outside, error_bind]

theorem encode_branch_rejects (record : Record mnemonic .B 0x63 instr)
    (isFirst : IsField first) (isSecond : IsField second) (literal : Literal)
    (outside : ¬ ((int13Min ≤ literal.value ∧ literal.value ≤ int13Max) ∧
      literal.value % 2 = 0)) :
    encode build instr (mnemonic.toList ++ ' ' :: (first ++ ',' :: ' ' ::
      (second ++ ',' :: ' ' :: literal.text))) mnemonic.toList = .error .invalidImmediate := by
  have read := sscanf_formatI (findInstruction_isToken record.found) isFirst isSecond build literal
  have range : (int13Min ≤ saturate build.longBits literal.value ∧
      saturate build.longBits literal.value ≤ int13Max) ↔
        (int13Min ≤ literal.value ∧ literal.value ≤ int13Max) :=
    saturate_longBits_iff build (by decide) (by decide)
  have checked : checkImmAndLastB (saturate build.longBits literal.value) int13Min int13Max =
      .error .invalidImmediate := by
    rw [checkImmAndLastB, if_pos]
    by_contra accepted
    have inside := range.mp (by omega)
    simp only [int13Min, int13Max] at inside
    rw [saturate_longBits build (by omega) (by omega)] at accepted
    exact outside (by omega)
  simp only [encode, record.type, read, checked, error_bind]

theorem encode_upper_rejects {op : UOp} (record : Record mnemonic .U (upperOpcode op) instr)
    (isFirst : IsField first) (literal : Literal)
    (outside : ¬ (int20Min ≤ literal.value ∧ literal.value ≤ int20Max)) :
    encode build instr (mnemonic.toList ++ ' ' :: (first ++ ',' :: ' ' :: literal.text))
      mnemonic.toList = .error .invalidImmediate := by
  have read := sscanf_formatU (findInstruction_isToken record.found) isFirst build literal
  have range : (int20Min ≤ saturate build.longBits literal.value ∧
      saturate build.longBits literal.value ≤ int20Max) ↔
        (int20Min ≤ literal.value ∧ literal.value ≤ int20Max) :=
    saturate_longBits_iff build (by decide) (by decide)
  have checked := checkImmediate_of_not_range (fun inside => outside (range.mp inside))
  simp only [encode, record.type, read, checked, error_bind]

end Formats

end RiscvAs
