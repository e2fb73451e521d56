/-
The word of an instruction.

`wordOf` puts the fields of an instruction together, and `decode` takes them apart:
each is the inverse of the other, between the words that decode and the
instructions whose immediates fit.  So no two words mean the same instruction.
-/

import RiscvAs.Rv32.Fields
import RiscvAs.Rv32.Execution

namespace Rv32

/-- Numbers put together where `decode` reads them; `upper` is all of the bits
from the twentieth on. -/
def pack (opcode rd funct3 rs1 upper : Nat) : Word :=
  BitVec.ofNat 32 (opcode + rd * 2 ^ 7 + funct3 * 2 ^ 12 + rs1 * 2 ^ 15 + upper * 2 ^ 20)

structure Fields (w : Word) (opcode rd funct3 rs1 upper : Nat) : Prop where
  opcode : field w 0 7 = opcode
  rd : field w 7 5 = rd
  funct3 : field w 12 3 = funct3
  rs1 : field w 15 5 = rs1
  upper : field w 20 12 = upper

theorem fields_pack {opcode rd funct3 rs1 upper : Nat} (hopcode : opcode < 2 ^ 7)
    (hrd : rd < 2 ^ 5) (hfunct3 : funct3 < 2 ^ 3) (hrs1 : rs1 < 2 ^ 5) (hupper : upper < 2 ^ 12) :
    Fields (pack opcode rd funct3 rs1 upper) opcode rd funct3 rs1 upper := by
  have sum : (pack opcode rd funct3 rs1 upper).toNat =
      opcode + rd * 2 ^ 7 + funct3 * 2 ^ 12 + rs1 * 2 ^ 15 + upper * 2 ^ 20 := by
    rw [pack, BitVec.toNat_ofNat]
    omega
  constructor <;> rw [field, sum] <;> omega

theorem opcode_pack {opcode : Nat} (hopcode : opcode < 2 ^ 7) (rd funct3 rs1 upper : Nat) :
    field (pack opcode rd funct3 rs1 upper) 0 7 = opcode := by
  rw [field, pack, BitVec.toNat_ofNat]
  omega

theorem pack_fields (w : Word) :
    pack (field w 0 7) (field w 7 5) (field w 12 3) (field w 15 5) (field w 20 12) = w := by
  have bound := w.isLt
  apply BitVec.eq_of_toNat_eq
  rw [pack, BitVec.toNat_ofNat]
  simp only [field]
  omega

theorem upper_parts (w : Word) :
    field w 20 5 = field w 20 12 % 2 ^ 5 ∧ field w 25 7 = field w 20 12 / 2 ^ 5 ∧
      field w 31 1 = field w 20 12 / 2 ^ 11 ∧ field w 25 6 = field w 20 12 / 2 ^ 5 % 2 ^ 6 := by
  have bound := w.isLt
  simp only [field]
  omega

theorem rd_parts (w : Word) :
    field w 7 1 = field w 7 5 % 2 ∧ field w 8 4 = field w 7 5 / 2 := by
  simp only [field]
  omega

def immBits (width : Nat) (imm : Int) : Nat :=
  (imm % 2 ^ width).toNat

theorem immBits_lt (width : Nat) (imm : Int) : immBits width imm < 2 ^ width := by
  have positive : (0 : Int) < 2 ^ width := by positivity
  have wrapped := Int.emod_lt_of_pos imm positive
  have nonneg := Int.emod_nonneg imm (Int.ne_of_gt positive)
  rw [immBits, Int.toNat_lt nonneg]
  exact_mod_cast wrapped

theorem signed_immBits {width : Nat} {imm : Int} (positive : 0 < width)
    (low : -(2 ^ (width - 1) : Int) ≤ imm) (high : imm < 2 ^ (width - 1)) :
    signed width (immBits width imm) = imm := by
  refine signed_ofInt positive ?_ low high
  rw [immBits, Int.toNat_of_nonneg (Int.emod_nonneg imm (by positivity))]

theorem immBits_signed {width value : Nat} (positive : 0 < width) (fits : value < 2 ^ width) :
    immBits width (signed width value) = value ∧
      -(2 ^ (width - 1) : Int) ≤ signed width value ∧ signed width value < 2 ^ (width - 1) := by
  obtain ⟨width, rfl⟩ : ∃ smaller, width = smaller + 1 := ⟨width - 1, by omega⟩
  have double : (2 ^ (width + 1) : Nat) = 2 * 2 ^ width := by rw [pow_succ, Nat.mul_comm]
  have double' : (2 ^ (width + 1) : Int) = 2 * 2 ^ width := by rw [pow_succ, Int.mul_comm]
  have cast : ((2 ^ width : Nat) : Int) = 2 ^ width := by norm_cast
  simp only [signed, immBits, Nat.add_sub_cancel]
  split
  · have kept : (value : Int) % 2 ^ (width + 1) = value := Int.emod_eq_of_lt (by omega) (by omega)
    rw [kept]
    omega
  · have wrapped : ((value : Int) - 2 ^ (width + 1)) % 2 ^ (width + 1) = value := by
      rw [Int.sub_emod_right]
      exact Int.emod_eq_of_lt (by omega) (by omega)
    rw [wrapped]
    omega

def rFunct3 : ROp → Nat
  | .add | .sub => 0x0
  | .sll => 0x1
  | .slt => 0x2
  | .sltu => 0x3
  | .xor => 0x4
  | .srl | .sra => 0x5
  | .or => 0x6
  | .and => 0x7

def rFunct7 : ROp → Nat
  | .sub | .sra => 0x20
  | _ => 0x00

def iFunct3 : IOp → Nat
  | .addi => 0x0
  | .slti => 0x2
  | .sltiu => 0x3
  | .xori => 0x4
  | .ori => 0x6
  | .andi => 0x7

def shiftFunct3 : ShiftOp → Nat
  | .slli => 0x1
  | .srli | .srai => 0x5

def shiftFunct7 : ShiftOp → Nat
  | .slli | .srli => 0x00
  | .srai => 0x20

def loadFunct3 : LoadOp → Nat
  | .lb => 0x0
  | .lh => 0x1
  | .lw => 0x2
  | .lbu => 0x4
  | .lhu => 0x5

def storeFunct3 : StoreOp → Nat
  | .sb => 0x0
  | .sh => 0x1
  | .sw => 0x2

def branchFunct3 : BranchOp → Nat
  | .beq => 0x0
  | .bne => 0x1
  | .blt => 0x4
  | .bge => 0x5
  | .bltu => 0x6
  | .bgeu => 0x7

def uOpcode : UOp → Nat
  | .lui => 0x37
  | .auipc => 0x17

/-- The bits of a branch offset that stand where other formats have `rd`. -/
def branchLow (bits : Nat) : Nat :=
  bits / 2 % 2 ^ 4 * 2 + bits / 2 ^ 11 % 2

def branchHigh (bits : Nat) : Nat :=
  bits / 2 ^ 12 * 2 ^ 6 + bits / 2 ^ 5 % 2 ^ 6

/-- The bits of a jump offset in the order of the word. -/
def jumpField (bits : Nat) : Nat :=
  bits / 2 ^ 20 * 2 ^ 19 + bits / 2 % 2 ^ 10 * 2 ^ 9 + bits / 2 ^ 11 % 2 * 2 ^ 8 +
    bits / 2 ^ 12 % 2 ^ 8

theorem branch_parts (bits : Nat) :
    branchHigh bits / 2 ^ 6 = bits / 2 ^ 12 ∧ branchHigh bits % 2 ^ 6 = bits / 2 ^ 5 % 2 ^ 6 ∧
      branchLow bits % 2 = bits / 2 ^ 11 % 2 ∧ branchLow bits / 2 = bits / 2 % 2 ^ 4 := by
  rw [branchHigh, branchLow]
  omega

theorem branch_digits {bits : Nat} (even : bits % 2 = 0) :
    bits / 2 ^ 12 * 2 ^ 12 + bits / 2 ^ 11 % 2 * 2 ^ 11 + bits / 2 ^ 5 % 2 ^ 6 * 2 ^ 5 +
      bits / 2 % 2 ^ 4 * 2 = bits := by
  have at5 : bits / 2 ^ 5 = bits / 2 / 2 ^ 4 := by rw [Nat.div_div_eq_div_mul]; rfl
  have at11 : bits / 2 ^ 11 = bits / 2 ^ 5 / 2 ^ 6 := by rw [Nat.div_div_eq_div_mul]; rfl
  have at12 : bits / 2 ^ 12 = bits / 2 ^ 11 / 2 := by rw [Nat.div_div_eq_div_mul]; rfl
  omega

theorem jump_parts {bits : Nat} (fits : bits < 2 ^ 21) :
    jumpField bits < 2 ^ 20 ∧ jumpField bits / 2 ^ 19 = bits / 2 ^ 20 ∧
      jumpField bits / 2 ^ 9 % 2 ^ 10 = bits / 2 % 2 ^ 10 ∧
      jumpField bits / 2 ^ 8 % 2 = bits / 2 ^ 11 % 2 ∧
      jumpField bits % 2 ^ 8 = bits / 2 ^ 12 % 2 ^ 8 := by
  have top : bits / 2 ^ 20 < 2 := by omega
  have middle : bits / 2 % 2 ^ 10 < 2 ^ 10 := Nat.mod_lt _ (by decide)
  have single : bits / 2 ^ 11 % 2 < 2 := Nat.mod_lt _ (by decide)
  have low : bits / 2 ^ 12 % 2 ^ 8 < 2 ^ 8 := Nat.mod_lt _ (by decide)
  rw [jumpField]
  generalize bits / 2 ^ 20 = digit20 at *
  generalize bits / 2 % 2 ^ 10 = digits1 at *
  generalize bits / 2 ^ 11 % 2 = digit11 at *
  generalize bits / 2 ^ 12 % 2 ^ 8 = digits12 at *
  omega

theorem jump_digits {bits : Nat} (even : bits % 2 = 0) :
    bits / 2 ^ 20 * 2 ^ 20 + bits / 2 ^ 12 % 2 ^ 8 * 2 ^ 12 + bits / 2 ^ 11 % 2 * 2 ^ 11 +
      bits / 2 % 2 ^ 10 * 2 = bits := by
  have at11 : bits / 2 ^ 11 = bits / 2 / 2 ^ 10 := by rw [Nat.div_div_eq_div_mul]; rfl
  have at12 : bits / 2 ^ 12 = bits / 2 ^ 11 / 2 := by rw [Nat.div_div_eq_div_mul]; rfl
  have at20 : bits / 2 ^ 20 = bits / 2 ^ 12 / 2 ^ 8 := by rw [Nat.div_div_eq_div_mul]; rfl
  omega

def packUpper (opcode rd bits : Nat) : Word :=
  pack opcode rd (bits % 2 ^ 3) (bits / 2 ^ 3 % 2 ^ 5) (bits / 2 ^ 8)

def wordOf : Instr → Word
  | .reg op rd rs1 rs2 => pack 0x33 rd (rFunct3 op) rs1 (rs2 + rFunct7 op * 2 ^ 5)
  | .imm op rd rs1 imm => pack 0x13 rd (iFunct3 op) rs1 (immBits 12 imm)
  | .shift op rd rs1 shamt => pack 0x13 rd (shiftFunct3 op) rs1 (shamt + shiftFunct7 op * 2 ^ 5)
  | .load op rd rs1 imm => pack 0x03 rd (loadFunct3 op) rs1 (immBits 12 imm)
  | .store op rs1 rs2 imm =>
      pack 0x23 (immBits 12 imm % 2 ^ 5) (storeFunct3 op) rs1
        (rs2 + immBits 12 imm / 2 ^ 5 * 2 ^ 5)
  | .branch op rs1 rs2 imm =>
      pack 0x63 (branchLow (immBits 13 imm)) (branchFunct3 op) rs1
        (rs2 + branchHigh (immBits 13 imm) * 2 ^ 5)
  | .upper op rd imm => packUpper (uOpcode op) rd imm
  | .jal rd imm => packUpper 0x6f rd (jumpField (immBits 21 imm))
  | .jalr rd rs1 imm => pack 0x67 rd 0 rs1 (immBits 12 imm)
  | .ecall => 0x00000073#32
  | .ebreak => 0x00100073#32

def Instr.Encodable : Instr → Prop
  | .imm _ _ _ value | .load _ _ _ value | .store _ _ _ value | .jalr _ _ value =>
      -2 ^ 11 ≤ value ∧ value < 2 ^ 11
  | .shift _ _ _ shamt => shamt < 2 ^ 5
  | .branch _ _ _ value => (-2 ^ 12 ≤ value ∧ value < 2 ^ 12) ∧ value % 2 = 0
  | .upper _ _ value => value < 2 ^ 20
  | .jal _ value => (-2 ^ 20 ≤ value ∧ value < 2 ^ 20) ∧ value % 2 = 0
  | .reg .. | .ecall | .ebreak => True

/-! ### Decoding what was packed -/

section Fields

variable {w : Word} {opcode rd funct3 rs1 upper : Nat}
  (fields : Fields w opcode rd funct3 rs1 upper)

include fields

theorem Fields.second {rs2 high : Nat} (holds : upper = rs2 + high * 2 ^ 5) (small : rs2 < 2 ^ 5) :
    field w 20 5 = rs2 ∧ field w 25 7 = high := by
  have parts := upper_parts w
  rw [fields.upper] at parts
  omega

theorem Fields.immI {imm : Int} (holds : upper = immBits 12 imm) (low : -2 ^ 11 ≤ imm)
    (high : imm < 2 ^ 11) : immI w = imm := by
  rw [Rv32.immI, fields.upper, holds]
  exact signed_immBits (by decide) low high

theorem Fields.immS {imm : Int} {rs2 : Nat} (lower : rd = immBits 12 imm % 2 ^ 5)
    (holds : upper = rs2 + immBits 12 imm / 2 ^ 5 * 2 ^ 5) (small : rs2 < 2 ^ 5)
    (low : -2 ^ 11 ≤ imm) (high : imm < 2 ^ 11) : immS w = imm := by
  have digits : field w 25 7 * 2 ^ 5 + field w 7 5 = immBits 12 imm := by
    rw [(fields.second holds small).2, fields.rd]
    omega
  rw [Rv32.immS, digits]
  exact signed_immBits (by decide) low high

theorem Fields.immB {imm : Int} {rs2 : Nat} (lower : rd = branchLow (immBits 13 imm))
    (holds : upper = rs2 + branchHigh (immBits 13 imm) * 2 ^ 5) (small : rs2 < 2 ^ 5)
    (range : -2 ^ 12 ≤ imm ∧ imm < 2 ^ 12) (even : imm % 2 = 0) : immB w = imm := by
  have bound := immBits_lt 13 imm
  have evenBits : immBits 13 imm % 2 = 0 := by
    rw [immBits]
    omega
  obtain ⟨high, middle, single, low⟩ := branch_parts (immBits 13 imm)
  have digits : field w 31 1 * 2 ^ 12 + field w 7 1 * 2 ^ 11 + field w 25 6 * 2 ^ 5 +
      field w 8 4 * 2 = immBits 13 imm := by
    have parts := upper_parts w
    have parts' := rd_parts w
    rw [fields.upper, holds] at parts
    rw [fields.rd, lower, single, low] at parts'
    have read31 : field w 31 1 = immBits 13 imm / 2 ^ 12 := by rw [← high]; omega
    have read25 : field w 25 6 = immBits 13 imm / 2 ^ 5 % 2 ^ 6 := by rw [← middle]; omega
    rw [read31, read25, parts'.1, parts'.2]
    exact branch_digits evenBits
  rw [Rv32.immB, digits]
  exact signed_immBits (by decide) range.1 range.2

end Fields

theorem fields_packUpper {opcode rd bits : Nat} (hopcode : opcode < 2 ^ 7) (hrd : rd < 2 ^ 5)
    (hbits : bits < 2 ^ 20) : field (packUpper opcode rd bits) 0 7 = opcode ∧
    field (packUpper opcode rd bits) 7 5 = rd ∧ field (packUpper opcode rd bits) 12 20 = bits := by
  have fields : Fields (packUpper opcode rd bits) opcode rd (bits % 2 ^ 3) (bits / 2 ^ 3 % 2 ^ 5)
      (bits / 2 ^ 8) :=
    fields_pack hopcode hrd (by omega) (by omega) (by omega)
  refine ⟨fields.opcode, fields.rd, ?_⟩
  have funct3 := fields.funct3
  have rs1 := fields.rs1
  have upper := fields.upper
  generalize packUpper opcode rd bits = w at *
  simp only [field] at *
  omega

theorem immJ_of_field {w : Word} {imm : Int} (read : field w 12 20 = jumpField (immBits 21 imm))
    (range : -2 ^ 20 ≤ imm ∧ imm < 2 ^ 20) (even : imm % 2 = 0) : immJ w = imm := by
  have bound := immBits_lt 21 imm
  have evenBits : immBits 21 imm % 2 = 0 := by
    rw [immBits]
    omega
  have digits : field w 31 1 * 2 ^ 20 + field w 12 8 * 2 ^ 12 + field w 20 1 * 2 ^ 11 +
      field w 21 10 * 2 = immBits 21 imm := by
    obtain ⟨-, top, middle, single, low⟩ := jump_parts bound
    rw [← read] at top middle single low
    rw [← jump_digits evenBits, ← top, ← middle, ← single, ← low]
    have bound' := w.isLt
    simp only [field]
    omega
  rw [immJ, digits]
  exact signed_immBits (by decide) range.1 range.2

theorem regField_of_field {w : Word} {low : Nat} {r : Reg} (read : field w low 5 = r) :
    regField w low = r :=
  Fin.ext read

/-- An instruction whose immediate fits is what its word decodes to. -/
theorem decode_wordOf {instr : Instr} (encodable : instr.Encodable) :
    decode (wordOf instr) = some instr := by
  cases instr with
  | reg op rd rs1 rs2 =>
      have fields : Fields (wordOf (.reg op rd rs1 rs2)) 0x33 rd (rFunct3 op) rs1
          (rs2 + rFunct7 op * 2 ^ 5) :=
        fields_pack (by decide) rd.isLt (by cases op <;> decide) rs1.isLt
          (by have bound := rs2.isLt; cases op <;> simp only [rFunct7] <;> omega)
      obtain ⟨second, funct7⟩ := fields.second rfl rs2.isLt
      simp only [decode, fields.opcode, fields.funct3, funct7, regField_of_field second,
        regField_of_field fields.rd, regField_of_field fields.rs1]
      cases op <;> rfl
  | imm op rd rs1 imm =>
      have fields : Fields (wordOf (.imm op rd rs1 imm)) 0x13 rd (iFunct3 op) rs1
          (immBits 12 imm) :=
        fields_pack (by decide) rd.isLt (by cases op <;> decide) rs1.isLt (immBits_lt 12 imm)
      simp only [decode, fields.opcode, fields.funct3, fields.immI rfl encodable.1 encodable.2,
        regField_of_field fields.rd, regField_of_field fields.rs1]
      cases op <;> rfl
  | shift op rd rs1 shamt =>
      have small : shamt < 2 ^ 5 := encodable
      have fields : Fields (wordOf (.shift op rd rs1 shamt)) 0x13 rd (shiftFunct3 op) rs1
          (shamt + shiftFunct7 op * 2 ^ 5) :=
        fields_pack (by decide) rd.isLt (by cases op <;> decide) rs1.isLt
          (by cases op <;> simp only [shiftFunct7] <;> omega)
      obtain ⟨second, funct7⟩ := fields.second rfl small
      simp only [decode, fields.opcode, fields.funct3, funct7, second,
        regField_of_field fields.rd, regField_of_field fields.rs1]
      cases op <;> rfl
  | load op rd rs1 imm =>
      have fields : Fields (wordOf (.load op rd rs1 imm)) 0x03 rd (loadFunct3 op) rs1
          (immBits 12 imm) :=
        fields_pack (by decide) rd.isLt (by cases op <;> decide) rs1.isLt (immBits_lt 12 imm)
      simp only [decode, fields.opcode, fields.funct3, fields.immI rfl encodable.1 encodable.2,
        regField_of_field fields.rd, regField_of_field fields.rs1]
      cases op <;> rfl
  | store op rs1 rs2 imm =>
      have bound := immBits_lt 12 imm
      have fields : Fields (wordOf (.store op rs1 rs2 imm)) 0x23 (immBits 12 imm % 2 ^ 5)
          (storeFunct3 op) rs1 (rs2 + immBits 12 imm / 2 ^ 5 * 2 ^ 5) :=
        fields_pack (by decide) (by omega) (by cases op <;> decide) rs1.isLt
          (by have bound' := rs2.isLt; omega)
      obtain ⟨second, -⟩ := fields.second rfl rs2.isLt
      simp only [decode, fields.opcode, fields.funct3, regField_of_field second,
        fields.immS rfl rfl rs2.isLt encodable.1 encodable.2, regField_of_field fields.rs1]
      cases op <;> rfl
  | branch op rs1 rs2 imm =>
      have bound := immBits_lt 13 imm
      have fields : Fields (wordOf (.branch op rs1 rs2 imm)) 0x63 (branchLow (immBits 13 imm))
          (branchFunct3 op) rs1 (rs2 + branchHigh (immBits 13 imm) * 2 ^ 5) :=
        fields_pack (by decide) (by rw [branchLow]; omega) (by cases op <;> decide) rs1.isLt
          (by have bound' := rs2.isLt; rw [branchHigh]; omega)
      obtain ⟨second, -⟩ := fields.second rfl rs2.isLt
      simp only [decode, fields.opcode, fields.funct3, regField_of_field second,
        fields.immB rfl rfl rs2.isLt encodable.1 encodable.2, regField_of_field fields.rs1]
      cases op <;> rfl
  | upper op rd imm =>
      have opcode : uOpcode op < 2 ^ 7 := by cases op <;> decide
      have small : imm < 2 ^ 20 := encodable
      obtain ⟨hopcode, hrd, himm⟩ := fields_packUpper opcode rd.isLt small
      simp only [decode, wordOf, hopcode, regField_of_field hrd, immU, himm]
      cases op <;> rfl
  | jal rd imm =>
      obtain ⟨hopcode, hrd, himm⟩ := fields_packUpper (by decide : 0x6f < 2 ^ 7) rd.isLt
        (jump_parts (immBits_lt 21 imm)).1
      simp only [decode, wordOf, hopcode, regField_of_field hrd,
        immJ_of_field himm encodable.1 encodable.2]
  | jalr rd rs1 imm =>
      have fields : Fields (wordOf (.jalr rd rs1 imm)) 0x67 rd 0 rs1 (immBits 12 imm) :=
        fields_pack (by decide) rd.isLt (by decide) rs1.isLt (immBits_lt 12 imm)
      simp only [decode, fields.opcode, fields.funct3, fields.immI rfl encodable.1 encodable.2,
        regField_of_field fields.rd, regField_of_field fields.rs1, if_true]
  | ecall => rfl
  | ebreak => rfl

theorem rOp_some {funct7 funct3 : Nat} {op : ROp} (selects : rOp funct7 funct3 = some op) :
    funct7 = rFunct7 op ∧ funct3 = rFunct3 op := by
  unfold rOp at selects
  split at selects <;> cases selects <;> exact ⟨rfl, rfl⟩

theorem loadOp_some {funct3 : Nat} {op : LoadOp} (selects : loadOp funct3 = some op) :
    funct3 = loadFunct3 op := by
  unfold loadOp at selects
  split at selects <;> cases selects <;> rfl

theorem storeOp_some {funct3 : Nat} {op : StoreOp} (selects : storeOp funct3 = some op) :
    funct3 = storeFunct3 op := by
  unfold storeOp at selects
  split at selects <;> cases selects <;> rfl

theorem branchOp_some {funct3 : Nat} {op : BranchOp} (selects : branchOp funct3 = some op) :
    funct3 = branchFunct3 op := by
  unfold branchOp at selects
  split at selects <;> cases selects <;> rfl

theorem opImm_some {funct7 funct3 shamt : Nat} {rd rs1 : Reg} {imm : Int} {instr : Instr}
    (selects : opImm funct7 funct3 rd rs1 shamt imm = some instr) :
    (∃ op, instr = .imm op rd rs1 imm ∧ funct3 = iFunct3 op) ∨
      ∃ op, instr = .shift op rd rs1 shamt ∧ funct3 = shiftFunct3 op ∧
        funct7 = shiftFunct7 op := by
  unfold opImm at selects
  split at selects
  · cases selects
    exact Or.inl ⟨.addi, rfl, rfl⟩
  · cases selects
    exact Or.inl ⟨.slti, rfl, rfl⟩
  · cases selects
    exact Or.inl ⟨.sltiu, rfl, rfl⟩
  · cases selects
    exact Or.inl ⟨.xori, rfl, rfl⟩
  · cases selects
    exact Or.inl ⟨.ori, rfl, rfl⟩
  · cases selects
    exact Or.inl ⟨.andi, rfl, rfl⟩
  · split at selects
    · rename_i logical
      cases selects
      exact Or.inr ⟨.slli, rfl, rfl, logical⟩
    · cases selects
  · split at selects
    · rename_i logical
      cases selects
      exact Or.inr ⟨.srli, rfl, rfl, logical⟩
    · split at selects
      · rename_i arithmetic
        cases selects
        exact Or.inr ⟨.srai, rfl, rfl, arithmetic⟩
      · cases selects
  · cases selects

section Decoded

variable {w : Word}

theorem field_regField (w : Word) (low : Nat) :
    ((regField w low : Reg) : Nat) = field w low 5 := rfl

theorem upper_of_second (w : Word) : field w 20 5 + field w 25 7 * 2 ^ 5 = field w 20 12 := by
  have parts := upper_parts w
  omega

theorem immI_range (w : Word) :
    immBits 12 (immI w) = field w 20 12 ∧ -2 ^ 11 ≤ immI w ∧ immI w < 2 ^ 11 :=
  immBits_signed (by decide) (field_lt w 20 12)

theorem immS_range (w : Word) : immBits 12 (immS w) = field w 25 7 * 2 ^ 5 + field w 7 5 ∧
    -2 ^ 11 ≤ immS w ∧ immS w < 2 ^ 11 := by
  have high := field_lt w 25 7
  have low := field_lt w 7 5
  exact immBits_signed (by decide) (by omega)

theorem branch_of_digits {digit12 digit11 digits5 digits1 : Nat}
    (h11 : digit11 < 2) (h5 : digits5 < 2 ^ 6) (h1 : digits1 < 2 ^ 4) :
    branchLow (digit12 * 2 ^ 12 + digit11 * 2 ^ 11 + digits5 * 2 ^ 5 + digits1 * 2) =
        digits1 * 2 + digit11 ∧
      branchHigh (digit12 * 2 ^ 12 + digit11 * 2 ^ 11 + digits5 * 2 ^ 5 + digits1 * 2) =
        digit12 * 2 ^ 6 + digits5 := by
  rw [branchLow, branchHigh]
  omega

theorem jump_of_digits {digit20 digits12 digit11 digits1 : Nat}
    (h12 : digits12 < 2 ^ 8) (h11 : digit11 < 2) (h1 : digits1 < 2 ^ 10) :
    jumpField (digit20 * 2 ^ 20 + digits12 * 2 ^ 12 + digit11 * 2 ^ 11 + digits1 * 2) =
      digit20 * 2 ^ 19 + digits1 * 2 ^ 9 + digit11 * 2 ^ 8 + digits12 := by
  rw [jumpField]
  omega

/-- A signed number and the bits it was read from are even together. -/
theorem signed_even {width value : Nat} (wide : 1 < width) (even : value % 2 = 0) :
    signed width value % 2 = 0 := by
  obtain ⟨width, rfl⟩ : ∃ smaller, width = smaller + 1 := ⟨width - 1, by omega⟩
  have double : (2 ^ (width + 1) : Int) = 2 * 2 ^ width := by rw [pow_succ, Int.mul_comm]
  unfold signed
  split <;> omega

theorem immB_range (w : Word) :
    branchLow (immBits 13 (immB w)) = field w 7 5 ∧
      branchHigh (immBits 13 (immB w)) = field w 25 7 ∧
      (-2 ^ 12 ≤ immB w ∧ immB w < 2 ^ 12) ∧ immB w % 2 = 0 := by
  have h12 : field w 31 1 < 2 := field_lt w 31 1
  have h11 : field w 7 1 < 2 := field_lt w 7 1
  have h5 : field w 25 6 < 2 ^ 6 := field_lt w 25 6
  have h1 : field w 8 4 < 2 ^ 4 := field_lt w 8 4
  have parts := upper_parts w
  have parts' := rd_parts w
  obtain ⟨bits, range⟩ := @immBits_signed 13 (field w 31 1 * 2 ^ 12 + field w 7 1 * 2 ^ 11 +
    field w 25 6 * 2 ^ 5 + field w 8 4 * 2) (by decide) (by omega)
  obtain ⟨low, high⟩ := branch_of_digits h11 h5 h1
  refine ⟨?_, ?_, range, signed_even (by decide) (by omega)⟩
  · rw [immB, bits, low]
    omega
  · rw [immB, bits, high]
    omega

theorem immJ_range (w : Word) : jumpField (immBits 21 (immJ w)) = field w 12 20 ∧
    (-2 ^ 20 ≤ immJ w ∧ immJ w < 2 ^ 20) ∧ immJ w % 2 = 0 := by
  have h20 : field w 31 1 < 2 := field_lt w 31 1
  have h12 : field w 12 8 < 2 ^ 8 := field_lt w 12 8
  have h11 : field w 20 1 < 2 := field_lt w 20 1
  have h1 : field w 21 10 < 2 ^ 10 := field_lt w 21 10
  obtain ⟨bits, range⟩ := @immBits_signed 21 (field w 31 1 * 2 ^ 20 + field w 12 8 * 2 ^ 12 +
    field w 20 1 * 2 ^ 11 + field w 21 10 * 2) (by decide) (by omega)
  refine ⟨?_, range, signed_even (by decide) (by omega)⟩
  rw [immJ, bits, jump_of_digits h12 h11 h1]
  have bound := w.isLt
  simp only [field]
  omega

theorem packUpper_fields (w : Word) :
    packUpper (field w 0 7) (field w 7 5) (field w 12 20) = w := by
  have parts : field w 12 20 % 2 ^ 3 = field w 12 3 ∧
      field w 12 20 / 2 ^ 3 % 2 ^ 5 = field w 15 5 ∧ field w 12 20 / 2 ^ 8 = field w 20 12 := by
    have bound := w.isLt
    simp only [field]
    omega
  rw [packUpper, parts.1, parts.2.1, parts.2.2, pack_fields]

end Decoded

/-- A word that decodes is the word of what it decodes to. -/
theorem wordOf_of_decode {w : Word} {instr : Instr} (decoded : decode w = some instr) :
    wordOf instr = w ∧ instr.Encodable := by
  unfold decode at decoded
  simp only at decoded
  split at decoded
  · rename_i opcode
    obtain ⟨op, selects, rfl⟩ := Option.map_eq_some_iff.mp decoded
    obtain ⟨funct7, funct3⟩ := rOp_some selects
    refine ⟨?_, trivial⟩
    rw [wordOf, ← funct7, ← funct3, field_regField, field_regField, field_regField,
      upper_of_second, ← opcode, pack_fields]
  · rename_i opcode
    obtain ⟨bits, range⟩ := immI_range w
    rcases opImm_some decoded with ⟨op, rfl, funct3⟩ | ⟨op, rfl, funct3, funct7⟩
    · refine ⟨?_, range⟩
      rw [wordOf, bits, ← funct3, field_regField, field_regField, ← opcode, pack_fields]
    · refine ⟨?_, field_lt w 20 5⟩
      rw [wordOf, ← funct7, ← funct3, field_regField, field_regField, upper_of_second, ← opcode,
        pack_fields]
  · rename_i opcode
    obtain ⟨bits, range⟩ := immI_range w
    obtain ⟨op, selects, rfl⟩ := Option.map_eq_some_iff.mp decoded
    have packed := pack_fields w
    rw [opcode] at packed
    refine ⟨?_, range⟩
    rw [wordOf, bits, ← loadOp_some selects, field_regField, field_regField, packed]
  · rename_i opcode
    obtain ⟨bits, range⟩ := immS_range w
    obtain ⟨op, selects, rfl⟩ := Option.map_eq_some_iff.mp decoded
    have small := field_lt w 7 5
    have low : (field w 25 7 * 2 ^ 5 + field w 7 5) % 2 ^ 5 = field w 7 5 := by omega
    have high : (field w 25 7 * 2 ^ 5 + field w 7 5) / 2 ^ 5 = field w 25 7 := by omega
    refine ⟨?_, range⟩
    rw [wordOf, bits, low, high, ← storeOp_some selects, field_regField, field_regField,
      upper_of_second, ← opcode, pack_fields]
  · rename_i opcode
    obtain ⟨low, high, range⟩ := immB_range w
    obtain ⟨op, selects, rfl⟩ := Option.map_eq_some_iff.mp decoded
    refine ⟨?_, range⟩
    rw [wordOf, low, high, ← branchOp_some selects, field_regField, field_regField,
      upper_of_second, ← opcode, pack_fields]
  · rename_i opcode
    cases decoded
    refine ⟨?_, field_lt w 12 20⟩
    rw [wordOf, uOpcode, field_regField, immU, ← opcode, packUpper_fields]
  · rename_i opcode
    cases decoded
    refine ⟨?_, field_lt w 12 20⟩
    rw [wordOf, uOpcode, field_regField, immU, ← opcode, packUpper_fields]
  · rename_i opcode
    cases decoded
    obtain ⟨bits, range⟩ := immJ_range w
    refine ⟨?_, range⟩
    rw [wordOf, bits, field_regField, ← opcode, packUpper_fields]
  · rename_i opcode
    obtain ⟨bits, range⟩ := immI_range w
    split at decoded
    · rename_i funct3
      cases decoded
      refine ⟨?_, range⟩
      rw [wordOf, bits, ← funct3, field_regField, field_regField, ← opcode, pack_fields]
    · cases decoded
  · unfold system at decoded
    split at decoded
    · rename_i same
      cases decoded
      exact ⟨same.symm, trivial⟩
    · split at decoded
      · rename_i same
        cases decoded
        exact ⟨same.symm, trivial⟩
      · cases decoded
  · cases decoded

theorem decodes_map_wordOf {instrs : List Instr} (encodable : ∀ instr ∈ instrs, instr.Encodable) :
    Decodes (instrs.map wordOf) instrs := by
  rw [Decodes, List.forall₂_map_left_iff, List.forall₂_same]
  exact fun instr member => decode_wordOf (encodable instr member)

theorem Decodes.eq_wordOf {words : List Word} {instrs : List Instr}
    (decodes : Decodes words instrs) : words = instrs.map wordOf := by
  induction decodes with
  | nil => rfl
  | cons decoded decodes ih => rw [List.map_cons, ← ih, (wordOf_of_decode decoded).1]

end Rv32
