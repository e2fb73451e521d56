/-
The packed instruction words decode to what was packed.

Each packer is first written as the number whose digits are its fields; the
fields of the word are then read back by division, and `decode` of the word
follows from the opcode and function fields of the record.
-/

import RiscvAs.Rv32.Fields
import RiscvAs.Instruction

namespace RiscvAs

open Rv32

structure Instruction.Fits (instr : Instruction) : Prop where
  opcode : instr.opcode.toNat < 2 ^ 7
  funct3 : instr.funct3.toNat < 2 ^ 3
  funct7 : instr.funct7.toNat < 2 ^ 7

theorem instructions_fit : ∀ instr ∈ instructions, instr.Fits := by
  have checked : ∀ instr ∈ instructions,
      instr.opcode.toNat < 2 ^ 7 ∧ instr.funct3.toNat < 2 ^ 3 ∧ instr.funct7.toNat < 2 ^ 7 := by
    decide
  intro instr member
  obtain ⟨opcode, funct3, funct7⟩ := checked instr member
  exact ⟨opcode, funct3, funct7⟩

def toReg (value : BitVec 8) : Reg :=
  ⟨value.toNat % 32, Nat.mod_lt _ (by decide)⟩

theorem regField_eq {w : Word} {low : Nat} {value : BitVec 8} (range : value.toNat < 2 ^ 5)
    (read : field w low 5 = value.toNat) : regField w low = toReg value := by
  apply Fin.ext
  simp only [regField, toReg, read]
  omega

theorem toNat_shifted_byte {x : BitVec 8} {low width : Nat} (fits : x.toNat < 2 ^ width)
    (inside : low + width ≤ 32) : (x.setWidth 32 <<< low).toNat = x.toNat <<< low := by
  have wide := toNat_setWidth_byte x
  rw [toNat_shiftLeft (by rw [wide]; exact fits) inside, wide]

theorem toNat_shifted_mask {x : Word} (from' width : Nat) {low : Nat} {mask : Word}
    (ones : mask.toNat = 2 ^ width - 1) (inside : low + width ≤ 32) :
    (((x >>> from') &&& mask) <<< low).toNat = (x.toNat / 2 ^ from' % 2 ^ width) <<< low := by
  have masked := toNat_mask x from' width mask ones
  rw [toNat_shiftLeft (by rw [masked]; exact Nat.mod_lt _ (Nat.two_pow_pos width)) inside, masked]

theorem pack_last {high value width : Nat} (fits : value < 2 ^ width) :
    (high <<< width) ||| value = high * 2 ^ width + value := by
  simpa using pack_field 0 width fits

section Sums

variable {instr : Instruction} (fits : instr.Fits) {rs1 rs2 rd : BitVec 8}
  (hrs1 : rs1.toNat < 2 ^ 5) (hrs2 : rs2.toNat < 2 ^ 5) (hrd : rd.toNat < 2 ^ 5) (imm : Word)

include fits

include hrs1 hrs2 hrd in
theorem assembleRType_toNat :
    (assembleRType instr rs2 rs1 rd).toNat =
      ((((instr.funct7.toNat * 2 ^ 5 + rs2.toNat) * 2 ^ 5 + rs1.toNat) * 2 ^ 3 +
        instr.funct3.toNat) * 2 ^ 5 + rd.toNat) * 2 ^ 7 + instr.opcode.toNat := by
  simp only [assembleRType, BitVec.toNat_or]
  rw [toNat_shifted_byte fits.funct7 (by decide), toNat_shifted_byte hrs2 (by decide),
    toNat_shifted_byte hrs1 (by decide), toNat_shifted_byte fits.funct3 (by decide),
    toNat_shifted_byte hrd (by decide), toNat_setWidth_byte, pack_field 20 5 hrs2,
    pack_field 15 5 hrs1, pack_field 12 3 fits.funct3, pack_field 7 5 hrd,
    pack_last fits.opcode]

include hrs1 hrd in
theorem assembleIType_toNat :
    (assembleIType instr rs1 imm rd).toNat =
      (((imm.toNat % 2 ^ 12 * 2 ^ 5 + rs1.toNat) * 2 ^ 3 + instr.funct3.toNat) * 2 ^ 5 +
        rd.toNat) * 2 ^ 7 + instr.opcode.toNat := by
  have low : (((imm >>> 0) &&& 0xFFF#32) <<< 20).toNat = (imm.toNat / 2 ^ 0 % 2 ^ 12) <<< 20 :=
    toNat_shifted_mask 0 12 (by decide) (by decide)
  simp only [BitVec.ushiftRight_zero, pow_zero, Nat.div_one] at low
  simp only [assembleIType, BitVec.toNat_or]
  rw [low, toNat_shifted_byte hrs1 (by decide), toNat_shifted_byte fits.funct3 (by decide),
    toNat_shifted_byte hrd (by decide), toNat_setWidth_byte, pack_field 15 5 hrs1,
    pack_field 12 3 fits.funct3, pack_field 7 5 hrd, pack_last fits.opcode]

include hrs1 hrs2 in
theorem assembleSType_toNat :
    (assembleSType instr rs1 rs2 imm).toNat =
      ((((imm.toNat / 2 ^ 5 % 2 ^ 7 * 2 ^ 5 + rs2.toNat) * 2 ^ 5 + rs1.toNat) * 2 ^ 3 +
        instr.funct3.toNat) * 2 ^ 5 + imm.toNat % 2 ^ 5) * 2 ^ 7 + instr.opcode.toNat := by
  have low : (((imm >>> 0) &&& 0x1F#32) <<< 7).toNat = (imm.toNat / 2 ^ 0 % 2 ^ 5) <<< 7 :=
    toNat_shifted_mask 0 5 (by decide) (by decide)
  simp only [BitVec.ushiftRight_zero, pow_zero, Nat.div_one] at low
  simp only [assembleSType, BitVec.toNat_or]
  rw [toNat_shifted_mask 5 7 (by decide) (by decide), low,
    toNat_shifted_byte hrs2 (by decide), toNat_shifted_byte hrs1 (by decide),
    toNat_shifted_byte fits.funct3 (by decide), toNat_setWidth_byte,
    pack_field 20 5 hrs2, pack_field 15 5 hrs1, pack_field 12 3 fits.funct3,
    pack_field 7 5 (Nat.mod_lt _ (by decide)), pack_last fits.opcode]

include hrs1 hrs2 in
theorem assembleBType_toNat :
    (assembleBType instr rs1 rs2 imm).toNat =
      ((((((imm.toNat / 2 ^ 12 % 2 ^ 1 * 2 ^ 6 + imm.toNat / 2 ^ 5 % 2 ^ 6) * 2 ^ 5 +
        rs2.toNat) * 2 ^ 5 + rs1.toNat) * 2 ^ 3 + instr.funct3.toNat) * 2 ^ 4 +
        imm.toNat / 2 ^ 1 % 2 ^ 4) * 2 ^ 1 + imm.toNat / 2 ^ 11 % 2 ^ 1) * 2 ^ 7 +
        instr.opcode.toNat := by
  simp only [assembleBType, BitVec.toNat_or]
  rw [toNat_shifted_mask 12 1 (by decide) (by decide),
    toNat_shifted_mask 5 6 (by decide) (by decide),
    toNat_shifted_mask 1 4 (by decide) (by decide),
    toNat_shifted_mask 11 1 (by decide) (by decide),
    toNat_shifted_byte hrs2 (by decide), toNat_shifted_byte hrs1 (by decide),
    toNat_shifted_byte fits.funct3 (by decide), toNat_setWidth_byte,
    pack_field 25 6 (Nat.mod_lt _ (by decide)), pack_field 20 5 hrs2,
    pack_field 15 5 hrs1, pack_field 12 3 fits.funct3,
    pack_field 8 4 (Nat.mod_lt _ (by decide)),
    pack_field 7 1 (Nat.mod_lt _ (by decide)), pack_last fits.opcode]

include hrd in
theorem assembleUType_toNat :
    (assembleUType instr rd imm).toNat =
      (imm.toNat % 2 ^ 20 * 2 ^ 5 + rd.toNat) * 2 ^ 7 + instr.opcode.toNat := by
  have low : (((imm >>> 0) &&& 0xFFFFF#32) <<< 12).toNat = (imm.toNat / 2 ^ 0 % 2 ^ 20) <<< 12 :=
    toNat_shifted_mask 0 20 (by decide) (by decide)
  simp only [BitVec.ushiftRight_zero, pow_zero, Nat.div_one] at low
  simp only [assembleUType, BitVec.toNat_or]
  rw [low, toNat_shifted_byte hrd (by decide), toNat_setWidth_byte, pack_field 7 5 hrd,
    pack_last fits.opcode]

end Sums

/-! ### Fields -/

section Fields

variable {instr : Instruction} (fits : instr.Fits) {rs1 rs2 rd : BitVec 8}
  (hrs1 : rs1.toNat < 2 ^ 5) (hrs2 : rs2.toNat < 2 ^ 5) (hrd : rd.toNat < 2 ^ 5) (imm : Word)

include fits

include hrs1 hrs2 hrd in
theorem assembleRType_fields (w : Word) (packed : w = assembleRType instr rs2 rs1 rd) :
    field w 0 7 = instr.opcode.toNat ∧ regField w 7 = toReg rd ∧
      field w 12 3 = instr.funct3.toNat ∧ regField w 15 = toReg rs1 ∧
      regField w 20 = toReg rs2 ∧ field w 25 7 = instr.funct7.toNat := by
  have sum := assembleRType_toNat fits hrs1 hrs2 hrd
  have hopcode := fits.opcode
  have hfunct3 := fits.funct3
  have hfunct7 := fits.funct7
  rw [← packed] at sum
  refine ⟨?_, regField_eq hrd ?_, ?_, regField_eq hrs1 ?_, regField_eq hrs2 ?_, ?_⟩ <;>
    rw [field, sum] <;> omega

include hrs1 hrd in
theorem assembleIType_fields (w : Word) (packed : w = assembleIType instr rs1 imm rd) :
    field w 0 7 = instr.opcode.toNat ∧ regField w 7 = toReg rd ∧
      field w 12 3 = instr.funct3.toNat ∧ regField w 15 = toReg rs1 ∧
      field w 20 12 = imm.toNat % 2 ^ 12 := by
  have sum := assembleIType_toNat fits hrs1 hrd imm
  have hopcode := fits.opcode
  have hfunct3 := fits.funct3
  have himm : imm.toNat % 2 ^ 12 < 2 ^ 12 := Nat.mod_lt _ (by decide)
  rw [← packed] at sum
  generalize imm.toNat % 2 ^ 12 = bits at sum himm ⊢
  refine ⟨?_, regField_eq hrd ?_, ?_, regField_eq hrs1 ?_, ?_⟩ <;> rw [field, sum] <;> omega

include hrs1 hrs2 in
theorem assembleSType_fields (w : Word) (packed : w = assembleSType instr rs1 rs2 imm) :
    field w 0 7 = instr.opcode.toNat ∧ field w 12 3 = instr.funct3.toNat ∧
      regField w 15 = toReg rs1 ∧ regField w 20 = toReg rs2 ∧
      field w 25 7 * 2 ^ 5 + field w 7 5 = imm.toNat % 2 ^ 12 := by
  have sum := assembleSType_toNat fits hrs1 hrs2 imm
  have hopcode := fits.opcode
  have hfunct3 := fits.funct3
  have split : imm.toNat / 2 ^ 5 % 2 ^ 7 * 2 ^ 5 + imm.toNat % 2 ^ 5 = imm.toNat % 2 ^ 12 := by
    omega
  have hupper : imm.toNat / 2 ^ 5 % 2 ^ 7 < 2 ^ 7 := Nat.mod_lt _ (by decide)
  have hlower : imm.toNat % 2 ^ 5 < 2 ^ 5 := Nat.mod_lt _ (by decide)
  rw [← packed] at sum
  rw [← split]
  generalize imm.toNat / 2 ^ 5 % 2 ^ 7 = upper at sum hupper ⊢
  generalize imm.toNat % 2 ^ 5 = lower at sum hlower ⊢
  have readUpper : field w 25 7 = upper := by rw [field, sum]; omega
  have readLower : field w 7 5 = lower := by rw [field, sum]; omega
  refine ⟨?_, ?_, regField_eq hrs1 ?_, regField_eq hrs2 ?_, by rw [readUpper, readLower]⟩ <;>
    rw [field, sum] <;> omega

omit fits in
theorem immB_digits {n : Nat} (even : n % 2 = 0) :
    n / 2 ^ 12 % 2 ^ 1 * 2 ^ 12 + n / 2 ^ 11 % 2 ^ 1 * 2 ^ 11 + n / 2 ^ 5 % 2 ^ 6 * 2 ^ 5 +
      n / 2 ^ 1 % 2 ^ 4 * 2 = n % 2 ^ 13 := by
  have at5 : n / 2 ^ 5 = n / 2 ^ 1 / 2 ^ 4 := by rw [Nat.div_div_eq_div_mul]; rfl
  have at11 : n / 2 ^ 11 = n / 2 ^ 5 / 2 ^ 6 := by rw [Nat.div_div_eq_div_mul]; rfl
  have at12 : n / 2 ^ 12 = n / 2 ^ 11 / 2 ^ 1 := by rw [Nat.div_div_eq_div_mul]; rfl
  omega

include hrs1 hrs2 in
theorem assembleBType_fields (w : Word) (packed : w = assembleBType instr rs1 rs2 imm)
    (even : imm.toNat % 2 = 0) :
    field w 0 7 = instr.opcode.toNat ∧ field w 12 3 = instr.funct3.toNat ∧
      regField w 15 = toReg rs1 ∧ regField w 20 = toReg rs2 ∧
      field w 31 1 * 2 ^ 12 + field w 7 1 * 2 ^ 11 + field w 25 6 * 2 ^ 5 + field w 8 4 * 2 =
        imm.toNat % 2 ^ 13 := by
  have sum := assembleBType_toNat fits hrs1 hrs2 imm
  have hopcode := fits.opcode
  have hfunct3 := fits.funct3
  have split := immB_digits even
  have h12 : imm.toNat / 2 ^ 12 % 2 ^ 1 < 2 ^ 1 := Nat.mod_lt _ (by decide)
  have h11 : imm.toNat / 2 ^ 11 % 2 ^ 1 < 2 ^ 1 := Nat.mod_lt _ (by decide)
  have h5 : imm.toNat / 2 ^ 5 % 2 ^ 6 < 2 ^ 6 := Nat.mod_lt _ (by decide)
  have h1 : imm.toNat / 2 ^ 1 % 2 ^ 4 < 2 ^ 4 := Nat.mod_lt _ (by decide)
  rw [← packed] at sum
  rw [← split]
  generalize imm.toNat / 2 ^ 12 % 2 ^ 1 = bit12 at sum h12 ⊢
  generalize imm.toNat / 2 ^ 11 % 2 ^ 1 = bit11 at sum h11 ⊢
  generalize imm.toNat / 2 ^ 5 % 2 ^ 6 = bits5 at sum h5 ⊢
  generalize imm.toNat / 2 ^ 1 % 2 ^ 4 = bits1 at sum h1 ⊢
  have read12 : field w 31 1 = bit12 := by rw [field, sum]; omega
  have read11 : field w 7 1 = bit11 := by rw [field, sum]; omega
  have read5 : field w 25 6 = bits5 := by rw [field, sum]; omega
  have read1 : field w 8 4 = bits1 := by rw [field, sum]; omega
  refine ⟨?_, ?_, regField_eq hrs1 ?_, regField_eq hrs2 ?_,
    by rw [read12, read11, read5, read1]⟩ <;>
    rw [field, sum] <;> omega

include hrd in
theorem assembleUType_fields (w : Word) (packed : w = assembleUType instr rd imm) :
    field w 0 7 = instr.opcode.toNat ∧ regField w 7 = toReg rd ∧
      immU w = imm.toNat % 2 ^ 20 := by
  have sum := assembleUType_toNat fits hrd imm
  have hopcode := fits.opcode
  have himm : imm.toNat % 2 ^ 20 < 2 ^ 20 := Nat.mod_lt _ (by decide)
  rw [← packed] at sum
  generalize imm.toNat % 2 ^ 20 = bits at sum himm ⊢
  refine ⟨?_, regField_eq hrd ?_, ?_⟩ <;> simp only [immU, field, sum] <;> omega

end Fields

theorem ofInt_toNat_mod (value : Int) (width : Nat) (narrow : width ≤ 32) :
    (((BitVec.ofInt 32 value).toNat % 2 ^ width : Nat) : Int) = value % 2 ^ width := by
  have divides : (2 ^ width : Int) ∣ 2 ^ 32 := pow_dvd_pow 2 narrow
  have nonneg : 0 ≤ value % 2 ^ 32 := Int.emod_nonneg _ (by decide)
  push_cast
  rw [BitVec.toNat_ofInt]
  simp only [Nat.cast_pow, Nat.cast_ofNat, Int.toNat_of_nonneg nonneg]
  exact Int.emod_emod_of_dvd value divides

section Decoding

variable {instr : Instruction} (fits : instr.Fits) {rs1 rs2 rd : BitVec 8}
  (hrs1 : rs1.toNat < 2 ^ 5) (hrs2 : rs2.toNat < 2 ^ 5) (hrd : rd.toNat < 2 ^ 5) (imm : Int)

include fits

include hrs1 hrs2 hrd in
theorem decode_assembleRType {op : ROp} (opcode : instr.opcode.toNat = 0x33)
    (selects : rOp instr.funct7.toNat instr.funct3.toNat = some op) :
    decode (assembleRType instr rs2 rs1 rd) =
      some (.reg op (toReg rd) (toReg rs1) (toReg rs2)) := by
  obtain ⟨hopcode, hRd, hfunct3, hRs1, hRs2, hfunct7⟩ :=
    assembleRType_fields fits hrs1 hrs2 hrd _ rfl
  simp only [decode, hopcode, opcode, hfunct3, hfunct7, hRd, hRs1, hRs2, selects,
    Option.map_some]

omit fits in
theorem immI_eq {w : Word} (read : field w 20 12 = (BitVec.ofInt 32 imm).toNat % 2 ^ 12)
    (low : -2 ^ 11 ≤ imm) (high : imm < 2 ^ 11) : immI w = imm := by
  rw [immI, read]
  exact signed_ofInt (by decide) (ofInt_toNat_mod imm _ (by decide)) low high

include hrs1 hrd in
theorem decode_assembleIType {op : IOp} (opcode : instr.opcode.toNat = 0x13)
    (selects : ∀ funct7 rd rs1 shamt imm,
      opImm funct7 instr.funct3.toNat rd rs1 shamt imm = some (.imm op rd rs1 imm))
    (low : -2 ^ 11 ≤ imm) (high : imm < 2 ^ 11) :
    decode (assembleIType instr rs1 (BitVec.ofInt 32 imm) rd) =
      some (.imm op (toReg rd) (toReg rs1) imm) := by
  obtain ⟨hopcode, hRd, hfunct3, hRs1, hImm⟩ :=
    assembleIType_fields fits hrs1 hrd (BitVec.ofInt 32 imm) _ rfl
  have value := immI_eq imm hImm low high
  simp only [decode, hopcode, opcode, hfunct3, hRd, hRs1, value, selects]

include hrs1 hrd in
theorem decode_assembleIType_load {op : LoadOp} (opcode : instr.opcode.toNat = 0x03)
    (selects : loadOp instr.funct3.toNat = some op)
    (low : -2 ^ 11 ≤ imm) (high : imm < 2 ^ 11) :
    decode (assembleIType instr rs1 (BitVec.ofInt 32 imm) rd) =
      some (.load op (toReg rd) (toReg rs1) imm) := by
  obtain ⟨hopcode, hRd, hfunct3, hRs1, hImm⟩ :=
    assembleIType_fields fits hrs1 hrd (BitVec.ofInt 32 imm) _ rfl
  have value := immI_eq imm hImm low high
  simp only [decode, hopcode, opcode, hfunct3, hRd, hRs1, value, selects, Option.map_some]

include hrs1 hrs2 in
theorem decode_assembleSType {op : StoreOp} (opcode : instr.opcode.toNat = 0x23)
    (selects : storeOp instr.funct3.toNat = some op)
    (low : -2 ^ 11 ≤ imm) (high : imm < 2 ^ 11) :
    decode (assembleSType instr rs1 rs2 (BitVec.ofInt 32 imm)) =
      some (.store op (toReg rs1) (toReg rs2) imm) := by
  obtain ⟨hopcode, hfunct3, hRs1, hRs2, hImm⟩ :=
    assembleSType_fields fits hrs1 hrs2 (BitVec.ofInt 32 imm) _ rfl
  have value : immS (assembleSType instr rs1 rs2 (BitVec.ofInt 32 imm)) = imm := by
    rw [immS, hImm]
    exact signed_ofInt (by decide) (ofInt_toNat_mod imm _ (by decide)) low high
  simp only [decode, hopcode, opcode, hfunct3, hRs1, hRs2, value, selects, Option.map_some]

include hrs1 hrs2 in
theorem decode_assembleBType {op : BranchOp} (opcode : instr.opcode.toNat = 0x63)
    (selects : branchOp instr.funct3.toNat = some op) (even : imm % 2 = 0)
    (low : -2 ^ 12 ≤ imm) (high : imm < 2 ^ 12) :
    decode (assembleBType instr rs1 rs2 (BitVec.ofInt 32 imm)) =
      some (.branch op (toReg rs1) (toReg rs2) imm) := by
  have evenBits : (BitVec.ofInt 32 imm).toNat % 2 = 0 := by
    have bits := ofInt_toNat_mod imm 1 (by decide)
    omega
  obtain ⟨hopcode, hfunct3, hRs1, hRs2, hImm⟩ :=
    assembleBType_fields fits hrs1 hrs2 (BitVec.ofInt 32 imm) _ rfl evenBits
  have value : immB (assembleBType instr rs1 rs2 (BitVec.ofInt 32 imm)) = imm := by
    rw [immB, hImm]
    exact signed_ofInt (by decide) (ofInt_toNat_mod imm _ (by decide)) low high
  simp only [decode, hopcode, opcode, hfunct3, hRs1, hRs2, value, selects, Option.map_some]

def upperOpcode : UOp → Nat
  | .lui => 0x37
  | .auipc => 0x17

include hrd in
theorem decode_assembleUType {op : UOp} (opcode : instr.opcode.toNat = upperOpcode op)
    (imm : Word) :
    decode (assembleUType instr rd imm) = some (.upper op (toReg rd) (imm.toNat % 2 ^ 20)) := by
  obtain ⟨hopcode, hRd, hImm⟩ := assembleUType_fields fits hrd imm _ rfl
  cases op <;> simp only [decode, hopcode, opcode, upperOpcode, hRd, hImm]

end Decoding

end RiscvAs
