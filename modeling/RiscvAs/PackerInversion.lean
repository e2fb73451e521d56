/-
The packers can be undone.

Each `ASSEMBLE_*_TYPE` macro joins pieces that have no bit in common, and its
word gives back the fields of the record, the registers and the immediate in
the RV32I layout of its format.
-/

import RiscvAs.Operands

namespace RiscvAs

open Rv32

theorem within_byte {x : BitVec 8} {width : Nat} (low : Nat) (fits : x.toNat < 2 ^ width)
    (inside : low + width ≤ 32) : Within low (low + width) (x.setWidth 32 <<< low) := by
  rw [Within, toNat_shifted_byte fits inside, Nat.shiftLeft_eq, pow_add, Nat.mul_comm]
  exact ⟨Nat.dvd_mul_right _ _, Nat.mul_lt_mul_of_pos_left fits (Nat.two_pow_pos low)⟩

theorem within_mask (x : Word) (from' width low : Nat) {mask : Word}
    (ones : mask.toNat = 2 ^ width - 1) (inside : low + width ≤ 32) :
    Within low (low + width) (((x >>> from') &&& mask) <<< low) := by
  rw [Within, toNat_shifted_mask from' width ones inside, Nat.shiftLeft_eq, pow_add, Nat.mul_comm]
  exact ⟨Nat.dvd_mul_right _ _, Nat.mul_lt_mul_of_pos_left (Nat.mod_lt _ (Nat.two_pow_pos width))
    (Nat.two_pow_pos low)⟩

theorem within_lowMask (x : Word) (width low : Nat) {mask : Word}
    (ones : mask.toNat = 2 ^ width - 1) (inside : low + width ≤ 32) :
    Within low (low + width) ((x &&& mask) <<< low) := by
  have within := within_mask x 0 width low ones inside
  rwa [BitVec.ushiftRight_zero] at within

theorem stacked_opcode {instr : Instruction} (fits : instr.Fits) :
    Stacked 7 [instr.opcode.setWidth 32] := by
  have within : Within 0 7 (instr.opcode.setWidth 32) := by
    rw [Within, toNat_setWidth_byte]
    exact ⟨one_dvd _, fits.opcode⟩
  exact .cons within (by decide) (by decide) (.nil 0)

section Pieces

variable (instr : Instruction) (rs1 rs2 rd : BitVec 8) (imm : Word)

def rPieces : List Word :=
  [instr.funct7.setWidth 32 <<< 25, rs2.setWidth 32 <<< 20, rs1.setWidth 32 <<< 15,
    instr.funct3.setWidth 32 <<< 12, rd.setWidth 32 <<< 7, instr.opcode.setWidth 32]

def iPieces : List Word :=
  [(imm &&& 0xFFF#32) <<< 20, rs1.setWidth 32 <<< 15, instr.funct3.setWidth 32 <<< 12,
    rd.setWidth 32 <<< 7, instr.opcode.setWidth 32]

def sPieces : List Word :=
  [((imm >>> 5) &&& 0x7F#32) <<< 25, rs2.setWidth 32 <<< 20, rs1.setWidth 32 <<< 15,
    instr.funct3.setWidth 32 <<< 12, (imm &&& 0x1F#32) <<< 7, instr.opcode.setWidth 32]

def bPieces : List Word :=
  [((imm >>> 12) &&& 0x1#32) <<< 31, ((imm >>> 5) &&& 0x3F#32) <<< 25, rs2.setWidth 32 <<< 20,
    rs1.setWidth 32 <<< 15, instr.funct3.setWidth 32 <<< 12, ((imm >>> 1) &&& 0xF#32) <<< 8,
    ((imm >>> 11) &&& 0x1#32) <<< 7, instr.opcode.setWidth 32]

def uPieces : List Word :=
  [(imm &&& 0xFFFFF#32) <<< 12, rd.setWidth 32 <<< 7, instr.opcode.setWidth 32]

def jPieces : List Word :=
  [((imm >>> 20) &&& 0x1#32) <<< 31, ((imm >>> 1) &&& 0x3FF#32) <<< 21,
    ((imm >>> 11) &&& 0x1#32) <<< 20, ((imm >>> 12) &&& 0xFF#32) <<< 12, rd.setWidth 32 <<< 7,
    instr.opcode.setWidth 32]

end Pieces

def JoinsPieces (w : Word) (pieces : List Word) : Prop :=
  w = pieces.foldl (· ||| ·) 0#32 ∧ pieces.Pairwise (fun x y => x &&& y = 0)

theorem joinsPieces_of_stacked {w : Word} {pieces : List Word}
    (joined : w = pieces.foldl (· ||| ·) 0#32) (stacked : Stacked 32 pieces) :
    JoinsPieces w pieces :=
  ⟨joined, stacked.pairwise⟩

section Joins

variable {instr : Instruction} (fits : instr.Fits) {rs1 rs2 rd : BitVec 8}
  (hrs1 : rs1.toNat < 2 ^ 5) (hrs2 : rs2.toNat < 2 ^ 5) (hrd : rd.toNat < 2 ^ 5) (imm : Word)

include fits

include hrs1 hrs2 hrd in
theorem assembleRType_joins :
    JoinsPieces (assembleRType instr rs2 rs1 rd) (rPieces instr rs1 rs2 rd) := by
  apply joinsPieces_of_stacked
  · simp only [assembleRType, rPieces, List.foldl_cons, List.foldl_nil, BitVec.zero_or]
  · apply Stacked.cons (within_byte 25 fits.funct7 (by decide)) (by decide) (by decide)
    apply Stacked.cons (within_byte 20 hrs2 (by decide)) (by decide) (by decide)
    apply Stacked.cons (within_byte 15 hrs1 (by decide)) (by decide) (by decide)
    apply Stacked.cons (within_byte 12 fits.funct3 (by decide)) (by decide) (by decide)
    apply Stacked.cons (within_byte 7 hrd (by decide)) (by decide) (by decide)
    exact stacked_opcode fits

include hrs1 hrd in
theorem assembleIType_joins :
    JoinsPieces (assembleIType instr rs1 imm rd) (iPieces instr rs1 rd imm) := by
  apply joinsPieces_of_stacked
  · simp only [assembleIType, iPieces, List.foldl_cons, List.foldl_nil, BitVec.zero_or]
  · apply Stacked.cons (within_lowMask imm 12 20 (by decide) (by decide)) (by decide) (by decide)
    apply Stacked.cons (within_byte 15 hrs1 (by decide)) (by decide) (by decide)
    apply Stacked.cons (within_byte 12 fits.funct3 (by decide)) (by decide) (by decide)
    apply Stacked.cons (within_byte 7 hrd (by decide)) (by decide) (by decide)
    exact stacked_opcode fits

include hrs1 hrs2 in
theorem assembleSType_joins :
    JoinsPieces (assembleSType instr rs1 rs2 imm) (sPieces instr rs1 rs2 imm) := by
  apply joinsPieces_of_stacked
  · simp only [assembleSType, sPieces, List.foldl_cons, List.foldl_nil, BitVec.zero_or]
  · apply Stacked.cons (within_mask imm 5 7 25 (by decide) (by decide)) (by decide) (by decide)
    apply Stacked.cons (within_byte 20 hrs2 (by decide)) (by decide) (by decide)
    apply Stacked.cons (within_byte 15 hrs1 (by decide)) (by decide) (by decide)
    apply Stacked.cons (within_byte 12 fits.funct3 (by decide)) (by decide) (by decide)
    apply Stacked.cons (within_lowMask imm 5 7 (by decide) (by decide)) (by decide) (by decide)
    exact stacked_opcode fits

include hrs1 hrs2 in
theorem assembleBType_joins :
    JoinsPieces (assembleBType instr rs1 rs2 imm) (bPieces instr rs1 rs2 imm) := by
  apply joinsPieces_of_stacked
  · simp only [assembleBType, bPieces, List.foldl_cons, List.foldl_nil, BitVec.zero_or]
  · apply Stacked.cons (within_mask imm 12 1 31 (by decide) (by decide)) (by decide) (by decide)
    apply Stacked.cons (within_mask imm 5 6 25 (by decide) (by decide)) (by decide) (by decide)
    apply Stacked.cons (within_byte 20 hrs2 (by decide)) (by decide) (by decide)
    apply Stacked.cons (within_byte 15 hrs1 (by decide)) (by decide) (by decide)
    apply Stacked.cons (within_byte 12 fits.funct3 (by decide)) (by decide) (by decide)
    apply Stacked.cons (within_mask imm 1 4 8 (by decide) (by decide)) (by decide) (by decide)
    apply Stacked.cons (within_mask imm 11 1 7 (by decide) (by decide)) (by decide) (by decide)
    exact stacked_opcode fits

include hrd in
theorem assembleUType_joins :
    JoinsPieces (assembleUType instr rd imm) (uPieces instr rd imm) := by
  apply joinsPieces_of_stacked
  · simp only [assembleUType, uPieces, List.foldl_cons, List.foldl_nil, BitVec.zero_or]
  · apply Stacked.cons (within_lowMask imm 20 12 (by decide) (by decide)) (by decide) (by decide)
    apply Stacked.cons (within_byte 7 hrd (by decide)) (by decide) (by decide)
    exact stacked_opcode fits

include hrd in
theorem assembleJType_joins :
    JoinsPieces (assembleJType instr rd imm) (jPieces instr rd imm) := by
  apply joinsPieces_of_stacked
  · simp only [assembleJType, jPieces, List.foldl_cons, List.foldl_nil, BitVec.zero_or]
  · apply Stacked.cons (within_mask imm 20 1 31 (by decide) (by decide)) (by decide) (by decide)
    apply Stacked.cons (within_mask imm 1 10 21 (by decide) (by decide)) (by decide) (by decide)
    apply Stacked.cons (within_mask imm 11 1 20 (by decide) (by decide)) (by decide) (by decide)
    apply Stacked.cons (within_mask imm 12 8 12 (by decide) (by decide)) (by decide) (by decide)
    apply Stacked.cons (within_byte 7 hrd (by decide)) (by decide) (by decide)
    exact stacked_opcode fits

end Joins

/-! ### The jump format -/

section Jump

variable {instr : Instruction} (fits : instr.Fits) {rd : BitVec 8} (hrd : rd.toNat < 2 ^ 5)
  (imm : Word)

include fits hrd

theorem assembleJType_toNat :
    (assembleJType instr rd imm).toNat =
      ((((imm.toNat / 2 ^ 20 % 2 ^ 1 * 2 ^ 10 + imm.toNat / 2 ^ 1 % 2 ^ 10) * 2 ^ 1 +
        imm.toNat / 2 ^ 11 % 2 ^ 1) * 2 ^ 8 + imm.toNat / 2 ^ 12 % 2 ^ 8) * 2 ^ 5 +
        rd.toNat) * 2 ^ 7 + instr.opcode.toNat := by
  simp only [assembleJType, BitVec.toNat_or]
  rw [toNat_shifted_mask 20 1 (by decide) (by decide),
    toNat_shifted_mask 1 10 (by decide) (by decide),
    toNat_shifted_mask 11 1 (by decide) (by decide),
    toNat_shifted_mask 12 8 (by decide) (by decide),
    toNat_shifted_byte hrd (by decide), toNat_setWidth_byte,
    pack_field 21 10 (Nat.mod_lt _ (by decide)), pack_field 20 1 (Nat.mod_lt _ (by decide)),
    pack_field 12 8 (Nat.mod_lt _ (by decide)), pack_field 7 5 hrd, pack_last fits.opcode]

omit fits hrd in
theorem immJ_digits {n : Nat} (even : n % 2 = 0) :
    n / 2 ^ 20 % 2 ^ 1 * 2 ^ 20 + n / 2 ^ 12 % 2 ^ 8 * 2 ^ 12 + n / 2 ^ 11 % 2 ^ 1 * 2 ^ 11 +
      n / 2 ^ 1 % 2 ^ 10 * 2 = n % 2 ^ 21 := by
  have at11 : n / 2 ^ 11 = n / 2 ^ 1 / 2 ^ 10 := by rw [Nat.div_div_eq_div_mul]; rfl
  have at12 : n / 2 ^ 12 = n / 2 ^ 11 / 2 ^ 1 := by rw [Nat.div_div_eq_div_mul]; rfl
  have at20 : n / 2 ^ 20 = n / 2 ^ 12 / 2 ^ 8 := by rw [Nat.div_div_eq_div_mul]; rfl
  omega

theorem assembleJType_fields (w : Word) (packed : w = assembleJType instr rd imm)
    (even : imm.toNat % 2 = 0) :
    field w 0 7 = instr.opcode.toNat ∧ regField w 7 = toReg rd ∧
      field w 31 1 * 2 ^ 20 + field w 12 8 * 2 ^ 12 + field w 20 1 * 2 ^ 11 +
        field w 21 10 * 2 = imm.toNat % 2 ^ 21 := by
  have sum := assembleJType_toNat fits hrd imm
  have hopcode := fits.opcode
  have split := immJ_digits even
  have h20 : imm.toNat / 2 ^ 20 % 2 ^ 1 < 2 ^ 1 := Nat.mod_lt _ (by decide)
  have h12 : imm.toNat / 2 ^ 12 % 2 ^ 8 < 2 ^ 8 := Nat.mod_lt _ (by decide)
  have h11 : imm.toNat / 2 ^ 11 % 2 ^ 1 < 2 ^ 1 := Nat.mod_lt _ (by decide)
  have h1 : imm.toNat / 2 ^ 1 % 2 ^ 10 < 2 ^ 10 := Nat.mod_lt _ (by decide)
  rw [← packed] at sum
  rw [← split]
  generalize imm.toNat / 2 ^ 20 % 2 ^ 1 = bit20 at sum h20 ⊢
  generalize imm.toNat / 2 ^ 12 % 2 ^ 8 = bits12 at sum h12 ⊢
  generalize imm.toNat / 2 ^ 11 % 2 ^ 1 = bit11 at sum h11 ⊢
  generalize imm.toNat / 2 ^ 1 % 2 ^ 10 = bits1 at sum h1 ⊢
  have read20 : field w 31 1 = bit20 := by rw [field, sum]; omega
  have read12 : field w 12 8 = bits12 := by rw [field, sum]; omega
  have read11 : field w 20 1 = bit11 := by rw [field, sum]; omega
  have read1 : field w 21 10 = bits1 := by rw [field, sum]; omega
  refine ⟨?_, regField_eq hrd ?_, by rw [read20, read12, read11, read1]⟩ <;>
    rw [field, sum] <;> omega

end Jump

structure GivesBack (w : Word) (pieces : List Word) (instr : Instruction)
    (registers : List (Nat × BitVec 8)) : Prop where
  joined : JoinsPieces w pieces
  opcode : field w 0 7 = instr.opcode.toNat
  registers : ∀ place ∈ registers, field w place.1 5 = place.2.toNat

/-- Each format gives back what was packed, for every immediate that `encode` admits. -/
structure PackersInvertible (instr : Instruction) (rs1 rs2 rd : BitVec 8) : Prop where
  rType : ∀ w, w = assembleRType instr rs2 rs1 rd →
    GivesBack w (rPieces instr rs1 rs2 rd) instr [(7, rd), (15, rs1), (20, rs2)] ∧
      field w 12 3 = instr.funct3.toNat ∧ field w 25 7 = instr.funct7.toNat
  iType : ∀ imm, checkImmediate imm int12Min int12Max = .ok () →
    ∀ w, w = assembleIType instr rs1 (BitVec.ofInt 32 imm) rd →
      GivesBack w (iPieces instr rs1 rd (BitVec.ofInt 32 imm)) instr [(7, rd), (15, rs1)] ∧
        field w 12 3 = instr.funct3.toNat ∧ immI w = imm
  sType : ∀ imm, checkImmediate imm int12Min int12Max = .ok () →
    ∀ w, w = assembleSType instr rs1 rs2 (BitVec.ofInt 32 imm) →
      GivesBack w (sPieces instr rs1 rs2 (BitVec.ofInt 32 imm)) instr [(15, rs1), (20, rs2)] ∧
        field w 12 3 = instr.funct3.toNat ∧ immS w = imm
  bType : ∀ imm, checkImmAndLastB imm int13Min int13Max = .ok () →
    ∀ w, w = assembleBType instr rs1 rs2 (BitVec.ofInt 32 imm) →
      GivesBack w (bPieces instr rs1 rs2 (BitVec.ofInt 32 imm)) instr [(15, rs1), (20, rs2)] ∧
        field w 12 3 = instr.funct3.toNat ∧ immB w = imm
  uType : ∀ imm, checkImmediate imm int20Min int20Max = .ok () →
    ∀ w, w = assembleUType instr rd (BitVec.ofInt 32 imm) →
      GivesBack w (uPieces instr rd (BitVec.ofInt 32 imm)) instr [(7, rd)] ∧
        (immU w : Int) = imm % 2 ^ 20
  jType : ∀ imm, checkImmAndLastB imm int21Min int21Max = .ok () →
    ∀ w, w = assembleJType instr rd (BitVec.ofInt 32 imm) →
      GivesBack w (jPieces instr rd (BitVec.ofInt 32 imm)) instr [(7, rd)] ∧ immJ w = imm

theorem field_of_regField {w : Word} {low : Nat} {value : BitVec 8} (range : value.toNat < 2 ^ 5)
    (read : regField w low = toReg value) : field w low 5 = value.toNat := by
  have number : field w low 5 = value.toNat % 32 := congrArg Fin.val read
  rw [number]
  exact Nat.mod_eq_of_lt range

theorem even_ofInt {imm : Int} (even : imm % 2 = 0) : (BitVec.ofInt 32 imm).toNat % 2 = 0 := by
  have bits := ofInt_toNat_mod imm 1 (by decide)
  omega

theorem packers_invertible (instr : Instruction) (fits : instr.Fits) (rs1 rs2 rd : BitVec 8)
    (hrs1 : rs1.toNat < 32) (hrs2 : rs2.toNat < 32) (hrd : rd.toNat < 32) :
    PackersInvertible instr rs1 rs2 rd := by
  constructor
  · intro w packed
    obtain ⟨opcode, hRd, funct3, hRs1, hRs2, funct7⟩ :=
      assembleRType_fields fits hrs1 hrs2 hrd w packed
    exact ⟨⟨packed ▸ assembleRType_joins fits hrs1 hrs2 hrd, opcode, by
      simp [field_of_regField hrd hRd, field_of_regField hrs1 hRs1, field_of_regField hrs2 hRs2]⟩,
      funct3, funct7⟩
  · intro imm checked w packed
    obtain ⟨low, high⟩ := checkImmediate_ok_iff.mp checked
    obtain ⟨opcode, hRd, funct3, hRs1, bits⟩ := assembleIType_fields fits hrs1 hrd _ w packed
    exact ⟨⟨packed ▸ assembleIType_joins fits hrs1 hrd _, opcode, by
      simp [field_of_regField hrd hRd, field_of_regField hrs1 hRs1]⟩, funct3,
      immI_eq imm bits low (by rw [int12Max] at high; omega)⟩
  · intro imm checked w packed
    obtain ⟨low, high⟩ := checkImmediate_ok_iff.mp checked
    obtain ⟨opcode, funct3, hRs1, hRs2, bits⟩ := assembleSType_fields fits hrs1 hrs2 _ w packed
    refine ⟨⟨packed ▸ assembleSType_joins fits hrs1 hrs2 _, opcode, by
      simp [field_of_regField hrs1 hRs1, field_of_regField hrs2 hRs2]⟩, funct3, ?_⟩
    rw [immS, bits]
    exact signed_ofInt (by decide) (ofInt_toNat_mod imm _ (by decide)) low
      (by rw [int12Max] at high; omega)
  · intro imm checked w packed
    obtain ⟨⟨low, high⟩, even⟩ := checkImmAndLastB_ok_iff.mp checked
    obtain ⟨opcode, funct3, hRs1, hRs2, bits⟩ :=
      assembleBType_fields fits hrs1 hrs2 _ w packed (even_ofInt even)
    refine ⟨⟨packed ▸ assembleBType_joins fits hrs1 hrs2 _, opcode, by
      simp [field_of_regField hrs1 hRs1, field_of_regField hrs2 hRs2]⟩, funct3, ?_⟩
    rw [immB, bits]
    exact signed_ofInt (by decide) (ofInt_toNat_mod imm _ (by decide)) low
      (by rw [int13Max] at high; omega)
  · intro imm checked w packed
    obtain ⟨opcode, hRd, bits⟩ := assembleUType_fields fits hrd _ w packed
    refine ⟨⟨packed ▸ assembleUType_joins fits hrd _, opcode, by
      simp [field_of_regField hrd hRd]⟩, ?_⟩
    rw [bits]
    exact ofInt_toNat_mod imm _ (by decide)
  · intro imm checked w packed
    obtain ⟨⟨low, high⟩, even⟩ := checkImmAndLastB_ok_iff.mp checked
    obtain ⟨opcode, hRd, bits⟩ := assembleJType_fields fits hrd _ w packed (even_ofInt even)
    refine ⟨⟨packed ▸ assembleJType_joins fits hrd _, opcode, by
      simp [field_of_regField hrd hRd]⟩, ?_⟩
    rw [immJ, bits]
    exact signed_ofInt (by decide) (ofInt_toNat_mod imm _ (by decide)) low
      (by rw [int21Max] at high; omega)

theorem packers_invertible_add : PackersInvertible ⟨"add", 0x33, 0x0, 0x00, .R⟩ 10 11 31 :=
  packers_invertible _ ⟨by decide, by decide, by decide⟩ 10 11 31 (by decide) (by decide)
    (by decide)

end RiscvAs
