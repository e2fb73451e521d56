/-
Instruction words as sums of their fields.

A word packed from disjoint fields by shifting and or-ing is the number whose
digits are the fields, so each field is read back by division.
-/

import RiscvAs.Rv32.Isa

namespace Rv32

/-- Or-ing a field below a packed number appends it as a digit. -/
theorem pack_field (low width : Nat) {high value : Nat} (fits : value < 2 ^ width) :
    (high <<< (low + width)) ||| (value <<< low) = (high * 2 ^ width + value) <<< low := by
  have appended := Nat.shiftLeft_add_eq_or_of_lt fits high
  have shifted : high <<< (low + width) = (high <<< width) <<< low := by
    rw [← Nat.shiftLeft_add, Nat.add_comm]
  rw [shifted, ← Nat.shiftLeft_or_distrib, ← appended, Nat.shiftLeft_eq high width]

/-- A field that stays inside the word is shifted without loss. -/
theorem toNat_shiftLeft {x : Word} {low width : Nat} (fits : x.toNat < 2 ^ width)
    (inside : low + width ≤ 32) : (x <<< low).toNat = x.toNat <<< low := by
  rw [BitVec.toNat_shiftLeft, Nat.mod_eq_of_lt]
  rw [Nat.shiftLeft_eq]
  calc
    x.toNat * 2 ^ low < 2 ^ width * 2 ^ low :=
      Nat.mul_lt_mul_of_pos_right fits (Nat.two_pow_pos low)
    _ = 2 ^ (low + width) := by rw [← pow_add, Nat.add_comm]
    _ ≤ 2 ^ 32 := Nat.pow_le_pow_right (by decide) inside

theorem toNat_setWidth_byte (x : BitVec 8) : (x.setWidth 32).toNat = x.toNat := by
  rw [BitVec.toNat_setWidth]
  exact Nat.mod_eq_of_lt (by have bound := x.isLt; omega)

/-- Masking with a run of ones keeps the low bits. -/
theorem toNat_mask (x : Word) (low width : Nat) (mask : Word)
    (ones : mask.toNat = 2 ^ width - 1) :
    ((x >>> low) &&& mask).toNat = x.toNat / 2 ^ low % 2 ^ width := by
  rw [BitVec.toNat_and, BitVec.toNat_ushiftRight, ones, Nat.and_two_pow_sub_one_eq_mod,
    Nat.shiftRight_eq_div_pow]

/-- The signed reading of the low bits of a number in range is the number. -/
theorem signed_ofInt {width : Nat} {value : Int} {bits : Nat} (positive : 0 < width)
    (hbits : (bits : Int) = value % 2 ^ width)
    (low : -(2 ^ (width - 1) : Int) ≤ value) (high : value < 2 ^ (width - 1)) :
    signed width bits = value := by
  obtain ⟨width, rfl⟩ : ∃ smaller, width = smaller + 1 := ⟨width - 1, by omega⟩
  simp only [Nat.add_sub_cancel] at low high
  have double : (2 ^ (width + 1) : Int) = 2 * 2 ^ width := by rw [pow_succ, Int.mul_comm]
  have cast : ((2 ^ width : Nat) : Int) = 2 ^ width := by norm_cast
  have positivePow : (0 : Int) < 2 ^ width := by positivity
  unfold signed
  simp only [Nat.add_sub_cancel]
  rcases Int.lt_or_le value 0 with negative | nonneg
  · have wrapped : value % 2 ^ (width + 1) = value + 2 ^ (width + 1) := by
      rw [← Int.add_emod_right value (2 ^ (width + 1))]
      exact Int.emod_eq_of_lt (by omega) (by omega)
    have above : ¬ bits < 2 ^ width := by
      intro below
      have below' : (bits : Int) < 2 ^ width := by exact_mod_cast below
      omega
    rw [if_neg above]
    omega
  · have kept : value % 2 ^ (width + 1) = value := Int.emod_eq_of_lt nonneg (by omega)
    have below : bits < 2 ^ width := by
      have below' : (bits : Int) < 2 ^ width := by omega
      exact_mod_cast below'
    rw [if_pos below]
    omega

def Within (low high : Nat) (x : Word) : Prop :=
  2 ^ low ∣ x.toNat ∧ x.toNat < 2 ^ high

theorem Within.and_eq_zero {low high : Nat} {x y : Word} (within : Within low high x)
    (below : y.toNat < 2 ^ low) : x &&& y = 0 := by
  apply BitVec.eq_of_toNat_eq
  rw [BitVec.toNat_and]
  apply Nat.eq_of_testBit_eq
  intro i
  obtain ⟨digits, value⟩ := within.1
  rw [Nat.testBit_and, value, Nat.testBit_two_pow_mul]
  by_cases inside : i < low
  · simp [Nat.not_le.mpr inside]
  · have clear : y.toNat.testBit i = false :=
      Nat.testBit_lt_two_pow (Nat.lt_of_lt_of_le below
        (Nat.pow_le_pow_right (by decide) (Nat.le_of_not_lt inside)))
    simp [clear]

/-- Pieces whose ranges lie one below the other. -/
inductive Stacked : Nat → List Word → Prop where
  | nil (top : Nat) : Stacked top []
  | cons {low high top : Nat} {piece : Word} {pieces : List Word} (within : Within low high piece)
      (proper : low ≤ high) (under : high ≤ top) (rest : Stacked low pieces) :
      Stacked top (piece :: pieces)

theorem Stacked.lt {top : Nat} {pieces : List Word} (stacked : Stacked top pieces) :
    ∀ piece ∈ pieces, piece.toNat < 2 ^ top := by
  induction stacked with
  | nil top => simp
  | cons within proper under rest ih =>
      intro other member
      rcases List.mem_cons.mp member with rfl | later
      · exact Nat.lt_of_lt_of_le within.2 (Nat.pow_le_pow_right (by decide) under)
      · exact Nat.lt_of_lt_of_le (ih other later)
          (Nat.pow_le_pow_right (by decide) (Nat.le_trans proper under))

theorem Stacked.pairwise {top : Nat} {pieces : List Word} (stacked : Stacked top pieces) :
    pieces.Pairwise (fun x y => x &&& y = 0) := by
  induction stacked with
  | nil top => exact List.Pairwise.nil
  | cons within proper under rest ih =>
      exact List.Pairwise.cons (fun other member => within.and_eq_zero (rest.lt other member)) ih

end Rv32
