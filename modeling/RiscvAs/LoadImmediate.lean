/-
`li` loads the value of its literal.

The value is split into the immediates of `lui` and `addi`, printed and encoded
again; the two instructions, or the one that is enough, leave the value in the
register and touch no other.
-/

import RiscvAs.Constants
import RiscvAs.TextSegment

namespace RiscvAs

open Stdio
open Rv32

def liLine (rd : RegName) (literal : Literal) : CString :=
  "li".toList ++ ' ' :: (rd.text ++ ',' :: ' ' :: literal.text)

def liUpper (rd : Reg) (x : Word) : Instr :=
  .upper .lui rd ((highPart x).toInt % 2 ^ 20).toNat

def liLower (rd : Reg) (x : Word) : Instr :=
  .imm .addi rd rd (lowPart x).toInt

def liInstrs (rd : Reg) (value : Int) : List Instr :=
  if IsInt12 value then [.imm .addi rd 0 value]
  else if lowPart (BitVec.ofInt 32 value) = 0 then [liUpper rd (BitVec.ofInt 32 value)]
  else [liUpper rd (BitVec.ofInt 32 value), liLower rd (BitVec.ofInt 32 value)]

theorem toInt_ofInt_of_range {value : Int} (low : int32Min ≤ value) (high : value ≤ int32Max) :
    (BitVec.ofInt 32 value).toInt = value := by
  simp only [int32Min, int32Max] at low high
  rw [BitVec.toInt_ofInt]
  exact Int.bmod_eq_of_le (by omega) (by omega)

theorem lowPart_ofInt_eq_zero_iff (value : Int) :
    lowPart (BitVec.ofInt 32 value) = 0 ↔ value % 2 ^ 12 = 0 := by
  have bits := ofInt_toNat_mod value 12 (by decide)
  rw [lowPart_eq_zero_iff]
  omega

theorem liInstrs_length (rd : Reg) (value : Int) :
    (liInstrs rd value).length = if IsInt12 value ∨ value % 2 ^ 12 = 0 then 1 else 2 := by
  have lowZero := lowPart_ofInt_eq_zero_iff value
  unfold liInstrs
  by_cases small : IsInt12 value
  · rw [if_pos small, if_pos (Or.inl small)]
    rfl
  · by_cases zero : value % 2 ^ 12 = 0
    · rw [if_neg small, if_pos (lowZero.mpr zero), if_pos (Or.inr zero)]
      rfl
    · rw [if_neg small, if_neg (mt lowZero.mp zero), if_neg (by tauto)]
      rfl

theorem writes_liUpper {rd : Reg} (notZero : rd ≠ 0) {x : Word} (lowZero : lowPart x = 0) :
    Writes [liUpper rd x] rd (fun _ => x) := by
  have sum := highPart_add_lowPart x
  rw [lowZero] at sum
  have value : ∀ s, upperBase .lui s +
      BitVec.ofNat 32 (((highPart x).toInt % 2 ^ 20).toNat * 2 ^ 12) = x := by
    intro s
    rw [upperBase, zero_add]
    simpa using sum
  have written := writes_upper notZero .lui ((highPart x).toInt % 2 ^ 20).toNat
  simp only [value] at written
  exact written

theorem writes_liUpper_liLower {rd : Reg} (notZero : rd ≠ 0) (x : Word) :
    Writes [liUpper rd x, liLower rd x] rd (fun _ => x) := by
  have value : ∀ s, upperBase .lui s +
      BitVec.ofNat 32 (((highPart x).toInt % 2 ^ 20).toNat * 2 ^ 12) +
        BitVec.ofInt 32 (lowPart x).toInt = x := by
    intro s
    rw [upperBase, zero_add, highPart_add_lowPart]
  have written := writes_upper_addi notZero .lui ((highPart x).toInt % 2 ^ 20).toNat
    (lowPart x).toInt
  simp only [value] at written
  exact written

theorem writes_liInstrs {rd : Reg} (notZero : rd ≠ 0) (value : Int) :
    Writes (liInstrs rd value) rd (fun _ => BitVec.ofInt 32 value) := by
  unfold liInstrs
  split
  · exact writes_addi_zero notZero value
  · split
    · rename_i lowZero
      exact writes_liUpper notZero lowZero
    · exact writes_liUpper_liLower notZero (BitVec.ofInt 32 value)

theorem isInt12_lowPart (x : Word) : IsInt12 (lowPart x).toInt := by
  obtain ⟨low, high⟩ := lowPart_range x
  simp only [IsInt12, int12Min, int12Max]
  omega

theorem expandLiInstr_encodes {build : Build} {rdText : CString} {rd : Reg}
    (isField : IsField rdText) (hRd : Names build rdText rd) {value : Int}
    (low : int32Min ≤ value) (high : value ≤ int32Max) :
    ∃ expansion, expandLiInstr rdText value .reset = .ok expansion ∧
      expansion.Encodes build (liInstrs rd value) := by
  have start := PseudoExpansion.encodes_reset build
  have kept := toInt_ofInt_of_range low high
  unfold expandLiInstr liInstrs
  simp only [kept]
  by_cases small : IsInt12 value
  · obtain ⟨expansion, expanded, encodes⟩ := expandWith_imm start (by decide) isField hRd .addi
      RegName.zero.isField (RegName.zero.names build) small
    rw [if_pos small, if_pos small]
    refine ⟨expansion, ?_, encodes⟩
    rw [← expanded]
    simp [RegName.text, iMnemonic]
  · obtain ⟨middle, expandedUpper, encodesUpper⟩ := expandWith_upper start (by decide) isField hRd
      .lui (BitVec.ofInt 32 value)
    have printedUpper : expandWith .reset "lui"
        ("lui ".toList ++ rdText ++ ", ".toList ++
          printInt (highPart (BitVec.ofInt 32 value)).toInt) = .ok middle := by
      rw [← expandedUpper]
      simp [upperMnemonic]
    rw [if_neg small, if_neg small, printedUpper, ok_bind]
    by_cases lowZero : lowPart (BitVec.ofInt 32 value) = 0
    · rw [if_neg (not_not.mpr lowZero), if_pos lowZero]
      exact ⟨middle, rfl, encodesUpper⟩
    · obtain ⟨expansion, expanded, encodes⟩ := expandWith_imm encodesUpper (by simp) isField hRd
        .addi isField hRd (isInt12_lowPart (BitVec.ofInt 32 value))
      rw [if_pos lowZero, if_neg lowZero]
      refine ⟨expansion, ?_, encodes⟩
      rw [← expanded]
      simp [iMnemonic]

section Line

variable (rd : RegName) (literal : Literal)

theorem lineInstruction_li :
    ∃ instr, lineInstruction (liLine rd literal) = .ok instr ∧ instr.type = .P ∧
      instr.name = "li" :=
  have found : findInstruction "li".toList = some ⟨"li", 0x13, 0x0, 0x00, .P⟩ := rfl
  ⟨_, lineInstruction_of_found found (by simp [isspace]), rfl, rfl⟩

theorem expandLi_line : expandLi .native (liLine rd literal) =
    (checkImmediate (saturate Build.native.longBits literal.value) int32Min int32Max >>= fun _ =>
      expandLiInstr rd.text (saturate Build.native.longBits literal.value) .reset) := by
  have found : findInstruction "li".toList = some ⟨"li", 0x13, 0x0, 0x00, .P⟩ := rfl
  have isToken := findInstruction_isToken found
  have read := sscanf_formatU isToken rd.isField .native literal
  simp only [expandLi, liLine, read, storeLong]

theorem lineWords_li (ctx : AssemblerCtx) (textOffset : Nat) :
    lineWords .native ctx (liLine rd literal) textOffset =
      (expandLi .native (liLine rd literal) >>= encodePseudoInstr .native) := by
  obtain ⟨instr, instruction, pseudo, name⟩ := lineInstruction_li rd literal
  rw [lineWords_of_pseudo instruction pseudo, expandPseudoInstr, if_pos name]

theorem saturate_int32 (value : Int) :
    (int32Min ≤ saturate Build.native.longBits value ∧
        saturate Build.native.longBits value ≤ int32Max) ↔
      (int32Min ≤ value ∧ value ≤ int32Max) :=
  saturate_range_iff (by decide) (by decide)

theorem lineWords_li_of_range (low : int32Min ≤ literal.value) (high : literal.value ≤ int32Max)
    (ctx : AssemblerCtx) (textOffset : Nat) :
    ∃ words, lineWords .native ctx (liLine rd literal) textOffset = .ok words ∧
      Decodes words (liInstrs rd.number literal.value) := by
  obtain ⟨expansion, expanded, words, encoded, decodes⟩ :=
    expandLiInstr_encodes rd.isField (rd.names .native) low high
  have kept : saturate Build.native.longBits literal.value = literal.value :=
    saturate_longBits .native low high
  refine ⟨words, ?_, decodes⟩
  rw [lineWords_li, expandLi_line, kept, checkImmediate_of_range low high, ok_bind, expanded,
    ok_bind, encoded]

theorem lineWords_li_of_not_range
    (outside : ¬ (int32Min ≤ literal.value ∧ literal.value ≤ int32Max))
    (ctx : AssemblerCtx) (textOffset : Nat) :
    lineWords .native ctx (liLine rd literal) textOffset = .error .invalidImmediate := by
  rw [lineWords_li, expandLi_line,
    checkImmediate_of_not_range (fun inside => outside ((saturate_int32 _).mp inside)),
    error_bind, error_bind]

/-- In range `li` appends one word or two, which load the value and change no
other register; out of range nothing is emitted. -/
theorem processSegmentText_li (out : Output) :
    (rd.number ≠ 0 → out.textOffset + 8 ≤ out.ctx.textSegment.capacity →
      (-2 ^ 31 ≤ literal.value ∧ literal.value ≤ 2 ^ 31 - 1) →
      ∃ words instrs, processSegmentText .native out (liLine rd literal) =
          (.ok, out.appendWords words) ∧
        words.length = (if (-2 ^ 11 ≤ literal.value ∧ literal.value ≤ 2 ^ 11 - 1) ∨
          literal.value % 2 ^ 12 = 0 then 1 else 2) ∧
        Decodes words instrs ∧
        Writes instrs rd.number (fun _ => BitVec.ofInt 32 literal.value)) ∧
    (¬ (-2 ^ 31 ≤ literal.value ∧ literal.value ≤ 2 ^ 31 - 1) →
      ∃ failure, processSegmentText .native out (liLine rd literal) = (.fail failure, out)) := by
  constructor
  · rintro notZero room ⟨low, high⟩
    obtain ⟨words, encoded, decodes⟩ :=
      lineWords_li_of_range rd literal low high out.ctx out.textOffset
    have count := decodes.length_eq.trans (liInstrs_length rd.number literal.value)
    have few : words.length ≤ 2 := by
      rw [count]
      split <;> omega
    exact ⟨words, _, processSegmentText_of_words encoded (by omega), count, decodes,
      writes_liInstrs notZero literal.value⟩
  · intro outside
    exact ⟨_, processSegmentText_of_error
      (lineWords_li_of_not_range rd literal outside out.ctx out.textOffset)⟩

end Line

theorem processSegmentText_li_max :
    ∃ words instrs, processSegmentText .native ⟨initCtx 0x80000000, 0, 0⟩
        "li a0, 0x7fffffff".toList =
          (.ok, Output.appendWords ⟨initCtx 0x80000000, 0, 0⟩ words) ∧
      words.length = 2 ∧ Decodes words instrs ∧
      Writes instrs 10 (fun _ => 0x7fffffff) := by
  have loads := (processSegmentText_li (.a 0)
    ⟨.none, .hex 'x' ['7', 'f', 'f', 'f', 'f', 'f', 'f', 'f'] (Or.inl rfl) (by decide)
      (by simp; decide)⟩ ⟨initCtx 0x80000000, 0, 0⟩).1
  exact loads (by decide) (by decide)
    (show -2 ^ 31 ≤ (0x7fffffff : Int) ∧ (0x7fffffff : Int) ≤ 2 ^ 31 - 1 by decide)

end RiscvAs
