/-
The words of an expansion depend on the text of its registers only through the
registers that the text names.

The operands of a pseudo-instruction are pasted with their blanks into new lines,
so two texts of one register give different lines, and the same words.
-/

import RiscvAs.Pairs
import RiscvAs.LoadImmediate

namespace RiscvAs

open Stdio
open Rv32 (Word Reg IOp UOp)

section Printed

variable {build : Build} {first second : CString} {rd rs1 : Reg} (isFirst : IsField first)
  (hRd : Names build first rd) {value : Int}

include isFirst hRd

theorem encode_printed_upper_eq {op : UOp} {instr : Instruction}
    (record : Record (upperMnemonic op) .U (upperOpcode op) instr)
    (low : int20Min ≤ value) (high : value ≤ int20Max) :
    encode build instr
        ((upperMnemonic op).toList ++ ' ' :: (first ++ ',' :: ' ' :: printInt value))
        (upperMnemonic op).toList =
      .ok (assembleUType instr (regByte rd) (BitVec.ofInt 32 value)) := by
  obtain ⟨literal, spelled, rfl⟩ := exists_literal_printInt value
  have read := sscanf_formatU (findInstruction_isToken record.found) isFirst build literal
  have checked := checkImmediate_of_range low high
  simp only [int20Min, int20Max] at low high
  rw [saturate_longBits build (by omega) (by omega), spelled] at read
  simp only [encode, record.type, read, checked, handleUTypeInstr, hRd.parsed, ok_bind, pure_eq_ok]

theorem encode_printed_imm_eq {op : IOp} {instr : Instruction}
    (record : Record (iMnemonic op) .I 0x13 instr)
    (notLoadStore : isLoadStore (iMnemonic op).toList = false) (isSecond : IsField second)
    (hRs1 : Names build second rs1) (small : IsInt12 value) :
    encode build instr
        ((iMnemonic op).toList ++ ' ' ::
          (first ++ ',' :: ' ' :: (second ++ ',' :: ' ' :: printInt value)))
        (iMnemonic op).toList =
      .ok (assembleIType instr (regByte rs1) (BitVec.ofInt 32 value) (regByte rd)) := by
  have scanned := scanITypeOperands_printed build isFirst (findInstruction_isToken record.found)
    notLoadStore isSecond small.1 small.2
  rw [encode_of_scanIType record.type scanned, checkImmediate_of_range small.1 small.2]
  simp only [handleITypeInstr, hRd.parsed, hRs1.parsed, ok_bind, pure_eq_ok]

end Printed

/-- The word of a pair depends on its registers only. -/
theorem exists_encode_pair (build : Build) (op : PairOp) {instr : Instruction}
    (found : findInstruction op.kind.target.toList = some instr) (rd rs : Reg) :
    ∃ w, ∀ first second, IsField first → Names build first rd → IsLastField second →
      ',' ∉ second → Names build second rs →
      encode build instr (op.kind.text first second) op.kind.target.toList = .ok w := by
  cases kind : op.kind with
  | imm target own =>
      obtain ⟨record, isRecord, notLoadStore, -⟩ := iRecord target
      rw [kind] at found
      obtain rfl : instr = record := Option.some.inj (found.symm.trans isRecord.found)
      apply Exists.intro
      intro first second isFirst hRd isSecond noComma hRs
      exact encode_printed_imm_eq isFirst hRd isRecord notLoadStore (isSecond.isField noComma) hRs
        (op.kind_imm kind).1
  | reg target =>
      obtain ⟨record, isRecord, -⟩ := rRecord target
      rw [kind] at found
      obtain rfl : instr = record := Option.some.inj (found.symm.trans isRecord.found)
      refine ⟨assembleRType instr (regByte rs) (regByte RegName.zero.number) (regByte rd), ?_⟩
      intro first second isFirst hRd isSecond noComma hRs
      have read := sscanf_formatR (findInstruction_isToken isRecord.found) isFirst
        RegName.zero.isField isSecond
      have zero := (RegName.zero.names build).parsed
      simp only [encode, isRecord.type, PairKind.text, read, handleRTypeInstr,
        hRd.parsed, zero, hRs.parsed, ok_bind, pure_eq_ok]

theorem expandWith_lui (expansion : PseudoExpansion) (first : CString) (value : Int) :
    expandWith expansion "lui" ("lui ".toList ++ first ++ ", ".toList ++ printInt value) =
      expandWith expansion (upperMnemonic .lui)
        ((upperMnemonic .lui).toList ++ ' ' :: (first ++ ',' :: ' ' :: printInt value)) := by
  simp [upperMnemonic]

theorem expandWith_auipc (expansion : PseudoExpansion) (first : CString) (value : Int) :
    expandWith expansion "auipc" ("auipc ".toList ++ first ++ ", ".toList ++ printInt value) =
      expandWith expansion (upperMnemonic .auipc)
        ((upperMnemonic .auipc).toList ++ ' ' :: (first ++ ',' :: ' ' :: printInt value)) := by
  simp [upperMnemonic]

theorem printed_addi (first second : CString) (value : Int) :
    "addi ".toList ++ first ++ ", ".toList ++ second ++ ", ".toList ++ printInt value =
      "addi".toList ++
        ' ' :: (first ++ ',' :: ' ' :: (second ++ ',' :: ' ' :: printInt value)) := by
  simp

section Parts

variable (build : Build) (rd : Reg)

theorem exists_upper_words (op : UOp) (x : Word) :
    ∃ w, ∀ first, IsField first → Names build first rd → ∃ expansion,
      expandWith .reset (upperMnemonic op) ((upperMnemonic op).toList ++ ' ' ::
          (first ++ ',' :: ' ' :: printInt (highPart x).toInt)) = .ok expansion ∧
        encodePseudoInstr build expansion = .ok [w] := by
  obtain ⟨instr, record⟩ := upperRecord op
  obtain ⟨low, high⟩ := highPart_range x
  have start : encodePseudoInstr build .reset = .ok [] := rfl
  refine ⟨assembleUType instr (regByte rd) (BitVec.ofInt 32 (highPart x).toInt), ?_⟩
  intro first isFirst hRd
  exact expandWith_words start (by decide) record.found
    (printed_upper_short isFirst (by simp only [int32Min]; omega) (by simp only [int32Max]; omega)
      op)
    (encode_printed_upper_eq isFirst hRd record (by simp only [int20Min]; omega)
      (by simp only [int20Max]; omega))

theorem exists_addi_words (rs1 : Reg) {value : Int} (small : IsInt12 value) :
    ∃ w, ∀ expansion words first second, encodePseudoInstr build expansion = .ok words →
      words.length < 2 → IsField first → Names build first rd → IsField second →
      Names build second rs1 → ∃ expansion',
        expandWith expansion "addi" ("addi".toList ++ ' ' :: (first ++ ',' :: ' ' ::
          (second ++ ',' :: ' ' :: printInt value))) = .ok expansion' ∧
        encodePseudoInstr build expansion' = .ok (words ++ [w]) := by
  obtain ⟨instr, record, notLoadStore, -⟩ := iRecord .addi
  obtain ⟨low, high⟩ := int32_of_int12 small
  refine ⟨assembleIType instr (regByte rs1) (BitVec.ofInt 32 value) (regByte rd), ?_⟩
  intro expansion words first second encoded room isFirst hRd isSecond hRs1
  exact expandWith_words encoded room record.found
    (printed_imm_short isFirst low high .addi isSecond)
    (encode_printed_imm_eq isFirst hRd record notLoadStore isSecond hRs1 small)

theorem exists_upperAddi_words (op : UOp) (x : Word) :
    ∃ words, ∀ first, IsField first → Names build first rd →
      (expandWith .reset (upperMnemonic op) ((upperMnemonic op).toList ++ ' ' ::
          (first ++ ',' :: ' ' :: printInt (highPart x).toInt)) >>= fun expansion =>
        expandWith expansion "addi" ("addi".toList ++ ' ' :: (first ++ ',' :: ' ' ::
          (first ++ ',' :: ' ' :: printInt (lowPart x).toInt))) >>=
        encodePseudoInstr build) = .ok words := by
  obtain ⟨w, upper⟩ := exists_upper_words build rd op x
  obtain ⟨w', lower⟩ := exists_addi_words build rd rd (isInt12_lowPart x)
  refine ⟨[w, w'], ?_⟩
  intro first isFirst hRd
  obtain ⟨middle, expanded, encoded⟩ := upper first isFirst hRd
  obtain ⟨expansion, expanded', encoded'⟩ :=
    lower middle [w] first first encoded (by simp) isFirst hRd isFirst hRd
  rw [expanded, ok_bind, expanded', ok_bind, encoded']
  rfl

/-- The words of `li` depend on its register and its value only. -/
theorem exists_li_words (value : Int) :
    ∃ words, ∀ first, IsField first → Names build first rd →
      (expandLiInstr first value .reset >>= encodePseudoInstr build) = .ok words := by
  have start : encodePseudoInstr build .reset = .ok [] := rfl
  unfold expandLiInstr
  by_cases small : IsInt12 (BitVec.ofInt 32 value).toInt
  · obtain ⟨w, lower⟩ := exists_addi_words build rd 0 small
    refine ⟨[w], ?_⟩
    intro first isFirst hRd
    obtain ⟨expansion, expanded, encoded⟩ := lower _ [] first _ start (by simp) isFirst hRd
      RegName.zero.isField (RegName.zero.names build)
    have printed : "addi ".toList ++ first ++ ", zero, ".toList ++
        printInt (BitVec.ofInt 32 value).toInt = "addi".toList ++ ' ' :: (first ++ ',' :: ' ' ::
          (RegName.zero.text ++ ',' :: ' ' :: printInt (BitVec.ofInt 32 value).toInt)) := by
      simp [RegName.text]
    simp only [if_pos small, printed, expanded, ok_bind, encoded, List.nil_append]
  · by_cases lowZero : lowPart (BitVec.ofInt 32 value) = 0
    · obtain ⟨w, upper⟩ := exists_upper_words build rd .lui (BitVec.ofInt 32 value)
      refine ⟨[w], ?_⟩
      intro first isFirst hRd
      obtain ⟨expansion, expanded, encoded⟩ := upper first isFirst hRd
      simp only [if_neg small, expandWith_lui, expanded, ok_bind, lowZero, ne_eq,
        not_true_eq_false, if_false, pure_eq_ok, encoded]
    · obtain ⟨words, both⟩ := exists_upperAddi_words build rd .lui (BitVec.ofInt 32 value)
      refine ⟨words, ?_⟩
      intro first isFirst hRd
      rw [← both first isFirst hRd]
      simp only [if_neg small, expandWith_lui, ne_eq, lowZero, not_false_eq_true, if_true,
        printed_addi, bind_assoc]

theorem exists_la_words (symbolAddr currentPc : Int) :
    ∃ words, ∀ first, IsField first → Names build first rd →
      (expandLaInstr first symbolAddr currentPc .reset >>= encodePseudoInstr build) =
        .ok words := by
  obtain ⟨words, both⟩ :=
    exists_upperAddi_words build rd .auipc (BitVec.ofInt 32 (symbolAddr - currentPc))
  refine ⟨words, ?_⟩
  intro first isFirst hRd
  rw [← both first isFirst hRd]
  simp only [expandLaInstr, expandWith_auipc, printed_addi, bind_assoc]

end Parts

end RiscvAs
