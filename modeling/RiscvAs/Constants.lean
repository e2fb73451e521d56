/-
Building a 32-bit constant out of a high and a low part.

`lowPart` and `highPart` are the parts that `expand_li_instr` and
`expand_la_instr` print; their ranges are those of the two instructions, and
added up they give the constant back.  The printed lines are encoded again, so
the words of an expansion decode to the two instructions.
-/

import RiscvAs.Encoding
import RiscvAs.Rv32.Execution

namespace RiscvAs

open Stdio
open Rv32

theorem lowPart_toInt (x : Word) : (lowPart x).toInt = (x.toNat : Int).bmod 4096 := by
  rw [lowPart, BitVec.toInt_sshiftRight, Int.shiftRight_eq_div_pow, BitVec.toInt_shiftLeft]
  simp only [Nat.shiftLeft_eq]
  push_cast
  simp only [Int.bmod_def]
  omega

theorem lowPart_range (x : Word) : -2 ^ 11 ≤ (lowPart x).toInt ∧ (lowPart x).toInt < 2 ^ 11 := by
  rw [lowPart_toInt]
  simp only [Int.bmod_def]
  omega

theorem lowPart_eq_zero_iff (x : Word) : lowPart x = 0 ↔ x.toNat % 4096 = 0 := by
  have zero : (0 : Word).toInt = 0 := rfl
  rw [← BitVec.toInt_inj, lowPart_toInt, zero]
  simp only [Int.bmod_def]
  omega

theorem highPart_toInt (x : Word) : (highPart x).toInt = (x - lowPart x).toInt / 4096 := by
  rw [highPart, BitVec.toInt_sshiftRight, Int.shiftRight_eq_div_pow]
  rfl

theorem highPart_range (x : Word) :
    -2 ^ 19 ≤ (highPart x).toInt ∧ (highPart x).toInt < 2 ^ 19 := by
  have low := BitVec.le_toInt (x - lowPart x)
  have high := BitVec.toInt_lt (x := x - lowPart x)
  rw [highPart_toInt]
  omega

theorem sub_lowPart_toInt_mod (x : Word) : (x - lowPart x).toInt % 4096 = 0 := by
  have low := lowPart_toInt x
  have range := lowPart_range x
  have bound := x.isLt
  rw [BitVec.toInt_sub, low, BitVec.toInt_eq_toNat_bmod]
  simp only [Int.bmod_def]
  omega

theorem highPart_add_lowPart (x : Word) :
    BitVec.ofNat 32 (((highPart x).toInt % 2 ^ 20).toNat * 2 ^ 12) +
      BitVec.ofInt 32 (lowPart x).toInt = x := by
  have upper : BitVec.ofNat 32 (((highPart x).toInt % 2 ^ 20).toNat * 2 ^ 12) =
      x - lowPart x := by
    have aligned := sub_lowPart_toInt_mod x
    have low := BitVec.le_toInt (x - lowPart x)
    have high := BitVec.toInt_lt (x := x - lowPart x)
    rw [highPart_toInt, ← BitVec.toInt_inj, BitVec.toInt_eq_toNat_bmod, BitVec.toNat_ofNat]
    generalize (x - lowPart x).toInt = d at *
    push_cast
    rw [Int.toNat_of_nonneg (Int.emod_nonneg _ (by decide))]
    simp only [Int.bmod_def]
    omega
  rw [upper, BitVec.ofInt_toInt, BitVec.sub_add_cancel]

def PseudoExpansion.Encodes (build : Build) (expansion : PseudoExpansion)
    (instrs : List Instr) : Prop :=
  ∃ words, encodePseudoInstr build expansion = .ok words ∧ Decodes words instrs

theorem PseudoExpansion.encodes_reset (build : Build) : PseudoExpansion.reset.Encodes build [] :=
  ⟨[], rfl, List.Forall₂.nil⟩

theorem encodePseudoInstr_append (build : Build) (expansion : PseudoExpansion)
    (entry : Instruction × CString) :
    encodePseudoInstr build ⟨expansion.lines ++ [entry]⟩ =
      (encodePseudoInstr build expansion >>= fun words =>
        (encode build entry.1 entry.2 entry.1.name.toList).map (fun w => words ++ [w])) := by
  simp only [encodePseudoInstr, List.mapM_append, List.mapM_cons, List.mapM_nil]
  cases List.mapM (fun entry => encode build entry.1 entry.2 entry.1.name.toList)
      expansion.lines with
  | error e => rfl
  | ok words => cases encode build entry.1 entry.2 entry.1.name.toList <;> rfl

theorem mapM_length {α β : Type} {f : α → Except Failure β} {inputs : List α}
    {outputs : List β} (mapped : inputs.mapM f = .ok outputs) :
    outputs.length = inputs.length := by
  induction inputs generalizing outputs with
  | nil =>
      cases mapped
      rfl
  | cons input inputs ih =>
      rw [List.mapM_cons] at mapped
      obtain ⟨output, -, rest⟩ := bind_eq_ok_iff.mp mapped
      obtain ⟨others, mappedRest, joined⟩ := bind_eq_ok_iff.mp rest
      cases joined
      rw [List.length_cons, List.length_cons, ih mappedRest]

theorem expandWith_words {build : Build} {expansion : PseudoExpansion} {words : List Word}
    (encoded : encodePseudoInstr build expansion = .ok words) (room : words.length < 2)
    {name : String} {instr : Instruction} (found : findInstruction name.toList = some instr)
    {text : CString} (short : text.length < lineBufLen) {w : Word}
    (encodedLine : encode build instr text name.toList = .ok w) :
    ∃ expansion', expandWith expansion name text = .ok expansion' ∧
      encodePseudoInstr build expansion' = .ok (words ++ [w]) := by
  have copied : snprintf lineBufLen text = text := List.take_of_length_le (by omega)
  have count : expansion.count = words.length := (mapM_length encoded).symm
  refine ⟨⟨expansion.lines ++ [(instr, text)]⟩, ?_, ?_⟩
  · simp only [expandWith, found, pseudoExpansionAdd, copied]
    rw [if_neg (by omega)]
  · rw [encodePseudoInstr_append, encoded, ok_bind, findInstruction_name found, encodedLine]
    rfl

theorem expandWith_encodes {build : Build} {expansion : PseudoExpansion} {instrs : List Instr}
    (encodes : expansion.Encodes build instrs) (room : instrs.length < 2) {name : String}
    {instr : Instruction} (found : findInstruction name.toList = some instr) {text : CString}
    (short : text.length < lineBufLen) {next : Instr}
    (encoded : EncodesTo (encode build instr text name.toList) next) :
    ∃ expansion', expandWith expansion name text = .ok expansion' ∧
      expansion'.Encodes build (instrs ++ [next]) := by
  obtain ⟨words, encodedWords, decodes⟩ := encodes
  obtain ⟨w, encodedLine, decoded⟩ := encoded
  have few : words.length < 2 := by
    rw [decodes.length_eq]
    exact room
  obtain ⟨expansion', expanded, encoded'⟩ :=
    expandWith_words encodedWords few found short encodedLine
  exact ⟨expansion', expanded, words ++ [w], encoded', decodes.snoc decoded⟩

/-! ### Printed lines -/

theorem scanITypeOperands_printed (build : Build) {first second mnemonic : CString} {value : Int}
    (isFirst : IsField first) (isToken : IsToken mnemonic)
    (notLoadStore : isLoadStore mnemonic = false) (isSecond : IsField second)
    (low : int12Min ≤ value) (high : value ≤ int12Max) :
    scanITypeOperands build
        (mnemonic ++ ' ' :: (first ++ ',' :: ' ' :: (second ++ ',' :: ' ' :: printInt value)))
        mnemonic = .ok (first, value, second) := by
  obtain ⟨literal, spelled, rfl⟩ := exists_literal_printInt value
  have read := sscanf_formatI isToken isFirst isSecond build literal
  simp only [int12Min, int12Max] at low high
  rw [saturate_longBits build (by omega) (by omega)] at read
  rw [← spelled, scanITypeOperands, notLoadStore, read]
  rfl

section Lines

variable {build : Build} {instr : Instruction} {first second : CString} {rd rs1 : Reg}
  (isFirst : IsField first) (hRd : Names build first rd) {value : Int}

include isFirst hRd

theorem encode_printed_upper {op : UOp}
    (record : Record (upperMnemonic op) .U (upperOpcode op) instr)
    (low : int20Min ≤ value) (high : value ≤ int20Max) :
    EncodesTo (encode build instr
        ((upperMnemonic op).toList ++ ' ' :: (first ++ ',' :: ' ' :: printInt value))
        (upperMnemonic op).toList)
      (.upper op rd (value % 2 ^ 20).toNat) := by
  obtain ⟨literal, spelled, rfl⟩ := exists_literal_printInt value
  rw [← spelled]
  exact encode_upper record isFirst hRd literal low high

theorem encode_printed_imm {op : IOp} (record : Record (iMnemonic op) .I 0x13 instr)
    (notLoadStore : isLoadStore (iMnemonic op).toList = false)
    (selects : ∀ funct7 rd rs1 shamt imm, opImm funct7 instr.funct3.toNat rd rs1 shamt imm =
      some (.imm op rd rs1 imm))
    (isSecond : IsField second) (hRs1 : Names build second rs1)
    (low : int12Min ≤ value) (high : value ≤ int12Max) :
    EncodesTo (encode build instr
        ((iMnemonic op).toList ++ ' ' ::
          (first ++ ',' :: ' ' :: (second ++ ',' :: ' ' :: printInt value)))
        (iMnemonic op).toList)
      (.imm op rd rs1 value) := by
  refine encode_imm_of_scanned record selects ?_ hRd hRs1 low high
  exact scanITypeOperands_printed build isFirst (findInstruction_isToken record.found) notLoadStore
    isSecond low high

end Lines

abbrev IsInt12 (value : Int) : Prop :=
  int12Min ≤ value ∧ value ≤ int12Max

theorem int32_of_int12 {value : Int} (small : IsInt12 value) :
    int32Min ≤ value ∧ value ≤ int32Max := by
  simp only [IsInt12, int12Min, int12Max, int32Min, int32Max] at small ⊢
  omega

section Short

variable {first second : CString} (isFirst : IsField first)
  {value : Int} (low : int32Min ≤ value) (high : value ≤ int32Max)

include isFirst low high

theorem printed_upper_short (op : UOp) :
    ((upperMnemonic op).toList ++ ' ' :: (first ++ ',' :: ' ' :: printInt value)).length <
      lineBufLen := by
  have field := isFirst.short
  have mnemonic : (upperMnemonic op).toList.length ≤ 5 := by cases op <;> decide
  have printed : (printInt value).length ≤ 11 :=
    printInt_length_le low (by simp only [int32Max] at high; omega)
  simp only [registerLen] at field
  simp only [lineBufLen, List.length_append, List.length_cons]
  omega

theorem printed_imm_short (op : IOp) (isSecond : IsField second) :
    ((iMnemonic op).toList ++ ' ' ::
      (first ++ ',' :: ' ' :: (second ++ ',' :: ' ' :: printInt value))).length < lineBufLen := by
  have field := isFirst.short
  have field' := isSecond.short
  have mnemonic : (iMnemonic op).toList.length ≤ 5 := by cases op <;> decide
  have printed : (printInt value).length ≤ 11 :=
    printInt_length_le low (by simp only [int32Max] at high; omega)
  simp only [registerLen] at field field'
  simp only [lineBufLen, List.length_append, List.length_cons]
  omega

end Short

section Expansion

variable {build : Build} {expansion : PseudoExpansion} {instrs : List Instr}
  (encodes : expansion.Encodes build instrs) (room : instrs.length < 2)
  {first second : CString} {rd rs1 : Reg} (isFirst : IsField first) (hRd : Names build first rd)

include encodes room isFirst hRd

theorem expandWith_upper (op : UOp) (x : Word) :
    ∃ expansion', expandWith expansion (upperMnemonic op)
        ((upperMnemonic op).toList ++ ' ' :: (first ++ ',' :: ' ' :: printInt (highPart x).toInt)) =
          .ok expansion' ∧
      expansion'.Encodes build
        (instrs ++ [.upper op rd ((highPart x).toInt % 2 ^ 20).toNat]) := by
  obtain ⟨instr, record⟩ := upperRecord op
  obtain ⟨low, high⟩ := highPart_range x
  exact expandWith_encodes encodes room record.found
    (printed_upper_short isFirst (by simp only [int32Min]; omega)
      (by simp only [int32Max]; omega) op)
    (encode_printed_upper isFirst hRd record (by simp only [int20Min]; omega)
      (by simp only [int20Max]; omega))

theorem expandWith_imm (op : IOp) (isSecond : IsField second) (hRs1 : Names build second rs1)
    {value : Int} (small : IsInt12 value) :
    ∃ expansion', expandWith expansion (iMnemonic op)
        ((iMnemonic op).toList ++ ' ' ::
          (first ++ ',' :: ' ' :: (second ++ ',' :: ' ' :: printInt value))) = .ok expansion' ∧
      expansion'.Encodes build (instrs ++ [.imm op rd rs1 value]) := by
  obtain ⟨instr, record, notLoadStore, selects⟩ := iRecord op
  obtain ⟨low, high⟩ := int32_of_int12 small
  exact expandWith_encodes encodes room record.found
    (printed_imm_short isFirst low high op isSecond)
    (encode_printed_imm isFirst hRd record notLoadStore selects isSecond hRs1 small.1 small.2)

end Expansion

end RiscvAs
