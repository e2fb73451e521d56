/-
The words that can be emitted.

A table record fixes the opcode of its words and, but for the shifts, the instruction
that they decode to.  Whatever the lines of a file are, its text is made of such words.
-/

import RiscvAs.Linking
import RiscvAs.StatementMeaning

namespace RiscvAs

open Stdio
open Bytes (Byte)
open Rv32
open Relocation (Fragment)

/-- The table has no jump and no `ebreak`. -/
def IsListed : Instr → Prop
  | .jal .. | .jalr .. | .ebreak => False
  | .reg .. | .imm .. | .shift .. | .load .. | .store .. | .branch .. | .upper .. | .ecall => True

/-- A word of a listed instruction, or any word of the immediate format: the shift amount of
`slli`, `srli` and `srai` is not checked. -/
def Emittable (w : Word) : Prop :=
  field w 0 7 = 0x13 ∨ ∃ instr, decode w = some instr ∧ IsListed instr

def Instruction.selects (instr : Instruction) : Bool :=
  match instr.type with
  | .R => instr.opcode.toNat = 0x33 ∧ (rOp instr.funct7.toNat instr.funct3.toNat).isSome = true
  | .I => instr.opcode.toNat = 0x13 ∨
      (instr.opcode.toNat = 0x03 ∧ (loadOp instr.funct3.toNat).isSome = true)
  | .S => instr.opcode.toNat = 0x23 ∧ (storeOp instr.funct3.toNat).isSome = true
  | .B => instr.opcode.toNat = 0x63 ∧ (branchOp instr.funct3.toNat).isSome = true
  | .U => instr.opcode.toNat = upperOpcode .lui ∨ instr.opcode.toNat = upperOpcode .auipc
  | .J => false
  | .Z => assembleZType instr = 0x00000073#32
  | .P => true

theorem instructions_select : ∀ instr ∈ instructions, instr.selects = true := by
  decide

section Formats

variable {build : Build} {instr : Instruction} {w : Word}

theorem handleRTypeInstr_emittable (fits : instr.Fits) {rs1 rs2 rd : CString}
    (opcode : instr.opcode.toNat = 0x33)
    (selects : (rOp instr.funct7.toNat instr.funct3.toNat).isSome = true)
    (encoded : handleRTypeInstr build instr rs1 rs2 rd = .ok w) : Emittable w := by
  obtain ⟨op, selected⟩ := Option.isSome_iff_exists.mp selects
  obtain ⟨_, second, encoded⟩ := bind_eq_ok_iff.mp encoded
  obtain ⟨_, first, encoded⟩ := bind_eq_ok_iff.mp encoded
  obtain ⟨_, target, encoded⟩ := bind_eq_ok_iff.mp encoded
  obtain ⟨s, rfl, -⟩ := exists_names second
  obtain ⟨r, rfl, -⟩ := exists_names first
  obtain ⟨d, rfl, -⟩ := exists_names target
  cases encoded
  exact Or.inr ⟨_, decode_assembleRType fits (regByte_lt r) (regByte_lt s) (regByte_lt d) opcode
    selected, trivial⟩

theorem handleITypeInstr_emittable (fits : instr.Fits) {rs1 rd : CString} {imm : Int}
    (opcode : instr.opcode.toNat = 0x13 ∨
      (instr.opcode.toNat = 0x03 ∧ (loadOp instr.funct3.toNat).isSome = true))
    (checked : checkImmediate imm int12Min int12Max = .ok ())
    (encoded : handleITypeInstr build instr rs1 (BitVec.ofInt 32 imm) rd = .ok w) :
    Emittable w := by
  obtain ⟨_, first, encoded⟩ := bind_eq_ok_iff.mp encoded
  obtain ⟨_, target, encoded⟩ := bind_eq_ok_iff.mp encoded
  obtain ⟨r, rfl, -⟩ := exists_names first
  obtain ⟨d, rfl, -⟩ := exists_names target
  cases encoded
  rcases opcode with immediate | ⟨load, selects⟩
  · have fields := assembleIType_fields fits (regByte_lt r) (regByte_lt d) (BitVec.ofInt 32 imm) _
      rfl
    exact Or.inl (fields.1.trans immediate)
  · obtain ⟨op, selected⟩ := Option.isSome_iff_exists.mp selects
    obtain ⟨low, high⟩ := checkImmediate_ok_iff.mp checked
    simp only [int12Min, int12Max] at low high
    exact Or.inr ⟨_, decode_assembleIType_load fits (regByte_lt r) (regByte_lt d) imm load selected
      low (by omega), trivial⟩

theorem handleSTypeInstr_emittable (fits : instr.Fits) {rs1 rs2 : CString} {imm : Int}
    (opcode : instr.opcode.toNat = 0x23) (selects : (storeOp instr.funct3.toNat).isSome = true)
    (checked : checkImmediate imm int12Min int12Max = .ok ())
    (encoded : handleSTypeInstr build instr rs1 rs2 (BitVec.ofInt 32 imm) = .ok w) :
    Emittable w := by
  obtain ⟨op, selected⟩ := Option.isSome_iff_exists.mp selects
  obtain ⟨low, high⟩ := checkImmediate_ok_iff.mp checked
  simp only [int12Min, int12Max] at low high
  obtain ⟨_, second, encoded⟩ := bind_eq_ok_iff.mp encoded
  obtain ⟨_, first, encoded⟩ := bind_eq_ok_iff.mp encoded
  obtain ⟨s, rfl, -⟩ := exists_names second
  obtain ⟨r, rfl, -⟩ := exists_names first
  cases encoded
  exact Or.inr ⟨_, decode_assembleSType fits (regByte_lt r) (regByte_lt s) imm opcode selected low
    (by omega), trivial⟩

theorem handleBTypeInstr_emittable (fits : instr.Fits) {rs1 rs2 : CString} {imm : Int}
    (opcode : instr.opcode.toNat = 0x63) (selects : (branchOp instr.funct3.toNat).isSome = true)
    (checked : checkImmAndLastB imm int13Min int13Max = .ok ())
    (encoded : handleBTypeInstr build instr rs1 rs2 (BitVec.ofInt 32 imm) = .ok w) :
    Emittable w := by
  obtain ⟨op, selected⟩ := Option.isSome_iff_exists.mp selects
  have range : ¬ (imm < int13Min ∨ imm > int13Max ∨ imm % 2 ≠ 0) := by
    intro outside
    rw [checkImmAndLastB, if_pos outside] at checked
    cases checked
  simp only [int13Min, int13Max] at range
  obtain ⟨_, first, encoded⟩ := bind_eq_ok_iff.mp encoded
  obtain ⟨_, second, encoded⟩ := bind_eq_ok_iff.mp encoded
  obtain ⟨r, rfl, -⟩ := exists_names first
  obtain ⟨s, rfl, -⟩ := exists_names second
  cases encoded
  exact Or.inr ⟨_, decode_assembleBType fits (regByte_lt r) (regByte_lt s) imm opcode selected
    (by omega) (by omega) (by omega), trivial⟩

theorem handleUTypeInstr_emittable (fits : instr.Fits) {rd : CString} {imm : Word} {op : UOp}
    (opcode : instr.opcode.toNat = upperOpcode op)
    (encoded : handleUTypeInstr build instr rd imm = .ok w) : Emittable w := by
  obtain ⟨_, target, encoded⟩ := bind_eq_ok_iff.mp encoded
  obtain ⟨d, rfl, -⟩ := exists_names target
  cases encoded
  exact Or.inr ⟨_, decode_assembleUType fits (regByte_lt d) opcode imm, trivial⟩

theorem encode_emittable {line name : CString} (member : instr ∈ instructions)
    (encoded : encode build instr line name = .ok w) : Emittable w := by
  have fits := instructions_fit instr member
  have selects := instructions_select instr member
  unfold encode at encoded
  unfold Instruction.selects at selects
  cases type : instr.type with
  | R =>
      simp only [type] at encoded selects
      obtain ⟨opcode, selected⟩ := of_decide_eq_true selects
      split at encoded
      · exact handleRTypeInstr_emittable fits opcode selected encoded
      · cases encoded
  | I =>
      simp only [type] at encoded selects
      obtain ⟨⟨rd, imm, rs1⟩, -, encoded⟩ := bind_eq_ok_iff.mp encoded
      obtain ⟨_, checked, encoded⟩ := bind_eq_ok_iff.mp encoded
      exact handleITypeInstr_emittable fits (of_decide_eq_true selects) checked encoded
  | S =>
      simp only [type] at encoded selects
      obtain ⟨opcode, selected⟩ := of_decide_eq_true selects
      obtain ⟨⟨rs2, imm, rs1⟩, -, encoded⟩ := bind_eq_ok_iff.mp encoded
      obtain ⟨_, checked, encoded⟩ := bind_eq_ok_iff.mp encoded
      exact handleSTypeInstr_emittable fits opcode selected checked encoded
  | B =>
      simp only [type] at encoded selects
      obtain ⟨opcode, selected⟩ := of_decide_eq_true selects
      split at encoded
      · obtain ⟨_, checked, encoded⟩ := bind_eq_ok_iff.mp encoded
        exact handleBTypeInstr_emittable fits opcode selected checked encoded
      · cases encoded
  | U =>
      simp only [type] at encoded selects
      split at encoded
      · obtain ⟨_, -, encoded⟩ := bind_eq_ok_iff.mp encoded
        rcases of_decide_eq_true selects with opcode | opcode <;>
          exact handleUTypeInstr_emittable fits opcode encoded
      · cases encoded
  | J =>
      simp only [type] at selects
      cases selects
  | Z =>
      simp only [type] at encoded selects
      rw [of_decide_eq_true selects] at encoded
      cases encoded
      exact Or.inr ⟨.ecall, by decide, trivial⟩
  | P =>
      simp only [type] at encoded
      cases encoded

end Formats

/-! ### Expansions -/

/-- Every line of the expansion has a record in the table, of no pseudo-instruction. -/
def PseudoExpansion.IsListed (expansion : PseudoExpansion) : Prop :=
  ∀ entry ∈ expansion.lines, entry.1 ∈ instructions ∧ entry.1.type ≠ .P

theorem PseudoExpansion.isListed_reset : PseudoExpansion.reset.IsListed := by
  intro entry member
  cases member

theorem expandWith_isListed {expansion expansion' : PseudoExpansion} {name : String}
    {text : CString} (listed : expansion.IsListed)
    (real : (findInstruction name.toList).map Instruction.type ≠ some .P)
    (expanded : expandWith expansion name text = .ok expansion') : expansion'.IsListed := by
  obtain ⟨instr, text', found, rfl, -⟩ := expandWith_inv expanded
  intro entry member
  rcases List.mem_append.mp member with earlier | last
  · exact listed entry earlier
  · rw [List.mem_singleton.mp last]
    rw [found, Option.map_some] at real
    exact ⟨List.mem_of_find?_eq_some found, fun pseudo => real (congrArg some pseudo)⟩

theorem expandPair_isListed {line : CString} {expansion : PseudoExpansion}
    {expand : CString → CString → PseudoExpansion → Except Failure PseudoExpansion}
    (lists : ∀ rs rd, expand rs rd .reset = .ok expansion → expansion.IsListed)
    (expanded : expandPair line expand = .ok expansion) : expansion.IsListed := by
  unfold expandPair at expanded
  split at expanded
  · exact lists _ _ expanded
  · cases expanded

theorem expandLi_isListed {build : Build} {line : CString} {expansion : PseudoExpansion}
    (expanded : expandLi build line = .ok expansion) : expansion.IsListed := by
  unfold expandLi at expanded
  split at expanded
  · obtain ⟨_, -, expanded⟩ := bind_eq_ok_iff.mp expanded
    unfold expandLiInstr at expanded
    simp only at expanded
    split at expanded
    · exact expandWith_isListed PseudoExpansion.isListed_reset (by decide) expanded
    · obtain ⟨middle, upper, expanded⟩ := bind_eq_ok_iff.mp expanded
      have listed := expandWith_isListed PseudoExpansion.isListed_reset (by decide) upper
      split at expanded
      · exact expandWith_isListed listed (by decide) expanded
      · cases expanded
        exact listed
  · cases expanded

theorem expandLa_isListed {ctx : AssemblerCtx} {line : CString} {currentPc : Word}
    {expansion : PseudoExpansion} (expanded : expandLa ctx line currentPc = .ok expansion) :
    expansion.IsListed := by
  obtain ⟨rd, symbolName, offset, -, -, expanded⟩ := expandLa_ok_iff.mp expanded
  obtain ⟨middle, upper, lower⟩ := bind_eq_ok_iff.mp expanded
  have listed := expandWith_isListed PseudoExpansion.isListed_reset (by decide) upper
  exact expandWith_isListed listed (by decide) lower

theorem expandPseudoInstr_isListed {build : Build} {ctx : AssemblerCtx} {instr : Instruction}
    {line : CString} {currentPc : Word} {expansion : PseudoExpansion}
    (expanded : expandPseudoInstr build ctx instr line currentPc = .ok expansion) :
    expansion.IsListed := by
  have start := PseudoExpansion.isListed_reset
  unfold expandPseudoInstr at expanded
  split at expanded
  · exact expandLi_isListed expanded
  split at expanded
  · exact expandLa_isListed expanded
  split at expanded
  · exact expandPair_isListed (fun _ _ => expandWith_isListed start (by decide)) expanded
  split at expanded
  · exact expandPair_isListed (fun _ _ => expandWith_isListed start (by decide)) expanded
  split at expanded
  · exact expandWith_isListed start (by decide) expanded
  split at expanded
  · exact expandPair_isListed (fun _ _ => expandWith_isListed start (by decide)) expanded
  split at expanded
  · cases expanded
  split at expanded
  · exact expandPair_isListed (fun _ _ => expandWith_isListed start (by decide)) expanded
  split at expanded
  · exact expandPair_isListed (fun _ _ => expandWith_isListed start (by decide)) expanded
  · cases expanded

theorem encodePseudoInstr_emittable {build : Build} {expansion : PseudoExpansion}
    {words : List Word} (listed : expansion.IsListed)
    (encoded : encodePseudoInstr build expansion = .ok words) : ∀ w ∈ words, Emittable w := by
  obtain ⟨lines⟩ := expansion
  simp only [PseudoExpansion.IsListed, encodePseudoInstr] at listed encoded
  induction lines generalizing words with
  | nil =>
      cases encoded
      exact fun w member => absurd member List.not_mem_nil
  | cons entry lines ih =>
      rw [List.mapM_cons] at encoded
      obtain ⟨w, first, encoded⟩ := bind_eq_ok_iff.mp encoded
      obtain ⟨rest, others, joined⟩ := bind_eq_ok_iff.mp encoded
      cases joined
      exact List.forall_mem_cons.mpr
        ⟨encode_emittable (listed entry (List.mem_cons_self ..)).1 first,
          ih (fun other member => listed other (List.mem_cons_of_mem entry member)) others⟩

/-- Every word of an encoded line is emittable. -/
theorem lineWords_emittable {build : Build} {ctx : AssemblerCtx} {line : CString}
    {textOffset : Nat} {words : List Word}
    (encoded : lineWords build ctx line textOffset = .ok words) : ∀ w ∈ words, Emittable w := by
  obtain ⟨instr, instruction⟩ := lineInstruction_of_lineWords encoded
  have member : instr ∈ instructions := List.mem_of_find?_eq_some (lineInstruction_ok instruction)
  by_cases pseudo : instr.type = .P
  · rw [lineWords_of_pseudo instruction pseudo] at encoded
    obtain ⟨expansion, expanded, words'⟩ := bind_eq_ok_iff.mp encoded
    exact encodePseudoInstr_emittable (expandPseudoInstr_isListed expanded) words'
  · rw [lineWords_of_real instruction pseudo] at encoded
    obtain ⟨w, encodedWord, rfl⟩ := map_eq_ok_iff.mp encoded
    exact List.forall_mem_singleton.mpr (encode_emittable member encodedWord)

/-- The code of a line that was read is made of emittable words. -/
theorem Reading.exists_words {build : Build} {content : Content} {fragment : Fragment CString Byte}
    (reading : Reading build content fragment) (place : CString → Int) (offset : Nat) :
    ∃ words : List Word, fragment.emit place offset = words.flatMap wordBytes ∧
      ∀ w ∈ words, Emittable w := by
  cases reading with
  | @words words inText notLa encoded => exact ⟨words, rfl, lineWords_emittable encoded⟩
  | @la rdText symbolName rd inText isLa scanned hRd =>
      refine ⟨(laInstrs rd (BitVec.ofInt 32 (place symbolName - offset))).map wordOf, rfl, ?_⟩
      intro w member
      obtain ⟨instr, inLa, rfl⟩ := List.mem_map.mp member
      refine Or.inr ⟨instr, decode_wordOf (encodable_laInstrs rd _ instr inLa), ?_⟩
      rcases List.mem_cons.mp inLa with rfl | last
      · trivial
      · rw [List.mem_singleton.mp last]
        trivial
  | data => exact ⟨[], rfl, fun w member => absurd member List.not_mem_nil⟩

theorem ReadAs.exists_words {build : Build} {lines : List Content}
    {fragments : List (Fragment CString Byte)} (read : ReadAs build lines fragments)
    (place : CString → Int) (offset : Nat) :
    ∃ words : List Word, Relocation.text place offset fragments = words.flatMap wordBytes ∧
      ∀ w ∈ words, Emittable w := by
  induction read generalizing offset with
  | nil => exact ⟨[], rfl, fun w member => absurd member List.not_mem_nil⟩
  | @cons content fragment lines fragments first rest ih =>
      obtain ⟨words, emitted, emittable⟩ :=
        (readFragment_eq_some_iff.mp first).exists_words place offset
      obtain ⟨others, emittedRest, emittableRest⟩ := ih (offset + fragment.textSize)
      refine ⟨words ++ others, ?_, List.forall_mem_append.mpr ⟨emittable, emittableRest⟩⟩
      rw [Relocation.text, emitted, emittedRest, List.flatMap_append]

theorem Accepted.exists_words {build : Build} {baseVaddr : Word} {source : List Char}
    {ctx1 ctx2 : AssemblerCtx} (accepted : Accepted build baseVaddr source ctx1 ctx2) :
    ∃ words : List Word, 4 * words.length ≤ dataSize ∧ (∀ w ∈ words, Emittable w) ∧
      ctx2.textSegment.bytes = words.flatMap wordBytes := by
  obtain ⟨fragments, read, fits, links⟩ := accepted.readAs
  obtain ⟨words, text, emittable⟩ := read.exists_words (Relocation.place fragments) 0
  have size := congrArg List.length text
  rw [Relocation.text_length, wordsBytes_length] at size
  exact ⟨words, size ▸ fits.text, emittable, links.text.trans text⟩

end RiscvAs
