/-
Instruction lines in canonical form, and what they mean.

`CanonicalLine` is an instruction of the table with its operands spelled as
register names and integer literals.  Its line is accepted exactly when the
literal is in the range of its format, and the word that is appended decodes to
the instruction that was written.
-/

import RiscvAs.Encoding
import RiscvAs.TextSegment

namespace RiscvAs

open Stdio
open Bytes (Byte)
open Rv32

/-- An instruction as it is written; the address of a load or a store is
`imm(base)` or just `base`. -/
inductive CanonicalLine where
  | reg (op : ROp) (rd rs1 rs2 : RegName)
  | imm (op : IOp) (rd rs1 : RegName) (literal : Literal)
  | load (op : LoadOp) (rd : RegName) (literal : Literal) (base : RegName)
  | loadBase (op : LoadOp) (rd base : RegName)
  | store (op : StoreOp) (src : RegName) (literal : Literal) (base : RegName)
  | storeBase (op : StoreOp) (src base : RegName)
  | branch (op : BranchOp) (rs1 rs2 : RegName) (literal : Literal)
  | upper (op : UOp) (rd : RegName) (literal : Literal)
  | ecall

def CanonicalLine.mnemonic : CanonicalLine → String
  | .reg op _ _ _ => rMnemonic op
  | .imm op _ _ _ => iMnemonic op
  | .load op _ _ _ | .loadBase op _ _ => loadMnemonic op
  | .store op _ _ _ | .storeBase op _ _ => storeMnemonic op
  | .branch op _ _ _ => branchMnemonic op
  | .upper op _ _ => upperMnemonic op
  | .ecall => "ecall"

def CanonicalLine.operands : CanonicalLine → CString
  | .reg _ rd rs1 rs2 =>
      ' ' :: (rd.text ++ ',' :: ' ' :: (rs1.text ++ ',' :: ' ' :: rs2.text))
  | .imm _ rd rs1 literal =>
      ' ' :: (rd.text ++ ',' :: ' ' :: (rs1.text ++ ',' :: ' ' :: literal.text))
  | .load _ r literal base | .store _ r literal base =>
      ' ' :: (r.text ++ ',' :: ' ' :: (literal.text ++ '(' :: (base.text ++ [')'])))
  | .loadBase _ r base | .storeBase _ r base =>
      ' ' :: (r.text ++ ',' :: ' ' :: base.text)
  | .branch _ rs1 rs2 literal =>
      ' ' :: (rs1.text ++ ',' :: ' ' :: (rs2.text ++ ',' :: ' ' :: literal.text))
  | .upper _ rd literal => ' ' :: (rd.text ++ ',' :: ' ' :: literal.text)
  | .ecall => []

def CanonicalLine.text (line : CanonicalLine) : CString :=
  line.mnemonic.toList ++ line.operands

def CanonicalLine.InRange : CanonicalLine → Prop
  | .imm _ _ _ literal | .load _ _ literal _ | .store _ _ literal _ =>
      -2 ^ 11 ≤ literal.value ∧ literal.value ≤ 2 ^ 11 - 1
  | .branch _ _ _ literal =>
      (-2 ^ 12 ≤ literal.value ∧ literal.value ≤ 2 ^ 12 - 1) ∧ literal.value % 2 = 0
  | .upper _ _ literal => -2 ^ 19 ≤ literal.value ∧ literal.value ≤ 2 ^ 20 - 1
  | _ => True

def CanonicalLine.instr : CanonicalLine → Instr
  | .reg op rd rs1 rs2 => .reg op rd.number rs1.number rs2.number
  | .imm op rd rs1 literal => .imm op rd.number rs1.number literal.value
  | .load op rd literal base => .load op rd.number base.number literal.value
  | .loadBase op rd base => .load op rd.number base.number 0
  | .store op src literal base => .store op base.number src.number literal.value
  | .storeBase op src base => .store op base.number src.number 0
  | .branch op rs1 rs2 literal => .branch op rs1.number rs2.number literal.value
  | .upper op rd literal => .upper op rd.number (literal.value % 2 ^ 20).toNat
  | .ecall => .ecall

example : (CanonicalLine.load .lw .ra ⟨.minus, .octal [] (by simp)⟩ .sp).text =
    "lw ra, -0(sp)".toList := by decide

section Offsets

variable (build : Build) {mnemonic : CString} (isToken : IsToken mnemonic) (r base : RegName)

include isToken

theorem scanOffsetOperands_literal (literal : Literal) :
    scanOffsetOperands build (mnemonic ++ ' ' :: (r.text ++ ',' :: ' ' ::
        (literal.text ++ '(' :: (base.text ++ [')'])))) =
      .ok (r.text, saturate build.longBits literal.value, base.text) := by
  rw [scanOffsetOperands,
    sscanf_formatOffset isToken r.isField build literal base.isPlainField]

theorem scanOffsetOperands_base :
    scanOffsetOperands build (mnemonic ++ ' ' :: (r.text ++ ',' :: ' ' :: base.text)) =
      .ok (r.text, 0, base.text) := by
  simp only [scanOffsetOperands, sscanf_formatOffset_base isToken r.isField build base,
    sscanf_formatPair isToken r.isField base.isLastField]

end Offsets

/-- `encode` accepts the line exactly in range, and its word decodes back. -/
structure CanonicalLine.Encoded (build : Build) (line : CanonicalLine) (instr : Instruction) :
    Prop where
  found : findInstruction line.mnemonic.toList = some instr
  notPseudo : instr.type ≠ .P
  inRange : line.InRange →
    EncodesTo (encode build instr line.text line.mnemonic.toList) line.instr
  outside : ¬ line.InRange →
    encode build instr line.text line.mnemonic.toList = .error .invalidImmediate

/-- The 12-bit check is made on the saturated value. -/
theorem saturate_int12 (build : Build) (value : Int) :
    (int12Min ≤ saturate build.longBits value ∧ saturate build.longBits value ≤ int12Max) ↔
      (-2 ^ 11 ≤ value ∧ value ≤ 2 ^ 11 - 1) :=
  saturate_longBits_iff build (by decide) (by decide)

section Formats

variable (build : Build) (rd rs1 r base : RegName) (literal : Literal)

theorem CanonicalLine.exists_encoded_imm (op : IOp) :
    ∃ instr, (CanonicalLine.imm op rd rs1 literal).Encoded build instr := by
  obtain ⟨instr, record, notLoadStore, selects⟩ := iRecord op
  have isToken := findInstruction_isToken record.found
  have scanned : scanITypeOperands build (CanonicalLine.imm op rd rs1 literal).text
      (iMnemonic op).toList =
        .ok (rd.text, saturate build.longBits literal.value, rs1.text) := by
    simp only [scanITypeOperands, notLoadStore, CanonicalLine.text, CanonicalLine.mnemonic,
      CanonicalLine.operands, sscanf_formatI isToken rd.isField rs1.isField build literal,
      Bool.false_eq_true, if_false]
  refine ⟨instr, record.found, by rw [record.type]; decide, ?_, fun outside => ?_⟩
  · rintro ⟨low, high⟩
    rw [saturate_longBits build (by omega) (by omega)] at scanned
    exact encode_imm_of_scanned record selects scanned (rd.names build) (rs1.names build) low high
  · exact encode_iType_rejects record.type scanned
      (fun inside => outside ((saturate_int12 build _).mp inside))

theorem CanonicalLine.exists_encoded_load (op : LoadOp) :
    ∃ instr, (CanonicalLine.load op r literal base).Encoded build instr := by
  obtain ⟨instr, record, isLoad, selects⟩ := loadRecord op
  have scanned : scanITypeOperands build (CanonicalLine.load op r literal base).text
      (loadMnemonic op).toList =
        .ok (r.text, saturate build.longBits literal.value, base.text) := by
    rw [scanITypeOperands, if_pos isLoad]
    exact scanOffsetOperands_literal build (findInstruction_isToken record.found) r base literal
  refine ⟨instr, record.found, by rw [record.type]; decide, ?_, fun outside => ?_⟩
  · rintro ⟨low, high⟩
    rw [saturate_longBits build (by omega) (by omega)] at scanned
    exact encode_load_of_scanned record selects scanned (r.names build) (base.names build) low high
  · exact encode_iType_rejects record.type scanned
      (fun inside => outside ((saturate_int12 build _).mp inside))

theorem CanonicalLine.exists_encoded_loadBase (op : LoadOp) :
    ∃ instr, (CanonicalLine.loadBase op r base).Encoded build instr := by
  obtain ⟨instr, record, isLoad, selects⟩ := loadRecord op
  have scanned : scanITypeOperands build (CanonicalLine.loadBase op r base).text
      (loadMnemonic op).toList = .ok (r.text, 0, base.text) := by
    rw [scanITypeOperands, if_pos isLoad]
    exact scanOffsetOperands_base build (findInstruction_isToken record.found) r base
  refine ⟨instr, record.found, by rw [record.type]; decide, fun _ => ?_,
    fun outside => absurd trivial outside⟩
  exact encode_load_of_scanned record selects scanned (r.names build) (base.names build)
    (by decide) (by decide)

theorem CanonicalLine.exists_encoded_store (op : StoreOp) :
    ∃ instr, (CanonicalLine.store op r literal base).Encoded build instr := by
  obtain ⟨instr, record, selects⟩ := storeRecord op
  have scanned := scanOffsetOperands_literal build (findInstruction_isToken record.found) r base
    literal
  refine ⟨instr, record.found, by rw [record.type]; decide, ?_, fun outside => ?_⟩
  · rintro ⟨low, high⟩
    rw [saturate_longBits build (by omega) (by omega)] at scanned
    exact encode_store_of_scanned record selects scanned (r.names build) (base.names build)
      low high
  · exact encode_sType_rejects record.type scanned
      (fun inside => outside ((saturate_int12 build _).mp inside))

theorem CanonicalLine.exists_encoded_storeBase (op : StoreOp) :
    ∃ instr, (CanonicalLine.storeBase op r base).Encoded build instr := by
  obtain ⟨instr, record, selects⟩ := storeRecord op
  have scanned := scanOffsetOperands_base build (findInstruction_isToken record.found) r base
  refine ⟨instr, record.found, by rw [record.type]; decide, fun _ => ?_,
    fun outside => absurd trivial outside⟩
  exact encode_store_of_scanned record selects scanned (r.names build) (base.names build)
    (by decide) (by decide)

end Formats

theorem CanonicalLine.exists_encoded (build : Build) (line : CanonicalLine) :
    ∃ instr, line.Encoded build instr := by
  cases line with
  | reg op rd rs1 rs2 =>
      obtain ⟨instr, record, selects⟩ := rRecord op
      refine ⟨instr, record.found, by rw [record.type]; decide, fun _ => ?_,
        fun outside => absurd trivial outside⟩
      exact encode_reg record selects rd.isField rs1.isField rs2.isLastField
        (rd.names build) (rs1.names build) (rs2.names build)
  | imm op rd rs1 literal => exact exists_encoded_imm build rd rs1 literal op
  | load op rd literal base => exact exists_encoded_load build rd base literal op
  | loadBase op rd base => exact exists_encoded_loadBase build rd base op
  | store op src literal base => exact exists_encoded_store build src base literal op
  | storeBase op src base => exact exists_encoded_storeBase build src base op
  | branch op rs1 rs2 literal =>
      obtain ⟨instr, record, selects⟩ := branchRecord op
      refine ⟨instr, record.found, by rw [record.type]; decide, ?_, ?_⟩
      · rintro ⟨⟨low, high⟩, even⟩
        exact encode_branch record selects rs1.isField rs2.isField (rs1.names build)
          (rs2.names build) literal low high even
      · exact encode_branch_rejects record rs1.isField rs2.isField literal
  | upper op rd literal =>
      obtain ⟨instr, record⟩ := upperRecord op
      refine ⟨instr, record.found, by rw [record.type]; decide, ?_, ?_⟩
      · rintro ⟨low, high⟩
        exact encode_upper record rd.isField (rd.names build) literal low high
      · exact encode_upper_rejects record rd.isField literal
  | ecall =>
      obtain ⟨instr, record, packed⟩ := ecallRecord
      refine ⟨instr, record.found, by rw [record.type]; decide, fun _ => ?_,
        fun outside => absurd trivial outside⟩
      refine ⟨0x00000073#32, ?_, by decide⟩
      simp only [encode, record.type, packed]

/-! ### The whole line -/

theorem CanonicalLine.stops_operands (line : CanonicalLine) :
    Stops (fun c => !isspace c) line.operands := by
  cases line <;> simp [CanonicalLine.operands, isspace]

theorem lineWords_canonical {build : Build} {line : CanonicalLine} {instr : Instruction}
    (encoded : line.Encoded build instr) (ctx : AssemblerCtx) (textOffset : Nat) :
    lineWords build ctx line.text textOffset =
      (encode build instr line.text line.mnemonic.toList).map (fun w => [w]) := by
  have instruction : lineInstruction line.text = .ok instr :=
    lineInstruction_of_found encoded.found line.stops_operands
  rw [lineWords_of_real instruction encoded.notPseudo, findInstruction_name encoded.found]

/-- Every mnemonic of the table is spelled by a canonical line, but for the
pseudo-instructions and the shifts. -/
theorem exists_canonicalLine : ∀ instr ∈ instructions, instr.type ≠ .P →
    instr.name ∉ ["slli", "srli", "srai"] → ∃ line : CanonicalLine, line.mnemonic = instr.name := by
  have spelled : ∀ instr ∈ instructions, instr.type ≠ .P →
      instr.name ∉ ["slli", "srli", "srai"] →
        instr.name ∈ [.add, .sub, .xor, .or, .and, .sll, .srl, .sra, .slt, .sltu].map rMnemonic ∨
        instr.name ∈ [.addi, .xori, .ori, .andi, .slti, .sltiu].map iMnemonic ∨
        instr.name ∈ [.lb, .lh, .lw, .lbu, .lhu].map loadMnemonic ∨
        instr.name ∈ [.sb, .sh, .sw].map storeMnemonic ∨
        instr.name ∈ [.beq, .bne, .blt, .bge, .bltu, .bgeu].map branchMnemonic ∨
        instr.name ∈ [.lui, .auipc].map upperMnemonic ∨ instr.name = "ecall" := by
    decide
  intro instr member notPseudo notShift
  simp only [List.mem_map] at spelled
  rcases spelled instr member notPseudo notShift with
    ⟨op, -, name⟩ | ⟨op, -, name⟩ | ⟨op, -, name⟩ | ⟨op, -, name⟩ | ⟨op, -, name⟩ |
    ⟨op, -, name⟩ | name
  · exact ⟨.reg op .zero .zero .zero, name⟩
  · exact ⟨.imm op .zero .zero ⟨.none, .octal [] (by simp)⟩, name⟩
  · exact ⟨.loadBase op .zero .zero, name⟩
  · exact ⟨.storeBase op .zero .zero, name⟩
  · exact ⟨.branch op .zero .zero ⟨.none, .octal [] (by simp)⟩, name⟩
  · exact ⟨.upper op .zero ⟨.none, .octal [] (by simp)⟩, name⟩
  · exact ⟨.ecall, name.symm⟩

/-- A word was appended to the text segment, and it decodes to the instruction. -/
structure Output.Appended (out out' : Output) (instr : Instr) : Prop where
  offset : out'.textOffset = out.textOffset + 4
  bytes : ∃ bytes : List Byte, bytes.length = 4 ∧
    Bytes.window out'.ctx.textSegment.data out'.textOffset =
      Bytes.window out.ctx.textSegment.data out.textOffset ++ bytes ∧
    decode (BitVec.ofNat 32 (Bytes.ofLittleEndian bytes)) = some instr

theorem Output.appended_appendWords (out : Output) {w : Word} {instr : Instr}
    (decoded : decode w = some instr) : out.Appended (out.appendWords [w]) instr where
  offset := rfl
  bytes := by
    refine ⟨wordBytes w, wordBytes_length w, ?_, by rw [ofLittleEndian_wordBytes, decoded]⟩
    have stored := Bytes.window_store out.ctx.textSegment.data out.textOffset (wordBytes w)
    rw [wordBytes_length] at stored
    simpa [Output.appendWords] using stored

theorem Output.appended_appendWords_iff (out : Output) {w : Word} {instr : Instr} :
    out.Appended (out.appendWords [w]) instr ↔ decode w = some instr := by
  refine ⟨fun appended => ?_, out.appended_appendWords⟩
  obtain ⟨bytes, -, extended, decoded⟩ := appended.bytes
  have stored := Bytes.window_store out.ctx.textSegment.data out.textOffset (wordBytes w)
  rw [wordBytes_length] at stored
  have same : Bytes.window out.ctx.textSegment.data out.textOffset ++ bytes =
      Bytes.window out.ctx.textSegment.data out.textOffset ++ wordBytes w := by
    rw [← extended]
    simpa [Output.appendWords] using stored
  rw [List.append_cancel_left same, ofLittleEndian_wordBytes] at decoded
  exact decoded

/-- The line is accepted exactly in range, and what it appends decodes to what
was written. -/
theorem processSegmentText_canonical (build : Build) (line : CanonicalLine) (out : Output)
    (room : out.textOffset + 4 ≤ out.ctx.textSegment.capacity) :
    ((processSegmentText build out line.text).1 = .ok ↔ line.InRange) ∧
      ∀ out', processSegmentText build out line.text = (.ok, out') →
        out.Appended out' line.instr := by
  obtain ⟨instr, encoded⟩ := line.exists_encoded build
  have words := lineWords_canonical encoded out.ctx out.textOffset
  by_cases inRange : line.InRange
  · obtain ⟨w, assembled, decoded⟩ := encoded.inRange inRange
    rw [assembled] at words
    have processed := processSegmentText_of_words words room
    refine ⟨by simp [processed, inRange], fun out' accepted => ?_⟩
    rw [processed] at accepted
    obtain rfl := (Prod.mk.inj accepted).2
    exact out.appended_appendWords decoded
  · rw [encoded.outside inRange] at words
    have processed := processSegmentText_of_error words
    refine ⟨by simp [processed, inRange], fun out' accepted => ?_⟩
    rw [processed] at accepted
    cases accepted

/-- Assembled text decodes back: the canonical lines spell every mnemonic but
the pseudo-instructions and the shifts, and each of them with room left is
accepted exactly in range and appends what was written. -/
theorem canonicalLines_decode :
    (∀ instr ∈ instructions, instr.type ≠ .P → instr.name ∉ ["slli", "srli", "srai"] →
      ∃ line : CanonicalLine, line.mnemonic = instr.name) ∧
    ∀ (build : Build) (line : CanonicalLine) (out : Output),
      out.textOffset + 4 ≤ out.ctx.textSegment.capacity →
        ((processSegmentText build out line.text).1 = .ok ↔ line.InRange) ∧
        ∀ out', processSegmentText build out line.text = (.ok, out') →
          out.Appended out' line.instr :=
  ⟨exists_canonicalLine, processSegmentText_canonical⟩

theorem canonicalLines_decode_addi :
    (processSegmentText .native ⟨initCtx 0x80000000, 0, 0⟩ "addi ra, sp, -0x10".toList).1 =
      .ok := by
  have decodes := (canonicalLines_decode.2 .native
    (.imm .addi .ra .sp ⟨.minus, .hex 'x' ['1', '0'] (Or.inl rfl) (by decide) (by simp; decide)⟩)
    ⟨initCtx 0x80000000, 0, 0⟩ (by decide)).1
  exact decodes.mpr (show -2 ^ 11 ≤ (-16 : Int) ∧ (-16 : Int) ≤ 2 ^ 11 - 1 by decide)

end RiscvAs
