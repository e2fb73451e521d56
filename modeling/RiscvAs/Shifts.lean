/-
Shift-immediate lines.

They go through the generic I-type path, which checks the 12-bit range and packs
the immediate over all of its upper bits, so the bits that select the operation
come from the immediate and not from the record.  `ShiftLine.Faithful` is what a
shift should do, and `ShiftLine.Encodable` is when the code does it.
-/

import RiscvAs.Canonical

namespace RiscvAs

open Stdio
open Rv32

def shiftMnemonic : ShiftOp → String
  | .slli => "slli"
  | .srli => "srli"
  | .srai => "srai"

/-- A shift line as it is written. -/
structure ShiftLine where
  op : ShiftOp
  rd : RegName
  rs1 : RegName
  literal : Literal

def ShiftLine.text (line : ShiftLine) : CString :=
  (shiftMnemonic line.op).toList ++ ' ' :: (line.rd.text ++ ',' :: ' ' ::
    (line.rs1.text ++ ',' :: ' ' :: line.literal.text))

def ShiftLine.instr (line : ShiftLine) : Instr :=
  .shift line.op line.rd.number line.rs1.number line.literal.value.toNat

/-- The line is accepted exactly for a shift amount of the machine, and the
appended word decodes to what was written. -/
def ShiftLine.Faithful (build : Build) (out : Output) (line : ShiftLine) : Prop :=
  ((processSegmentText build out line.text).1 = .ok ↔
      0 ≤ line.literal.value ∧ line.literal.value ≤ 31) ∧
    ∀ out', processSegmentText build out line.text = (.ok, out') → out.Appended out' line.instr

/-- A logical shift by a shift amount of the machine, or an immediate outside
the 12-bit range. -/
def ShiftLine.Encodable (line : ShiftLine) : Prop :=
  (line.op ≠ .srai ∧ 0 ≤ line.literal.value ∧ line.literal.value ≤ 31) ∨
    line.literal.value < -2 ^ 11 ∨ 2 ^ 11 - 1 < line.literal.value

/-- The operation that `funct3` and a small immediate select. -/
def selectedShift : ShiftOp → ShiftOp
  | .slli => .slli
  | .srli | .srai => .srli

theorem shiftRecord (op : ShiftOp) : ∃ instr, Record (shiftMnemonic op) .I 0x13 instr ∧
    isLoadStore (shiftMnemonic op).toList = false ∧
    ∀ rd rs1 shamt imm, opImm 0 instr.funct3.toNat rd rs1 shamt imm =
      some (.shift (selectedShift op) rd rs1 shamt) := by
  cases op <;> exact ⟨_, ⟨rfl, rfl, rfl⟩, by decide, fun _ _ _ _ => rfl⟩

theorem decode_assembleIType_opImm {instr : Instruction} (fits : instr.Fits)
    {rs1 rd : BitVec 8} (hrs1 : rs1.toNat < 2 ^ 5) (hrd : rd.toNat < 2 ^ 5)
    (opcode : instr.opcode.toNat = 0x13) (shamt : Nat) (small : shamt < 2 ^ 5) :
    ∃ imm, decode (assembleIType instr rs1 (BitVec.ofInt 32 shamt) rd) =
      opImm 0 instr.funct3.toNat (toReg rd) (toReg rs1) shamt imm := by
  obtain ⟨hopcode, hRd, hfunct3, hRs1, hImm⟩ :=
    assembleIType_fields fits hrs1 hrd (BitVec.ofInt 32 shamt) _ rfl
  have bits : field (assembleIType instr rs1 (BitVec.ofInt 32 shamt) rd) 20 12 = shamt := by
    have value := ofInt_toNat_mod shamt 12 (by decide)
    rw [hImm]
    omega
  generalize assembleIType instr rs1 (BitVec.ofInt 32 shamt) rd = w at *
  have low : field w 20 5 = shamt := by
    simp only [field] at bits ⊢
    omega
  have high : field w 25 7 = 0 := by
    simp only [field] at bits ⊢
    omega
  exact ⟨immI w, by simp only [decode, hopcode, opcode, hfunct3, hRd, hRs1, low, high]⟩

section Lines

variable (build : Build) (line : ShiftLine)

theorem ShiftLine.scanned : ∃ instr, Record (shiftMnemonic line.op) .I 0x13 instr ∧
    (∀ rd rs1 shamt imm, opImm 0 instr.funct3.toNat rd rs1 shamt imm =
      some (.shift (selectedShift line.op) rd rs1 shamt)) ∧
    scanITypeOperands build line.text (shiftMnemonic line.op).toList =
      .ok (line.rd.text, saturate build.longBits line.literal.value, line.rs1.text) := by
  obtain ⟨instr, record, notLoadStore, selects⟩ := shiftRecord line.op
  refine ⟨instr, record, selects, ?_⟩
  simp only [scanITypeOperands, notLoadStore, ShiftLine.text, Bool.false_eq_true, if_false,
    sscanf_formatI (findInstruction_isToken record.found) line.rd.isField line.rs1.isField build
      line.literal]

theorem ShiftLine.lineWords_eq (ctx : AssemblerCtx) (textOffset : Nat) :
    (¬ (-2 ^ 11 ≤ line.literal.value ∧ line.literal.value ≤ 2 ^ 11 - 1) ∧
      lineWords build ctx line.text textOffset = .error .invalidImmediate) ∨
    ((-2 ^ 11 ≤ line.literal.value ∧ line.literal.value ≤ 2 ^ 11 - 1) ∧
      ∃ w, lineWords build ctx line.text textOffset = .ok [w] ∧
        (0 ≤ line.literal.value → line.literal.value ≤ 31 →
          decode w = some (.shift (selectedShift line.op) line.rd.number line.rs1.number
            line.literal.value.toNat))) := by
  obtain ⟨instr, record, selects, scanned⟩ := line.scanned build
  have instruction : lineInstruction line.text = .ok instr :=
    lineInstruction_of_found record.found (by simp [isspace])
  have words : lineWords build ctx line.text textOffset =
      (encode build instr line.text instr.name.toList).map (fun w => [w]) :=
    lineWords_of_real instruction (by rw [record.type]; decide)
  rw [findInstruction_name record.found] at words
  by_cases inRange : -2 ^ 11 ≤ line.literal.value ∧ line.literal.value ≤ 2 ^ 11 - 1
  · refine Or.inr ⟨inRange, assembleIType instr (regByte line.rs1.number)
      (BitVec.ofInt 32 line.literal.value) (regByte line.rd.number), ?_, fun low high => ?_⟩
    · rw [saturate_longBits build (by omega) (by omega)] at scanned
      have checked : checkImmediate line.literal.value int12Min int12Max = .ok () :=
        checkImmediate_of_range inRange.1 inRange.2
      rw [words, encode_of_scanIType record.type scanned, checked]
      simp only [handleITypeInstr, (line.rd.names build).parsed, (line.rs1.names build).parsed,
        ok_bind, pure_eq_ok, Except.map]
    · obtain ⟨imm, decoded⟩ := decode_assembleIType_opImm (findInstruction_fits record.found)
        (regByte_lt line.rs1.number) (regByte_lt line.rd.number) record.opcode
        line.literal.value.toNat (by omega)
      rw [Int.toNat_of_nonneg low, selects, toReg_regByte, toReg_regByte] at decoded
      exact decoded
  · refine Or.inl ⟨inRange, ?_⟩
    rw [words, encode_iType_rejects record.type scanned
      (fun inside => inRange ((saturate_int12 build _).mp inside))]
    rfl

end Lines

theorem selectedShift_eq_iff (op : ShiftOp) : selectedShift op = op ↔ op ≠ .srai := by
  cases op <;> decide

theorem ShiftLine.faithful_iff (build : Build) (line : ShiftLine) (out : Output)
    (room : out.textOffset + 4 ≤ out.ctx.textSegment.capacity) :
    line.Faithful build out ↔ line.Encodable := by
  rcases line.lineWords_eq build out.ctx out.textOffset with
    ⟨outside, failed⟩ | ⟨inside, w, words, decoded⟩
  · have processed := processSegmentText_of_error failed
    have accepts : ¬ (0 ≤ line.literal.value ∧ line.literal.value ≤ 31) := by omega
    have faithful : line.Faithful build out := by
      refine ⟨by simp [processed, accepts], fun out' accepted => ?_⟩
      rw [processed] at accepted
      cases accepted
    exact ⟨fun _ => Or.inr (by omega), fun _ => faithful⟩
  · have processed := processSegmentText_of_words words room
    constructor
    · rintro ⟨accepts, appends⟩
      rw [processed] at accepts
      obtain ⟨low, high⟩ := accepts.mp rfl
      have written := out.appended_appendWords_iff.mp (appends _ processed)
      rw [decoded low high] at written
      have selected : selectedShift line.op = line.op := by
        simpa [ShiftLine.instr] using written
      exact Or.inl ⟨(selectedShift_eq_iff line.op).mp selected, low, high⟩
    · rintro (⟨logical, low, high⟩ | outside)
      · refine ⟨by simp [processed, low, high], fun out' accepted => ?_⟩
        rw [processed] at accepted
        obtain rfl := (Prod.mk.inj accepted).2
        rw [out.appended_appendWords_iff, decoded low high,
          (selectedShift_eq_iff line.op).mpr logical]
        rfl
      · omega

/-- Two shift lines that are encodable never give the same word for different
mnemonics. -/
theorem ShiftLine.op_eq_of_words_eq {build : Build} {line line' : ShiftLine}
    (encodable : line.Encodable) (encodable' : line'.Encodable) {ctx : AssemblerCtx}
    {textOffset : Nat} {words : List Word}
    (encoded : lineWords build ctx line.text textOffset = .ok words)
    (encoded' : lineWords build ctx line'.text textOffset = .ok words) : line.op = line'.op := by
  have decodes : ∀ line : ShiftLine, line.Encodable →
      lineWords build ctx line.text textOffset = .ok words →
        ∃ w, words = [w] ∧ decode w = some line.instr := by
    intro line encodable encoded
    rcases line.lineWords_eq build ctx textOffset with ⟨-, failed⟩ | ⟨inside, w, wordsEq, decoded⟩
    · rw [failed] at encoded
      cases encoded
    · rw [wordsEq] at encoded
      rcases encodable with ⟨logical, low, high⟩ | outside
      · refine ⟨w, (Except.ok.inj encoded).symm, ?_⟩
        rw [decoded low high, (selectedShift_eq_iff line.op).mpr logical]
        rfl
      · omega
  obtain ⟨w, rfl, decoded⟩ := decodes line encodable encoded
  obtain ⟨w', same, decoded'⟩ := decodes line' encodable' encoded'
  obtain rfl := List.singleton_injective same
  rw [decoded] at decoded'
  exact (Instr.shift.inj (Option.some.inj decoded')).1

/-- A shift line is encoded as written exactly when it is encodable, and then
its word tells the three mnemonics apart. -/
theorem shiftLines_faithful_iff (build : Build) (line : ShiftLine) (out : Output)
    (room : out.textOffset + 4 ≤ out.ctx.textSegment.capacity) :
    (line.Faithful build out ↔ line.Encodable) ∧
      ∀ line' : ShiftLine, line.Encodable → line'.Encodable → line.op ≠ line'.op →
        ∀ words, lineWords build out.ctx line.text out.textOffset = .ok words →
          lineWords build out.ctx line'.text out.textOffset ≠ .ok words :=
  ⟨line.faithful_iff build out room, fun _ encodable encodable' different _ encoded encoded' =>
    different (ShiftLine.op_eq_of_words_eq encodable encodable' encoded encoded')⟩

section Example

def sraiLine : ShiftLine :=
  ⟨.srai, .x 14, .x 13, ⟨.none, .decimal '1' [] (by decide) (by simp; decide)⟩⟩

theorem shiftLines_faithful_slli :
    (⟨.slli, .a 0, .a 1, sraiLine.literal⟩ : ShiftLine).Faithful .native
      ⟨initCtx 0x80000000, 0, 0⟩ :=
  (shiftLines_faithful_iff .native _ ⟨initCtx 0x80000000, 0, 0⟩ (by decide)).1.mpr
    (Or.inl ⟨by decide, by decide, by decide⟩)

/-- `srai x14, x13, 1` is accepted, but its word is that of `srli x14, x13, 1`. -/
theorem sraiLine_not_faithful :
    ¬ sraiLine.Faithful .native ⟨initCtx 0x80000000, 0, 0⟩ ∧
      lineWords .native (initCtx 0x80000000) sraiLine.text 0 =
        lineWords .native (initCtx 0x80000000) "srli x14, x13, 1".toList 0 := by
  refine ⟨fun faithful => ?_, by decide⟩
  have encodable := (sraiLine.faithful_iff .native _ (by decide)).mp faithful
  rcases encodable with ⟨logical, -, -⟩ | low | high
  · exact logical rfl
  · exact absurd low (by decide)
  · exact absurd high (by decide)

end Example

end RiscvAs
