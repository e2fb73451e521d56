/-
The signed subtractions of `li` and `la`.

Both split a 32-bit value by subtracting its sign-extended low part, in
`int32_t` arithmetic.  The result is a multiple of 4096 near the value, and it
leaves the range only above the last such multiple: `li` can be asked for
values there, the distances of `la` are far from them.
-/

import RiscvAs.PositionIndependence

namespace RiscvAs

open Stdio
open Rv32 (Word)

/-- The operands of `imm32 - lo` in `expand_li_instr`, for an immediate that is not loaded by
one `addi`. -/
def liSubtraction (imm64 : Int) : Option (Word × Word) :=
  let imm32 := BitVec.ofInt 32 imm64
  if imm32.toInt ≥ int12Min ∧ imm32.toInt ≤ int12Max then none
  else some (imm32, lowPart imm32)

/-- The operands of `offset - lo_12` in `expand_la_instr`. -/
def laSubtraction (symbolAddr currentPc : Int) : Word × Word :=
  let offset := BitVec.ofInt 32 (symbolAddr - currentPc)
  (offset, lowPart offset)

/-- The mathematical difference is outside `int32_t`. -/
def Overflows (operands : Word × Word) : Prop :=
  operands.1.ssubOverflow operands.2 = true

instance (operands : Word × Word) : Decidable (Overflows operands) :=
  inferInstanceAs (Decidable (_ = _))

/-- The states that a pass over an accepted file gets to: the context with its symbol
table, and the text offset. -/
inductive PassReaches (build : Build) (baseVaddr : Word) (source : List Char)
    (ctx1 : AssemblerCtx) : AssemblerCtx → Word → Prop where
  | scan {before after : List CString} {segment : CString} {scan : Scan}
      (split : fgetsLines lineBufLen source = before ++ after)
      (ran : scanLines build (scanStart (initCtx baseVaddr)) before = (.ok, (segment, scan))) :
      PassReaches build baseVaddr source ctx1 scan.ctx scan.textOffset
  | emit {before after : List CString} {segment : CString} {out : Output}
      (split : fgetsLines lineBufLen source = before ++ after)
      (ran : assembleLines build (assembleStart ctx1) before = (.ok, (segment, out))) :
      PassReaches build baseVaddr source ctx1 out.ctx (BitVec.ofNat 32 out.textOffset)

/-- Wherever an accepted file can have an `la`, for whichever symbol of the table, the
subtraction stays in range. -/
def LaInRange (build : Build) : Prop :=
  ∀ baseVaddr source ctx1 ctx2, Accepted build baseVaddr source ctx1 ctx2 →
    ∀ ctx textOffset, PassReaches build baseVaddr source ctx1 ctx textOffset →
      ∀ name symbolOffset, symtableLookup ctx.table name = some symbolOffset →
        ¬ Overflows (laSubtraction (getDataVaddr ctx ctx.baseVaddr + symbolOffset).toNat
          (getTextVaddr ctx.baseVaddr + textOffset).toInt)

theorem overflows_lowPart_iff (x : Word) :
    Overflows (x, lowPart x) ↔ 2 ^ 31 - 2 ^ 11 ≤ x.toInt := by
  have low := lowPart_toInt x
  have value := BitVec.toInt_eq_toNat_bmod x
  have bound := x.isLt
  simp only [Int.bmod_def] at low value
  simp only [Overflows, BitVec.ssubOverflow, Bool.or_eq_true, decide_eq_true_eq]
  omega

/-- Without overflow the high part is what the arithmetic says. -/
theorem li_inRange_iff {imm : Int} (checked : checkImmediate imm int32Min int32Max = .ok ()) :
    (∀ operands ∈ liSubtraction imm, ¬ Overflows operands) ↔ imm < 2 ^ 31 - 2 ^ 11 := by
  have range : int32Min ≤ imm ∧ imm ≤ int32Max := checkImmediate_ok_iff.mp checked
  have value : (BitVec.ofInt 32 imm).toInt = imm := by
    rw [BitVec.toInt_ofInt]
    simp only [Int.bmod_def]
    unfold int32Min int32Max at range
    omega
  simp only [liSubtraction, value]
  by_cases small : imm ≥ int12Min ∧ imm ≤ int12Max
  · simp only [if_pos small, Option.mem_def, reduceCtorEq, false_implies, implies_true, true_iff]
    unfold int12Max at small
    omega
  · simp only [if_neg small, Option.mem_def, Option.some.injEq, forall_eq']
    rw [overflows_lowPart_iff, value]
    omega

section Reached

variable {build : Build} {baseVaddr : Word} {source : List Char} {ctx1 ctx2 ctx : AssemblerCtx}
  {textOffset : Word} (accepted : Accepted build baseVaddr source ctx1 ctx2)

include accepted

theorem Accepted.symbolOffset_le {symbol : Symbol} (member : symbol ∈ ctx1.table.symbols) :
    symbol.offset.toNat ≤ dataSize := by
  obtain ⟨before, content, after, name, rest, bytes, out, split, -, -, -, -, reached, offset, -⟩ :=
    accepted.symbol_line member
  have isBefore : ∀ other ∈ before, IsContentLine other.line := by
    intro other isOther
    have inSource : other ∈ sourceContents source := by
      rw [split]
      simp [isOther]
    exact sourceContents_isContentLine inSource
  have bounded := (emitContents_invariant (fun _ => True) isBefore (fun _ _ _ _ _ _ _ => trivial)
    reached (bounded_of_scanLabels accepted.scanned) trivial).1
  rw [offset]
  exact bounded.data

theorem Accepted.textSize_le : ctx1.textSegment.size ≤ dataSize := by
  obtain ⟨scan, out, scanned, rfl, emitted, -, start⟩ := accepted.runs
  have same := inStep_of_runs (fun _ => sourceContents_isContentLine) scanned emitted start
  have bounded := same.bounded.text
  rw [← same.text] at bounded
  exact bounded

/-- Pass 1 has entered symbols of the final table only. -/
theorem Accepted.symbols_reached {before after : List CString} {segment : CString} {scan : Scan}
    (split : fgetsLines lineBufLen source = before ++ after)
    (ran : scanLines build (scanStart (initCtx baseVaddr)) before = (.ok, (segment, scan))) :
    scan.ctx.table.symbols <+: ctx1.table.symbols := by
  obtain ⟨final, out, scanned, rfl, -⟩ := accepted.runs
  obtain ⟨ranBefore, -⟩ := scanLines_ok_iff.mp ran
  have lines : sourceContents source =
      contents [] before ++ contents (segmentAfter [] before) after := by
    rw [sourceContents, split, contents_append]
  have isContent : ∀ content ∈ sourceContents source, IsContentLine content.line :=
    fun _ => sourceContents_isContentLine
  rw [lines] at scanned isContent
  obtain ⟨middle, first, second⟩ := Loop.run_append_iff.mp scanned
  obtain rfl : middle = scan := by
    have same := first.symm.trans ranBefore
    exact (Prod.mk.inj same).2
  have bounded := (scanContents_invariant (fun _ => True)
    (fun content member => isContent content (List.mem_append_left _ member))
    (fun _ _ _ _ _ _ => trivial) first (Nat.zero_le _) trivial).1
  exact table_grows (fun content member => isContent content (List.mem_append_right _ member))
    bounded second

structure SmallOffsets (ctx : AssemblerCtx) (textOffset : Word) : Prop where
  textSize : ctx.textSegment.size ≤ dataSize
  textOffset : textOffset.toNat ≤ dataSize
  symbols : ∀ symbol ∈ ctx.table.symbols, symbol.offset.toNat ≤ dataSize

theorem PassReaches.smallOffsets
    (reaches : PassReaches build baseVaddr source ctx1 ctx textOffset) :
    SmallOffsets ctx textOffset := by
  cases reaches with
  | @scan before after segment scan split ran =>
      obtain ⟨segment', scan', out, ran', -, same⟩ := accepted.reached split
      obtain rfl : scan' = scan := by
        rw [ran] at ran'
        exact ((Prod.mk.inj (Prod.mk.inj ran').2).2).symm
      have offset := same.bounded.text
      rw [← same.text] at offset
      have empty :=
        scanContents_ctx (contents_isContentLine split) (Nat.zero_le _) (scanLines_ok_iff.mp ran).1
      refine ⟨?_, offset, ?_⟩
      · rw [empty]
        exact Nat.zero_le _
      · intro symbol member
        exact accepted.symbolOffset_le ((accepted.symbols_reached split ran).subset member)
  | @emit before after segment out split ran =>
      obtain ⟨segment', scan, out', -, ran', same⟩ := accepted.reached split
      obtain rfl : out' = out := by
        rw [ran] at ran'
        exact ((Prod.mk.inj (Prod.mk.inj ran').2).2).symm
      have offset := same.bounded.text
      have grown :=
        emitContents_extends (contents_isContentLine split) (assembleLines_ok_iff.mp ran).1
        (bounded_of_scanLabels accepted.scanned)
      refine ⟨?_, ?_, ?_⟩
      · rw [grown.textSize]
        exact accepted.textSize_le
      · rw [BitVec.toNat_ofNat]
        exact Nat.le_trans (Nat.mod_le _ _) offset
      · intro symbol member
        rw [grown.table] at member
        exact accepted.symbolOffset_le member

end Reached

theorem laInRange (build : Build) : LaInRange build := by
  intro baseVaddr source ctx1 ctx2 accepted ctx textOffset reaches name symbolOffset looked
  obtain ⟨textSize, offsetSmall, symbols⟩ := reaches.smallOffsets accepted
  obtain ⟨symbol, member, -, rfl⟩ := symtableLookup_some looked
  have symbolSmall := symbols symbol member
  have size : dataSize = 2048 := rfl
  rw [laSubtraction, ofInt_toNat_sub_toInt, overflows_lowPart_iff,
    symbolDistance_eq, BitVec.toInt_eq_toNat_bmod, BitVec.toNat_sub, BitVec.toNat_add,
    BitVec.toNat_ofNat]
  simp only [Int.bmod_def]
  omega

/-- `li` subtracts in range exactly for the immediates below the last multiple of 4096 that
rounding can reach, and `la` always does. -/
theorem subtractions_inRange_iff (build : Build) :
    (∀ imm, checkImmediate imm int32Min int32Max = .ok () →
      ((∀ operands ∈ liSubtraction imm, ¬ Overflows operands) ↔ imm < 2 ^ 31 - 2 ^ 11)) ∧
    LaInRange build :=
  ⟨fun _ checked => li_inRange_iff checked, laInRange build⟩

/-- An immediate of two instructions, and the `la` of a table at its place. -/
theorem subtractions_inRange_example :
    (∀ operands ∈ liSubtraction 0x12345678, ¬ Overflows operands) ∧
      ¬ Overflows (laSubtraction
        (getDataVaddr exampleScanned exampleScanned.baseVaddr + 4).toNat
        (getTextVaddr exampleScanned.baseVaddr + 0).toInt) := by
  obtain ⟨li, la⟩ := subtractions_inRange_iff .native
  refine ⟨(li 0x12345678 (by decide)).mpr (by decide), ?_⟩
  have reaches : PassReaches .native 0x80000000 exampleSource exampleScanned exampleScanned 0 :=
    .emit (List.nil_append _).symm rfl
  exact la 0x80000000 exampleSource _ _ exampleSource_accepted _ _ reaches "second".toList 4
    (by decide +kernel)

theorem li_max_overflows :
    checkImmediate 2147483647 int32Min int32Max = .ok () ∧
      ∃ operands ∈ liSubtraction 2147483647, Overflows operands :=
  ⟨by decide, _, rfl, by decide⟩

end RiscvAs
