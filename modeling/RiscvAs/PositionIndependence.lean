/-
Two runs with different base addresses.

The base enters a pass only at `la`: in the address of the symbol and in the
program counter.  There it cancels, also where an address wraps around, since
the distance is cut to 32 bits.  So moving the base of the context commutes with
both passes.
-/

import RiscvAs.LoadAddress
import RiscvAs.Outcomes

namespace RiscvAs

open Stdio
open Rv32 (Word)

def AssemblerCtx.rebase (baseVaddr : Word) (ctx : AssemblerCtx) : AssemblerCtx :=
  { ctx with baseVaddr := baseVaddr }

def Scan.rebase (baseVaddr : Word) (scan : Scan) : Scan :=
  { scan with ctx := scan.ctx.rebase baseVaddr }

def Output.rebase (baseVaddr : Word) (out : Output) : Output :=
  { out with ctx := out.ctx.rebase baseVaddr }

section Distance

variable (baseVaddr : Word) (ctx : AssemblerCtx) (line : CString) (textOffset : Word)

/-- The base cancels in the distance from an instruction to a symbol. -/
theorem symbolDistance_eq (symbolOffset : Word) :
    getDataVaddr ctx baseVaddr + symbolOffset - (getTextVaddr baseVaddr + textOffset) =
      BitVec.ofNat 32 ctx.textSegment.size + symbolOffset - textOffset := by
  rw [getDataVaddr]
  generalize getTextVaddr baseVaddr = start
  generalize BitVec.ofNat 32 ctx.textSegment.size = size
  apply BitVec.eq_of_toNat_eq
  simp only [BitVec.toNat_sub, BitVec.toNat_add]
  omega

theorem symbolDistance_rebase (symbolOffset : Word) :
    getDataVaddr (ctx.rebase baseVaddr) baseVaddr + symbolOffset -
        (getTextVaddr baseVaddr + textOffset) =
      getDataVaddr ctx ctx.baseVaddr + symbolOffset -
        (getTextVaddr ctx.baseVaddr + textOffset) := by
  rw [symbolDistance_eq, symbolDistance_eq]
  rfl

theorem expandLaInstr_congr (rd : CString) {address address' pc pc' : Word}
    (same : address - pc = address' - pc') (expansion : PseudoExpansion) :
    expandLaInstr rd address.toNat pc.toInt expansion =
      expandLaInstr rd address'.toNat pc'.toInt expansion := by
  rw [expandLaInstr, expandLaInstr, ofInt_toNat_sub_toInt, ofInt_toNat_sub_toInt, same]

theorem expandLa_rebase :
    expandLa (ctx.rebase baseVaddr) line (getTextVaddr baseVaddr + textOffset) =
      expandLa ctx line (getTextVaddr ctx.baseVaddr + textOffset) := by
  unfold expandLa
  split
  · rename_i rd symbolName scanned
    have table : (ctx.rebase baseVaddr).table = ctx.table := rfl
    rw [table]
    cases symtableLookup ctx.table symbolName with
    | none => rfl
    | some symbolOffset =>
        exact expandLaInstr_congr rd (symbolDistance_rebase baseVaddr ctx textOffset symbolOffset) _
  · rfl

theorem expandPseudoInstr_rebase (build : Build) (instr : Instruction) :
    expandPseudoInstr build (ctx.rebase baseVaddr) instr line
        (getTextVaddr baseVaddr + textOffset) =
      expandPseudoInstr build ctx instr line (getTextVaddr ctx.baseVaddr + textOffset) := by
  unfold expandPseudoInstr
  rw [expandLa_rebase]

end Distance

/-! ### One line -/

section Line

variable (build : Build) (baseVaddr : Word) (segment line : CString)

theorem lineWords_rebase (ctx : AssemblerCtx) (textOffset : Nat) :
    lineWords build (ctx.rebase baseVaddr) line textOffset =
      lineWords build ctx line textOffset := by
  cases instruction : lineInstruction line with
  | error e => simp only [lineWords, instruction, error_bind]
  | ok instr =>
      by_cases pseudo : instr.type = .P
      · rw [lineWords_of_pseudo instruction pseudo, lineWords_of_pseudo instruction pseudo]
        exact congrArg (· >>= encodePseudoInstr build)
          (expandPseudoInstr_rebase baseVaddr ctx line (BitVec.ofNat 32 textOffset) build instr)
      · rw [lineWords_of_real instruction pseudo, lineWords_of_real instruction pseudo]

theorem processSegmentText_rebase (out : Output) :
    processSegmentText build (out.rebase baseVaddr) line =
      ((processSegmentText build out line).1,
        (processSegmentText build out line).2.rebase baseVaddr) := by
  have encoded : lineWords build (out.rebase baseVaddr).ctx line (out.rebase baseVaddr).textOffset =
      lineWords build out.ctx line out.textOffset := lineWords_rebase build baseVaddr line out.ctx _
  have segment : (out.rebase baseVaddr).ctx.textSegment = out.ctx.textSegment := rfl
  have offset : (out.rebase baseVaddr).textOffset = out.textOffset := rfl
  unfold processSegmentText
  rw [encoded, segment, offset]
  cases lineWords build out.ctx line out.textOffset with
  | error e => rfl
  | ok words =>
      simp only
      rcases copyText (words.flatMap wordBytes) out.ctx.textSegment out.textOffset with
        ⟨code, copied⟩
      cases code <;> rfl

theorem processSegmentData_rebase (out : Output) :
    processSegmentData build (out.rebase baseVaddr) line =
      ((processSegmentData build out line).1,
        (processSegmentData build out line).2.rebase baseVaddr) := by
  have segment : (out.rebase baseVaddr).ctx.dataSegment = out.ctx.dataSegment := rfl
  have offset : (out.rebase baseVaddr).dataOffset = out.dataOffset := rfl
  unfold processSegmentData
  rw [segment, offset]
  cases segmentDirective build out.ctx.dataSegment out.dataOffset
    (afterLabel (skipBlanks line)) with
  | none => rfl
  | some parsed =>
      simp only
      split <;> rfl

theorem processAssemblyLine_rebase (out : Output) :
    processAssemblyLine build segment (out.rebase baseVaddr) line =
      ((processAssemblyLine build segment out line).1,
        (processAssemblyLine build segment out line).2.rebase baseVaddr) := by
  unfold processAssemblyLine
  split
  · exact processSegmentText_rebase build baseVaddr line out
  · split
    · exact processSegmentData_rebase build baseVaddr line out
    · split <;> rfl

theorem scanText_rebase (scan : Scan) :
    scanText build (scan.rebase baseVaddr) line =
      ((scanText build scan line).1, (scanText build scan line).2.rebase baseVaddr) := by
  have expanded : ∀ instr, expandPseudoInstr build (scan.rebase baseVaddr).ctx instr line
      (getTextVaddr (scan.rebase baseVaddr).ctx.baseVaddr + (scan.rebase baseVaddr).textOffset) =
        expandPseudoInstr build scan.ctx instr line
          (getTextVaddr scan.ctx.baseVaddr + scan.textOffset) :=
    fun instr => expandPseudoInstr_rebase baseVaddr scan.ctx line scan.textOffset build instr
  unfold scanText
  split
  · rename_i name scanned
    cases findInstruction name with
    | none => rfl
    | some instr =>
        simp only
        split
        · rw [expanded]
          cases expandPseudoInstr build scan.ctx instr line
            (getTextVaddr scan.ctx.baseVaddr + scan.textOffset) <;> rfl
        · rfl
  · rfl

theorem scanData_rebase (scan : Scan) :
    scanData build (scan.rebase baseVaddr) line =
      ((scanData build scan line).1, (scanData build scan line).2.rebase baseVaddr) := by
  have offset : (scan.rebase baseVaddr).dataOffset = scan.dataOffset := rfl
  unfold scanData
  rw [offset]
  cases scanDirective build scan.dataOffset.toNat line with
  | none => rfl
  | some parsed =>
      simp only
      split <;> rfl

theorem scanBody_rebase (scan : Scan) :
    scanBody build segment (scan.rebase baseVaddr) line =
      ((scanBody build segment scan line).1,
        (scanBody build segment scan line).2.rebase baseVaddr) := by
  unfold scanBody
  split
  · exact scanText_rebase build baseVaddr line scan
  · split
    · exact scanData_rebase build baseVaddr line scan
    · rfl

theorem scanLabel_rebase (scan : Scan) (label : CString) :
    scanLabel segment (scan.rebase baseVaddr) label =
      (scanLabel segment scan label).map (Scan.rebase baseVaddr) := by
  have inserted : ∀ address type, scanLabel.insertAt (scan.rebase baseVaddr) label address type =
      (scanLabel.insertAt scan label address type).map (Scan.rebase baseVaddr) := by
    intro address type
    have table : (scan.rebase baseVaddr).ctx.table = scan.ctx.table := rfl
    unfold scanLabel.insertAt
    rw [table]
    cases symtableInsert scan.ctx.table (label.take (labelLen - 1)) address <;> rfl
  unfold scanLabel
  split
  · exact inserted _ _
  · split
    · exact inserted _ _
    · rfl

theorem scanLine_rebase (scan : Scan) :
    scanLine build segment (scan.rebase baseVaddr) line =
      ((scanLine build segment scan line).1,
        (scanLine build segment scan line).2.rebase baseVaddr) := by
  unfold scanLine
  simp only
  split
  · exact scanBody_rebase build baseVaddr segment _ scan
  · rename_i label rest labelled
    rw [scanLabel_rebase]
    cases scanLabel segment scan label with
    | error e => rfl
    | ok entered =>
        simp only [Except.map]
        split
        · rfl
        · exact scanBody_rebase build baseVaddr segment rest entered

end Line

theorem sourceLine_map {σ σ' : Type} {process : CString → σ → CString → AssemblerError × σ}
    {process' : CString → σ' → CString → AssemblerError × σ'} (f : σ → σ')
    (commutes : ∀ segment s line, process' segment (f s) line =
      ((process segment s line).1, f (process segment s line).2))
    (state : CString × σ) (buffer : CString) :
    sourceLine process' (Prod.map id f state) buffer =
      ((sourceLine process state buffer).1, Prod.map id f (sourceLine process state buffer).2) := by
  cases turn : turnOf buffer with
  | ignored => rw [sourceLine_ignored process turn, sourceLine_ignored process' turn]
  | segment name =>
      rw [sourceLine_segment process turn, sourceLine_segment process' turn]
      rfl
  | content line =>
      rw [sourceLine_content process turn, sourceLine_content process' turn]
      simp only [Prod.map, id, commutes]

section Passes

variable (build : Build) (source : List Char) (baseVaddr : Word) (ctx : AssemblerCtx)

theorem scanLabels_rebase :
    scanLabels build (some source) (ctx.rebase baseVaddr) =
      ((scanLabels build (some source) ctx).1,
        (scanLabels build (some source) ctx).2.rebase baseVaddr) := by
  have ran : scanLines build (scanStart (ctx.rebase baseVaddr)) (fgetsLines lineBufLen source) =
      ((scanLines build (scanStart ctx) (fgetsLines lineBufLen source)).1,
        Prod.map id (Scan.rebase baseVaddr)
          (scanLines build (scanStart ctx) (fgetsLines lineBufLen source)).2) :=
    Loop.run_map _ (sourceLine_map _ (fun segment scan line =>
      scanLine_rebase build baseVaddr segment line scan)) (scanStart ctx) _
  simp only [scanLabels, ran]
  split <;> rfl

theorem assembleFile_rebase :
    assembleFile build (some source) (ctx.rebase baseVaddr) =
      ((assembleFile build (some source) ctx).1,
        (assembleFile build (some source) ctx).2.rebase baseVaddr) := by
  have ran : assembleLines build (assembleStart (ctx.rebase baseVaddr))
      (fgetsLines lineBufLen source) =
      ((assembleLines build (assembleStart ctx) (fgetsLines lineBufLen source)).1,
        Prod.map id (Output.rebase baseVaddr)
          (assembleLines build (assembleStart ctx) (fgetsLines lineBufLen source)).2) :=
    Loop.run_map _ (sourceLine_map _ (fun segment out line =>
      processAssemblyLine_rebase build baseVaddr segment line out)) (assembleStart ctx) _
  simp only [assembleFile, ran]
  rfl

end Passes

/-- Two base addresses give the same codes, the same bytes and the same symbols,
whatever the file is and whether the passes accept it. -/
theorem positionIndependent (build : Build) (source : List Char) (b1 b2 : Word) :
    outcome build b1 source = outcome build b2 source := by
  have scanned : scanLabels build (some source) (initCtx b2) =
      ((scanLabels build (some source) (initCtx b1)).1,
        (scanLabels build (some source) (initCtx b1)).2.rebase b2) :=
    scanLabels_rebase build source b2 (initCtx b1)
  have assembled := assembleFile_rebase build source b2
    (scanLabels build (some source) (initCtx b1)).2
  simp only [outcome, scanned, assembled]
  rfl

end RiscvAs
