/-
What a run of the two passes shows: its codes, the bytes and the symbols.

It is decided by the content lines of the file.
-/

import RiscvAs.EmittedBytes

namespace RiscvAs

open Stdio
open Bytes (Byte)
open Rv32 (Word)

structure Outcome where
  scanCode : AssemblerError
  assembleCode : AssemblerError
  text : List Byte
  data : List Byte
  table : Symtable
  deriving DecidableEq

/-- `scan_labels` from the context of `main`, then `assemble_file`. -/
def outcome (build : Build) (baseVaddr : Word) (source : List Char) : Outcome :=
  let scanned := scanLabels build (some source) (initCtx baseVaddr)
  let assembled := assembleFile build (some source) scanned.2
  { scanCode := scanned.1
    assembleCode := assembled.1
    text := assembled.2.textSegment.bytes
    data := assembled.2.dataSegment.bytes
    table := assembled.2.table }

def Scan.ended (result : AssemblerError × Scan) : AssemblerError × AssemblerCtx :=
  if result.1 = .ok then (.ok, result.2.finish) else (result.1, result.2.ctx)

theorem scanLabels_ended (build : Build) (source : List Char) (ctx : AssemblerCtx) :
    scanLabels build (some source) ctx =
      Scan.ended (scanContents build (.start ctx) (sourceContents source)) := by
  obtain ⟨code, kept, -⟩ := run_sourceLine (scanLine build) [] (.start ctx)
    (fgetsLines lineBufLen source)
  have same : scanContents build (.start ctx) (sourceContents source) =
      ((scanLines build (scanStart ctx) (fgetsLines lineBufLen source)).1,
        (scanLines build (scanStart ctx) (fgetsLines lineBufLen source)).2.2) :=
    Prod.ext code.symm kept.symm
  rw [same]
  rfl

theorem assembleFile_ended (build : Build) (source : List Char) (ctx : AssemblerCtx) :
    (assembleFile build (some source) ctx).1 =
        (emitContents build (.start ctx) (sourceContents source)).1 ∧
      (assembleFile build (some source) ctx).2 =
        (emitContents build (.start ctx) (sourceContents source)).2.finish := by
  obtain ⟨code, kept, -⟩ := run_sourceLine (processAssemblyLine build) [] (.start ctx)
    (fgetsLines lineBufLen source)
  exact ⟨code, congrArg Output.finish kept⟩

theorem scanLabels_congr (build : Build) {source source' : List Char}
    (same : sourceContents source = sourceContents source') (ctx : AssemblerCtx) :
    scanLabels build (some source) ctx = scanLabels build (some source') ctx := by
  rw [scanLabels_ended, scanLabels_ended, same]

theorem assembleFile_congr (build : Build) {source source' : List Char}
    (same : sourceContents source = sourceContents source') (ctx : AssemblerCtx) :
    assembleFile build (some source) ctx = assembleFile build (some source') ctx := by
  obtain ⟨code, kept⟩ := assembleFile_ended build source ctx
  obtain ⟨code', kept'⟩ := assembleFile_ended build source' ctx
  rw [same] at code kept
  exact Prod.ext (code.trans code'.symm) (kept.trans kept'.symm)

theorem outcome_congr (build : Build) (baseVaddr : Word) {source source' : List Char}
    (same : sourceContents source = sourceContents source') :
    outcome build baseVaddr source = outcome build baseVaddr source' := by
  simp only [outcome, scanLabels_congr build same, assembleFile_congr build same]

end RiscvAs
