/-
A line in pass 2, and the two passes as runs over the content lines of a file.

`EmitStep` is what pass 2 does to a line that it accepts.  The offsets of both
passes stay within the arrays from the context that `main` builds on.
-/

import RiscvAs.Scanning

namespace RiscvAs

open Stdio
open Bytes (Byte)
open Rv32 (Word)

structure Output.Bounded (out : Output) : Prop where
  textCapacity : out.ctx.textSegment.capacity = dataSize
  dataCapacity : out.ctx.dataSegment.capacity = dataSize
  text : out.textOffset ≤ dataSize
  data : out.dataOffset ≤ dataSize

inductive EmitStep (build : Build) (out : Output) (segment line : CString) : Output → Prop where
  | text {words : List Word} (inText : isText segment = true)
      (encoded : lineWords build out.ctx line out.textOffset = .ok words)
      (fits : out.textOffset + 4 * words.length ≤ dataSize) :
      EmitStep build out segment line (out.appendWords words)
  | data {bytes : List Byte} (inData : segment = "data".toList)
      (denoted : dataLineBytes build (afterLabel line) = some bytes)
      (fits : out.dataOffset + bytes.length ≤ dataSize) :
      EmitStep build out segment line (out.appendData bytes)
  | bss (inBss : segment = "bss".toList) : EmitStep build out segment line out

section EmitLine

variable {build : Build} {segment line : CString} {out out' : Output}

theorem processAssemblyLine_ok_iff (content : IsContentLine line) (bounded : out.Bounded) :
    processAssemblyLine build segment out line = (.ok, out') ↔
      EmitStep build out segment line out' := by
  have same : skipBlanks line = line := skipBlanks_of_stops content.front
  have textCapacity := bounded.textCapacity
  have dataBounded : out.dataOffset ≤ out.ctx.dataSegment.capacity := by
    rw [bounded.dataCapacity]
    exact bounded.data
  constructor
  · intro accepted
    unfold processAssemblyLine at accepted
    split at accepted
    · rename_i inText
      obtain ⟨words, encoded, room, rfl⟩ := processSegmentText_ok accepted
      refine .text inText encoded ?_
      by_cases empty : words = []
      · subst empty
        exact bounded.text
      · exact textCapacity ▸ room empty
    · split at accepted
      · rename_i inData
        obtain ⟨bytes, denoted, fits, rfl⟩ := (processSegmentData_ok_iff dataBounded).mp accepted
        rw [same] at denoted
        rw [bounded.dataCapacity] at fits
        exact .data inData denoted fits
      · split at accepted
        · rename_i inBss
          cases accepted
          exact .bss inBss
        · cases accepted
  · intro step
    cases step with
    | text inText encoded fits =>
        rw [processAssemblyLine, if_pos inText]
        exact processSegmentText_of_words encoded (by rw [textCapacity]; exact fits)
    | data inData denoted fits =>
        subst inData
        rw [processAssemblyLine, not_isText_data, if_neg (by decide), if_pos rfl,
          processSegmentData_ok_iff dataBounded, same, bounded.dataCapacity]
        exact ⟨_, denoted, fits, rfl⟩
    | bss inBss =>
        subst inBss
        rfl

theorem EmitStep.bounded (step : EmitStep build out segment line out') (bounded : out.Bounded) :
    out'.Bounded := by
  cases step with
  | text inText encoded fits =>
      exact ⟨bounded.textCapacity, bounded.dataCapacity, fits, bounded.data⟩
  | data inData denoted fits =>
      exact ⟨bounded.textCapacity, bounded.dataCapacity, bounded.text, fits⟩
  | bss inBss => exact bounded

end EmitLine

theorem ScanStep.bounded {build : Build} {segment line : CString} {scan scan' : Scan}
    (step : ScanStep build scan segment line scan')
    (bounded : scan.dataOffset.toNat ≤ dataSize) : scan'.dataOffset.toNat ≤ dataSize := by
  cases step with
  | text => exact bounded
  | label => exact bounded
  | labelledText => exact bounded
  | labelledData inData labelled entered admits denoted fits =>
      rw [Scan.advanceData_dataOffset (by exact fits)]
      exact fits

/-! ### Runs over content lines -/

def scanContents (build : Build) : Scan → List Content → AssemblerError × Scan :=
  Loop.run .ok (contentStep (scanLine build))

def emitContents (build : Build) : Output → List Content → AssemblerError × Output :=
  Loop.run .ok (contentStep (processAssemblyLine build))

def sourceContents (source : List Char) : List Content :=
  contents [] (fgetsLines lineBufLen source)

theorem sourceContents_isContentLine {source : List Char} {content : Content}
    (member : content ∈ sourceContents source) : IsContentLine content.line :=
  isContentLine_of_mem (sourceLines_short source) member

theorem contents_isContentLine {source : List Char} {before after : List CString}
    (split : fgetsLines lineBufLen source = before ++ after) :
    ∀ content ∈ contents [] before, IsContentLine content.line := by
  intro content member
  have inSource : content ∈ sourceContents source := by
    rw [sourceContents, split, contents_append]
    exact List.mem_append_left _ member
  exact sourceContents_isContentLine inSource

section Runs

variable {build : Build}

theorem scanContents_cons_iff {scan final : Scan} {content : Content} {rest : List Content}
    (isContent : IsContentLine content.line) (bounded : scan.dataOffset.toNat ≤ dataSize) :
    scanContents build scan (content :: rest) = (.ok, final) ↔
      ∃ middle, ScanStep build scan content.segment content.line middle ∧
        scanContents build middle rest = (.ok, final) := by
  simp only [scanContents, Loop.run_cons_iff]
  exact exists_congr (fun middle =>
    and_congr_left (fun _ => scanLine_ok_iff isContent bounded))

theorem emitContents_cons_iff {out final : Output} {content : Content} {rest : List Content}
    (isContent : IsContentLine content.line) (bounded : out.Bounded) :
    emitContents build out (content :: rest) = (.ok, final) ↔
      ∃ middle, EmitStep build out content.segment content.line middle ∧
        emitContents build middle rest = (.ok, final) := by
  simp only [emitContents, Loop.run_cons_iff]
  exact exists_congr (fun middle =>
    and_congr_left (fun _ => processAssemblyLine_ok_iff isContent bounded))

theorem scanContents_invariant (invariant : Scan → Prop) {scan final : Scan}
    {lines : List Content} (isContent : ∀ content ∈ lines, IsContentLine content.line)
    (preserved : ∀ current next content, content ∈ lines → invariant current →
      ScanStep build current content.segment content.line next → invariant next)
    (ran : scanContents build scan lines = (.ok, final))
    (bounded : scan.dataOffset.toNat ≤ dataSize) (initial : invariant scan) :
    final.dataOffset.toNat ≤ dataSize ∧ invariant final := by
  refine Loop.run_invariant
    (fun scan : Scan => scan.dataOffset.toNat ≤ dataSize ∧ invariant scan) ?_ ran
    ⟨bounded, initial⟩
  rintro current content next member ⟨small, holds⟩ stepped
  have step := (scanLine_ok_iff (isContent content member) small).mp stepped
  exact ⟨step.bounded small, preserved current next content member holds step⟩

theorem emitContents_invariant (invariant : Output → Prop) {out final : Output}
    {lines : List Content} (isContent : ∀ content ∈ lines, IsContentLine content.line)
    (preserved : ∀ current next content, content ∈ lines → current.Bounded → invariant current →
      EmitStep build current content.segment content.line next → invariant next)
    (ran : emitContents build out lines = (.ok, final))
    (bounded : out.Bounded) (initial : invariant out) :
    final.Bounded ∧ invariant final := by
  refine Loop.run_invariant (fun out : Output => out.Bounded ∧ invariant out) ?_ ran
    ⟨bounded, initial⟩
  rintro current content next member ⟨small, holds⟩ stepped
  have step := (processAssemblyLine_ok_iff (isContent content member) small).mp stepped
  exact ⟨step.bounded small, preserved current next content member small holds step⟩

end Runs

def Scan.finish (scan : Scan) : AssemblerCtx :=
  { scan.ctx with
    textSegment := { scan.ctx.textSegment with size := scan.textOffset.toNat }
    dataSegment := { scan.ctx.dataSegment with size := scan.dataOffset.toNat } }

def Output.finish (out : Output) : AssemblerCtx :=
  { out.ctx with
    textSegment := { out.ctx.textSegment with size := out.textOffset }
    dataSegment := { out.ctx.dataSegment with size := out.dataOffset } }

def Scan.start (ctx : AssemblerCtx) : Scan :=
  { ctx := ctx, textOffset := 0, dataOffset := 0 }

def Output.start (ctx : AssemblerCtx) : Output :=
  { ctx := ctx, textOffset := 0, dataOffset := 0 }

theorem scanLines_ok_iff {build : Build} {ctx : AssemblerCtx} {segment : CString} {scan : Scan}
    {buffers : List CString} :
    scanLines build (scanStart ctx) buffers = (.ok, (segment, scan)) ↔
      scanContents build (.start ctx) (contents [] buffers) = (.ok, scan) ∧
        segment = segmentAfter [] buffers :=
  run_sourceLine_ok_iff (scanLine build)

theorem assembleLines_ok_iff {build : Build} {ctx : AssemblerCtx} {segment : CString}
    {out : Output} {buffers : List CString} :
    assembleLines build (assembleStart ctx) buffers = (.ok, (segment, out)) ↔
      emitContents build (.start ctx) (contents [] buffers) = (.ok, out) ∧
        segment = segmentAfter [] buffers :=
  run_sourceLine_ok_iff (processAssemblyLine build)

theorem scanLabels_ok_iff {build : Build} {source : List Char} {ctx ctx' : AssemblerCtx} :
    scanLabels build (some source) ctx = (.ok, ctx') ↔
      ∃ scan, scanContents build (.start ctx) (sourceContents source) = (.ok, scan) ∧
        ctx' = scan.finish := by
  obtain ⟨code, kept, -⟩ := run_sourceLine (scanLine build) [] (.start ctx)
    (fgetsLines lineBufLen source)
  simp only [scanLabels]
  constructor
  · intro accepted
    split at accepted
    · rename_i ok
      refine ⟨_, Prod.ext (code.symm.trans ok) rfl, ?_⟩
      rw [← (Prod.mk.inj accepted).2]
      exact congrArg Scan.finish kept
    · rename_i failed
      exact absurd (Prod.mk.inj accepted).1 failed
  · rintro ⟨scan, ran, rfl⟩
    have lines := scanLines_ok_iff.mpr ⟨ran, rfl⟩
    rw [if_pos (by rw [lines]), lines]
    rfl

theorem assembleFile_ok_iff {build : Build} {source : List Char} {ctx ctx' : AssemblerCtx} :
    assembleFile build (some source) ctx = (.ok, ctx') ↔
      ∃ out, emitContents build (.start ctx) (sourceContents source) = (.ok, out) ∧
        ctx' = out.finish := by
  obtain ⟨code, kept, -⟩ := run_sourceLine (processAssemblyLine build) [] (.start ctx)
    (fgetsLines lineBufLen source)
  simp only [assembleFile]
  constructor
  · intro accepted
    obtain ⟨ok, same⟩ := Prod.mk.inj accepted
    refine ⟨_, Prod.ext (code.symm.trans ok) rfl, ?_⟩
    rw [← same]
    exact congrArg Output.finish kept
  · rintro ⟨out, ran, rfl⟩
    have lines := assembleLines_ok_iff.mpr ⟨ran, rfl⟩
    rw [lines]
    rfl

/-- Pass 1 changes nothing of a context but its symbol table and the two sizes. -/
theorem ScanStep.ctx_eq {build : Build} {segment line : CString} {scan scan' : Scan}
    (step : ScanStep build scan segment line scan') :
    scan'.ctx = { scan.ctx with table := scan'.ctx.table } := by
  cases step <;> rfl

theorem scanContents_ctx {build : Build} {scan final : Scan} {lines : List Content}
    (isContent : ∀ content ∈ lines, IsContentLine content.line)
    (bounded : scan.dataOffset.toNat ≤ dataSize)
    (ran : scanContents build scan lines = (.ok, final)) :
    final.ctx = { scan.ctx with table := final.ctx.table } := by
  refine (scanContents_invariant (fun current : Scan =>
    current.ctx = { scan.ctx with table := current.ctx.table }) isContent ?_ ran bounded rfl).2
  intro current next content _ same step
  rw [step.ctx_eq, same]

theorem bounded_of_scanLabels {build : Build} {baseVaddr : Word} {source : List Char}
    {ctx : AssemblerCtx}
    (scanned : scanLabels build (some source) (initCtx baseVaddr) = (.ok, ctx)) :
    (Output.start ctx).Bounded := by
  obtain ⟨scan, ran, rfl⟩ := scanLabels_ok_iff.mp scanned
  have same := scanContents_ctx (fun _ => sourceContents_isContentLine) (Nat.zero_le _) ran
  exact ⟨congrArg (fun ctx => ctx.textSegment.capacity) same,
    congrArg (fun ctx => ctx.dataSegment.capacity) same, Nat.zero_le _, Nat.zero_le _⟩

end RiscvAs
