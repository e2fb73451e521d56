/-
One context for several calls.

A library that offers the passes lets its caller make them in any order.  Behind a scan that
has accepted the file, each later scan stops at the first label of the file and changes
nothing, and each call of `assemble_file` stores the same image again.
-/

import RiscvAs.Executable
import RiscvAs.WrittenImage

namespace RiscvAs

open Stdio
open Bytes (Byte)
open Rv32 (Word)
open Relocation (Fragment)

inductive PassCall where
  | scanLabels
  | assembleFile

def PassCall.run (build : Build) (source : List Char) (ctx : AssemblerCtx) :
    PassCall → AssemblerError × AssemblerCtx
  | .scanLabels => RiscvAs.scanLabels build (some source) ctx
  | .assembleFile => RiscvAs.assembleFile build (some source) ctx

/-- The context behind these calls, whatever they have returned. -/
def contextAfter (build : Build) (source : List Char) (calls : List PassCall)
    (ctx : AssemblerCtx) : AssemblerCtx :=
  calls.foldl (fun ctx call => (call.run build source ctx).2) ctx

structure AssemblerCtx.HasSizes (ctx : AssemblerCtx) (fragments : List (Fragment CString Byte)) :
    Prop where
  text : ctx.textSegment.size = Relocation.textSize fragments
  data : ctx.dataSegment.size = (Relocation.dataBytes fragments).length
  table : ctx.table = tableOf fragments
  bss : ctx.bssSegment.size = 0
  bounded : (Output.start ctx).Bounded

/-- The context holds the image of these fragments. -/
structure AssemblerCtx.HasImage (ctx : AssemblerCtx) (fragments : List (Fragment CString Byte)) :
    Prop where
  text : ctx.textSegment.bytes = Relocation.linkedText fragments
  data : ctx.dataSegment.bytes = Relocation.dataBytes fragments

section Again

variable {build : Build} {source : List Char} {fragments : List (Fragment CString Byte)}
  (read : ReadAs build (sourceContents source) fragments) (fits : Fits fragments)
  {ctx : AssemblerCtx} (sizes : ctx.HasSizes fragments)

include read fits sizes

/-- The second pass depends on the sizes and the symbols only. -/
theorem assembleFile_again :
    ∃ ctx', assembleFile build (some source) ctx = (.ok, ctx') ∧ ctx'.HasSizes fragments ∧
      ctx'.HasImage fragments := by
  have isContent : ∀ content ∈ sourceContents source, IsContentLine content.line :=
    fun _ => sourceContents_isContentLine
  have start : (Output.start ctx).Stands (Relocation.place fragments) [] :=
    ⟨rfl, rfl, placeIn_linked sizes.text sizes.table fits⟩
  have known : ∀ name ∈ Relocation.uses fragments,
      (symtableLookup (Output.start ctx).ctx.table name).isSome := by
    intro name used
    have table : (Output.start ctx).ctx.table = tableOf fragments := sizes.table
    rw [symtableLookup_isSome_iff, table, tableOf_names]
    exact fits.defined.mem used
  obtain ⟨out, emitted, stands⟩ := emitContents_of_readAs isContent read start sizes.bounded
    fits.text fits.data known
  have extended := emitContents_extends isContent emitted sizes.bounded
  have bounded := (emitContents_invariant (fun _ => True) isContent
    (fun _ _ _ _ _ _ _ => trivial) emitted sizes.bounded trivial).1
  refine ⟨out.finish, assembleFile_ok_iff.mpr ⟨out, emitted, rfl⟩,
    ⟨stands.textOffset, stands.dataOffset, extended.table.trans sizes.table, ?_,
      bounded.textCapacity, bounded.dataCapacity, Nat.zero_le _, Nat.zero_le _⟩,
    stands.text, stands.data⟩
  exact (congrArg Segment.size (emitContents_bss isContent emitted sizes.bounded)).trans sizes.bss

end Again

theorem scanLabel_known {scan : Scan} {name : CString}
    (known : storedName name ∈ scan.ctx.table.symbols.map Symbol.name) :
    scanLabel "data".toList scan name = .error .err := by
  obtain ⟨symbol, member, same⟩ := List.mem_map.mp known
  have refused : symtableInsert scan.ctx.table (name.take (labelLen - 1)) scan.dataOffset =
      none := by
    cases inserted : symtableInsert scan.ctx.table (name.take (labelLen - 1)) scan.dataOffset with
    | none => rfl
    | some table => exact absurd same ((symtableInsert_some inserted).2 symbol member)
  rw [scanLabel, not_isText_data, if_neg Bool.false_ne_true, if_pos rfl, scanLabel.insertAt,
    refused]

section Rescan

variable {build : Build} {fragments : List (Fragment CString Byte)}

/-- What a second scan does with a line: it counts code, and stops at a label. -/
theorem Reading.rescan {content : Content} {fragment : Fragment CString Byte}
    (reading : Reading build content fragment) (line : IsContentLine content.line) {scan : Scan}
    (bounded : scan.dataOffset.toNat ≤ dataSize)
    (defined : ∀ name ∈ fragment.names, name ∈ scan.ctx.table.symbols.map Symbol.name)
    (used : ∀ name ∈ fragment.uses, name ∈ scan.ctx.table.symbols.map Symbol.name) :
    (fragment.names = [] ∧ ∃ count,
      scanLine build content.segment scan content.line = (.ok, scan.advanceText count)) ∨
    fragment.names ≠ [] ∧
      scanLine build content.segment scan content.line = (.fail .err, scan) := by
  have looked : ∀ name ∈ fragment.uses, (symtableLookup scan.ctx.table name).isSome := by
    intro name member
    rw [symtableLookup_isSome_iff]
    exact used name member
  have text : isText content.segment = true → ∃ count,
      scanLine build content.segment scan content.line = (.ok, scan.advanceText count) := by
    intro inText
    obtain ⟨plain, count, counted⟩ := reading.counted inText looked scan.textOffset
    exact ⟨count, (scanLine_ok_iff line bounded).mpr (.text inText plain counted)⟩
  cases reading with
  | words inText => exact Or.inl ⟨rfl, text inText⟩
  | la inText => exact Or.inl ⟨rfl, text inText⟩
  | @data name rest bytes inData labelled denoted =>
      have front : skipBlanks content.line = content.line := skipBlanks_of_stops line.front
      have refused : scanLabel content.segment scan name = .error .err := by
        rw [inData]
        exact scanLabel_known (defined (storedName name) (List.mem_singleton_self _))
      refine Or.inr ⟨List.cons_ne_nil _ _, ?_⟩
      rw [scanLine]
      simp only [front, labelled, refused]

theorem scanContents_again {lines : List Content}
    (isContent : ∀ content ∈ lines, IsContentLine content.line)
    (read : ReadAs build lines fragments) {scan : Scan}
    (bounded : scan.dataOffset.toNat ≤ dataSize)
    (defined : ∀ name ∈ Relocation.names fragments,
      name ∈ scan.ctx.table.symbols.map Symbol.name)
    (used : ∀ name ∈ Relocation.uses fragments, name ∈ scan.ctx.table.symbols.map Symbol.name)
    (labelled : Relocation.names fragments ≠ []) :
    ∃ scan', scanContents build scan lines = (.fail .err, scan') ∧ scan'.ctx = scan.ctx := by
  induction read generalizing scan with
  | nil => exact absurd rfl labelled
  | @cons content fragment lines fragments first rest ih =>
      rw [Relocation.names_cons] at defined labelled
      have line := isContent content (List.mem_cons_self ..)
      rcases (readFragment_eq_some_iff.mp first).rescan line bounded
        (fun name member => defined name (List.mem_append_left _ member))
        (fun name member => used name (List.mem_append_left _ member)) with
        ⟨unlabelled, count, counted⟩ | ⟨-, refused⟩
      · rw [unlabelled, List.nil_append] at labelled
        have stepped : contentStep (scanLine build) scan content =
          (.ok, scan.advanceText count) := counted
        have again : ∃ scan', scanContents build (scan.advanceText count) lines =
            (.fail .err, scan') ∧ scan'.ctx = scan.ctx :=
          ih (fun other member => isContent other (List.mem_cons_of_mem content member)) bounded
            (fun name member => defined name (List.mem_append_right _ member))
            (fun name member => used name (List.mem_append_right _ member)) labelled
        obtain ⟨scan', ran, kept⟩ := again
        exact ⟨scan', (Loop.run_cons_of_ok stepped lines).trans ran, kept⟩
      · have stopped : contentStep (scanLine build) scan content = (.fail .err, scan) := refused
        refine ⟨scan, (Loop.run_cons_of_fail ?_ lines).trans stopped, rfl⟩
        rw [stopped]
        simp

end Rescan

section Scanned

variable {build : Build} {source : List Char} {fragments : List (Fragment CString Byte)}
  (read : ReadAs build (sourceContents source) fragments) (fits : Fits fragments)
  {ctx : AssemblerCtx} (sizes : ctx.HasSizes fragments)

include read fits sizes

theorem scanLabels_again (labelled : Relocation.names fragments ≠ []) :
    scanLabels build (some source) ctx = (.fail .err, ctx) := by
  have names : (Scan.start ctx).ctx.table.symbols.map Symbol.name =
      Relocation.names fragments := by
    rw [← tableOf_names, ← sizes.table]
    rfl
  obtain ⟨scan, ran, kept⟩ := @scanContents_again build fragments (sourceContents source)
    (fun _ => sourceContents_isContentLine) read (.start ctx) (Nat.zero_le _)
    (fun name member => names.symm ▸ member)
    (fun name member => names.symm ▸ fits.defined.mem member) labelled
  rw [scanLabels_ended, ran, Scan.ended, if_neg (by simp), kept]
  rfl

/-- A file without labels is scanned again, to the sizes that are there. -/
theorem scanLabels_again_unlabelled (unlabelled : Relocation.names fragments = []) :
    scanLabels build (some source) ctx = (.ok, ctx) := by
  have isContent : ∀ content ∈ sourceContents source, IsContentLine content.line :=
    fun _ => sourceContents_isContentLine
  have empty : tableOf fragments = tableOf [] := by
    have names := tableOf_names fragments
    rw [unlabelled, List.map_eq_nil_iff] at names
    cases same : tableOf fragments with
    | mk symbols =>
        rw [same] at names
        exact congrArg Symtable.mk names
  obtain ⟨scan, ran, stands⟩ := scanContents_of_readAs isContent read
    ((fits_append_iff fits_nil).mp fits)
    (show (Scan.start ctx).Stands [] from ⟨rfl, rfl, sizes.table.trans empty⟩) (Nat.zero_le _)
  rw [List.nil_append] at stands
  have table : scan.ctx.table = ctx.table := stands.table.trans sizes.table.symm
  have kept : scan.ctx = ctx := by
    rw [scanContents_ctx isContent (Nat.zero_le _) ran, table]
    rfl
  rw [scanLabels_ended, ran, Scan.ended, if_pos rfl, Scan.finish, kept, stands.text, stands.data,
    ← sizes.text, ← sizes.data]

end Scanned

/-! ### Any calls -/

section Calls

variable {build : Build} {source : List Char} {fragments : List (Fragment CString Byte)}
  (read : ReadAs build (sourceContents source) fragments) (fits : Fits fragments)

include read fits

theorem PassCall.run_again (call : PassCall) {ctx : AssemblerCtx} (sizes : ctx.HasSizes fragments) :
    (call.run build source ctx).2.HasSizes fragments ∧
      (ctx.HasImage fragments ∨ call = .assembleFile →
        (call.run build source ctx).2.HasImage fragments) := by
  cases call with
  | scanLabels =>
      have kept : (PassCall.run build source ctx .scanLabels).2 = ctx := by
        by_cases labelled : Relocation.names fragments = []
        · rw [PassCall.run, scanLabels_again_unlabelled read fits sizes labelled]
        · rw [PassCall.run, scanLabels_again read fits sizes labelled]
      rw [kept]
      exact ⟨sizes, fun held => held.resolve_right (by simp)⟩
  | assembleFile =>
      obtain ⟨ctx', assembled, sizes', image⟩ := assembleFile_again read fits sizes
      rw [PassCall.run, assembled]
      exact ⟨sizes', fun _ => image⟩

theorem contextAfter_keeps (calls : List PassCall) {ctx : AssemblerCtx}
    (sizes : ctx.HasSizes fragments) :
    (contextAfter build source calls ctx).HasSizes fragments ∧
      (ctx.HasImage fragments ∨ .assembleFile ∈ calls →
        (contextAfter build source calls ctx).HasImage fragments) := by
  induction calls generalizing ctx with
  | nil => exact ⟨sizes, fun held => held.resolve_right List.not_mem_nil⟩
  | cons call calls ih =>
      obtain ⟨sizes', image⟩ := call.run_again read fits sizes
      obtain ⟨later, laterImage⟩ := ih sizes'
      refine ⟨later, fun held => laterImage ?_⟩
      rcases held with already | member
      · exact Or.inl (image (Or.inl already))
      · rcases List.mem_cons.mp member with same | rest
        · exact Or.inl (image (Or.inr same.symm))
        · exact Or.inr rest

end Calls

section Accepted

variable {build : Build} {baseVaddr : Word} {source : List Char} {ctx1 ctx2 : AssemblerCtx}
  (accepted : Accepted build baseVaddr source ctx1 ctx2)

include accepted

theorem Accepted.hasSizes {fragments : List (Fragment CString Byte)}
    (read : ReadAs build (sourceContents source) fragments) (fits : Fits fragments) :
    ctx1.HasSizes fragments := by
  obtain ⟨scan, out, scanned, stands, -⟩ := runs_of_readAs baseVaddr read fits
  have same : (AssemblerError.ok, ctx1) = (.ok, scan.finish) :=
    accepted.scanned.symm.trans (scanLabels_ok_iff.mpr ⟨scan, scanned, rfl⟩)
  obtain rfl := (Prod.mk.inj same).2
  have kept := scanContents_ctx (fun _ => sourceContents_isContentLine) (Nat.zero_le _) scanned
  exact ⟨stands.text, stands.data, stands.table,
    congrArg (fun ctx => ctx.bssSegment.size) kept, bounded_of_scanLabels accepted.scanned⟩

/-- Behind the scan of an accepted file, any calls leave its table.  Each call of
`assemble_file` succeeds, each scan does only where there is no label, and once the second pass
was called the output file is that of `main`. -/
theorem contextAfter_accepted (calls : List PassCall) :
    (contextAfter build source calls ctx1).table = ctx1.table ∧
      (assembleFile build (some source) (contextAfter build source calls ctx1)).1 = .ok ∧
      (scanLabels build (some source) (contextAfter build source calls ctx1)).1 =
        (if ctx1.table.symbols = [] then .ok else .fail .err) ∧
      (.assembleFile ∈ calls →
        writer32 (contextAfter build source calls ctx1) baseVaddr = writer32 ctx2 baseVaddr) := by
  obtain ⟨fragments, read, fits, links⟩ := accepted.readAs
  obtain ⟨sizes, image⟩ := contextAfter_keeps read fits calls (accepted.hasSizes read fits)
  obtain ⟨ctx', assembled, -, -⟩ := assembleFile_again read fits sizes
  refine ⟨sizes.table.trans links.table.symm, by rw [assembled], ?_, fun called => ?_⟩
  · have names : ctx1.table.symbols = [] ↔ Relocation.names fragments = [] := by
      rw [← links.names, List.map_eq_nil_iff]
    by_cases labelled : Relocation.names fragments = []
    · rw [if_pos (names.mpr labelled), scanLabels_again_unlabelled read fits sizes labelled]
    · rw [if_neg (mt names.mp labelled), scanLabels_again read fits sizes labelled]
  · have linked := image (Or.inr called)
    refine writer32_congr ?_
    rw [AssemblerCtx.image, AssemblerCtx.image, linked.text, linked.data, sizes.bss, links.text,
      links.data, accepted.bss_size]

end Accepted

theorem contextAfter_accepted_example :
    (scanLabels .native (some exampleSource) (contextAfter .native exampleSource
      [.assembleFile, .scanLabels, .assembleFile] exampleScanned)).1 = .fail .err :=
  (contextAfter_accepted exampleSource_accepted _).2.2.1

end RiscvAs
