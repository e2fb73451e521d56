/-
The two passes as a linker.

Both passes accept a file exactly when every line can be read on its own and the
fragments fit, and the segments and the symbol table are those of the linked image.
-/

import RiscvAs.Readings

namespace RiscvAs

open Stdio
open Bytes (Byte)
open Rv32
open Relocation (Fragment Patch)

/-- The fragments have room in the two segments and in the table, and each symbol is
defined once, before it is used. -/
structure Fits (fragments : List (Fragment CString Byte)) : Prop where
  text : Relocation.textSize fragments ≤ dataSize
  data : (Relocation.dataBytes fragments).length ≤ dataSize
  distinct : (Relocation.names fragments).Nodup
  few : (Relocation.names fragments).length ≤ maxSymbols
  defined : Relocation.Defined [] fragments

def dataEntry (symbol : CString × Nat) : Symbol :=
  ⟨symbol.1, BitVec.ofNat 32 symbol.2, .segmentData⟩

def tableOf (fragments : List (Fragment CString Byte)) : Symtable :=
  ⟨(Relocation.symbols 0 fragments).map dataEntry⟩

theorem tableOf_names (fragments : List (Fragment CString Byte)) :
    (tableOf fragments).symbols.map Symbol.name = Relocation.names fragments := by
  rw [tableOf, List.map_map, ← Relocation.symbols_names 0 fragments]
  rfl

theorem tableOf_snoc (fragments : List (Fragment CString Byte)) (fragment : Fragment CString Byte) :
    tableOf (fragments ++ [fragment]) = ⟨(tableOf fragments).symbols ++ fragment.names.map
      (fun name => dataEntry (name, (Relocation.dataBytes fragments).length))⟩ := by
  simp [tableOf, Relocation.symbols_append, Relocation.symbols]

theorem symtableLookup_tableOf (fragments : List (Fragment CString Byte)) (name : CString) :
    symtableLookup (tableOf fragments) name =
      (Relocation.lookup fragments name).map (BitVec.ofNat 32) := by
  rw [symtableLookup, tableOf, List.find?_map, Relocation.lookup, Option.map_map, Option.map_map]
  rfl

def placeIn (ctx : AssemblerCtx) (name : CString) : Int :=
  ctx.textSegment.size + (((symtableLookup ctx.table name).map BitVec.toNat).getD 0 : Nat)

theorem symbolDistance_placeIn {ctx : AssemblerCtx} {symbolName : CString} {offset : Word}
    (looked : symtableLookup ctx.table symbolName = some offset) (textOffset : Nat) :
    getDataVaddr ctx ctx.baseVaddr + offset -
        (getTextVaddr ctx.baseVaddr + BitVec.ofNat 32 textOffset) =
      BitVec.ofInt 32 (placeIn ctx symbolName - textOffset) := by
  have place : placeIn ctx symbolName = ctx.textSegment.size + offset.toNat := by
    rw [placeIn, looked]
    rfl
  rw [symbolDistance_eq, place, Int.sub_eq_add_neg, BitVec.ofInt_add, BitVec.ofInt_add,
    BitVec.ofInt_neg, BitVec.ofInt_natCast, BitVec.ofInt_natCast, BitVec.ofInt_natCast,
    BitVec.ofNat_toNat, BitVec.setWidth_eq, BitVec.sub_eq_add_neg]

/-- Pass 1 after lines that were read as these fragments. -/
structure Scan.Stands (scan : Scan) (fragments : List (Fragment CString Byte)) : Prop where
  text : scan.textOffset.toNat = Relocation.textSize fragments
  data : scan.dataOffset.toNat = (Relocation.dataBytes fragments).length
  table : scan.ctx.table = tableOf fragments

structure Output.Stands (out : Output) (place : CString → Int)
    (fragments : List (Fragment CString Byte)) : Prop where
  text : out.textBytes = Relocation.text place 0 fragments
  data : out.dataBytes = Relocation.dataBytes fragments
  place : placeIn out.ctx = place

theorem Output.Stands.textOffset {out : Output} {place : CString → Int}
    {fragments : List (Fragment CString Byte)} (stands : out.Stands place fragments) :
    out.textOffset = Relocation.textSize fragments := by
  rw [← out.textBytes_length, stands.text, Relocation.text_length]

theorem Output.Stands.dataOffset {out : Output} {place : CString → Int}
    {fragments : List (Fragment CString Byte)} (stands : out.Stands place fragments) :
    out.dataOffset = (Relocation.dataBytes fragments).length := by
  rw [← out.dataBytes_length, stands.data]

structure FitsNext (fragments : List (Fragment CString Byte)) (fragment : Fragment CString Byte) :
    Prop where
  text : Relocation.textSize fragments + fragment.textSize ≤ dataSize
  data : (Relocation.dataBytes fragments).length + fragment.dataBytes.length ≤ dataSize
  known : ∀ name ∈ fragment.uses, name ∈ Relocation.names fragments
  fresh : ∀ name ∈ fragment.names, name ∉ Relocation.names fragments
  few : (Relocation.names fragments).length + fragment.names.length ≤ maxSymbols

section Steps

variable {build : Build} {content : Content} {fragments : List (Fragment CString Byte)}
  {fragment : Fragment CString Byte} {scan scan' : Scan} {out out' : Output}

theorem Reading.scanStep (reading : Reading build content fragment) (stands : scan.Stands fragments)
    (fits : FitsNext fragments fragment) :
    ∃ scan', ScanStep build scan content.segment content.line scan' ∧
      scan'.Stands (fragments ++ [fragment]) := by
  have textFits := fits.text
  have dataFits := fits.data
  cases reading with
  | @words words inText notLa encoded =>
      obtain ⟨instr, instruction⟩ := lineInstruction_of_lineWords encoded
      refine ⟨scan.advanceText words.length, .text inText
        (leadingLabel_of_instruction instruction) (lineCount_of_lineWords notLa encoded), ?_⟩
      rw [Fragment.textSize, wordsBytes_length, ← stands.text] at textFits
      refine ⟨?_, ?_, ?_⟩
      · rw [Scan.advanceText_textOffset textFits, Relocation.textSize_snoc, stands.text,
          Fragment.textSize, wordsBytes_length]
      · rw [Relocation.dataBytes_snoc, Fragment.dataBytes, List.append_nil]
        exact stands.data
      · rw [tableOf_snoc]
        exact stands.table.trans (by simp [Fragment.names])
  | @la rdText symbolName rd inText isLa scanned hRd =>
      have counted : lineCount build scan.ctx content.line scan.textOffset = .ok 2 := by
        refine (lineCount_la_iff isLa).mpr ⟨rfl, rdText, symbolName, scanned, ?_⟩
        rw [symtableLookup_isSome_iff, stands.table, tableOf_names]
        exact fits.known symbolName (List.mem_singleton_self symbolName)
      refine ⟨scan.advanceText 2, .text inText (leadingLabel_of_la isLa) counted, ?_⟩
      rw [Fragment.textSize, ← stands.text] at textFits
      refine ⟨?_, ?_, ?_⟩
      · rw [Scan.advanceText_textOffset textFits, Relocation.textSize_snoc, stands.text]
        rfl
      · rw [Relocation.dataBytes_snoc, Fragment.dataBytes, List.append_nil]
        exact stands.data
      · rw [tableOf_snoc]
        exact stands.table.trans (by simp [Fragment.names])
  | @data name rest bytes inData labelled denoted =>
      have entered : scan.symbol content.segment name = some (scan.dataSymbol name) := by
        rw [inData]
        exact scan.symbol_data name
      have admits : scan.ctx.table.Admits (scan.dataSymbol name).name := by
        have few := fits.few
        have count : scan.ctx.table.count = (Relocation.names fragments).length := by
          rw [stands.table, ← tableOf_names, List.length_map, Symtable.count]
        refine ⟨?_, ?_⟩
        · rw [count]
          exact few
        · intro symbol member same
          refine fits.fresh (storedName name) (List.mem_singleton_self _) ?_
          rw [← tableOf_names, ← stands.table]
          exact List.mem_map.mpr ⟨symbol, member, same⟩
      rw [Fragment.dataBytes, ← stands.data] at dataFits
      refine ⟨_, .labelledData inData labelled entered admits denoted dataFits, ?_, ?_, ?_⟩
      · rw [Relocation.textSize_snoc]
        exact stands.text
      · rw [Relocation.dataBytes_snoc, List.length_append, ← stands.data]
        exact Scan.advanceData_dataOffset dataFits
      · rw [tableOf_snoc, ← stands.table]
        have offset :
            BitVec.ofNat 32 (Relocation.dataBytes fragments).length = scan.dataOffset := by
          rw [← stands.data, BitVec.ofNat_toNat, BitVec.setWidth_eq]
        simp only [Fragment.names, List.map_singleton, dataEntry, offset]
        rfl

theorem Reading.emitStep (reading : Reading build content fragment) {place : CString → Int}
    (stands : out.Stands place fragments)
    (textFits : Relocation.textSize fragments + fragment.textSize ≤ dataSize)
    (dataFits : (Relocation.dataBytes fragments).length + fragment.dataBytes.length ≤ dataSize)
    (known : ∀ name ∈ fragment.uses, (symtableLookup out.ctx.table name).isSome) :
    ∃ out', EmitStep build out content.segment content.line out' ∧
      out'.Stands place (fragments ++ [fragment]) := by
  cases reading with
  | @words words inText notLa encoded =>
      rw [lineWords_congr build notLa (initCtx 0) out.ctx 0 out.textOffset] at encoded
      rw [Fragment.textSize, wordsBytes_length, ← stands.textOffset] at textFits
      refine ⟨out.appendWords words, .text inText encoded textFits, ?_, ?_, stands.place⟩
      · rw [Output.appendWords_textBytes, stands.text, Relocation.text_snoc]
        rfl
      · rw [Relocation.dataBytes_snoc, Fragment.dataBytes, List.append_nil]
        exact stands.data
  | @la rdText symbolName rd inText isLa scanned hRd =>
      obtain ⟨offset, looked⟩ :=
        Option.isSome_iff_exists.mp (known symbolName (List.mem_singleton_self symbolName))
      have encoded : lineWords build out.ctx content.line out.textOffset =
          .ok ((laInstrs rd (BitVec.ofInt 32 (place symbolName - out.textOffset))).map wordOf) := by
        refine (lineWords_la_iff isLa).mpr
          ⟨rdText, symbolName, rd, offset, scanned, hRd, looked, ?_⟩
        rw [symbolDistance_placeIn looked, stands.place]
      rw [Fragment.textSize, ← stands.textOffset] at textFits
      refine ⟨_, .text inText encoded textFits, ?_, ?_, stands.place⟩
      · rw [Output.appendWords_textBytes, stands.text, Relocation.text_snoc, Nat.zero_add,
          ← stands.textOffset]
        rfl
      · rw [Relocation.dataBytes_snoc, Fragment.dataBytes, List.append_nil]
        exact stands.data
  | @data name rest bytes inData labelled denoted =>
      rw [Fragment.dataBytes, ← stands.dataOffset] at dataFits
      have afterName : dataLineBytes build (afterLabel content.line) = some bytes := by
        simp only [afterLabel, labelled]
        exact denoted
      refine ⟨out.appendData bytes, .data inData afterName dataFits, ?_, ?_, stands.place⟩
      · rw [Output.appendData_textBytes, Relocation.text_snoc, stands.text]
        simp [Fragment.emit]
      · rw [Output.appendData_dataBytes, stands.data, Relocation.dataBytes_snoc]
        rfl

/-- A line that both passes accept can be read, and its fragment fits. -/
theorem PassStep.reading (step : PassStep build scan out content.segment content.line scan' out')
    (scanStands : scan.Stands fragments) (same : InStep scan out)
    (few : (Relocation.names fragments).length ≤ maxSymbols) :
    ∃ fragment, Reading build content fragment ∧ FitsNext fragments fragment := by
  have textOffset : out.textOffset = Relocation.textSize fragments := by
    rw [← same.text, scanStands.text]
  have dataOffset : out.dataOffset = (Relocation.dataBytes fragments).length := by
    rw [← same.data, scanStands.data]
  have textBound := same.bounded.text
  have dataBound := same.bounded.data
  rw [textOffset] at textBound
  rw [dataOffset] at dataBound
  cases step with
  | @text words inText counted encoded fits =>
      rw [textOffset] at fits
      by_cases isLa : IsLa content.line
      · obtain ⟨two, rdText, symbolName, scanned, found⟩ := (lineCount_la_iff isLa).mp counted
        obtain ⟨rdText', symbolName', rd, offset, scanned', hRd, -, -⟩ :=
          (lineWords_la_iff isLa).mp encoded
        rw [scanned] at scanned'
        cases scanned'
        rw [symtableLookup_isSome_iff, scanStands.table, tableOf_names] at found
        refine ⟨_, .la inText isLa scanned hRd, ?_, dataBound, ?_, by simp [Fragment.names], ?_⟩
        · rw [two] at fits
          exact fits
        · intro name used
          rw [List.mem_singleton.mp used]
          exact found
        · exact few
      · rw [lineWords_congr build isLa out.ctx (initCtx 0) out.textOffset 0] at encoded
        refine ⟨_, .words inText isLa encoded, ?_, dataBound, by simp [Fragment.uses],
          by simp [Fragment.names], few⟩
        rw [Fragment.textSize, wordsBytes_length]
        exact fits
  | @data name rest bytes inData labelled admits denoted fits =>
      rw [dataOffset] at fits
      refine ⟨_, .data inData labelled denoted, textBound, fits, by simp [Fragment.uses], ?_, ?_⟩
      · intro defined isName
        rw [List.mem_singleton.mp isName, ← tableOf_names, ← scanStands.table]
        intro known
        obtain ⟨symbol, member, same⟩ := List.mem_map.mp known
        exact admits.2 symbol member same
      · have room := admits.1
        rw [Symtable.count, scanStands.table] at room
        rw [← tableOf_names, List.length_map]
        exact room

end Steps

/-! ### Whole files -/

def FitsFrom : List (Fragment CString Byte) → List (Fragment CString Byte) → Prop
  | _, [] => True
  | before, fragment :: fragments =>
      FitsNext before fragment ∧ FitsFrom (before ++ [fragment]) fragments

theorem fits_snoc {before : List (Fragment CString Byte)} {fragment : Fragment CString Byte}
    (fits : Fits before) (next : FitsNext before fragment) : Fits (before ++ [fragment]) where
  text := by
    rw [Relocation.textSize_snoc]
    exact next.text
  data := by
    rw [Relocation.dataBytes_snoc, List.length_append]
    exact next.data
  distinct := by
    rw [Relocation.names_snoc, List.nodup_append]
    refine ⟨fits.distinct, fragment.names_nodup, ?_⟩
    rintro name known other fresh rfl
    exact next.fresh name fresh known
  few := by
    rw [Relocation.names_snoc, List.length_append]
    exact next.few
  defined := by
    rw [Relocation.defined_append]
    exact ⟨fits.defined, next.known, trivial⟩

theorem fits_append_iff {before fragments : List (Fragment CString Byte)} (fits : Fits before) :
    Fits (before ++ fragments) ↔ FitsFrom before fragments := by
  induction fragments generalizing before with
  | nil => simpa [FitsFrom] using fits
  | cons fragment fragments ih =>
      have split : before ++ fragment :: fragments = (before ++ [fragment]) ++ fragments := by simp
      rw [split, FitsFrom]
      constructor
      · intro whole
        have next : FitsNext before fragment := by
          have text := whole.text
          have data := whole.data
          have few := whole.few
          have distinct := whole.distinct
          have defined := (Relocation.defined_append.mp whole.defined).1
          rw [Relocation.textSize_append, Relocation.textSize_snoc] at text
          rw [Relocation.dataBytes_append, Relocation.dataBytes_snoc, List.length_append,
            List.length_append] at data
          rw [Relocation.names_append, Relocation.names_snoc] at few distinct
          rw [List.length_append, List.length_append] at few
          refine ⟨by omega, by omega, (Relocation.defined_append.mp defined).2.1, ?_, by omega⟩
          intro name fresh known
          have apart := (List.nodup_append.mp (List.nodup_append.mp distinct).1).2.2
          exact apart name known name fresh rfl
        exact ⟨next, (ih (fits_snoc fits next)).mp whole⟩
      · rintro ⟨next, rest⟩
        exact (ih (fits_snoc fits next)).mpr rest

theorem fits_nil : Fits [] :=
  ⟨Nat.zero_le _, Nat.zero_le _, List.nodup_nil, Nat.zero_le _, trivial⟩

section Runs

variable {build : Build} {lines : List Content} {fragments before : List (Fragment CString Byte)}
  (isContent : ∀ content ∈ lines, IsContentLine content.line)

include isContent

theorem scanContents_of_readAs (read : ReadAs build lines fragments)
    (fits : FitsFrom before fragments) {scan : Scan} (stands : scan.Stands before)
    (bounded : scan.dataOffset.toNat ≤ dataSize) :
    ∃ scan', scanContents build scan lines = (.ok, scan') ∧
      scan'.Stands (before ++ fragments) := by
  induction read generalizing scan before with
  | nil => exact ⟨scan, rfl, by rwa [List.append_nil]⟩
  | @cons content fragment lines fragments first rest ih =>
      obtain ⟨next, fitsRest⟩ := fits
      obtain ⟨middle, step, standsMiddle⟩ :=
        (readFragment_eq_some_iff.mp first).scanStep stands next
      obtain ⟨scan', ran, standsEnd⟩ :=
        ih (fun other member => isContent other (List.mem_cons_of_mem content member)) fitsRest
          standsMiddle (step.bounded bounded)
      refine ⟨scan', (scanContents_cons_iff (isContent content (List.mem_cons_self ..))
        bounded).mpr ⟨middle, step, ran⟩, ?_⟩
      simpa using standsEnd

theorem emitContents_of_readAs (read : ReadAs build lines fragments) {out : Output}
    {place : CString → Int} (stands : out.Stands place before) (bounded : out.Bounded)
    (textFits : Relocation.textSize (before ++ fragments) ≤ dataSize)
    (dataFits : (Relocation.dataBytes (before ++ fragments)).length ≤ dataSize)
    (known : ∀ name ∈ Relocation.uses fragments, (symtableLookup out.ctx.table name).isSome) :
    ∃ out', emitContents build out lines = (.ok, out') ∧
      out'.Stands place (before ++ fragments) := by
  induction read generalizing out before with
  | nil => exact ⟨out, rfl, by rwa [List.append_nil]⟩
  | @cons content fragment lines fragments first rest ih =>
      have split : before ++ fragment :: fragments = (before ++ [fragment]) ++ fragments := by simp
      rw [split] at textFits dataFits ⊢
      have text := textFits
      have data := dataFits
      rw [Relocation.textSize_append, Relocation.textSize_snoc] at text
      rw [Relocation.dataBytes_append, Relocation.dataBytes_snoc, List.length_append,
        List.length_append] at data
      obtain ⟨middle, step, standsMiddle⟩ :=
        (readFragment_eq_some_iff.mp first).emitStep stands (by omega) (by omega)
          (fun name used => known name (List.mem_append_left _ used))
      have table : middle.ctx.table = out.ctx.table := step.extends.table
      obtain ⟨out', ran, standsEnd⟩ :=
        ih (fun other member => isContent other (List.mem_cons_of_mem content member))
          standsMiddle (step.bounded bounded) textFits dataFits
          (fun name used => table ▸ known name (List.mem_append_right _ used))
      exact ⟨out', (emitContents_cons_iff (isContent content (List.mem_cons_self ..))
        bounded).mpr ⟨middle, step, ran⟩, standsEnd⟩

theorem readAs_of_runs {scan scan' : Scan} {out out' : Output}
    (scanned : scanContents build scan lines = (.ok, scan'))
    (emitted : emitContents build out lines = (.ok, out')) (same : InStep scan out)
    (stands : scan.Stands before) (fits : Fits before) :
    ∃ fragments, ReadAs build lines fragments ∧ FitsFrom before fragments := by
  induction lines generalizing scan out before with
  | nil => exact ⟨[], List.Forall₂.nil, trivial⟩
  | cons content lines ih =>
      have line := isContent content (List.mem_cons_self ..)
      obtain ⟨scanNext, outNext, step, sameNext, scanRest, emitRest⟩ :=
        passStep_of_cons line scanned emitted same
      obtain ⟨fragment, reading, next⟩ := step.reading stands same fits.few
      obtain ⟨reached, scanStep, standsNext⟩ := reading.scanStep stands next
      -- Pass 1 takes one step only.
      have first := (scanLine_ok_iff line same.scanBounded).mpr scanStep
      have second := (scanLine_ok_iff line same.scanBounded).mpr (step.scanStep same)
      rw [first] at second
      obtain rfl := (Prod.mk.inj second).2
      obtain ⟨fragments, readRest, fitsRest⟩ :=
        ih (fun other member => isContent other (List.mem_cons_of_mem content member)) scanRest
          emitRest sameNext standsNext (fits_snoc fits next)
      exact ⟨fragment :: fragments,
        List.Forall₂.cons (readFragment_eq_some_iff.mpr reading) readRest, next, fitsRest⟩

end Runs

theorem placeIn_linked {ctx : AssemblerCtx} {fragments : List (Fragment CString Byte)}
    (size : ctx.textSegment.size = Relocation.textSize fragments)
    (table : ctx.table = tableOf fragments) (fits : Fits fragments) :
    placeIn ctx = Relocation.place fragments := by
  funext name
  rw [placeIn, size, table, symtableLookup_tableOf, Relocation.place]
  cases found : Relocation.lookup fragments name with
  | none => rfl
  | some offset =>
      have bound := Relocation.lookup_le found
      have data := fits.data
      have kept : (BitVec.ofNat 32 offset).toNat = offset := by
        simp only [dataSize] at data
        rw [BitVec.toNat_ofNat]
        omega
      rw [Option.map_some, Option.map_some, kept]

section Files

variable {build : Build} {baseVaddr : Word} {source : List Char}
  {fragments : List (Fragment CString Byte)}

theorem start_stands (baseVaddr : Word) : (Scan.start (initCtx baseVaddr)).Stands [] :=
  ⟨rfl, rfl, rfl⟩

/-- What both passes do when the lines can be read. -/
theorem runs_of_readAs (baseVaddr : Word)
    (read : ReadAs build (sourceContents source) fragments) (fits : Fits fragments) :
    ∃ scan out, scanContents build (.start (initCtx baseVaddr)) (sourceContents source) =
        (.ok, scan) ∧ scan.Stands fragments ∧
      emitContents build (.start scan.finish) (sourceContents source) = (.ok, out) ∧
      out.Stands (Relocation.place fragments) fragments := by
  have isContent : ∀ content ∈ sourceContents source, IsContentLine content.line :=
    fun _ => sourceContents_isContentLine
  obtain ⟨scan, scanned, stands⟩ := scanContents_of_readAs isContent read
    ((fits_append_iff fits_nil).mp fits) (start_stands baseVaddr) (Nat.zero_le _)
  have bounded := bounded_of_scanLabels (scanLabels_ok_iff.mpr ⟨scan, scanned, rfl⟩)
  have known : ∀ name ∈ Relocation.uses fragments,
      (symtableLookup (Output.start scan.finish).ctx.table name).isSome := by
    intro name used
    have table : (Output.start scan.finish).ctx.table = tableOf fragments := stands.table
    rw [symtableLookup_isSome_iff, table, tableOf_names]
    exact fits.defined.mem used
  have outStart : (Output.start scan.finish).Stands (Relocation.place fragments) [] :=
    ⟨rfl, rfl, placeIn_linked stands.text stands.table fits⟩
  obtain ⟨out, emitted, outStands⟩ := emitContents_of_readAs isContent read outStart bounded
    fits.text fits.data known
  exact ⟨scan, out, scanned, stands, emitted, outStands⟩

structure Links (ctx1 ctx2 : AssemblerCtx) (fragments : List (Fragment CString Byte)) : Prop where
  text : ctx2.textSegment.bytes = Relocation.linkedText fragments
  data : ctx2.dataSegment.bytes = Relocation.dataBytes fragments
  table : ctx1.table = tableOf fragments

theorem accepted_of_readAs (baseVaddr : Word)
    (read : ReadAs build (sourceContents source) fragments) (fits : Fits fragments) :
    ∃ ctx1 ctx2, Accepted build baseVaddr source ctx1 ctx2 ∧ Links ctx1 ctx2 fragments := by
  obtain ⟨scan, out, scanned, stands, emitted, outStands⟩ := runs_of_readAs baseVaddr read fits
  exact ⟨scan.finish, out.finish, ⟨scanLabels_ok_iff.mpr ⟨scan, scanned, rfl⟩,
    assembleFile_ok_iff.mpr ⟨out, emitted, rfl⟩⟩, outStands.text, outStands.data, stands.table⟩

theorem Accepted.readAs {ctx1 ctx2 : AssemblerCtx}
    (accepted : Accepted build baseVaddr source ctx1 ctx2) :
    ∃ fragments, ReadAs build (sourceContents source) fragments ∧ Fits fragments ∧
      Links ctx1 ctx2 fragments := by
  obtain ⟨scan, out, scanned, rfl, emitted, rfl, same⟩ := accepted.runs
  obtain ⟨fragments, read, fitsFrom⟩ := readAs_of_runs (fun _ => sourceContents_isContentLine)
    scanned emitted same (start_stands baseVaddr) fits_nil
  have fits : Fits fragments := (fits_append_iff fits_nil).mpr fitsFrom
  obtain ⟨scan', out', scanned', stands, emitted', outStands⟩ := runs_of_readAs baseVaddr read fits
  rw [scanned] at scanned'
  obtain rfl := (Prod.mk.inj scanned').2
  rw [emitted] at emitted'
  obtain rfl := (Prod.mk.inj emitted').2
  exact ⟨fragments, read, fits, outStands.text, outStands.data, stands.table⟩

end Files

section Links

variable {ctx1 ctx2 : AssemblerCtx} {fragments : List (Fragment CString Byte)}
  (links : Links ctx1 ctx2 fragments)

include links

theorem Links.textSize : ctx2.textSegment.size = Relocation.textSize fragments := by
  rw [← Segment.bytes_length, links.text, Relocation.linkedText, Relocation.text_length]

theorem Links.dataSize : ctx2.dataSegment.size = (Relocation.dataBytes fragments).length := by
  rw [← Segment.bytes_length, links.data]

theorem Links.names : ctx1.table.symbols.map Symbol.name = Relocation.names fragments := by
  rw [links.table, tableOf_names]

end Links

/-- Both passes accept a file exactly when its lines can be read on their own and the
fragments fit; what comes out is the linked image. -/
theorem accepted_iff_linked (build : Build) (baseVaddr : Word) (source : List Char)
    (text data : List Byte) (table : Symtable) :
    (∃ ctx1 ctx2, Accepted build baseVaddr source ctx1 ctx2 ∧ ctx2.textSegment.bytes = text ∧
        ctx2.dataSegment.bytes = data ∧ ctx1.table = table) ↔
      ∃ fragments, ReadAs build (sourceContents source) fragments ∧ Fits fragments ∧
        text = Relocation.linkedText fragments ∧ data = Relocation.dataBytes fragments ∧
        table = tableOf fragments := by
  constructor
  · rintro ⟨ctx1, ctx2, accepted, rfl, rfl, rfl⟩
    obtain ⟨fragments, read, fits, links⟩ := accepted.readAs
    exact ⟨fragments, read, fits, links.text, links.data, links.table⟩
  · rintro ⟨fragments, read, fits, rfl, rfl, rfl⟩
    obtain ⟨ctx1, ctx2, accepted, links⟩ := accepted_of_readAs baseVaddr read fits
    exact ⟨ctx1, ctx2, accepted, links.text, links.data, links.table⟩

end RiscvAs
