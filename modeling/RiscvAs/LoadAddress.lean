/-
`la` loads the address of its symbol.

The offset of the symbol comes from pass 1, the distance from the program
counter is split into the immediates of `auipc` and `addi`, and both are encoded
in pass 2.  Run where the program header loads them, the two instructions leave
the address at which the bytes of the symbol's data line were loaded.
-/

import RiscvAs.EmittedBytes
import RiscvAs.LoadImmediate

namespace RiscvAs

open Stdio
open Bytes (Byte)
open Rv32

def laInstrs (rd : Reg) (distance : Word) : List Instr :=
  [.upper .auipc rd ((highPart distance).toInt % 2 ^ 20).toNat,
    .imm .addi rd rd (lowPart distance).toInt]

theorem writes_laInstrs {rd : Reg} (notZero : rd ≠ 0) (distance : Word) :
    Writes (laInstrs rd distance) rd (fun s => s.pc + distance) := by
  have value : ∀ s, upperBase .auipc s +
      BitVec.ofNat 32 (((highPart distance).toInt % 2 ^ 20).toNat * 2 ^ 12) +
        BitVec.ofInt 32 (lowPart distance).toInt = s.pc + distance := by
    intro s
    rw [upperBase, BitVec.add_assoc, highPart_add_lowPart]
  have written := writes_upper_addi notZero .auipc ((highPart distance).toInt % 2 ^ 20).toNat
    (lowPart distance).toInt
  simp only [value] at written
  exact written

theorem ofInt_toNat_sub_toInt (address pc : Word) :
    BitVec.ofInt 32 ((address.toNat : Int) - pc.toInt) = address - pc := by
  rw [Int.sub_eq_add_neg, BitVec.ofInt_add, BitVec.ofInt_neg, BitVec.ofInt_natCast,
    BitVec.ofNat_toNat, BitVec.ofInt_toInt, BitVec.setWidth_eq, BitVec.sub_eq_add_neg]

theorem expandLaInstr_encodes {build : Build} {rdText : CString} {rd : Reg}
    (isField : IsField rdText) (hRd : Names build rdText rd) (address pc : Word) :
    ∃ expansion, expandLaInstr rdText address.toNat pc.toInt .reset = .ok expansion ∧
      expansion.Encodes build (laInstrs rd (address - pc)) := by
  have start := PseudoExpansion.encodes_reset build
  obtain ⟨middle, expandedUpper, encodesUpper⟩ :=
    expandWith_upper start (by decide) isField hRd .auipc (address - pc)
  obtain ⟨expansion, expanded, encodes⟩ := expandWith_imm encodesUpper (by simp) isField hRd
    .addi isField hRd (isInt12_lowPart (address - pc))
  have printedUpper : expandWith .reset "auipc"
      ("auipc ".toList ++ rdText ++ ", ".toList ++
        printInt (highPart (address - pc)).toInt) = .ok middle := by
    rw [← expandedUpper]
    simp [upperMnemonic]
  refine ⟨expansion, ?_, encodes⟩
  rw [expandLaInstr, ofInt_toNat_sub_toInt, printedUpper, ok_bind, ← expanded]
  simp [iMnemonic]

theorem lineWords_la {build : Build} {ctx : AssemblerCtx} {line rdText symbolName : CString}
    {rd : Reg} {textOffset : Nat} {words : List Word}
    (mnemonic : IsLa line)
    (operands : sscanf formatLa line = [.str rdText, .str symbolName])
    (hRd : Names build rdText rd)
    (encoded : lineWords build ctx line textOffset = .ok words) :
    ∃ offset, symtableLookup ctx.table symbolName = some offset ∧
      Decodes words (laInstrs rd (getDataVaddr ctx ctx.baseVaddr + offset -
        (getTextVaddr ctx.baseVaddr + BitVec.ofNat 32 textOffset))) := by
  obtain ⟨instr, found, pseudo, name⟩ : ∃ instr, findInstruction "la".toList = some instr ∧
      instr.type = .P ∧ instr.name = "la" := ⟨_, rfl, rfl, rfl⟩
  have instruction := lineInstruction_of_mnemonicOf (mnemonic ▸ found)
  obtain ⟨first, after, same, isField, -, -⟩ := firstField_inv operands
  obtain rfl := Value.str.inj same
  rw [lineWords_of_pseudo instruction pseudo] at encoded
  obtain ⟨expansion, expanded, printed⟩ := bind_eq_ok_iff.mp encoded
  have notLi : instr.name ≠ "li" := by
    rw [name]
    decide
  rw [expandPseudoInstr, if_neg notLi, if_pos name, expandLa, operands] at expanded
  simp only at expanded
  cases looked : symtableLookup ctx.table symbolName with
  | none =>
      rw [looked] at expanded
      cases expanded
  | some offset =>
      refine ⟨offset, rfl, ?_⟩
      obtain ⟨expansion', expanded', words', printed', decodes⟩ := expandLaInstr_encodes isField hRd
        (getDataVaddr ctx ctx.baseVaddr + offset)
        (getTextVaddr ctx.baseVaddr + BitVec.ofNat 32 textOffset)
      simp only [looked, expanded', Except.ok.injEq] at expanded
      subst expanded
      rw [printed'] at printed
      cases printed
      exact decodes

/-! ### Symbols and data lines -/

theorem symtableLookup_some {table : Symtable} {name : CString} {offset : Word}
    (looked : symtableLookup table name = some offset) :
    ∃ symbol ∈ table.symbols, symbol.name = name ∧ symbol.offset = offset := by
  obtain ⟨symbol, found, rfl⟩ := Option.map_eq_some_iff.mp looked
  exact ⟨symbol, List.mem_of_find?_eq_some found, by simpa using List.find?_some found, rfl⟩

theorem symtableLookup_of_mem {table : Symtable}
    (distinct : (table.symbols.map Symbol.name).Nodup) {symbol : Symbol}
    (member : symbol ∈ table.symbols) :
    symtableLookup table symbol.name = some symbol.offset := by
  have present : (table.symbols.find? (fun other => other.name = symbol.name)).isSome := by
    rw [List.find?_isSome]
    exact ⟨symbol, member, by simp⟩
  obtain ⟨other, found⟩ := Option.isSome_iff_exists.mp present
  have same : other = symbol := List.inj_on_of_nodup_map distinct
    (List.mem_of_find?_eq_some found) member (by simpa using List.find?_some found)
  rw [symtableLookup, found, same]
  rfl

/-- The data line that defines a name: the offset at which pass 2 starts to emit
it, and its bytes. -/
def DefinedAt (build : Build) (ctx : AssemblerCtx) (source : List Char) (name : CString)
    (offset : Nat) (bytes : List Byte) : Prop :=
  ∃ before buffer after line rest out,
    fgetsLines lineBufLen source = before ++ buffer :: after ∧ turnOf buffer = .content line ∧
    leadingLabel line = some (name, rest) ∧ dataLineBytes build rest = some bytes ∧
    assembleLines build (assembleStart ctx) before = (.ok, ("data".toList, out)) ∧
    out.dataOffset = offset ∧
    processAssemblyLine build "data".toList out line = (.ok, out.appendData bytes)

def labelOf (buffer : CString) : Option CString :=
  match turnOf buffer with
  | .content line => (leadingLabel line).map Prod.fst
  | _ => none

/-- `symtable_insert` keeps every label of the file whole. -/
def LabelsShort (source : List Char) : Prop :=
  ∀ buffer ∈ fgetsLines lineBufLen source, ∀ name ∈ labelOf buffer, name.length ≤ labelLen - 1

instance (source : List Char) : Decidable (LabelsShort source) :=
  inferInstanceAs (Decidable (∀ buffer ∈ fgetsLines lineBufLen source,
    ∀ name ∈ labelOf buffer, name.length ≤ labelLen - 1))

theorem labelOf_content {buffer line name rest : CString} (turn : turnOf buffer = .content line)
    (labelled : leadingLabel line = some (name, rest)) : name ∈ labelOf buffer := by
  simp [labelOf, turn, labelled]

theorem steps_of_textBytes {baseVaddr : Word} {ctx2 : AssemblerCtx} {out : Output}
    {words : List Word} {instrs : List Instr} {memory : Memory} {s : State}
    (text : Holds memory (getTextVaddr baseVaddr) ctx2.textSegment.bytes)
    (textBytes : (out.appendWords words).textBytes <+: ctx2.textSegment.bytes)
    (decodes : Decodes words instrs)
    (pc : s.pc = getTextVaddr baseVaddr + BitVec.ofNat 32 out.textOffset) :
    steps memory instrs.length s = runInstrs instrs s := by
  rw [Output.appendWords_textBytes] at textBytes
  have stands := (text.of_isPrefix textBytes).append.2
  rw [Output.textBytes_length, ← pc] at stands
  rw [← decodes.length_eq]
  exact steps_of_fetches (fetches_of_holds stands) decodes

section AcceptedFile

variable {build : Build} {baseVaddr : Word} {source : List Char} {ctx1 ctx2 : AssemblerCtx}
  (accepted : Accepted build baseVaddr source ctx1 ctx2)

include accepted

theorem Accepted.step_at {before after : List CString} {buffer line segment : CString}
    {out : Output} (split : fgetsLines lineBufLen source = before ++ buffer :: after)
    (turn : turnOf buffer = .content line)
    (reached : assembleLines build (assembleStart ctx1) before = (.ok, (segment, out))) :
    ∃ scan scan' out', InStep scan out ∧ PassStep build scan out segment line scan' out' ∧
      processAssemblyLine build segment out line = (.ok, out') ∧
      scan'.ctx.table.symbols <+: ctx1.table.symbols ∧ (Output.start ctx1).Extends out ∧
      out'.textBytes <+: ctx2.textSegment.bytes ∧ out'.dataBytes <+: ctx2.dataSegment.bytes := by
  obtain ⟨scanFinal, final, scanned, rfl, emitted, rfl, start⟩ := accepted.runs
  obtain ⟨ran, stands⟩ := assembleLines_ok_iff.mp reached
  have lines : sourceContents source =
      contents [] before ++ ⟨segment, line⟩ :: contents segment after := by
    simp only [sourceContents, split, contents_append, contents, turn, ← stands]
  have isContent : ∀ content ∈ sourceContents source, IsContentLine content.line :=
    fun _ => sourceContents_isContentLine
  obtain ⟨scan, middle, scan', out', -, reachedOut, same, step, scanAfter, outAfter⟩ :=
    passStep_of_split isContent lines scanned emitted start
  obtain rfl : middle = out := by
    rw [reachedOut] at ran
    exact (Prod.mk.inj ran).2
  rw [lines] at isContent
  have isBefore : ∀ content ∈ contents [] before, IsContentLine content.line :=
    fun content member => isContent content (List.mem_append_left _ member)
  have isAfter : ∀ content ∈ contents segment after, IsContentLine content.line :=
    fun content member =>
      isContent content (List.mem_append_right _ (List.mem_cons_of_mem _ member))
  have same' := step.inStep same
  have later := emitContents_extends isAfter outAfter same'.bounded
  have emits := (processAssemblyLine_ok_iff (isContent ⟨segment, line⟩ (by simp))
    same.bounded).mpr step.emitStep
  exact ⟨scan, scan', out', same, step, emits, table_grows isAfter same'.scanBounded scanAfter,
    emitContents_extends isBefore ran start.bounded, later.text, later.data⟩

theorem Accepted.table_nodup : (ctx1.table.symbols.map Symbol.name).Nodup := by
  obtain ⟨scan, -, scanned, rfl, -⟩ := accepted.runs
  exact RiscvAs.table_nodup (fun _ => sourceContents_isContentLine) (Nat.zero_le _) scanned
    List.nodup_nil

/-- A name of the table is the label of a data line at its offset, when no label
is cut. -/
theorem Accepted.definedAt_of_lookup
    (shortLabels : LabelsShort source)
    {name : CString} {address : Word} (looked : symtableLookup ctx1.table name = some address) :
    ∃ bytes, DefinedAt build ctx1 source name address.toNat bytes := by
  obtain ⟨symbol, member, rfl, rfl⟩ := symtableLookup_some looked
  obtain ⟨before, content, after, label, rest, bytes, out, split, inData, labelled, named, denoted,
    reached, offset, emits⟩ := accepted.symbol_line member
  obtain ⟨first, buffer, second, buffers, turn, stands, rfl⟩ := contents_mem_split split
  rw [inData] at stands emits
  have short := shortLabels buffer (by simp [buffers]) label (labelOf_content turn labelled)
  rw [List.take_of_length_le short] at named
  subst named
  exact ⟨bytes, first, buffer, second, content.line, rest, out, buffers, turn, labelled, denoted,
    assembleLines_ok_iff.mpr ⟨reached, stands⟩, offset.symm, emits⟩

/-- The table has the offset of every data line that defines a name. -/
theorem Accepted.lookup_of_definedAt {name : CString} {offset : Nat} {bytes : List Byte}
    (short : name.length ≤ labelLen - 1)
    (defined : DefinedAt build ctx1 source name offset bytes) :
    ∃ address, symtableLookup ctx1.table name = some address ∧ address.toNat = offset := by
  obtain ⟨before, buffer, after, line, rest, out, split, turn, labelled, denoted, reached, rfl,
    emits⟩ := defined
  obtain ⟨scan, scan', out', same, step, -, grows, -⟩ := accepted.step_at split turn reached
  cases step with
  | text inText => cases inText
  | data inData labelled' admits denoted' fits =>
      rw [labelled'] at labelled
      cases labelled
      have member := grows.subset (List.mem_append_right _ (List.mem_singleton_self
        (scan.dataSymbol name)))
      have looked := symtableLookup_of_mem accepted.table_nodup member
      rw [Scan.dataSymbol, List.take_of_length_le short] at looked
      exact ⟨scan.dataOffset, looked, same.data⟩

/-- The bytes of a data line stand in memory at its offset in the data segment. -/
theorem Accepted.holds_definedAt {name : CString} {offset : Nat} {bytes : List Byte}
    (defined : DefinedAt build ctx1 source name offset bytes) {memory : Memory} {address : Word}
    (holds : Holds memory address ctx2.dataSegment.bytes) :
    Holds memory (address + BitVec.ofNat 32 offset) bytes := by
  obtain ⟨before, buffer, after, line, rest, out, split, turn, labelled, denoted, reached, rfl,
    emits⟩ := defined
  obtain ⟨scan, scan', out', -, -, emits', -, -, -, data⟩ := accepted.step_at split turn reached
  rw [emits] at emits'
  obtain rfl := (Prod.mk.inj emits').2
  rw [Output.appendData_dataBytes] at data
  have stands := (holds.of_isPrefix data).append.2
  rwa [Output.dataBytes_length] at stands

theorem Accepted.sizes :
    ctx2.textSegment.size = ctx1.textSegment.size ∧ fileShstrtabOffset ctx2 < 2 ^ 32 ∧
      ctx1.baseVaddr = baseVaddr := by
  obtain ⟨scan, out, scanned, rfl, emitted, rfl, start⟩ := accepted.runs
  have same := inStep_of_runs (fun _ => sourceContents_isContentLine) scanned emitted start
  have kept := scanContents_ctx (fun _ => sourceContents_isContentLine) (Nat.zero_le _) scanned
  have text := same.bounded.text
  have data := same.bounded.data
  refine ⟨same.text.symm, ?_, congrArg AssemblerCtx.baseVaddr kept⟩
  simp only [fileShstrtabOffset, fileDataOffset, fileTextOffset, ehdrSize, phdrSize,
    Output.finish, dataSize] at text data ⊢
  omega

/-- `la` computes with the address that the data segment is written at. -/
theorem Accepted.getDataVaddr_eq {out : Output} (extended : (Output.start ctx1).Extends out) :
    getDataVaddr out.ctx out.ctx.baseVaddr = getDataVaddr ctx2 baseVaddr := by
  obtain ⟨textSize, -, base⟩ := accepted.sizes
  have sameSize : out.ctx.textSegment.size = ctx2.textSegment.size :=
    extended.textSize.trans textSize.symm
  have sameBase : out.ctx.baseVaddr = baseVaddr := extended.baseVaddr.trans base
  rw [getDataVaddr, getDataVaddr, sameSize, sameBase]

/-- The two instructions of an accepted `la` line, run where the image was loaded,
leave the address of the bytes of the data line that defines the symbol. -/
theorem loadAddress_correct
    (shortLabels : LabelsShort source)
    {before after : List CString} {buffer line segment : CString} {out : Output}
    (split : fgetsLines lineBufLen source = before ++ buffer :: after)
    (turn : turnOf buffer = .content line)
    (reached : assembleLines build (assembleStart ctx1) before = (.ok, (segment, out)))
    (inText : isText segment = true) (mnemonic : IsLa line)
    {rdText symbolName : CString} {rd : Reg}
    (operands : sscanf formatLa line = [.str rdText, .str symbolName])
    (short : symbolName.length ≤ labelLen - 1) (hRd : Names build rdText rd) (notZero : rd ≠ 0)
    {memory : Memory}
    (loaded : Loaded (programHeader ctx2 baseVaddr) (writer32 ctx2 baseVaddr) memory)
    {s : State} (pc : s.pc = getTextVaddr baseVaddr + BitVec.ofNat 32 out.textOffset) :
    (∃ offset bytes, DefinedAt build ctx1 source symbolName offset bytes) ∧
    ∀ offset bytes, DefinedAt build ctx1 source symbolName offset bytes →
      ∃ s', steps memory 2 s = some s' ∧
        s'.get rd = getDataVaddr ctx2 baseVaddr + BitVec.ofNat 32 offset ∧
        Holds memory (s'.get rd) bytes ∧ ∀ r, r ≠ rd → s'.get r = s.get r := by
  obtain ⟨-, small, base⟩ := accepted.sizes
  obtain ⟨text, data⟩ := holds_of_loaded small loaded
  obtain ⟨scan, scan', out', -, step, -, -, extended, textBytes, -⟩ :=
    accepted.step_at split turn reached
  cases step with
  | data inData =>
      subst inData
      cases inText
  | @text words _ counted encoded fits =>
      obtain ⟨address, looked, decodes⟩ := lineWords_la mnemonic operands hRd encoded
      rw [show out.ctx.table = ctx1.table from extended.table] at looked
      refine ⟨?_, ?_⟩
      · obtain ⟨bytes, defined⟩ := accepted.definedAt_of_lookup shortLabels looked
        exact ⟨address.toNat, bytes, defined⟩
      · intro offset bytes defined
        obtain ⟨address', looked', rfl⟩ := accepted.lookup_of_definedAt short defined
        rw [looked] at looked'
        cases looked'
        have sameBase : out.ctx.baseVaddr = baseVaddr := extended.baseVaddr.trans base
        rw [accepted.getDataVaddr_eq extended, sameBase, ← pc] at decodes
        have stepped : steps memory 2 s =
            runInstrs (laInstrs rd (getDataVaddr ctx2 baseVaddr + address - s.pc)) s :=
          steps_of_textBytes text textBytes decodes pc
        obtain ⟨s', ran, value, others⟩ := writes_laInstrs notZero
          (getDataVaddr ctx2 baseVaddr + address - s.pc) s
        have loadedValue : s'.get rd =
            getDataVaddr ctx2 baseVaddr + BitVec.ofNat 32 address.toNat := by
          rw [BitVec.ofNat_toNat, BitVec.setWidth_eq]
          calc s'.get rd = s.pc + (getDataVaddr ctx2 baseVaddr + address - s.pc) := value
            _ = getDataVaddr ctx2 baseVaddr + address := by
              rw [BitVec.add_comm, BitVec.sub_add_cancel]
        refine ⟨s', stepped.trans ran, loadedValue, ?_, others⟩
        rw [loadedValue]
        exact accepted.holds_definedAt defined data

end AcceptedFile

theorem loadAddress_correct_example :
    ∃ memory s', Loaded (programHeader exampleAssembled 0x80000000)
        (writer32 exampleAssembled 0x80000000) memory ∧
      steps memory 2 ⟨fun _ => 0, 0x80000054⟩ = some s' ∧ s'.get 10 = 0x80000060 := by
  let table := [".data\n".toList, "first: .word 1\n".toList]
  let code := table ++ ["second: .word 2 # here\n".toList, ".text\n".toList]
  let outTable := (assembleLines .native (assembleStart exampleScanned) table).2.2
  let outCode := (assembleLines .native (assembleStart exampleScanned) code).2.2
  have accepted := exampleSource_accepted
  have reachedTable : assembleLines .native (assembleStart exampleScanned) table =
      (.ok, ("data".toList, outTable)) :=
    Prod.ext (by decide +kernel) (Prod.ext (by decide +kernel) rfl)
  have reachedCode : assembleLines .native (assembleStart exampleScanned) code =
      (.ok, ("text".toList, outCode)) :=
    Prod.ext (by decide +kernel) (Prod.ext (by decide +kernel) rfl)
  have splitTable : fgetsLines lineBufLen exampleSource = table ++
      "second: .word 2 # here\n".toList :: [".text\n".toList, "la a0, second\n".toList] := by
    decide +kernel
  have splitCode : fgetsLines lineBufLen exampleSource =
      code ++ "la a0, second\n".toList :: [] := by
    decide +kernel
  have turnTable : turnOf "second: .word 2 # here\n".toList =
      .content "second: .word 2 # here".toList := by decide +kernel
  have turnCode : turnOf "la a0, second\n".toList = .content "la a0, second".toList := by
    decide +kernel
  have defined : DefinedAt .native exampleScanned exampleSource "second".toList 4
      [2, 0, 0, 0] := by
    obtain ⟨scan, scan', out', same, -⟩ := accepted.step_at splitTable turnTable reachedTable
    have content := (turnOf_content turnTable (by decide)).2
    refine ⟨_, _, _, _, ".word 2 # here".toList, outTable, splitTable, turnTable,
      by decide +kernel, by decide +kernel, reachedTable, by decide +kernel, ?_⟩
    refine (processAssemblyLine_ok_iff content same.bounded).mpr (.data rfl ?_ ?_)
    · decide +kernel
    · decide +kernel
  have operands : sscanf formatLa "la a0, second".toList =
      [.str "a0".toList, .str "second".toList] := by decide
  have loads := (loadAddress_correct accepted (by decide +kernel) splitCode turnCode reachedCode
    (by decide) (by decide) operands (by decide) ((RegName.a 0).names .native) (by decide)
    (loaded_imageMemory exampleAssembled 0x80000000 _) (s := ⟨fun _ => 0, 0x80000054⟩)
    (by decide +kernel)).2 4 _ defined
  obtain ⟨s', ran, value, -⟩ := loads
  refine ⟨_, s', loaded_imageMemory _ _ _, ran, value.trans ?_⟩
  decide +kernel

end RiscvAs
