/-
A line in pass 1, and the shapes of line that both passes can accept.

A label is entered in the symbol table with the offset of its segment; a text
line is counted by the instructions that it expands to.  Pass 2 strips no label
from a text line, and no mnemonic ends in a colon, so a labelled text line never
gets through pass 2.
-/

import RiscvAs.DataSegment
import RiscvAs.SourceLines
import RiscvAs.Reading

namespace RiscvAs

open Stdio
open Rv32 (Word)

theorem sscanf_word (width : Nat) (p : CString) :
    sscanf [.token (some width)] p =
      if (mnemonicOf p).take width = [] then [] else [.str ((mnemonicOf p).take width)] := by
  by_cases empty : (mnemonicOf p).take width = []
  · have failed : convert (.token (some width)) p = none := by
      rw [mnemonicOf] at empty
      simp [convert, scanRun, limit, empty]
    rw [if_pos empty, sscanf_fail failed]
  · have read : ∃ rest, convert (.token (some width)) p =
        some ([.str ((mnemonicOf p).take width)], rest) := by
      rw [mnemonicOf] at empty ⊢
      simp [convert, scanRun, limit, empty]
    obtain ⟨rest, converted⟩ := read
    rw [if_neg empty, sscanf_convert converted]
    rfl

theorem leadingLabel_eq (p : CString) :
    leadingLabel p =
      if ((mnemonicOf p).take 255).getLast? = some ':' then
        some (((mnemonicOf p).take 255).dropLast,
          skipBlanks (p.drop ((mnemonicOf p).take 255).length))
      else none := by
  unfold leadingLabel
  rw [sscanf_word]
  by_cases empty : (mnemonicOf p).take 255 = []
  · simp [empty]
  · simp only [if_neg empty]

/-- The token of a label, and the text that follows it. -/
theorem leadingLabel_some {p name rest : CString} (labelled : leadingLabel p = some (name, rest)) :
    (mnemonicOf p).take 255 = name ++ [':'] ∧ rest = skipBlanks (p.drop (name.length + 1)) := by
  rw [leadingLabel_eq] at labelled
  split at labelled
  · rename_i colon
    obtain ⟨front, token⟩ := List.getLast?_eq_some_iff.mp colon
    rw [token] at labelled ⊢
    obtain ⟨rfl, rfl⟩ := Prod.mk.inj (Option.some.inj labelled)
    simp
  · cases labelled

theorem leadingLabel_append {name tail : CString} (noBlank : ∀ c ∈ name, isspace c = false)
    (short : name.length ≤ 254) (stops : Stops (fun c => !isspace c) tail) :
    leadingLabel (name ++ ':' :: tail) = some (name, skipBlanks tail) := by
  have split : name ++ ':' :: tail = (name ++ [':']) ++ tail := by simp
  have tokenNoBlank : ∀ c ∈ name ++ [':'], isspace c = false := by
    intro c member
    rcases List.mem_append.mp member with inName | colon
    · exact noBlank c inName
    · rw [List.mem_singleton.mp colon]
      rfl
  have front : Stops isspace (name ++ ':' :: tail) := by
    cases name with
    | nil => simp [isspace]
    | cons c name => simpa using noBlank c (List.mem_cons_self ..)
  have token : mnemonicOf (name ++ ':' :: tail) = name ++ [':'] :=
    mnemonicOf_eq ((skipBlanks_of_stops front).trans split) tokenNoBlank stops
  have whole : (name ++ [':']).take 255 = name ++ [':'] := by
    apply List.take_of_length_le
    rw [List.length_append, List.length_singleton]
    omega
  rw [leadingLabel_eq, token, whole, if_pos (by simp), split, List.drop_left]
  simp

theorem no_mnemonic_colon {name : CString} {instr : Instruction}
    (found : findInstruction name = some instr) : name.getLast? ≠ some ':' := by
  have names : ∀ instr ∈ instructions, instr.name.toList.getLast? ≠ some ':' := by decide
  have member := names instr (List.mem_of_find?_eq_some found)
  rwa [findInstruction_name found] at member

/-- The first word of a labelled line is not a mnemonic. -/
theorem leadingLabel_of_instruction {p : CString} {instr : Instruction}
    (instruction : lineInstruction p = .ok instr) : leadingLabel p = none := by
  have found := lineInstruction_ok instruction
  have short := (findInstruction_isToken found).short
  have whole : (mnemonicOf p).take 255 = mnemonicOf p :=
    List.take_of_length_le (by simp only [nameLen] at short; omega)
  rw [leadingLabel_eq, whole, if_neg (no_mnemonic_colon found)]

def Symtable.Admits (table : Symtable) (name : CString) : Prop :=
  table.count < maxSymbols ∧ ∀ symbol ∈ table.symbols, symbol.name ≠ name

def Symtable.push (table : Symtable) (symbol : Symbol) : Symtable :=
  { symbols := table.symbols ++ [symbol] }

theorem symtableInsert_of_admits {table : Symtable} {name : CString} (address : Word)
    (admits : table.Admits name) :
    symtableInsert table name address =
      some (table.push ⟨name.take (labelLen - 1), address, .segmentText⟩) := by
  have absent : table.symbols.any (fun symbol => decide (symbol.name = name)) = false := by
    simpa using admits.2
  rw [symtableInsert, if_neg (by have room := admits.1; omega), absent]
  rfl

theorem symtableInsert_some {table table' : Symtable} {name : CString} {address : Word}
    (inserted : symtableInsert table name address = some table') : table.Admits name := by
  unfold symtableInsert at inserted
  split at inserted
  · cases inserted
  · rename_i room
    split at inserted
    · cases inserted
    · rename_i absent
      exact ⟨by omega, by simpa using absent⟩

theorem setLastType_push (table : Symtable) (symbol : Symbol) (type : SymType) :
    (table.push symbol).setLastType type = table.push { symbol with type := type } := by
  simp [Symtable.setLastType, Symtable.push]

/-- The symbol that a label enters, when its segment may hold labels. -/
def Scan.symbol (scan : Scan) (segment label : CString) : Option Symbol :=
  if isText segment then some ⟨label.take (labelLen - 1), scan.textOffset, .segmentText⟩
  else if segment = "data".toList then
    some ⟨label.take (labelLen - 1), scan.dataOffset, .segmentData⟩
  else none

def Scan.enter (scan : Scan) (symbol : Symbol) : Scan :=
  { scan with ctx := { scan.ctx with table := scan.ctx.table.push symbol } }

theorem scanLabel_insertAt (scan : Scan) (label : CString) (address : Word) (type : SymType)
    (scan' : Scan) :
    scanLabel.insertAt scan label address type = .ok scan' ↔
      scan.ctx.table.Admits (label.take (labelLen - 1)) ∧
        scan' = scan.enter ⟨label.take (labelLen - 1), address, type⟩ := by
  unfold scanLabel.insertAt
  cases inserted : symtableInsert scan.ctx.table (label.take (labelLen - 1)) address with
  | none =>
      simp only [reduceCtorEq, false_iff, not_and]
      intro admits
      rw [symtableInsert_of_admits address admits] at inserted
      cases inserted
  | some table =>
      have admits := symtableInsert_some inserted
      rw [symtableInsert_of_admits address admits, Option.some.injEq] at inserted
      subst inserted
      simp only [Except.ok.injEq, setLastType_push, List.take_take, Nat.min_self, admits,
        true_and, Scan.enter]
      exact eq_comm

theorem scanLabel_ok_iff {segment label : CString} {scan scan' : Scan} :
    scanLabel segment scan label = .ok scan' ↔
      ∃ symbol, scan.symbol segment label = some symbol ∧
        scan.ctx.table.Admits symbol.name ∧ scan' = scan.enter symbol := by
  unfold scanLabel Scan.symbol
  split
  · simp [scanLabel_insertAt]
  · split
    · simp [scanLabel_insertAt]
    · simp

def lineCount (build : Build) (ctx : AssemblerCtx) (line : CString) (textOffset : Word) :
    Except Failure Nat := do
  let instr ← lineInstruction line
  if instr.type = .P then do
    let expansion ← expandPseudoInstr build ctx instr line (getTextVaddr ctx.baseVaddr + textOffset)
    pure expansion.count
  else pure 1

def Scan.advanceText (scan : Scan) (count : Nat) : Scan :=
  { scan with textOffset := scan.textOffset + BitVec.ofNat 32 (count * 4) }

/-- The blanks around the pattern of pass 2 change nothing. -/
theorem sscanf_formatName (p : CString) : sscanf formatName p = sscanf formatDirective p := by
  rw [← sscanf_formatScanName, formatName, formatScanName, sscanf_blank, sscanf_blank]
  cases read : convert (.token (some (nameLen - 1))) (skipBlanks p) with
  | none => rw [sscanf_fail read, sscanf_fail read]
  | some result =>
      rw [sscanf_convert read, sscanf_convert read, sscanf_blank]
      rfl

theorem mnemonicOf_nonempty {p : CString} (nonempty : skipBlanks p ≠ []) : mnemonicOf p ≠ [] := by
  obtain ⟨c, rest, text⟩ := List.exists_cons_of_ne_nil nonempty
  have front := stops_skipBlanks p
  rw [text, stops_cons] at front
  rw [mnemonicOf, text, List.takeWhile_cons_of_pos (by simp [front])]
  exact List.cons_ne_nil c _

theorem scanText_ok_iff {build : Build} {scan scan' : Scan} {p : CString}
    (nonempty : skipBlanks p ≠ []) :
    scanText build scan p = (.ok, scan') ↔
      ∃ count, lineCount build scan.ctx p scan.textOffset = .ok count ∧
        scan' = scan.advanceText count := by
  have word : ∃ name, sscanf formatDirective p = [.str name] := by
    obtain ⟨c, rest, text⟩ := List.exists_cons_of_ne_nil (mnemonicOf_nonempty nonempty)
    rw [formatDirective, sscanf_word, text, if_neg (by simp [nameLen])]
    exact ⟨_, rfl⟩
  obtain ⟨name, scanned⟩ := word
  unfold scanText lineCount lineInstruction
  rw [sscanf_formatName, sscanf_formatScanName]
  simp only [scanned]
  cases findInstruction name with
  | none => simp
  | some instr =>
      simp only [ok_bind]
      split
      · cases expandPseudoInstr build scan.ctx instr p
            (getTextVaddr scan.ctx.baseVaddr + scan.textOffset) with
        | error e => simp
        | ok expansion => simp [Scan.advanceText, eq_comm]
      · simp [Scan.advanceText, eq_comm]

/-! ### A content line in pass 1 -/

theorem directiveBytes_dot {build : Build} {directive args : CString} {bytes : List Bytes.Byte}
    (denoted : directiveBytes build directive args = some bytes) :
    directive.head? = some '.' := by
  unfold directiveBytes at denoted
  split at denoted
  · rename_i integer
    simp only [isIntegerDirective, Bool.or_eq_true, decide_eq_true_eq] at integer
    rcases integer with (rfl | rfl) | rfl <;> rfl
  · split at denoted
    · rename_i string
      simp only [isStringDirective, Bool.or_eq_true, decide_eq_true_eq] at string
      rcases string with (rfl | rfl) | rfl <;> rfl
    · split at denoted
      · rename_i space
        subst space
        rfl
      · cases denoted

/-- Only a text that begins with a dot denotes bytes. -/
theorem dataLineBytes_dot {build : Build} {p : CString} {bytes : List Bytes.Byte}
    (front : Stops isspace p) (denoted : dataLineBytes build p = some bytes) :
    p.head? = some '.' := by
  rcases directive_cases build p with ⟨directive, scanned, same⟩ | ⟨-, none⟩
  · have dot := directiveBytes_dot (same ▸ denoted)
    obtain ⟨run, rest, split, -, -, -, -, same, -⟩ := sscanf_token_inv scanned
    obtain rfl := Value.str.inj same
    rw [skipBlanks_of_stops front] at split
    obtain ⟨tail, rfl⟩ := List.head?_eq_some_iff.mp dot
    rw [split]
    rfl
  · rw [none] at denoted
    cases denoted

theorem leadingLabel_rest {p name rest : CString} (labelled : leadingLabel p = some (name, rest)) :
    Stops isspace rest ∧ rest.length ≤ p.length := by
  obtain ⟨-, rfl⟩ := leadingLabel_some labelled
  refine ⟨stops_skipBlanks _, ?_⟩
  have skipped := (skipBlanks_suffix (p.drop (name.length + 1))).length_le
  rw [List.length_drop] at skipped
  omega

/-- What pass 1 does to a content line that it accepts. -/
inductive ScanStep (build : Build) (scan : Scan) (segment line : CString) : Scan → Prop where
  | text {count : Nat} (inText : isText segment = true) (plain : leadingLabel line = none)
      (counted : lineCount build scan.ctx line scan.textOffset = .ok count) :
      ScanStep build scan segment line (scan.advanceText count)
  | label {name : CString} {symbol : Symbol} (labelled : leadingLabel line = some (name, []))
      (entered : scan.symbol segment name = some symbol)
      (admits : scan.ctx.table.Admits symbol.name) :
      ScanStep build scan segment line (scan.enter symbol)
  | labelledText {name rest : CString} {symbol : Symbol} {count : Nat}
      (inText : isText segment = true) (labelled : leadingLabel line = some (name, rest))
      (more : rest ≠ []) (entered : scan.symbol segment name = some symbol)
      (admits : scan.ctx.table.Admits symbol.name)
      (counted : lineCount build (scan.enter symbol).ctx rest scan.textOffset = .ok count) :
      ScanStep build scan segment line ((scan.enter symbol).advanceText count)
  | labelledData {name rest : CString} {symbol : Symbol} {bytes : List Bytes.Byte}
      (inData : segment = "data".toList) (labelled : leadingLabel line = some (name, rest))
      (entered : scan.symbol segment name = some symbol)
      (admits : scan.ctx.table.Admits symbol.name)
      (denoted : dataLineBytes build rest = some bytes)
      (fits : scan.dataOffset.toNat + bytes.length ≤ dataSize) :
      ScanStep build scan segment line ((scan.enter symbol).advanceData bytes)

theorem not_isText_data : isText "data".toList = false := by decide

section ScanLine

variable {build : Build} {segment p : CString} {scan scan' : Scan}

theorem scanBody_text_ok_iff (inText : isText segment = true) (nonempty : skipBlanks p ≠ []) :
    scanBody build segment scan p = (.ok, scan') ↔
      ∃ count, lineCount build scan.ctx p scan.textOffset = .ok count ∧
        scan' = scan.advanceText count := by
  rw [scanBody, if_pos inText, scanText_ok_iff nonempty]

theorem scanBody_data_ok_iff (inData : segment = "data".toList ∨ segment = "bss".toList)
    (bounded : scan.dataOffset.toNat ≤ dataSize) (short : p.length < lineBufLen) :
    scanBody build segment scan p = (.ok, scan') ↔
      ∃ bytes, dataLineBytes build p = some bytes ∧
        scan.dataOffset.toNat + bytes.length ≤ dataSize ∧ scan' = scan.advanceData bytes := by
  have notText : isText segment = false := by rcases inData with rfl | rfl <;> decide
  rw [scanBody, notText, if_neg (by decide), if_pos inData, scanData_ok_iff bounded short]

/-- A content line with no label is only accepted in the text segment: without
the dot that made it a segment line, it is no directive. -/
theorem scanLine_plain_ok_iff (content : IsContentLine p) (plain : leadingLabel p = none)
    (bounded : scan.dataOffset.toNat ≤ dataSize) :
    scanLine build segment scan p = (.ok, scan') ↔
      isText segment = true ∧ ∃ count, lineCount build scan.ctx p scan.textOffset = .ok count ∧
        scan' = scan.advanceText count := by
  have same : skipBlanks p = p := skipBlanks_of_stops content.front
  simp only [scanLine, same, plain]
  by_cases inText : isText segment = true
  · rw [scanBody_text_ok_iff inText (by rw [same]; exact content.nonempty)]
    exact (and_iff_right inText).symm
  · refine iff_of_false (fun accepted => ?_) (fun shape => inText shape.1)
    by_cases inData : segment = "data".toList ∨ segment = "bss".toList
    · obtain ⟨bytes, denoted, -⟩ :=
        (scanBody_data_ok_iff inData bounded content.short).mp accepted
      exact content.notDot (dataLineBytes_dot content.front denoted)
    · rw [scanBody, if_neg inText, if_neg inData] at accepted
      cases accepted

theorem Scan.symbol_segment {label : CString} {symbol : Symbol}
    (entered : scan.symbol segment label = some symbol) :
    isText segment = true ∨ segment = "data".toList := by
  unfold Scan.symbol at entered
  split at entered
  · rename_i inText
    exact Or.inl inText
  · split at entered
    · rename_i inData
      exact Or.inr inData
    · cases entered

theorem scanLine_labelled_ok_iff (content : IsContentLine p) {name rest : CString}
    (labelled : leadingLabel p = some (name, rest)) :
    scanLine build segment scan p = (.ok, scan') ↔
      ∃ symbol, scan.symbol segment name = some symbol ∧ scan.ctx.table.Admits symbol.name ∧
        (if rest = [] then scan' = scan.enter symbol
          else scanBody build segment (scan.enter symbol) rest = (.ok, scan')) := by
  have same : skipBlanks p = p := skipBlanks_of_stops content.front
  simp only [scanLine, same, labelled]
  cases result : scanLabel segment scan name with
  | error e =>
      simp only [reduceCtorEq, Prod.mk.injEq, false_and, false_iff, not_exists, not_and]
      intro symbol entered admits
      rw [scanLabel_ok_iff.mpr ⟨symbol, entered, admits, rfl⟩] at result
      cases result
  | ok scanned =>
      obtain ⟨symbol, entered, admits, rfl⟩ := scanLabel_ok_iff.mp result
      simp only [entered, Option.some.injEq, exists_eq_left', admits, true_and]
      split
      · simp only [Prod.mk.injEq, true_and]
        exact eq_comm
      · exact Iff.rfl

theorem scanLine_ok_iff (content : IsContentLine p) (bounded : scan.dataOffset.toNat ≤ dataSize) :
    scanLine build segment scan p = (.ok, scan') ↔ ScanStep build scan segment p scan' := by
  constructor
  · intro accepted
    rcases labelled : leadingLabel p with _ | ⟨name, rest⟩
    · obtain ⟨inText, count, counted, rfl⟩ :=
        (scanLine_plain_ok_iff content labelled bounded).mp accepted
      exact .text inText labelled counted
    · obtain ⟨symbol, entered, admits, body⟩ :=
        (scanLine_labelled_ok_iff content labelled).mp accepted
      obtain ⟨front, shorter⟩ := leadingLabel_rest labelled
      have short := content.short
      split at body
      · rename_i empty
        subst empty body
        exact .label labelled entered admits
      · rename_i more
        rcases scan.symbol_segment entered with inText | inData
        · obtain ⟨count, counted, rfl⟩ :=
            (scanBody_text_ok_iff inText (by rwa [skipBlanks_of_stops front])).mp body
          exact .labelledText inText labelled more entered admits counted
        · obtain ⟨bytes, denoted, fits, rfl⟩ :=
            (scanBody_data_ok_iff (Or.inl inData) (by exact bounded) (by omega)).mp body
          exact .labelledData inData labelled entered admits denoted fits
  · intro step
    cases step with
    | text inText plain counted =>
        exact (scanLine_plain_ok_iff content plain bounded).mpr ⟨inText, _, counted, rfl⟩
    | label labelled entered admits =>
        exact (scanLine_labelled_ok_iff content labelled).mpr
          ⟨_, entered, admits, by rw [if_pos rfl]⟩
    | labelledText inText labelled more entered admits counted =>
        obtain ⟨front, -⟩ := leadingLabel_rest labelled
        refine (scanLine_labelled_ok_iff content labelled).mpr ⟨_, entered, admits, ?_⟩
        rw [if_neg more]
        exact (scanBody_text_ok_iff inText (by rwa [skipBlanks_of_stops front])).mpr
          ⟨_, counted, rfl⟩
    | labelledData inData labelled entered admits denoted fits =>
        obtain ⟨front, shorter⟩ := leadingLabel_rest labelled
        have short := content.short
        have more := dataLineBytes_dot front denoted
        refine (scanLine_labelled_ok_iff content labelled).mpr ⟨_, entered, admits, ?_⟩
        rw [if_neg (by rintro rfl; cases more)]
        exact (scanBody_data_ok_iff (Or.inl inData) (by exact bounded) (by omega)).mpr
          ⟨_, denoted, fits, rfl⟩

end ScanLine

end RiscvAs
