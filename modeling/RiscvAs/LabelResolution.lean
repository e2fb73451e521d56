/-
Which names `la` resolves to which label.

A label is entered in the symbol table by its first 63 characters, and `la`
looks its symbol up as it is written.  So the table tells labels apart, and a
symbol from a label, only as far as those characters go.
-/

import RiscvAs.LoadAddress

namespace RiscvAs

open Stdio
open Rv32 (Word)

def labelNames (lines : List Content) : List CString :=
  lines.filterMap (fun content => (leadingLabel content.line).map Prod.fst)

/-- What `symtable_insert` keeps of a label. -/
def storedName (name : CString) : CString :=
  name.take (labelLen - 1)

/-- The token that `la rd, sym` reads into `symbol_name`. -/
def laSymbol (p : CString) : Option CString :=
  if IsLa p then
    match sscanf formatLa p with
    | [.str _, .str symbolName] => some symbolName
    | _ => none
  else none

def enterLabel (scan : Scan) (content : Content) : Except Failure Scan :=
  match leadingLabel content.line with
  | none => .ok scan
  | some (name, _) => scanLabel content.segment scan name

/-- Pass 1 gets to a line of the file: the lines before it are accepted. -/
structure Reaches (build : Build) (baseVaddr : Word) (source : List Char)
    (before : List Content) (content : Content) (after : List Content) (scan : Scan) : Prop where
  split : sourceContents source = before ++ content :: after
  ran : scanContents build (.start (initCtx baseVaddr)) before = (.ok, scan)

/-- The offset of a label: where its segment was when pass 1 came to its line. -/
def LabelOffset (build : Build) (baseVaddr : Word) (source : List Char) (name : CString)
    (offset : Word) : Prop :=
  ∃ before definition after scan rest, Reaches build baseVaddr source before definition after scan ∧
    leadingLabel definition.line = some (name, rest) ∧
    offset = if isText definition.segment then scan.textOffset else scan.dataOffset

/-- No label is rejected, and the symbol of a reached `la` fits its buffer; after all labels
it is found exactly when it is one of them, with the offset of that label, in this pass and
in the table that the next pass gets. -/
structure LabelsResolve (build : Build) (baseVaddr : Word) (source : List Char) : Prop where
  entered : ∀ before content after scan, Reaches build baseVaddr source before content after scan →
    ∃ entered, enterLabel scan content = .ok entered
  fits : ∀ before content after scan, Reaches build baseVaddr source before content after scan →
    isText content.segment → ∀ symbolName, laSymbol (afterLabel content.line) = some symbolName →
      symbolName.length < nameLen
  resolved : ∀ before content after scan entered,
    Reaches build baseVaddr source before content after scan →
      enterLabel scan content = .ok entered →
    isText content.segment → labelNames after = [] →
    ∀ symbolName, laSymbol (afterLabel content.line) = some symbolName →
      ((symtableLookup entered.ctx.table symbolName).isSome ↔
        symbolName ∈ labelNames (sourceContents source)) ∧
      (∀ offset, symtableLookup entered.ctx.table symbolName = some offset →
        LabelOffset build baseVaddr source symbolName offset) ∧
      ∀ ctx1, scanLabels build (some source) (initCtx baseVaddr) = (.ok, ctx1) →
        ctx1.table = entered.ctx.table

/-- What a line needs: a label that no label before agrees with on its first 63 characters,
and as the symbol of `la` a token of at most 63 characters that is not what is left of a
longer label. -/
structure LineResolves (before : List Content) (content : Content) (after : List Content) :
    Prop where
  fresh : ∀ name ∈ labelNames [content],
    ∀ other ∈ labelNames before, storedName other ≠ storedName name
  fits : isText content.segment → ∀ symbolName,
    laSymbol (afterLabel content.line) = some symbolName → symbolName.length < nameLen
  whole : isText content.segment → labelNames after = [] → ∀ symbolName,
    laSymbol (afterLabel content.line) = some symbolName →
      ∀ name ∈ labelNames (before ++ [content]), storedName name = symbolName → name = symbolName

/-- The labels of a file, in its text and data segments, are distinct and at most 128. -/
structure DistinctLabels (source : List Char) : Prop where
  distinct : (labelNames (sourceContents source)).Nodup
  few : (labelNames (sourceContents source)).length ≤ maxSymbols
  segments : ∀ content ∈ sourceContents source, leadingLabel content.line ≠ none →
    isText content.segment = true ∨ content.segment = "data".toList

theorem labelNames_append (first second : List Content) :
    labelNames (first ++ second) = labelNames first ++ labelNames second :=
  List.filterMap_append

theorem labelNames_cons (content : Content) (lines : List Content) :
    labelNames (content :: lines) = labelNames [content] ++ labelNames lines :=
  labelNames_append [content] lines

theorem labelNames_of_plain {content : Content} (plain : leadingLabel content.line = none) :
    labelNames [content] = [] := by
  simp [labelNames, plain]

theorem labelNames_of_labelled {content : Content} {name rest : CString}
    (labelled : leadingLabel content.line = some (name, rest)) : labelNames [content] = [name] := by
  simp [labelNames, labelled]

theorem Scan.symbol_name {scan : Scan} {segment name : CString} {symbol : Symbol}
    (entered : scan.symbol segment name = some symbol) :
    symbol.name = storedName name ∧
      symbol.offset = if isText segment then scan.textOffset else scan.dataOffset := by
  unfold Scan.symbol at entered
  split at entered
  · rename_i inText
    cases entered
    exact ⟨rfl, by rw [if_pos inText]⟩
  · rename_i notText
    split at entered
    · cases entered
      exact ⟨rfl, by rw [if_neg notText]⟩
    · cases entered

def Scan.names (scan : Scan) : List CString :=
  scan.ctx.table.symbols.map Symbol.name

theorem Scan.names_enter (scan : Scan) (symbol : Symbol) :
    (scan.enter symbol).names = scan.names ++ [symbol.name] := by
  simp [Scan.names, Scan.enter, Symtable.push]

theorem enterLabel_ok {scan entered : Scan} {content : Content}
    (accepted : enterLabel scan content = .ok entered) :
    (leadingLabel content.line = none ∧ entered = scan) ∨
      ∃ name rest symbol, leadingLabel content.line = some (name, rest) ∧
        scan.symbol content.segment name = some symbol ∧ scan.ctx.table.Admits symbol.name ∧
        entered = scan.enter symbol := by
  unfold enterLabel at accepted
  cases labelled : leadingLabel content.line with
  | none =>
      rw [labelled] at accepted
      exact Or.inl ⟨rfl, (Except.ok.inj accepted).symm⟩
  | some label =>
      rw [labelled] at accepted
      obtain ⟨symbol, isEntered, admits, same⟩ := scanLabel_ok_iff.mp accepted
      exact Or.inr ⟨label.1, label.2, symbol, rfl, isEntered, admits, same⟩

theorem names_of_enterLabel {scan entered : Scan} {content : Content}
    (accepted : enterLabel scan content = .ok entered) :
    entered.names = scan.names ++ (labelNames [content]).map storedName := by
  rcases enterLabel_ok accepted with ⟨plain, rfl⟩ |
    ⟨name, rest, symbol, labelled, isEntered, -, rfl⟩
  · rw [labelNames_of_plain plain, List.map_nil, List.append_nil]
  · rw [labelNames_of_labelled labelled, Scan.names_enter, (Scan.symbol_name isEntered).1]
    rfl

theorem enterLabel_of_symbol {scan : Scan} {content : Content} {name rest : CString}
    {symbol : Symbol} (labelled : leadingLabel content.line = some (name, rest))
    (isEntered : scan.symbol content.segment name = some symbol)
    (admits : scan.ctx.table.Admits symbol.name) :
    enterLabel scan content = .ok (scan.enter symbol) := by
  simp only [enterLabel, labelled]
  exact scanLabel_ok_iff.mpr ⟨symbol, isEntered, admits, rfl⟩

/-- A line that pass 1 accepts changes the table by its label only. -/
theorem ScanStep.enterLabel {build : Build} {scan scan' : Scan} {content : Content}
    (step : ScanStep build scan content.segment content.line scan') :
    ∃ entered, RiscvAs.enterLabel scan content = .ok entered ∧
      scan'.ctx.table = entered.ctx.table := by
  cases step with
  | text inText plain counted =>
      refine ⟨scan, ?_, rfl⟩
      simp only [RiscvAs.enterLabel, plain]
  | label labelled entered admits =>
      exact ⟨_, enterLabel_of_symbol labelled entered admits, rfl⟩
  | labelledText inText labelled more entered admits counted =>
      exact ⟨_, enterLabel_of_symbol labelled entered admits, rfl⟩
  | labelledData inData labelled entered admits denoted fits =>
      exact ⟨_, enterLabel_of_symbol labelled entered admits, rfl⟩

theorem names_of_run {build : Build} {lines : List Content}
    (isContent : ∀ content ∈ lines, IsContentLine content.line) {scan final : Scan}
    (bounded : scan.dataOffset.toNat ≤ dataSize)
    (ran : scanContents build scan lines = (.ok, final)) :
    final.names = scan.names ++ (labelNames lines).map storedName := by
  induction lines generalizing scan with
  | nil =>
      obtain rfl := (Prod.mk.inj ran).2
      exact (List.append_nil _).symm
  | cons content lines ih =>
      obtain ⟨middle, step, rest⟩ :=
        (scanContents_cons_iff (isContent content (List.mem_cons_self ..)) bounded).mp ran
      have later := ih (fun other member => isContent other (List.mem_cons_of_mem _ member))
        (step.bounded bounded) rest
      obtain ⟨entered, accepted, table⟩ := step.enterLabel
      have names : middle.names = entered.names := by rw [Scan.names, table, Scan.names]
      rw [later, names, names_of_enterLabel accepted, labelNames_cons content lines,
        List.map_append, List.append_assoc]

theorem table_of_run {build : Build} {lines : List Content}
    (isContent : ∀ content ∈ lines, IsContentLine content.line) {scan final : Scan}
    (bounded : scan.dataOffset.toNat ≤ dataSize) (plain : labelNames lines = [])
    (ran : scanContents build scan lines = (.ok, final)) :
    final.ctx.table = scan.ctx.table := by
  refine (scanContents_invariant (fun current : Scan => current.ctx.table = scan.ctx.table)
    isContent ?_ ran bounded rfl).2
  intro current next content member kept step
  obtain ⟨entered, accepted, table⟩ := step.enterLabel
  rcases enterLabel_ok accepted with ⟨-, rfl⟩ | ⟨name, rest, symbol, labelled, -⟩
  · rw [table, kept]
  · have present : name ∈ labelNames lines :=
      List.mem_filterMap.mpr ⟨content, member, by rw [labelled]; rfl⟩
    rw [plain] at present
    cases present

theorem symtableLookup_isSome_iff {table : Symtable} {name : CString} :
    (symtableLookup table name).isSome ↔ name ∈ table.symbols.map Symbol.name := by
  rw [symtableLookup, Option.isSome_map, List.find?_isSome, List.mem_map]
  simp

section Reached

variable {build : Build} {baseVaddr : Word} {source : List Char} {before after : List Content}
  {content : Content} {scan entered : Scan}
  (reaches : Reaches build baseVaddr source before content after scan)

include reaches

theorem Reaches.isContent : ∀ other ∈ before, IsContentLine other.line := by
  intro other member
  have inSource : other ∈ sourceContents source := by
    rw [reaches.split]
    exact List.mem_append_left _ member
  exact sourceContents_isContentLine inSource

theorem Reaches.names : scan.names = (labelNames before).map storedName :=
  names_of_run reaches.isContent (Nat.zero_le _) reaches.ran

theorem Reaches.distinct : scan.names.Nodup :=
  table_nodup reaches.isContent (Nat.zero_le _) reaches.ran List.nodup_nil

theorem Reaches.names_entered (accepted : enterLabel scan content = .ok entered) :
    entered.names = (labelNames (before ++ [content])).map storedName := by
  rw [names_of_enterLabel accepted, reaches.names, labelNames_append, List.map_append]

theorem Reaches.mem_names_iff (accepted : enterLabel scan content = .ok entered)
    (symbolName : CString) :
    (symtableLookup entered.ctx.table symbolName).isSome ↔
      ∃ name ∈ labelNames (before ++ [content]), storedName name = symbolName := by
  rw [symtableLookup_isSome_iff, ← List.mem_map, ← reaches.names_entered accepted]
  rfl

theorem Reaches.nodup_entered (accepted : enterLabel scan content = .ok entered) :
    ((labelNames (before ++ [content])).map storedName).Nodup := by
  rw [← reaches.names_entered accepted]
  rcases enterLabel_ok accepted with ⟨-, rfl⟩ | ⟨name, rest, symbol, -, -, admits, rfl⟩
  · exact reaches.distinct
  · rw [Scan.names_enter, List.nodup_append]
    refine ⟨reaches.distinct, List.nodup_singleton _, ?_⟩
    rintro old oldMember new newMember rfl
    obtain ⟨other, otherMember, same⟩ := List.mem_map.mp oldMember
    exact admits.2 other otherMember (same.trans (List.mem_singleton.mp newMember))

theorem Reaches.labelNames_source :
    labelNames (sourceContents source) = labelNames (before ++ [content]) ++ labelNames after := by
  rw [reaches.split, ← labelNames_append, List.append_assoc]
  rfl

/-- A label is entered when none before it is stored under the same name. -/
theorem Reaches.entered_iff (distinct : DistinctLabels source) :
    (∃ entered, enterLabel scan content = .ok entered) ↔
      ∀ name ∈ labelNames [content], ∀ other ∈ labelNames before,
        storedName other ≠ storedName name := by
  constructor
  · rintro ⟨entered, accepted⟩ name member other otherMember same
    have nodup := reaches.nodup_entered accepted
    rw [labelNames_append, List.map_append, List.nodup_append] at nodup
    exact nodup.2.2 _ (List.mem_map_of_mem otherMember) _ (List.mem_map_of_mem member) same
  · intro fresh
    cases labelled : leadingLabel content.line with
    | none => exact ⟨scan, by simp only [enterLabel, labelled]⟩
    | some label =>
        obtain ⟨name, rest⟩ := label
        have single : labelNames [content] = [name] := labelNames_of_labelled labelled
        have member : content ∈ sourceContents source := by
          rw [reaches.split]
          simp
        have inSegment : ∃ symbol, scan.symbol content.segment name = some symbol := by
          unfold Scan.symbol
          rcases distinct.segments content member (by simp [labelled]) with inText | inData
          · exact ⟨_, if_pos inText⟩
          · rw [inData, not_isText_data]
            exact ⟨_, rfl⟩
        obtain ⟨symbol, isEntered⟩ := inSegment
        have stored := (Scan.symbol_name isEntered).1
        have count : scan.ctx.table.count = (labelNames before).length := by
          have names := congrArg List.length reaches.names
          simpa [Scan.names, Symtable.count] using names
        have room : (labelNames before).length < maxSymbols := by
          have few := distinct.few
          rw [reaches.labelNames_source, labelNames_append, single] at few
          simp only [List.length_append, List.length_singleton] at few
          omega
        refine ⟨_, enterLabel_of_symbol labelled isEntered ⟨by omega, ?_⟩⟩
        intro old oldMember same
        have oldName : old.name ∈ scan.names := List.mem_map_of_mem oldMember
        rw [reaches.names] at oldName
        obtain ⟨other, otherMember, otherStored⟩ := List.mem_map.mp oldName
        exact fresh name (by simp [single]) other otherMember
          (otherStored.trans (same.trans stored))

/-- What a lookup finds is a label that was entered, at its offset. -/
theorem Reaches.lookup_some (accepted : enterLabel scan content = .ok entered)
    {symbolName : CString} {offset : Word}
    (looked : symtableLookup entered.ctx.table symbolName = some offset) :
    ∃ name ∈ labelNames (before ++ [content]), storedName name = symbolName ∧
      LabelOffset build baseVaddr source name offset := by
  obtain ⟨symbol, member, rfl, rfl⟩ := symtableLookup_some looked
  have known : symbol ∈ scan.ctx.table.symbols → ∃ name ∈ labelNames (before ++ [content]),
      storedName name = symbol.name ∧ LabelOffset build baseVaddr source name symbol.offset := by
    intro old
    rcases symbols_of_run reaches.isContent (Nat.zero_le _) reaches.ran symbol old with
      none | ⟨first, definition, rest, middle, name, tail, split, ran, labelled, isEntered⟩
    · cases none
    · obtain ⟨stored, address⟩ := Scan.symbol_name isEntered
      refine ⟨name, ?_, stored.symm, first, definition, rest ++ content :: after, middle, tail,
        ⟨?_, ran⟩, labelled, address⟩
      · refine List.mem_filterMap.mpr ⟨definition, ?_, by rw [labelled]; rfl⟩
        simp [split]
      · rw [reaches.split, split, List.append_assoc]
        rfl
  rcases enterLabel_ok accepted with ⟨-, rfl⟩ | ⟨name, rest, new, labelled, isEntered, -, rfl⟩
  · exact known member
  · rcases List.mem_append.mp member with old | isNew
    · exact known old
    · obtain rfl := List.mem_singleton.mp isNew
      obtain ⟨stored, address⟩ := Scan.symbol_name isEntered
      refine ⟨name, ?_, stored.symm, before, content, after, scan, rest, reaches, labelled, address⟩
      rw [labelNames_append, labelNames_of_labelled labelled]
      simp

/-- After the last label the table is the one that the next pass gets. -/
theorem Reaches.table_final (accepted : enterLabel scan content = .ok entered)
    (last : labelNames after = []) {ctx1 : AssemblerCtx}
    (scanned : scanLabels build (some source) (initCtx baseVaddr) = (.ok, ctx1)) :
    ctx1.table = entered.ctx.table := by
  obtain ⟨final, ran, rfl⟩ := scanLabels_ok_iff.mp scanned
  have isContent : ∀ other ∈ before ++ content :: after, IsContentLine other.line := by
    intro other member
    exact sourceContents_isContentLine (reaches.split ▸ member)
  rw [reaches.split] at ran
  obtain ⟨middle, left, right⟩ := Loop.run_append_iff.mp ran
  obtain rfl : middle = scan := by
    have reached := reaches.ran
    rw [scanContents, left] at reached
    exact (Prod.mk.inj reached).2
  have bounded := (scanContents_invariant (fun _ => True) reaches.isContent
    (fun _ _ _ _ _ _ => trivial) left (Nat.zero_le _) trivial).1
  obtain ⟨next, step, rest⟩ :=
    (scanContents_cons_iff (isContent content (by simp)) bounded).mp right
  obtain ⟨other, otherAccepted, table⟩ := step.enterLabel
  obtain rfl : other = entered := by
    rw [accepted] at otherAccepted
    exact (Except.ok.inj otherAccepted).symm
  rw [← table]
  exact table_of_run (fun other member => isContent other (by simp [member]))
    (step.bounded bounded) last rest

end Reached

/-! ### Which files resolve their labels -/

/-- Labels are told apart, and symbols from labels, on every line that pass 1 gets to. -/
theorem labelsResolve_iff (build : Build) (baseVaddr : Word) {source : List Char}
    (distinct : DistinctLabels source) :
    LabelsResolve build baseVaddr source ↔
      ∀ before content after scan, Reaches build baseVaddr source before content after scan →
        LineResolves before content after := by
  constructor
  · intro resolve before content after scan reaches
    obtain ⟨entered, accepted⟩ := resolve.entered before content after scan reaches
    refine ⟨(reaches.entered_iff distinct).mp ⟨entered, accepted⟩,
      resolve.fits before content after scan reaches, ?_⟩
    intro inText last symbolName symbol name member stored
    have short := resolve.fits before content after scan reaches inText symbolName symbol
    obtain ⟨found, -⟩ := resolve.resolved before content after scan entered reaches accepted inText
      last symbolName symbol
    have isLabel :=
      found.mp ((reaches.mem_names_iff accepted symbolName).mpr ⟨name, member, stored⟩)
    rw [reaches.labelNames_source, last, List.append_nil] at isLabel
    have kept : storedName symbolName = symbolName :=
      List.take_of_length_le (by simp only [nameLen] at short; simp only [labelLen]; omega)
    exact List.inj_on_of_nodup_map (reaches.nodup_entered accepted) member isLabel
      (stored.trans kept.symm)
  · intro resolves
    refine ⟨?_, ?_, ?_⟩
    · intro before content after scan reaches
      exact (reaches.entered_iff distinct).mpr (resolves before content after scan reaches).fresh
    · intro before content after scan reaches
      exact (resolves before content after scan reaches).fits
    · intro before content after scan entered reaches accepted inText last symbolName symbol
      have line := resolves before content after scan reaches
      have short := line.fits inText symbolName symbol
      have whole := line.whole inText last symbolName symbol
      have kept : storedName symbolName = symbolName :=
        List.take_of_length_le (by simp only [nameLen] at short; simp only [labelLen]; omega)
      refine ⟨?_, ?_, fun ctx1 scanned => reaches.table_final accepted last scanned⟩
      · rw [reaches.mem_names_iff accepted, reaches.labelNames_source, last, List.append_nil]
        constructor
        · rintro ⟨name, member, stored⟩
          rw [← whole name member stored]
          exact member
        · intro member
          exact ⟨symbolName, member, kept⟩
      · intro offset looked
        obtain ⟨name, member, stored, address⟩ := reaches.lookup_some accepted looked
        rw [← whole name member stored]
        exact address

theorem lineResolves_of_data {before after : List Content} {content : Content}
    (notText : isText content.segment = false)
    (fresh : ∀ name ∈ labelNames [content], ∀ other ∈ labelNames before,
      storedName other ≠ storedName name) : LineResolves before content after := by
  constructor
  · exact fresh
  · intro inText
    rw [notText] at inText
    cases inText
  · intro inText
    rw [notText] at inText
    cases inText

theorem labelsResolve_exampleSource : LabelsResolve .native 0x80000000 exampleSource := by
  refine (labelsResolve_iff .native 0x80000000
    ⟨by decide +kernel, by decide +kernel, by decide +kernel⟩).mpr ?_
  intro before content after scan reaches
  have lines : sourceContents exampleSource =
      [⟨"data".toList, "first: .word 1".toList⟩,
        ⟨"data".toList, "second: .word 2 # here".toList⟩,
        ⟨"text".toList, "la a0, second".toList⟩] := by
    decide +kernel
  have split := lines.symm.trans reaches.split
  match before with
  | [] =>
      cases split
      exact lineResolves_of_data (by decide) (by decide)
  | [_] =>
      cases split
      exact lineResolves_of_data (by decide) (by decide)
  | [_, _] =>
      cases split
      have symbol : laSymbol (afterLabel "la a0, second".toList) = some "second".toList := by decide
      refine ⟨by decide, ?_, ?_⟩
      · intro _ symbolName scanned
        rw [symbol] at scanned
        cases scanned
        decide
      · intro _ _ symbolName scanned
        rw [symbol] at scanned
        cases scanned
        decide
  | _ :: _ :: _ :: _ =>
      simp at split

def longLabel (last : Char) : CString :=
  List.replicate 63 'a' ++ [last]

def longReference : List Char :=
  ".data\n".toList ++ longLabel 'b' ++ ": .byte 1\n.text\nla a0, ".toList ++ longLabel 'b'

/-- The symbol and its null byte do not fit `symbol_name`, and the table has only the first 63
characters of the label. -/
theorem longReference_not_resolved :
    DistinctLabels longReference ∧
      (scanLabels .native (some longReference) (initCtx 0)).1 = .fail .symNotFound ∧
      ¬ LabelsResolve .native 0 longReference := by
  refine ⟨⟨by decide +kernel, by decide +kernel, by decide +kernel⟩, by decide +kernel,
    fun resolve => ?_⟩
  have split : sourceContents longReference =
      [⟨"data".toList, longLabel 'b' ++ ": .byte 1".toList⟩] ++
        ⟨"text".toList, "la a0, ".toList ++ longLabel 'b'⟩ :: [] := by
    decide +kernel
  have reaches : Reaches .native 0 longReference _ _ _ _ :=
    ⟨split, Prod.ext (by decide +kernel) rfl⟩
  have short := resolve.fits _ _ _ _ reaches (by decide +kernel) (longLabel 'b') (by decide +kernel)
  exact absurd short (by decide +kernel)

def sharedPrefix : List Char :=
  ".data\n".toList ++ longLabel 'b' ++ ": .byte 1\n".toList ++ longLabel 'c' ++
    ": .byte 2\n".toList

/-- The second of two distinct labels is rejected. -/
theorem sharedPrefix_not_resolved :
    DistinctLabels sharedPrefix ∧
      (scanLabels .native (some sharedPrefix) (initCtx 0)).1 = .fail .err ∧
      ¬ LabelsResolve .native 0 sharedPrefix := by
  have distinct : DistinctLabels sharedPrefix :=
    ⟨by decide +kernel, by decide +kernel, by decide +kernel⟩
  refine ⟨distinct, by decide +kernel, fun resolve => ?_⟩
  have split : sourceContents sharedPrefix =
      [⟨"data".toList, longLabel 'b' ++ ": .byte 1".toList⟩] ++
        ⟨"data".toList, longLabel 'c' ++ ": .byte 2".toList⟩ :: [] := by
    decide +kernel
  have reaches : Reaches .native 0 sharedPrefix _ _ _ _ :=
    ⟨split, Prod.ext (by decide +kernel) rfl⟩
  have fresh := (reaches.entered_iff distinct).mp (resolve.entered _ _ _ _ reaches)
  exact fresh (longLabel 'c') (by decide +kernel) (longLabel 'b') (by decide +kernel)
    (by decide +kernel)

end RiscvAs
