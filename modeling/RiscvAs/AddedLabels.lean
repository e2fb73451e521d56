/-
Files with labels added to them.

An `Edit` keeps a part of a file, puts labels in front of one of its lines or adds a label on a
line of its own.  Pass 1 enters a label in both segments, but pass 2 takes one off only where a
directive follows in the data segment; so an added line is accepted only there, and adds bytes
unless the directive denotes none.
-/

import RiscvAs.Acceptance
import RiscvAs.Stdio.Lines
import RiscvAs.Trimming

namespace RiscvAs

open Stdio
open Bytes (Byte)
open Rv32 (Word)

inductive Edit where
  | kept (text : List Char)
  | prefixed (name : CString) (others : List CString) (line : List Char)
  | alone (name : CString)

/-- `name: ` -/
def labelPrefix (name : CString) : List Char :=
  name ++ ": ".toList

def Edit.original : Edit → List Char
  | .kept text => text
  | .prefixed _ _ line => line
  | .alone _ => []

def Edit.labelled : Edit → List Char
  | .kept text => text
  | .prefixed name others line => labelPrefix name ++ (others.flatMap labelPrefix ++ line)
  | .alone name => name ++ ":\n".toList

def original (edits : List Edit) : List Char :=
  edits.flatMap Edit.original

def labelled (edits : List Edit) : List Char :=
  edits.flatMap Edit.labelled

def Edit.names : Edit → List CString
  | .kept _ => []
  | .prefixed name others _ => name :: others
  | .alone name => [name]

def addedNames (edits : List Edit) : List CString :=
  edits.flatMap Edit.names

/-- A name that a label definition can have: it would else not be read as one word, be cut, or
begin a segment line or a comment. -/
structure IsLabelName (name : CString) : Prop where
  nonempty : name ≠ []
  noBlank : ∀ c ∈ name, isspace c = false
  noNul : ∀ c ∈ name, c ≠ '\x00'
  notDot : name.head? ≠ some '.'
  notComment : name.head? ≠ some '#'
  short : name.length ≤ labelLen - 1

/-- The labels are names in front of a whole line, which stays short enough for the buffer. -/
def Edit.IsWellFormed : Edit → Prop
  | .kept _ => True
  | .prefixed name others line => (∀ other ∈ name :: others, IsLabelName other) ∧
      IsPhysicalLine line ∧
      (labelPrefix name ++ (others.flatMap labelPrefix ++ line)).length < lineBufLen
  | .alone name => IsLabelName name

structure WellFormed (edits : List Edit) : Prop where
  each : ∀ edit ∈ edits, edit.IsWellFormed
  ended : ∀ edit ∈ edits.dropLast, edit.original = [] ∨ edit.original.getLast? = some '\n'

theorem isLabelName_iff (name : CString) :
    IsLabelName name ↔ name ≠ [] ∧ name.all (fun c => !isspace c && c ≠ '\x00') = true ∧
      name.head? ≠ some '.' ∧ name.head? ≠ some '#' ∧ name.length ≤ labelLen - 1 := by
  simp only [List.all_eq_true, Bool.and_eq_true, Bool.not_eq_true', decide_eq_true_eq]
  constructor
  · rintro ⟨nonempty, noBlank, noNul, notDot, notComment, short⟩
    exact ⟨nonempty, fun c member => ⟨noBlank c member, noNul c member⟩, notDot, notComment, short⟩
  · rintro ⟨nonempty, plain, notDot, notComment, short⟩
    exact ⟨nonempty, fun c member => (plain c member).1, fun c member => (plain c member).2, notDot,
      notComment, short⟩

instance (name : CString) : Decidable (IsLabelName name) :=
  decidable_of_iff _ (isLabelName_iff name).symm

instance (line : List Char) : Decidable (IsPhysicalLine line) :=
  decidable_of_iff (line ≠ [] ∧ '\n' ∉ line.dropLast)
    ⟨fun ⟨nonempty, single⟩ => ⟨nonempty, single⟩,
      fun isLine => ⟨isLine.nonempty, isLine.single⟩⟩

instance : (edit : Edit) → Decidable edit.IsWellFormed
  | .kept _ => inferInstanceAs (Decidable True)
  | .prefixed _ _ _ => inferInstanceAs (Decidable (_ ∧ _ ∧ _))
  | .alone name => inferInstanceAs (Decidable (IsLabelName name))

instance (edits : List Edit) : Decidable (WellFormed edits) :=
  decidable_of_iff ((∀ edit ∈ edits, edit.IsWellFormed) ∧
      ∀ edit ∈ edits.dropLast, edit.original = [] ∨ edit.original.getLast? = some '\n')
    ⟨fun ⟨each, ended⟩ => ⟨each, ended⟩, fun wellFormed => ⟨wellFormed.each, wellFormed.ended⟩⟩

/-- The labels are distinct, no labels of the file, and not too many. -/
structure FreshLabels (edits : List Edit) : Prop where
  distinct : (addedNames edits).Nodup
  fresh : ∀ name ∈ addedNames edits, name ∉ labelNames (sourceContents (original edits))
  few : (labelNames (sourceContents (original edits))).length +
    (addedNames edits).length ≤ maxSymbols

def Edit.originalBuffers (edit : Edit) : List CString :=
  fgetsLines lineBufLen edit.original

def Edit.labelledBuffers (edit : Edit) : List CString :=
  fgetsLines lineBufLen edit.labelled

def Edit.isKept : Edit → Bool
  | .kept _ => true
  | .prefixed .. | .alone _ => false

def addedLines : CString → List Edit → List Content
  | _, [] => []
  | segment, edit :: edits =>
      if edit.isKept then addedLines (segmentAfter segment edit.labelledBuffers) edits
      else contents segment edit.labelledBuffers ++
        addedLines (segmentAfter segment edit.labelledBuffers) edits

/-- The file is accepted too, with the same bytes. -/
def SameBytes (build : Build) (baseVaddr : Word) (source : List Char)
    (ctx2 : AssemblerCtx) : Prop :=
  ∃ ctx1' ctx2', Accepted build baseVaddr source ctx1' ctx2' ∧
    ctx2'.textSegment.bytes = ctx2.textSegment.bytes ∧
    ctx2'.dataSegment.bytes = ctx2.dataSegment.bytes

/-- Every added label stands in front of a directive of the data segment that denotes no bytes,
and no label of the file is stored under its name. -/
structure LabelsTransparent (build : Build) (edits : List Edit) : Prop where
  empty : ∀ content ∈ addedLines [] edits, content.segment = "data".toList ∧
    dataLineBytes build (afterLabel content.line) = some []
  apart : ∀ name ∈ labelNames (addedLines [] edits),
    ∀ other ∈ labelNames (sourceContents (original edits)), storedName other ≠ name

section Label

variable {name tail : CString} (isName : IsLabelName name)

include isName

theorem IsLabelName.front (tail : CString) : Stops isspace (name ++ ':' :: tail) :=
  (stops_append isName.nonempty _).mpr (stops_of_rejected isName.noBlank)

theorem IsLabelName.storedName_eq : storedName name = name :=
  List.take_of_length_le isName.short

theorem leadingLabel_of_name (stops : Stops (fun c => !isspace c) tail) :
    leadingLabel (name ++ ':' :: tail) = some (name, skipBlanks tail) := by
  have short := isName.short
  simp only [labelLen] at short
  exact leadingLabel_append isName.noBlank (by omega) stops

theorem stringTrim_label (tail : CString) :
    stringTrim (name ++ ':' :: tail) = name ++ ':' :: tail.rdropWhile isspace := by
  rw [stringTrim_eq, skipBlanks_of_stops (isName.front tail),
    rdropWhile_append_cons name (by decide)]

theorem turnOf_label (stops : Stops (fun c => !isspace c) tail) :
    ∃ line, turnOf (name ++ ':' :: tail) = .content line ∧
      leadingLabel line = some (name, stringTrim tail) := by
  have trimmed := stringTrim_label isName tail
  have tailStops : Stops (fun c => !isspace c) (tail.rdropWhile isspace) :=
    stops_of_prefix (List.rdropWhile_prefix isspace tail) stops
  have rest : skipBlanks (tail.rdropWhile isspace) = stringTrim tail := by
    rw [stringTrim_eq]
    exact dropWhile_rdropWhile isspace tail
  refine ⟨_, ?_, rest ▸ leadingLabel_of_name isName tailStops⟩
  obtain ⟨c, more, rfl⟩ := List.exists_cons_of_ne_nil isName.nonempty
  have notDot : c ≠ '.' := fun dot => isName.notDot (by rw [dot]; rfl)
  have notComment : c ≠ '#' := fun mark => isName.notComment (by rw [mark]; rfl)
  have kept : isIgnorableLine (stringTrim (c :: more ++ ':' :: tail)) = false := by
    rw [isIgnorableLine_of_stops (stops_stringTrim _), trimmed]
    simp [notComment]
  rw [turnOf, kept, trimmed, if_neg (by decide)]
  simp [notDot]

end Label

def originalBuffers (edits : List Edit) : List CString :=
  edits.flatMap Edit.originalBuffers

def labelledBuffers (edits : List Edit) : List CString :=
  edits.flatMap Edit.labelledBuffers

section Buffers

variable {edits : List Edit} {edit : Edit}

theorem Edit.labelled_ended (wellFormed : edit.IsWellFormed)
    (ended : edit.original = [] ∨ edit.original.getLast? = some '\n') :
    edit.labelled = [] ∨ edit.labelled.getLast? = some '\n' := by
  cases edit with
  | kept text => exact ended
  | alone name => exact Or.inr (by simp [Edit.labelled])
  | prefixed name others line =>
      obtain ⟨-, isLine, -⟩ := wellFormed
      have last : line.getLast? = some '\n' := ended.resolve_left isLine.nonempty
      right
      rw [Edit.labelled, List.getLast?_append, List.getLast?_append, last]
      rfl

theorem sourceContents_original (wellFormed : WellFormed edits) :
    sourceContents (original edits) = contents [] (originalBuffers edits) := by
  have ended : ∀ part ∈ (edits.map Edit.original).dropLast,
      part = [] ∨ part.getLast? = some '\n' := by
    intro part member
    rw [← List.map_dropLast] at member
    obtain ⟨edit, inEdits, rfl⟩ := List.mem_map.mp member
    exact wellFormed.ended edit inEdits
  rw [sourceContents, original, List.flatMap_def, fgetsLines_flatten (by decide) ended,
    List.map_map, originalBuffers, List.flatMap_def]
  rfl

theorem sourceContents_labelled (wellFormed : WellFormed edits) :
    sourceContents (labelled edits) = contents [] (labelledBuffers edits) := by
  have ended : ∀ part ∈ (edits.map Edit.labelled).dropLast,
      part = [] ∨ part.getLast? = some '\n' := by
    intro part member
    rw [← List.map_dropLast] at member
    obtain ⟨edit, inEdits, rfl⟩ := List.mem_map.mp member
    exact edit.labelled_ended (wellFormed.each edit (List.mem_of_mem_dropLast inEdits))
      (wellFormed.ended edit inEdits)
  rw [sourceContents, labelled, List.flatMap_def, fgetsLines_flatten (by decide) ended,
    List.map_map, labelledBuffers, List.flatMap_def]
  rfl

theorem IsLabelName.noNewline {name : CString} (isName : IsLabelName name) : '\n' ∉ name := by
  intro member
  have blank := isName.noBlank '\n' member
  cases blank

theorem newline_not_mem_prefixes {names : List CString}
    (areNames : ∀ name ∈ names, IsLabelName name) : '\n' ∉ names.flatMap labelPrefix := by
  intro member
  obtain ⟨name, inNames, inPrefix⟩ := List.mem_flatMap.mp member
  rcases List.mem_append.mp inPrefix with inName | inColon
  · exact (areNames name inNames).noNewline inName
  · exact absurd inColon (by decide)

theorem Edit.labelledBuffers_added (wellFormed : edit.IsWellFormed) (added : edit.isKept = false) :
    ∃ buffer line name rest, edit.labelledBuffers = [buffer] ∧ turnOf buffer = .content line ∧
      leadingLabel line = some (name, rest) ∧ IsLabelName name ∧ [name].Sublist edit.names ∧
      (rest = [] ∨ ∃ others text, edit = .prefixed name others text ∧
        rest = stringTrim (cstring (others.flatMap labelPrefix ++ text))) := by
  have size : 2 ≤ lineBufLen := by decide
  cases edit with
  | kept text => cases added
  | alone name =>
      have isName : IsLabelName name := wellFormed
      obtain ⟨line, turn, labelled⟩ := turnOf_label isName (show Stops _ ['\n'] by simp [isspace])
      have fits : (name ++ ":\n".toList).length < lineBufLen := by
        have short := isName.short
        simp only [labelLen] at short
        simp only [List.length_append, lineBufLen]
        have ending : ":\n".toList.length = 2 := rfl
        omega
      have colon : IsPhysicalLine ":\n".toList := by decide
      have isLine : IsPhysicalLine (name ++ ":\n".toList) := colon.prepend isName.noNewline
      have read : fgetsLines lineBufLen (name ++ ":\n".toList) = [cstring (name ++ ":\n".toList)] :=
        fgetsLines_line size isLine.nonempty fits isLine.single
      have buffer : cstring (name ++ ":\n".toList) = name ++ ':' :: ['\n'] :=
        cstring_append isName.noNul ":\n".toList
      refine ⟨_, line, name, [], read, ?_, labelled, isName, List.Sublist.refl _, Or.inl rfl⟩
      rw [buffer]
      exact turn
  | prefixed name others text =>
      obtain ⟨areNames, isLine, fits⟩ := wellFormed
      have isName := areNames name (List.mem_cons_self ..)
      obtain ⟨line, turn, labelled⟩ := turnOf_label isName
        (show Stops _ (' ' :: cstring (others.flatMap labelPrefix ++ text)) by simp [isspace])
      rw [stringTrim_space] at labelled
      have whole : labelPrefix name ++ (others.flatMap labelPrefix ++ text) =
          (name :: others).flatMap labelPrefix ++ text := by
        rw [List.flatMap_cons, List.append_assoc]
      have isLine' : IsPhysicalLine (labelPrefix name ++ (others.flatMap labelPrefix ++ text)) := by
        rw [whole]
        exact isLine.prepend (newline_not_mem_prefixes areNames)
      have read := fgetsLines_line size isLine'.nonempty fits isLine'.single
      have buffer : cstring (labelPrefix name ++ (others.flatMap labelPrefix ++ text)) =
          name ++ ':' :: ' ' :: cstring (others.flatMap labelPrefix ++ text) := by
        rw [labelPrefix, List.append_assoc, cstring_append isName.noNul]
        rfl
      refine ⟨_, line, name, _, read, ?_, labelled, isName, ?_, Or.inr ⟨others, text, rfl, rfl⟩⟩
      · rw [buffer]
        exact turn
      · exact List.singleton_sublist.mpr (List.mem_cons_self ..)

end Buffers

section Directives

variable {build : Build} {p : CString} {bytes : List Byte} (front : Stops isspace p)
  (denoted : dataLineBytes build p = some bytes)

include front denoted

/-- A directive begins with its dot, so without its label it is a segment line. -/
theorem dot_of_denoted : ∃ name, p = '.' :: name := by
  obtain ⟨-, dotted, -⟩ := isDataDirective_shape (isDataDirective_mnemonicOf denoted)
  rw [mnemonicOf, skipBlanks_of_stops front] at dotted
  cases p with
  | nil => cases dotted
  | cons c rest =>
      rw [List.head?_takeWhile] at dotted
      obtain ⟨same, -⟩ := Option.filter_eq_some_iff.mp dotted
      rw [Option.some.inj same]
      exact ⟨rest, rfl⟩

omit front in
theorem afterLabel_of_denoted : afterLabel p = p := by
  obtain ⟨short, -, noColon⟩ := isDataDirective_shape (isDataDirective_mnemonicOf denoted)
  have whole : (mnemonicOf p).take 255 = mnemonicOf p := List.take_of_length_le (by omega)
  rw [afterLabel, leadingLabel_eq, whole, if_neg noColon]

end Directives

/-- A segment that content lines can be accepted in. -/
def IsKnown (segment : CString) : Prop :=
  isText segment = true ∨ segment = "data".toList

/-- The unlabelled directive names a segment that no content line can stand in. -/
theorem turnOf_of_denoted {build : Build} {buffer : CString} {bytes : List Byte}
    (short : buffer.length < lineBufLen)
    (denoted : dataLineBytes build (stringTrim buffer) = some bytes) :
    ∃ name, turnOf buffer = .segment name ∧ ¬ IsKnown name := by
  have front := stops_stringTrim buffer
  obtain ⟨name, dotted⟩ := dot_of_denoted front denoted
  have kept : isIgnorableLine (stringTrim buffer) = false := by
    rw [isIgnorableLine_of_stops front, dotted]
    rfl
  have turn : turnOf buffer = .segment (snprintf lineBufLen name) := by
    rw [turnOf, kept, dotted]
    rfl
  refine ⟨_, turn, ?_⟩
  intro known
  have none := not_directiveLine_of_segment turn short known
  rw [directiveLine, kept, if_neg (by decide), afterLabel_of_denoted denoted,
    if_pos (isDataDirective_mnemonicOf denoted)] at none
  cases none

theorem others_of_denoted {build : Build} {others : List CString} {text : List Char}
    {bytes : List Byte} (areNames : ∀ name ∈ others, IsLabelName name)
    (denoted : dataLineBytes build (stringTrim (cstring (others.flatMap labelPrefix ++ text))) =
      some bytes) : others = [] := by
  cases others with
  | nil => rfl
  | cons name others =>
      have isName := areNames name (List.mem_cons_self ..)
      obtain ⟨rest, dotted⟩ := dot_of_denoted (stops_stringTrim _) denoted
      have split : (name :: others).flatMap labelPrefix ++ text =
          name ++ (": ".toList ++ (others.flatMap labelPrefix ++ text)) := by
        simp [labelPrefix]
      have colon : cstring (": ".toList ++ (others.flatMap labelPrefix ++ text)) =
          ':' :: ' ' :: cstring (others.flatMap labelPrefix ++ text) := rfl
      rw [split, cstring_append isName.noNul, colon, stringTrim_label isName] at dotted
      have first := congrArg List.head? dotted
      rw [List.head?_append_of_ne_nil _ isName.nonempty] at first
      exact absurd first isName.notDot

/-! ### Content lines of both files -/

section Contents

variable {build : Build} {edits : List Edit}

theorem contents_eq_of_known {segment segment₀ : CString} {buffers : List CString}
    (follows : segment = segment₀ ∨ ¬ IsKnown segment₀)
    (known : ∀ content ∈ contents segment₀ buffers, IsKnown content.segment) :
    contents segment buffers = contents segment₀ buffers ∧
      (segmentAfter segment buffers = segmentAfter segment₀ buffers ∨
        ¬ IsKnown (segmentAfter segment₀ buffers)) := by
  induction buffers generalizing segment segment₀ with
  | nil => exact ⟨rfl, follows⟩
  | cons buffer buffers ih =>
      simp only [contents, segmentAfter] at known ⊢
      cases turn : turnOf buffer with
      | ignored =>
          simp only [turn] at known
          exact ih follows known
      | segment name => exact ⟨rfl, Or.inl rfl⟩
      | content line =>
          simp only [turn] at known
          have here : IsKnown segment₀ := known ⟨segment₀, line⟩ (List.mem_cons_self ..)
          obtain rfl := follows.resolve_right (not_not_intro here)
          exact ⟨rfl, Or.inl rfl⟩

theorem labelledBuffers_cons (edit : Edit) (edits : List Edit) :
    labelledBuffers (edit :: edits) = edit.labelledBuffers ++ labelledBuffers edits :=
  List.flatMap_cons

theorem originalBuffers_cons (edit : Edit) (edits : List Edit) :
    originalBuffers (edit :: edits) = edit.originalBuffers ++ originalBuffers edits :=
  List.flatMap_cons

theorem addedLines_subset (segment : CString) (edits : List Edit) :
    ∀ content ∈ addedLines segment edits, content ∈ contents segment (labelledBuffers edits) := by
  induction edits generalizing segment with
  | nil =>
      intro content member
      cases member
  | cons edit edits ih =>
      intro content member
      rw [labelledBuffers_cons, contents_append]
      rw [addedLines] at member
      split at member
      · exact List.mem_append_right _ (ih _ content member)
      · rcases List.mem_append.mp member with here | later
        · exact List.mem_append_left _ here
        · exact List.mem_append_right _ (ih _ content later)

theorem labelNames_addedLines (wellFormed : ∀ edit ∈ edits, edit.IsWellFormed) (segment : CString) :
    (labelNames (addedLines segment edits)).Sublist (addedNames edits) ∧
      ∀ content ∈ addedLines segment edits, ∃ name rest,
        leadingLabel content.line = some (name, rest) ∧ IsLabelName name := by
  induction edits generalizing segment with
  | nil => simp [addedLines, labelNames, addedNames]
  | cons edit edits ih =>
      obtain ⟨sublist, labels⟩ := ih (fun other member =>
        wellFormed other (List.mem_cons_of_mem edit member))
          (segmentAfter segment edit.labelledBuffers)
      rw [addedLines, addedNames, List.flatMap_cons]
      cases kept : edit.isKept with
      | true =>
          rw [if_pos rfl]
          exact ⟨sublist.trans (List.sublist_append_right _ _), labels⟩
      | false =>
          obtain ⟨buffer, line, name, rest, read, turn, labelled, isName, inNames, -⟩ :=
            Edit.labelledBuffers_added (wellFormed edit (List.mem_cons_self ..)) kept
          have single : contents segment edit.labelledBuffers = [⟨segment, line⟩] := by
            rw [read]
            simp only [contents, turn]
          rw [if_neg (by decide), single, labelNames_append, labelNames_of_labelled labelled]
          refine ⟨inNames.append sublist, ?_⟩
          intro content member
          rcases List.mem_cons.mp member with rfl | later
          · exact ⟨name, rest, labelled, isName⟩
          · exact labels content later

theorem storedName_addedLines (wellFormed : ∀ edit ∈ edits, edit.IsWellFormed) (segment : CString) :
    ∀ name ∈ labelNames (addedLines segment edits), storedName name = name := by
  intro name member
  obtain ⟨content, inAdded, first⟩ := List.mem_filterMap.mp member
  obtain ⟨other, rest, labelled, isName⟩ :=
    (labelNames_addedLines wellFormed segment).2 content inAdded
  rw [labelled] at first
  obtain rfl := Option.some.inj first
  exact isName.storedName_eq

theorem Edit.labelledBuffers_kept {edit : Edit} (kept : edit.isKept = true) :
    edit.labelledBuffers = edit.originalBuffers := by
  cases edit with
  | kept text => rfl
  | prefixed name others text => cases kept
  | alone name => cases kept

theorem Edit.originalBuffers_added {name rest : CString} {bytes : List Byte} {edit : Edit}
    (wellFormed : edit.IsWellFormed)
    (shape : rest = [] ∨ ∃ others text, edit = .prefixed name others text ∧
      rest = stringTrim (cstring (others.flatMap labelPrefix ++ text)))
    (denoted : dataLineBytes build rest = some bytes) :
    ∃ buffer segment, edit.originalBuffers = [buffer] ∧ turnOf buffer = .segment segment ∧
      ¬ IsKnown segment := by
  rcases shape with rfl | ⟨others, text, rfl, rfl⟩
  · rw [dataLineBytes_nil] at denoted
    cases denoted
  · obtain ⟨areNames, isLine, fits⟩ := wellFormed
    obtain rfl := others_of_denoted (fun other member =>
      areNames other (List.mem_cons_of_mem name member)) denoted
    rw [List.flatMap_nil, List.nil_append] at denoted
    rw [List.flatMap_nil, List.nil_append, List.length_append] at fits
    have read : fgetsLines lineBufLen text = [cstring text] :=
      fgetsLines_line (by decide) isLine.nonempty (by omega) isLine.single
    have short : (cstring text).length < lineBufLen :=
      Nat.lt_of_le_of_lt (cstring_length_le text) (by omega)
    obtain ⟨segment, turn, notKnown⟩ := turnOf_of_denoted short denoted
    exact ⟨cstring text, segment, read, turn, notKnown⟩

/-- Where every added label is in front of a directive, the labelled file has the content lines of
the original one, and the added lines between them. -/
theorem contents_labelled (wellFormed : ∀ edit ∈ edits, edit.IsWellFormed)
    {segment segment₀ : CString} (follows : segment = segment₀ ∨ ¬ IsKnown segment₀)
    (known : ∀ content ∈ contents segment₀ (originalBuffers edits), IsKnown content.segment)
    (denoted : ∀ content ∈ addedLines segment edits,
      ∃ bytes, dataLineBytes build (afterLabel content.line) = some bytes) :
    (contents segment₀ (originalBuffers edits)).Sublist (contents segment (labelledBuffers edits)) ∧
      (contents segment (labelledBuffers edits)).Perm
        (contents segment₀ (originalBuffers edits) ++ addedLines segment edits) := by
  induction edits generalizing segment segment₀ with
  | nil => exact ⟨List.Sublist.refl _, List.Perm.refl _⟩
  | cons edit edits ih =>
      have wellFormedRest := fun other member => wellFormed other (List.mem_cons_of_mem edit member)
      rw [originalBuffers_cons, contents_append] at known
      rw [originalBuffers_cons, labelledBuffers_cons, contents_append, contents_append]
      cases kept : edit.isKept with
      | true =>
          have same := Edit.labelledBuffers_kept kept
          rw [addedLines, kept, if_pos rfl] at denoted ⊢
          rw [same] at denoted ⊢
          obtain ⟨equal, followsRest⟩ := contents_eq_of_known follows
            (fun content member => known content (List.mem_append_left _ member))
          obtain ⟨sublist, perm⟩ := ih wellFormedRest followsRest
            (fun content member => known content (List.mem_append_right _ member)) denoted
          rw [equal, List.append_assoc]
          exact ⟨(List.Sublist.refl _).append sublist, perm.append_left _⟩
      | false =>
          obtain ⟨buffer, line, name, rest, read, turn, labelled, isName, -, shape⟩ :=
            Edit.labelledBuffers_added (wellFormed edit (List.mem_cons_self ..)) kept
          have single : contents segment edit.labelledBuffers = [⟨segment, line⟩] := by
            rw [read]
            simp only [contents, turn]
          have after : segmentAfter segment edit.labelledBuffers = segment := by
            rw [read]
            simp only [segmentAfter, turn]
          rw [addedLines, kept, if_neg (by decide), single, after] at denoted
          rw [addedLines, kept, if_neg (by decide), single, after]
          obtain ⟨bytes, denotes⟩ := denoted ⟨segment, line⟩ (List.mem_cons_self ..)
          simp only [afterLabel, labelled] at denotes
          obtain ⟨first, unknown, original, turnFirst, notKnown⟩ :=
            Edit.originalBuffers_added (wellFormed edit (List.mem_cons_self ..)) shape denotes
          rw [original] at known ⊢
          simp only [contents, segmentAfter, turnFirst, List.nil_append] at known ⊢
          obtain ⟨sublist, perm⟩ := ih wellFormedRest (Or.inr notKnown) known
            (fun content member => denoted content (List.mem_cons_of_mem _ member))
          exact ⟨sublist.cons _, (perm.cons _).trans List.perm_middle.symm⟩

theorem flatMap_length_labelled {lines lines' added : List Content}
    (perm : lines'.Perm (lines ++ added)) (f : Content → List Byte) :
    (lines'.flatMap f).length = (lines.flatMap f).length + (added.flatMap f).length := by
  rw [(perm.flatMap_right f).length_eq, List.flatMap_append, List.length_append]

theorem labelNames_labelled {lines lines' added : List Content}
    (perm : lines'.Perm (lines ++ added)) :
    (labelNames lines').Perm (labelNames lines ++ labelNames added) := by
  rw [← labelNames_append]
  exact perm.filterMap _

theorem flatMap_labelled {lines lines' added : List Content} (sublist : lines.Sublist lines')
    (perm : lines'.Perm (lines ++ added)) {f : Content → List Byte}
    (empty : ∀ content ∈ added, f content = []) : lines'.flatMap f = lines.flatMap f := by
  have length := flatMap_length_labelled perm f
  rw [List.flatMap_eq_nil_iff.mpr empty, List.length_nil, Nat.add_zero] at length
  exact ((sublist.flatMap f).eq_of_length length.symm).symm

end Contents

/-! ### Which labels are transparent -/

theorem Content.IsRead.isKnown {build : Build} {content : Content} (read : content.IsRead build) :
    IsKnown content.segment := by
  cases read with
  | text inText => exact Or.inl inText
  | data inData => exact Or.inr inData

theorem not_isLa_of_labelled {line name rest : CString}
    (labelled : leadingLabel line = some (name, rest)) : ¬ IsLa line := by
  intro la
  rw [leadingLabel_eq, la] at labelled
  cases labelled

section Files

variable {build : Build} {baseVaddr : Word} {edits : List Edit} {text data : List Byte}
  (wellFormed : WellFormed edits) (fresh : FreshLabels edits)
  (notLa : ∀ content ∈ sourceContents (original edits), ¬ IsLa content.line)
  (assembles : Assembles build (sourceContents (original edits)) text data)

include wellFormed assembles

theorem Assembles.contents_labelled (denoted : ∀ content ∈ addedLines [] edits,
      ∃ bytes, dataLineBytes build (afterLabel content.line) = some bytes) :
    (sourceContents (original edits)).Sublist (sourceContents (labelled edits)) ∧
      (sourceContents (labelled edits)).Perm
        (sourceContents (original edits) ++ addedLines [] edits) := by
  have read := assembles.read
  rw [sourceContents_original wellFormed] at read
  rw [sourceContents_original wellFormed, sourceContents_labelled wellFormed]
  exact RiscvAs.contents_labelled wellFormed.each (Or.inl rfl)
    (fun content member => (read content member).isKnown) denoted

include notLa in
theorem Assembles.not_isLa_labelled (denoted : ∀ content ∈ addedLines [] edits,
      ∃ bytes, dataLineBytes build (afterLabel content.line) = some bytes) :
    ∀ content ∈ sourceContents (labelled edits), ¬ IsLa content.line := by
  intro content member
  obtain ⟨-, perm⟩ := assembles.contents_labelled wellFormed denoted
  rcases List.mem_append.mp (perm.mem_iff.mp member) with old | new
  · exact notLa content old
  · obtain ⟨name, rest, labelled, -⟩ := (labelNames_addedLines wellFormed.each []).2 content new
    exact not_isLa_of_labelled labelled

include fresh in
theorem LabelsTransparent.assemble (transparent : LabelsTransparent build edits) :
    Assembles build (sourceContents (labelled edits)) text data := by
  have denoted : ∀ content ∈ addedLines [] edits,
      ∃ bytes, dataLineBytes build (afterLabel content.line) = some bytes :=
    fun content member => ⟨[], (transparent.empty content member).2⟩
  obtain ⟨sublist, perm⟩ := assembles.contents_labelled wellFormed denoted
  obtain ⟨names, labels⟩ := labelNames_addedLines wellFormed.each []
  have labelsPerm := labelNames_labelled perm
  have stored : (labelNames (addedLines [] edits)).map storedName =
      labelNames (addedLines [] edits) := by
    rw [List.map_congr_left (storedName_addedLines wellFormed.each []), List.map_id']
  refine ⟨?_, ?_, ?_, assembles.textFits, assembles.dataFits, ?_, ?_⟩
  · intro content member
    rcases List.mem_append.mp (perm.mem_iff.mp member) with old | new
    · exact assembles.read content old
    · obtain ⟨inData, bytes⟩ := transparent.empty content new
      obtain ⟨name, rest, labelled, -⟩ := labels content new
      simp only [afterLabel, labelled] at bytes
      exact .data inData labelled bytes
  · rw [flatMap_labelled sublist perm, assembles.textBytes]
    intro content member
    exact Content.text_of_data (transparent.empty content member).1
  · rw [flatMap_labelled sublist perm, assembles.dataBytes]
    intro content member
    obtain ⟨inData, bytes⟩ := transparent.empty content member
    rw [Content.data, if_pos inData, bytes]
    rfl
  · rw [(labelsPerm.map storedName).nodup_iff, List.map_append, stored, List.nodup_append]
    refine ⟨assembles.distinct, fresh.distinct.sublist names, ?_⟩
    rintro old oldMember new newMember rfl
    obtain ⟨other, otherMember, same⟩ := List.mem_map.mp oldMember
    exact transparent.apart old newMember other otherMember same
  · have few := fresh.few
    have length := names.length_le
    rw [labelsPerm.length_eq, List.length_append]
    omega

include notLa in
theorem labelsTransparent_of_sameBytes {ctx2 : AssemblerCtx}
    (textBytes : ctx2.textSegment.bytes = text) (dataBytes : ctx2.dataSegment.bytes = data)
    (same : SameBytes build baseVaddr (labelled edits) ctx2) : LabelsTransparent build edits := by
  obtain ⟨ctx1', ctx2', accepted', sameText, sameData⟩ := same
  obtain ⟨scan, out, scanned, -, emitted, -, start⟩ := accepted'.runs
  have acceptedLines :=
    isAccepted_of_runs (fun _ => sourceContents_isContentLine) scanned emitted start
  obtain ⟨names, labels⟩ := labelNames_addedLines wellFormed.each []
  -- A line with a label is accepted only as a data line.
  have isData : ∀ content ∈ addedLines [] edits, content.segment = "data".toList ∧
      ∃ bytes, dataLineBytes build (afterLabel content.line) = some bytes := by
    intro content member
    have inFile := addedLines_subset [] edits content member
    rw [← sourceContents_labelled wellFormed] at inFile
    obtain ⟨name, rest, labelled, -⟩ := labels content member
    obtain ⟨_, _, _, _, step⟩ := acceptedLines content inFile
    cases step with
    | text inText counted encoded fits =>
        obtain ⟨instr, instruction⟩ := lineInstruction_of_lineWords encoded
        rw [leadingLabel_of_instruction instruction] at labelled
        cases labelled
    | data inData labelled' admits denoted fits =>
        simp only [afterLabel, labelled']
        exact ⟨inData, _, denoted⟩
  have denoted := fun content member => (isData content member).2
  obtain ⟨sublist, perm⟩ := assembles.contents_labelled wellFormed denoted
  have assembles' := (accepted_iff_assembles (assembles.not_isLa_labelled wellFormed notLa denoted)
    text data).mp ⟨ctx1', ctx2', accepted', sameText.trans textBytes, sameData.trans dataBytes⟩
  constructor
  · intro content member
    obtain ⟨inData, bytes, denotes⟩ := isData content member
    refine ⟨inData, ?_⟩
    have length := flatMap_length_labelled perm (Content.data build)
    rw [assembles'.dataBytes, assembles.dataBytes] at length
    have empty : (addedLines [] edits).flatMap (Content.data build) = [] :=
      List.eq_nil_of_length_eq_zero (by omega)
    have none := List.flatMap_eq_nil_iff.mp empty content member
    rw [Content.data, if_pos inData, denotes, Option.getD_some] at none
    rw [denotes, none]
  · intro name nameMember other otherMember same
    have distinct := assembles'.distinct
    have stored := storedName_addedLines wellFormed.each [] name nameMember
    rw [((labelNames_labelled perm).map storedName).nodup_iff, List.map_append,
      List.nodup_append] at distinct
    exact distinct.2.2 _ (List.mem_map_of_mem otherMember) _ (List.mem_map_of_mem nameMember)
      (same.trans stored.symm)

end Files

/-- Labels added to an accepted file without `la` leave its bytes as they are exactly when they are
transparent. -/
theorem sameBytes_iff {build : Build} {baseVaddr : Word} {edits : List Edit}
    {ctx1 ctx2 : AssemblerCtx} (wellFormed : WellFormed edits)
    (accepted : Accepted build baseVaddr (original edits) ctx1 ctx2)
    (notLa : ¬ UsesLa (fgetsLines lineBufLen (original edits))) (fresh : FreshLabels edits) :
    SameBytes build baseVaddr (labelled edits) ctx2 ↔ LabelsTransparent build edits := by
  have notLaLines : ∀ content ∈ sourceContents (original edits), ¬ IsLa content.line :=
    fun content member la => notLa ⟨content, member, la⟩
  have assembles := (accepted_iff_assembles notLaLines _ _).mp ⟨ctx1, ctx2, accepted, rfl, rfl⟩
  constructor
  · exact labelsTransparent_of_sameBytes wellFormed notLaLines assembles rfl rfl
  · intro transparent
    have denoted : ∀ content ∈ addedLines [] edits,
        ∃ bytes, dataLineBytes build (afterLabel content.line) = some bytes :=
      fun content member => ⟨[], (transparent.empty content member).2⟩
    have assembles' := transparent.assemble wellFormed fresh assembles
    exact (accepted_iff_assembles
      (assembles.not_isLa_labelled wellFormed notLaLines denoted) _ _).mpr assembles'

def transparentEdits : List Edit :=
  [.kept ".data\n".toList, .prefixed "gap".toList [] ".space 0\n".toList,
    .kept ".text\nnop\n".toList]

theorem sameBytes_transparentEdits :
    ∃ ctx1 ctx2, Accepted .native 0x80000000 (original transparentEdits) ctx1 ctx2 ∧
      SameBytes .native 0x80000000 (labelled transparentEdits) ctx2 := by
  have accepted := accepted_of_codes
    (show (scanLabels .native (some (original transparentEdits)) (initCtx 0x80000000)).1 = .ok by
      decide +kernel) (by decide +kernel)
  have fresh : FreshLabels transparentEdits :=
    ⟨by decide +kernel, by decide +kernel, by decide +kernel⟩
  refine ⟨_, _, accepted, (sameBytes_iff (by decide +kernel) accepted ?_ fresh).mpr ?_⟩
  · rintro ⟨content, member, la⟩
    exact absurd la (by revert content; decide +kernel)
  · exact ⟨by decide +kernel, by decide +kernel⟩

/-- A label in front of an instruction, and one on a line of its own between data lines. -/
def textLabel : List Edit :=
  [.prefixed "start".toList [] "nop\n".toList]

def dataLabel : List Edit :=
  [.kept ".data\n".toList, .alone "table".toList, .kept "first: .byte 1\n".toList]

theorem not_sameBytes_of_code {build : Build} {baseVaddr : Word} {source : List Char}
    (failed : (assembleFile build (some source)
      (scanLabels build (some source) (initCtx baseVaddr)).2).1 ≠ .ok) (ctx2 : AssemblerCtx) :
    ¬ SameBytes build baseVaddr source ctx2 := by
  rintro ⟨ctx1', ctx2', accepted', -⟩
  obtain rfl := (congrArg Prod.snd accepted'.scanned).symm
  exact failed (congrArg Prod.fst accepted'.assembled)

structure ChangesBytes (edits : List Edit) : Prop where
  wellFormed : WellFormed edits
  fresh : FreshLabels edits
  notLa : ¬ UsesLa (fgetsLines lineBufLen (original edits))
  entered : (scanLabels .native (some (labelled edits)) (initCtx 0x80000000)).1 = .ok
  changes : ∃ ctx1 ctx2, Accepted .native 0x80000000 (original edits) ctx1 ctx2 ∧
    ¬ SameBytes .native 0x80000000 (labelled edits) ctx2

theorem changesBytes_of_codes {edits : List Edit} (wellFormed : WellFormed edits)
    (fresh : FreshLabels edits) (notLa : ¬ UsesLa (fgetsLines lineBufLen (original edits)))
    (codes : (scanLabels .native (some (original edits)) (initCtx 0x80000000)).1 = .ok ∧
      (assembleFile .native (some (original edits))
        (scanLabels .native (some (original edits)) (initCtx 0x80000000)).2).1 = .ok ∧
      (scanLabels .native (some (labelled edits)) (initCtx 0x80000000)).1 = .ok ∧
      (assembleFile .native (some (labelled edits))
        (scanLabels .native (some (labelled edits)) (initCtx 0x80000000)).2).1 ≠ .ok) :
    ChangesBytes edits := by
  obtain ⟨scanned, assembled, entered, failed⟩ := codes
  exact ⟨wellFormed, fresh, notLa, entered, _, _, accepted_of_codes scanned assembled,
    not_sameBytes_of_code failed _⟩

/-- Pass 1 enters both labels, and pass 2 rejects their lines. -/
theorem labels_not_sameBytes : ChangesBytes textLabel ∧ ChangesBytes dataLabel := by
  constructor
  · apply changesBytes_of_codes (by decide +kernel)
      ⟨by decide +kernel, by decide +kernel, by decide +kernel⟩ ?_ (by decide +kernel)
    rintro ⟨content, member, la⟩
    exact absurd la (by revert content; decide +kernel)
  · apply changesBytes_of_codes (by decide +kernel)
      ⟨by decide +kernel, by decide +kernel, by decide +kernel⟩ ?_ (by decide +kernel)
    rintro ⟨content, member, la⟩
    exact absurd la (by revert content; decide +kernel)

end RiscvAs
