/-
Comments at the end of lines, and what the passes make of the file.

No pass strips a comment.  `CommentsKept` is when that is without effect: the tail of a segment
name names no segment that has lines, and every other line is read as it was.
-/

import RiscvAs.CommentedLines
import RiscvAs.Acceptance

namespace RiscvAs

open Stdio
open Bytes (Byte)
open Rv32 (Word)

/-- The first of the buffers that is not ignored is a content line. -/
def leadsContent : List CString → Bool
  | [] => false
  | buffer :: buffers =>
      match turnOf buffer with
      | .ignored => leadsContent buffers
      | .segment _ => false
      | .content _ => true

def KeepsContentLine (build : Build) (segment line : CString) (comment : Comment) : Prop :=
  if isText segment then ¬ (OpenRegister build line ∧ comment.JoinsToken)
  else KeepsData build (mnemonicOf (afterLabel line)) (directiveArgs (afterLabel line))
    comment.remark

/-- A comment on a line that a pass takes for this, with the buffers that follow it. -/
def KeepsTurn (build : Build) (segment : CString) (comment : Comment) (after : List CString) :
    Turn → Prop
  | .ignored => True
  | .segment _ => leadsContent after = false
  | .content line => KeepsContentLine build segment line comment

def buffersOf (lines : List (List Char)) : List CString :=
  lines.flatMap (fgetsLines lineBufLen)

def KeepsLine (build : Build) (segment : CString) (line comment : List Char)
    (after : List (List Char)) : Prop :=
  '\x00' ∈ lineText line ∨ KeepsTurn build segment (seenComment line comment) (buffersOf after)
    (turnOf (cstring line))

def CommentsKept (build : Build) :
    CString → List (List Char) → (Nat → Option (List Char)) → Prop
  | _, [], _ => True
  | segment, line :: lines, choice =>
      (∀ comment ∈ choice 0, KeepsLine build segment line comment lines) ∧
        CommentsKept build (segmentAfter segment (fgetsLines lineBufLen line)) lines
          (fun i => choice (i + 1))

theorem Comment.text_injective {comment other : Comment} (same : comment.text = other.text) :
    comment = other := by
  have parts : ∀ comment : Comment, comment.text.takeWhile isspace = comment.blanks ++ [' '] ∧
      comment.text.dropWhile isspace = '#' :: comment.remark := by
    intro comment
    have allBlank : ∀ c ∈ comment.blanks ++ [' '], isspace c = true := by
      intro c member
      rcases List.mem_append.mp member with blank | space
      · exact comment.allBlank c blank
      · rw [List.mem_singleton.mp space]
        rfl
    have split : comment.text = (comment.blanks ++ [' ']) ++ '#' :: comment.remark := by
      simp [Comment.text]
    rw [split]
    exact ⟨takeWhile_append_stops allBlank (by simp [isspace]),
      dropWhile_append_stops allBlank (by simp [isspace])⟩
  obtain ⟨taken, dropped⟩ := parts comment
  obtain ⟨taken', dropped'⟩ := parts other
  rw [same, taken'] at taken
  rw [same, dropped'] at dropped
  obtain ⟨blanks, remark, allBlank, oneLine⟩ := comment
  obtain ⟨blanks', remark', allBlank', oneLine'⟩ := other
  obtain rfl : blanks' = blanks := (List.append_inj_left' taken rfl)
  obtain rfl : remark' = remark := (List.cons.inj dropped).2
  rfl

theorem Comment.text_nonempty (comment : Comment) : comment.text ≠ [] := by
  simp [Comment.text]

theorem Comment.append_ne (comment : Comment) (s : CString) : s ++ comment.text ≠ s := by
  intro same
  exact comment.text_nonempty (List.append_right_eq_self.mp same)

/-- What becomes of a content line of the file. -/
structure IsCommented (content content' : Content) : Prop where
  segment : content'.segment = content.segment ∨ '#' ∈ content'.segment
  line : content'.line = content.line ∨
    ∃ comment : Comment, content'.line = content.line ++ comment.text

structure KeepsContent (build : Build) (content content' : Content) : Prop where
  segment : content'.segment = content.segment
  line : content'.line = content.line ∨ ∃ comment : Comment,
    content'.line = content.line ++ comment.text ∧
      KeepsContentLine build content.segment content.line comment

section Pairs

variable {build : Build} {segment segment' line : CString}

theorem keepsContent_same_iff :
    KeepsContent build ⟨segment, line⟩ ⟨segment', line⟩ ↔ segment' = segment :=
  ⟨fun keeps => keeps.segment, fun same => ⟨same, Or.inl rfl⟩⟩

theorem keepsContent_comment_iff (comment : Comment) :
    KeepsContent build ⟨segment, line⟩ ⟨segment', line ++ comment.text⟩ ↔
      segment' = segment ∧ KeepsContentLine build segment line comment := by
  constructor
  · intro keeps
    refine ⟨keeps.segment, ?_⟩
    rcases keeps.line with same | ⟨other, same, kept⟩
    · exact absurd same (comment.append_ne line)
    · rw [Comment.text_injective (List.append_cancel_left same)]
      exact kept
  · rintro ⟨same, kept⟩
    exact ⟨same, Or.inr ⟨comment, rfl, kept⟩⟩

end Pairs

/-! ### The content lines of both files -/

section Buffers

variable {build : Build} {kept : CString → Prop} {buffer buffer' : CString}
  {rest rest' : List CString}

theorem contents_cons_congr (turn : turnOf buffer' = turnOf buffer) (segment : CString) :
    contents segment (buffer' :: rest) = contents segment (buffer :: rest) := by
  simp only [contents, turn]

theorem keepsContents_append
    (others : ∀ segment segment', List.Forall₂ (KeepsContent build) (contents segment rest)
      (contents segment' rest') ↔ (segment' = segment ∨ leadsContent rest = false) ∧ kept segment)
    (buffers : List CString) (segment segment' : CString) :
    List.Forall₂ (KeepsContent build) (contents segment (buffers ++ rest))
        (contents segment' (buffers ++ rest')) ↔
      (segment' = segment ∨ leadsContent (buffers ++ rest) = false) ∧
        kept (segmentAfter segment buffers) := by
  induction buffers generalizing segment segment' with
  | nil => exact others segment segment'
  | cons buffer buffers ih =>
      simp only [List.cons_append, contents, leadsContent, segmentAfter]
      cases turn : turnOf buffer with
      | ignored => exact ih segment segment'
      | segment name =>
          have same := ih name name
          simp only [true_or, true_and] at same
          simpa using same
      | content line =>
          simp only [List.forall₂_cons, keepsContent_same_iff, ih, Bool.true_eq_false, or_false]
          constructor
          · rintro ⟨same, -, later⟩
            exact ⟨same, later⟩
          · rintro ⟨same, later⟩
            exact ⟨same, Or.inl same, later⟩

theorem keepsContents_comment
    (others : ∀ segment segment', List.Forall₂ (KeepsContent build) (contents segment rest)
      (contents segment' rest') ↔ (segment' = segment ∨ leadsContent rest = false) ∧ kept segment)
    (comment : Comment) (turn : turnOf buffer' = (turnOf buffer).append comment.text)
    (segment segment' : CString) :
    List.Forall₂ (KeepsContent build) (contents segment (buffer :: rest))
        (contents segment' (buffer' :: rest')) ↔
      (segment' = segment ∨ leadsContent (buffer :: rest) = false) ∧
        KeepsTurn build segment comment rest (turnOf buffer) ∧
        kept (segmentAfter segment [buffer]) := by
  simp only [contents, leadsContent, segmentAfter, turn]
  cases turnOf buffer with
  | ignored =>
      simp only [Turn.append, KeepsTurn, true_and]
      exact others segment segment'
  | segment name =>
      simp only [Turn.append, KeepsTurn, or_true, true_and, others, comment.append_ne name,
        false_or]
  | content line =>
      simp only [Turn.append, KeepsTurn, List.forall₂_cons, keepsContent_comment_iff, others,
        Bool.true_eq_false, or_false]
      constructor
      · rintro ⟨⟨same, keeps⟩, -, later⟩
        exact ⟨same, keeps, later⟩
      · rintro ⟨same, keeps, later⟩
        exact ⟨⟨same, keeps⟩, Or.inl same, later⟩

/-- A segment of the second file is that of the first one, or has a comment in its name. -/
theorem isCommented_append
    (others : ∀ segment segment', segment' = segment ∨ '#' ∈ segment' →
      List.Forall₂ IsCommented (contents segment rest) (contents segment' rest'))
    (buffers : List CString) {segment segment' : CString}
    (renamed : segment' = segment ∨ '#' ∈ segment') :
    List.Forall₂ IsCommented (contents segment (buffers ++ rest))
      (contents segment' (buffers ++ rest')) := by
  induction buffers generalizing segment segment' with
  | nil => exact others segment segment' renamed
  | cons buffer buffers ih =>
      simp only [List.cons_append, contents]
      cases turnOf buffer with
      | ignored => exact ih renamed
      | segment name => exact ih (Or.inl rfl)
      | content line => exact .cons ⟨renamed, Or.inl rfl⟩ (ih renamed)

theorem isCommented_comment
    (others : ∀ segment segment', segment' = segment ∨ '#' ∈ segment' →
      List.Forall₂ IsCommented (contents segment rest) (contents segment' rest'))
    (comment : Comment) (turn : turnOf buffer' = (turnOf buffer).append comment.text)
    {segment segment' : CString} (renamed : segment' = segment ∨ '#' ∈ segment') :
    List.Forall₂ IsCommented (contents segment (buffer :: rest))
      (contents segment' (buffer' :: rest')) := by
  simp only [contents, turn]
  cases turnOf buffer with
  | ignored => exact others segment segment' renamed
  | segment name =>
      have mark : '#' ∈ name ++ comment.text := by
        simp [Comment.text]
      exact others name _ (Or.inr mark)
  | content line => exact .cons ⟨renamed, Or.inr ⟨comment, rfl⟩⟩ (others segment segment' renamed)

end Buffers

section Lines

variable {line : List Char} {lines : List (List Char)} {choice : Nat → Option (List Char)}

theorem buffersOf_cons (line : List Char) (lines : List (List Char)) :
    buffersOf (line :: lines) = fgetsLines lineBufLen line ++ buffersOf lines :=
  List.flatMap_cons

theorem IsChoice.first (isChoice : IsChoice (line :: lines) choice) {comment : List Char}
    (chosen : choice 0 = some comment) :
    '\n' ∉ comment ∧ (lineText line ++ " # ".toList ++ comment).length < 511 :=
  isChoice [] line lines comment rfl chosen

theorem IsChoice.rest (isChoice : IsChoice (line :: lines) choice) :
    IsChoice lines (fun i => choice (i + 1)) := by
  intro before other after comment split chosen
  exact isChoice (line :: before) other after comment (congrArg (line :: ·) split) chosen

theorem fgetsLines_withComment {comment : List Char} (isLine : IsPhysicalLine line)
    (oneLine : '\n' ∉ comment)
    (short : (lineText line ++ " # ".toList ++ comment).length < 511) :
    fgetsLines lineBufLen line = [cstring line] ∧
      fgetsLines lineBufLen (withComment line (some comment)) =
        [cstring (withComment line (some comment))] := by
  have isLine' := isPhysicalLine_withComment isLine oneLine
  exact ⟨fgetsLines_line (by decide) isLine.nonempty (line_length isLine short) isLine.single,
    fgetsLines_line (by decide) isLine'.nonempty (withComment_length isLine short) isLine'.single⟩

/-- Every content line is read as it was exactly when the comments are kept. -/
theorem keepsContents_iff (build : Build) (areLines : ∀ line ∈ lines, IsPhysicalLine line)
    (isChoice : IsChoice lines choice) (segment segment' : CString) :
    List.Forall₂ (KeepsContent build) (contents segment (buffersOf lines))
        (contents segment' (buffersOf (commentedLines lines choice))) ↔
      (segment' = segment ∨ leadsContent (buffersOf lines) = false) ∧
        CommentsKept build segment lines choice := by
  induction lines generalizing choice segment segment' with
  | nil => simp [buffersOf, commentedLines, contents, leadsContent, CommentsKept]
  | cons line lines ih =>
      have others := ih (fun other member => areLines other (List.mem_cons_of_mem line member))
        isChoice.rest
      rw [commentedLines, buffersOf_cons, buffersOf_cons, CommentsKept]
      cases chosen : choice 0 with
      | none =>
          have none : ∀ comment ∈ (none : Option (List Char)),
              KeepsLine build segment line comment lines := by
            intro comment member
            cases member
          rw [withComment, and_iff_right none]
          exact keepsContents_append others (fgetsLines lineBufLen line) segment segment'
      | some comment =>
          have isLine := areLines line (List.mem_cons_self ..)
          obtain ⟨oneLine, short⟩ := isChoice.first chosen
          obtain ⟨buffer, buffer'⟩ := fgetsLines_withComment isLine oneLine short
          have turn := turnOf_withComment isLine short
          simp only [Option.mem_some_iff, forall_eq', KeepsLine]
          rw [buffer, buffer']
          by_cases nul : '\x00' ∈ lineText line
          · rw [if_pos nul] at turn
            have same := keepsContents_append others [cstring line] segment segment'
            rw [List.singleton_append, List.singleton_append, contents_cons_congr turn]
            simpa only [nul, true_or, true_and, List.singleton_append] using same
          · rw [if_neg nul] at turn
            have same :=
              keepsContents_comment others (seenComment line comment) turn segment segment'
            simpa only [nul, false_or, List.singleton_append] using same

theorem isCommented_contents (areLines : ∀ line ∈ lines, IsPhysicalLine line)
    (isChoice : IsChoice lines choice) (segment segment' : CString)
    (renamed : segment' = segment ∨ '#' ∈ segment') :
    List.Forall₂ IsCommented (contents segment (buffersOf lines))
      (contents segment' (buffersOf (commentedLines lines choice))) := by
  induction lines generalizing choice segment segment' with
  | nil => exact .nil
  | cons line lines ih =>
      have others := ih (fun other member => areLines other (List.mem_cons_of_mem line member))
        isChoice.rest
      rw [commentedLines, buffersOf_cons, buffersOf_cons]
      cases chosen : choice 0 with
      | none => exact isCommented_append others (fgetsLines lineBufLen line) renamed
      | some comment =>
          have isLine := areLines line (List.mem_cons_self ..)
          obtain ⟨oneLine, short⟩ := isChoice.first chosen
          obtain ⟨buffer, buffer'⟩ := fgetsLines_withComment isLine oneLine short
          have turn := turnOf_withComment isLine short
          rw [buffer, buffer']
          by_cases nul : '\x00' ∈ lineText line
          · rw [if_pos nul] at turn
            rw [List.singleton_append, List.singleton_append, contents_cons_congr turn]
            exact isCommented_append others [cstring line] renamed
          · rw [if_neg nul] at turn
            exact isCommented_comment others (seenComment line comment) turn renamed

end Lines

/-- The comment stands behind the label. -/
theorem leadingLabel_comment {line name rest : CString}
    (labelled : leadingLabel line = some (name, rest)) (given : rest ≠ []) (comment : Comment) :
    leadingLabel (line ++ comment.text) = some (name, rest ++ comment.text) := by
  obtain ⟨token, rfl⟩ := leadingLabel_some labelled
  have text : skipBlanks line ≠ [] := by
    intro empty
    rw [mnemonicOf, empty] at token
    simp at token
  have within : name.length + 1 ≤ line.length := by
    by_contra short
    rw [List.drop_eq_nil_of_le (by omega)] at given
    exact given rfl
  rw [leadingLabel_eq, mnemonicOf_append comment.blankFront text, token,
    if_pos List.getLast?_concat, List.dropLast_concat, List.length_append, List.length_singleton,
    List.drop_append_of_le_length within, skipBlanks_append given]

theorem not_isLa_of_last {build : Build} {line : CString} {stop : List Char} {s : CString}
    (last : LastRegister build line stop s) : ¬ IsLa line := by
  intro la
  cases last with
  | third found rType =>
      rw [la] at found
      cases found
      cases rType
  | pair op named =>
      rw [la] at named
      cases op <;> cases named
  | retry loadStore =>
      rw [la] at loadStore
      cases loadStore
  | base loadStore =>
      rw [la] at loadStore
      cases loadStore

section Steps

variable {build : Build} {content content' : Content} {scan scan' scan₁ scan₁' : Scan}
  {out out' out₁ out₁' : Output}
  (step : PassStep build scan out content.segment content.line scan' out')

include step

/-- A line that is read as it was takes the same step. -/
theorem PassStep.of_keeps (keeps : KeepsContent build content content') :
    PassStep build scan out content'.segment content'.line scan' out' := by
  obtain ⟨segment, line | ⟨comment, line, kept⟩⟩ := keeps
  · rw [segment, line]
    exact step
  · rw [segment, line]
    cases step with
    | text inText counted encoded fits =>
        rw [KeepsContentLine, if_pos inText] at kept
        have encoded' := lineWords_comment encoded comment kept
        exact .text inText (lineCount_comment counted comment encoded') encoded' fits
    | @data name rest bytes inData labelled admits denoted fits =>
        rw [KeepsContentLine, inData, if_neg (by decide)] at kept
        simp only [afterLabel, labelled] at kept
        have given : rest ≠ [] := by
          rintro rfl
          exact skipBlanks_of_denoted denoted rfl
        exact .data inData (leadingLabel_comment labelled given comment) admits
          ((dataLineBytes_comment_iff comment denoted).mpr kept) fits

end Steps

section Data

variable {build : Build} {content content' : Content} {scan scan' scan₁ scan₁' : Scan}
  {out out' out₁ out₁' : Output}

/-- No line of a segment with a comment in its name is accepted. -/
theorem PassStep.segment_eq
    (step' : PassStep build scan₁ out₁ content'.segment content'.line scan₁' out₁')
    (commented : IsCommented content content') : content'.segment = content.segment := by
  rcases commented.segment with same | mark
  · exact same
  · rcases step'.lineShape.segment with inText | inData
    · rw [isText, Bool.or_eq_true, decide_eq_true_eq, decide_eq_true_eq] at inText
      rcases inText with unnamed | named
      · rw [unnamed] at mark
        cases mark
      · rw [named] at mark
        exact absurd mark (by decide)
    · rw [inData] at mark
      exact absurd mark (by decide)

/-- A comment shortens no data, and the line is read as it was when its data is the same. -/
theorem PassStep.keeps_of_data
    (step : PassStep build scan out content.segment content.line scan' out')
    (step' : PassStep build scan₁ out₁ content'.segment content'.line scan₁' out₁')
    (commented : IsCommented content content') :
    (content.data build).length ≤ (content'.data build).length ∧
      (content.data build = content'.data build → KeepsContent build content content') := by
  have segment := step'.segment_eq commented
  rcases commented.line with same | ⟨comment, longer⟩
  · have equal : content' = content := by
      cases content
      cases content'
      simp_all
    rw [equal]
    exact ⟨Nat.le_refl _, fun _ => ⟨rfl, Or.inl rfl⟩⟩
  · rw [longer] at step'
    cases step with
    | text inText counted encoded fits =>
        rw [Content.data_of_text inText, Content.data_of_text (segment ▸ inText)]
        refine ⟨Nat.le_refl _, fun _ => ⟨segment, Or.inr ⟨comment, longer, ?_⟩⟩⟩
        rw [KeepsContentLine, if_pos inText]
        rintro ⟨⟨stop, s, last, isOpen⟩, joins⟩
        cases step' with
        | text inText' counted' encoded' fits' =>
            rw [lineWords_congr build (not_isLa_of_last last) out.ctx out₁.ctx out.textOffset
              out₁.textOffset] at encoded
            exact lineWords_comment_joined encoded comment ⟨stop, s, last, isOpen⟩ joins _ encoded'
        | data inData =>
            rw [← segment, inData] at inText
            cases inText
    | @data name rest bytes inData labelled admits denoted fits =>
        have given : rest ≠ [] := by
          rintro rfl
          exact skipBlanks_of_denoted denoted rfl
        have labelled' := leadingLabel_comment labelled given comment
        cases step' with
        | text inText' =>
            rw [segment, inData] at inText'
            cases inText'
        | data inData' labelledThere admits' denoted' fits' =>
            obtain ⟨rfl, rfl⟩ := Prod.mk.inj (Option.some.inj (labelled'.symm.trans labelledThere))
            rw [Content.data_of_denoted inData labelled denoted,
              Content.data_of_denoted inData' (longer ▸ labelled') denoted']
            refine ⟨dataLineBytes_comment_length comment denoted denoted', ?_⟩
            rintro rfl
            refine ⟨segment, Or.inr ⟨comment, longer, ?_⟩⟩
            rw [KeepsContentLine, inData, if_neg (by decide)]
            simp only [afterLabel, labelled]
            exact (dataLineBytes_comment_iff comment denoted).mp denoted'

end Data

/-! ### Whole files -/

section Runs

variable {build : Build} {lines lines' : List Content} {scan scan' : Scan} {out out' : Output}

/-- Lines that are read as they were end in the same states. -/
theorem runs_of_keeps (keeps : List.Forall₂ (KeepsContent build) lines lines')
    (isContent : ∀ content ∈ lines, IsContentLine content.line)
    (isContent' : ∀ content ∈ lines', IsContentLine content.line)
    (scanned : scanContents build scan lines = (.ok, scan'))
    (emitted : emitContents build out lines = (.ok, out')) (same : InStep scan out) :
    scanContents build scan lines' = (.ok, scan') ∧
      emitContents build out lines' = (.ok, out') := by
  induction keeps generalizing scan out with
  | nil => exact ⟨scanned, emitted⟩
  | @cons content content' lines lines' kept keeps ih =>
      have line' := isContent' content' (List.mem_cons_self ..)
      obtain ⟨scanNext, outNext, step, sameNext, scanRest, emitRest⟩ :=
        passStep_of_cons (isContent content (List.mem_cons_self ..)) scanned emitted same
      have step' := step.of_keeps kept
      obtain ⟨scannedRest, emittedRest⟩ :=
        ih (fun other member => isContent other (List.mem_cons_of_mem content member))
          (fun other member => isContent' other (List.mem_cons_of_mem content' member))
          scanRest emitRest sameNext
      exact ⟨(scanContents_cons_iff line' same.scanBounded).mpr
          ⟨scanNext, step'.scanStep same, scannedRest⟩,
        (emitContents_cons_iff line' same.bounded).mpr ⟨outNext, step'.emitStep, emittedRest⟩⟩

end Runs

section Accepted

variable {build : Build} {lines lines' : List Content}

theorem data_length_le (commented : List.Forall₂ IsCommented lines lines')
    (accepted : ∀ content ∈ lines, content.IsAccepted build)
    (accepted' : ∀ content ∈ lines', content.IsAccepted build) :
    (lines.flatMap (Content.data build)).length ≤ (lines'.flatMap (Content.data build)).length := by
  induction commented with
  | nil => exact Nat.le_refl _
  | @cons content content' lines lines' first commented ih =>
      obtain ⟨_, _, _, _, step⟩ := accepted content (List.mem_cons_self ..)
      obtain ⟨_, _, _, _, step'⟩ := accepted' content' (List.mem_cons_self ..)
      have shorter := (step.keeps_of_data step' first).1
      have rest := ih (fun other member => accepted other (List.mem_cons_of_mem content member))
        (fun other member => accepted' other (List.mem_cons_of_mem content' member))
      rw [List.flatMap_cons, List.flatMap_cons, List.length_append, List.length_append]
      exact Nat.add_le_add shorter rest

theorem keepsContents_of_data (commented : List.Forall₂ IsCommented lines lines')
    (accepted : ∀ content ∈ lines, content.IsAccepted build)
    (accepted' : ∀ content ∈ lines', content.IsAccepted build)
    (same : lines.flatMap (Content.data build) = lines'.flatMap (Content.data build)) :
    List.Forall₂ (KeepsContent build) lines lines' := by
  induction commented with
  | nil => exact .nil
  | @cons content content' lines lines' first commented ih =>
      obtain ⟨_, _, _, _, step⟩ := accepted content (List.mem_cons_self ..)
      obtain ⟨_, _, _, _, step'⟩ := accepted' content' (List.mem_cons_self ..)
      obtain ⟨shorter, keeps⟩ := step.keeps_of_data step' first
      have acceptedRest := fun other member =>
        accepted other (List.mem_cons_of_mem content member)
      have acceptedRest' := fun other member =>
        accepted' other (List.mem_cons_of_mem content' member)
      have rest := data_length_le commented acceptedRest acceptedRest'
      rw [List.flatMap_cons, List.flatMap_cons] at same
      -- No part is shorter than it was, so equal wholes have equal parts.
      have lengths := congrArg List.length same
      rw [List.length_append, List.length_append] at lengths
      obtain ⟨sameFirst, sameRest⟩ := List.append_inj same (by omega)
      exact .cons (keeps sameFirst) (ih acceptedRest acceptedRest' sameRest)

end Accepted

section Source

variable {line : List Char} {lines : List (List Char)} {choice : Nat → Option (List Char)}

theorem withComment_ended (isLine : IsPhysicalLine line) (ended : line.getLast? = some '\n')
    (comment : Option (List Char)) : (withComment line comment).getLast? = some '\n' := by
  cases comment with
  | none => exact ended
  | some comment =>
      rcases lineEnd_cases isLine with none | newline
      · have whole := lineText_append line
        rw [none, List.append_nil] at whole
        have member : '\n' ∈ lineText line := by
          rw [whole]
          exact List.mem_of_mem_getLast? ended
        exact absurd (List.mem_takeWhile_imp member) (by decide)
      · rw [withComment, newline, List.getLast?_concat]

theorem commentedLines_ended (areLines : ∀ line ∈ lines, IsPhysicalLine line)
    (ended : ∀ line ∈ lines.dropLast, line.getLast? = some '\n') :
    ∀ line ∈ (commentedLines lines choice).dropLast, line.getLast? = some '\n' := by
  induction lines generalizing choice with
  | nil =>
      intro line member
      cases member
  | cons line lines ih =>
      cases lines with
      | nil =>
          intro other member
          cases member
      | cons next rest =>
          rw [List.dropLast_cons_of_ne_nil (List.cons_ne_nil next rest)] at ended
          rw [commentedLines, List.dropLast_cons_of_ne_nil (by simp [commentedLines])]
          intro other member
          rcases List.mem_cons.mp member with rfl | later
          · exact withComment_ended (areLines line (List.mem_cons_self ..))
              (ended line (List.mem_cons_self ..)) (choice 0)
          · exact ih (fun other inside => areLines other (List.mem_cons_of_mem line inside))
              (fun other inside => ended other (List.mem_cons_of_mem line inside)) other later

theorem sourceContents_eq (source : List Char) :
    sourceContents source = contents [] (buffersOf (physicalLines source)) := by
  rw [sourceContents, fgetsLines_physicalLines (by decide), buffersOf]

theorem sourceContents_commented (source : List Char) (choice : Nat → Option (List Char)) :
    sourceContents (commentedSource source choice) =
      contents [] (buffersOf (commentedLines (physicalLines source) choice)) := by
  have ended : ∀ line ∈ (commentedLines (physicalLines source) choice).dropLast,
      line.getLast? = some '\n' :=
    commentedLines_ended (fun line member => isPhysicalLine_of_mem member)
      (fun line member => physicalLines_ended member)
  rw [sourceContents, commentedSource,
    fgetsLines_flatten (by decide) (fun part member => Or.inr (ended part member)), buffersOf,
    List.flatMap_def]

end Source

/-- The file is accepted too, with the same bytes and the same symbols. -/
def SameResult (build : Build) (baseVaddr : Word) (source : List Char) (ctx2 : AssemblerCtx) :
    Prop :=
  ∃ ctx1' ctx2', Accepted build baseVaddr source ctx1' ctx2' ∧
    ctx2'.textSegment.bytes = ctx2.textSegment.bytes ∧
    ctx2'.dataSegment.bytes = ctx2.dataSegment.bytes ∧ ctx2'.table = ctx2.table

/-- Comments at the end of the chosen lines of an accepted file change no result exactly when each
of them is kept. -/
theorem sameResult_iff {build : Build} {baseVaddr : Word} {source : List Char}
    {ctx1 ctx2 : AssemblerCtx} (accepted : Accepted build baseVaddr source ctx1 ctx2)
    {choice : Nat → Option (List Char)} (isChoice : IsChoice (physicalLines source) choice) :
    SameResult build baseVaddr (commentedSource source choice) ctx2 ↔
      CommentsKept build [] (physicalLines source) choice := by
  have areLines : ∀ line ∈ physicalLines source, IsPhysicalLine line :=
    fun line member => isPhysicalLine_of_mem member
  have keeps := keepsContents_iff build areLines isChoice [] []
  rw [← sourceContents_eq, ← sourceContents_commented] at keeps
  have isContent : ∀ content ∈ sourceContents source, IsContentLine content.line :=
    fun _ => sourceContents_isContentLine
  have isContent' : ∀ content ∈ sourceContents (commentedSource source choice),
      IsContentLine content.line := fun _ => sourceContents_isContentLine
  obtain ⟨scan, out, scanned, rfl, emitted, rfl, start⟩ := accepted.runs
  constructor
  · rintro ⟨ctx1', ctx2', accepted', -, sameData, -⟩
    obtain ⟨scan', out', scanned', rfl, emitted', rfl, start'⟩ := accepted'.runs
    have acceptedLines := isAccepted_of_runs isContent scanned emitted start
    have acceptedLines' := isAccepted_of_runs isContent' scanned' emitted' start'
    have commented := isCommented_contents areLines isChoice [] [] (Or.inl rfl)
    rw [← sourceContents_eq, ← sourceContents_commented] at commented
    have equal : out.dataBytes = out'.dataBytes := sameData.symm
    rw [dataBytes_of_runs isContent scanned emitted start,
      dataBytes_of_runs isContent' scanned' emitted' start', Output.dataBytes_start,
      Output.dataBytes_start, List.nil_append, List.nil_append] at equal
    exact (keeps.mp (keepsContents_of_data commented acceptedLines acceptedLines' equal)).2
  · intro kept
    obtain ⟨scanned', emitted'⟩ := runs_of_keeps (keeps.mpr ⟨Or.inl rfl, kept⟩) isContent isContent'
      scanned emitted start
    have accepted' :
      Accepted build baseVaddr (commentedSource source choice) scan.finish out.finish :=
      ⟨scanLabels_ok_iff.mpr ⟨scan, scanned', rfl⟩, assembleFile_ok_iff.mpr ⟨out, emitted', rfl⟩⟩
    exact ⟨scan.finish, out.finish, accepted', rfl, rfl, rfl⟩

def commentAt (number : Nat) (comment : String) : Nat → Option (List Char) :=
  fun i => if i = number then some comment.toList else none

theorem sameResult_exampleSource :
    SameResult .native 0x80000000
      (commentedSource exampleSource (commentAt 4 "la a0, first (or \"second\")"))
      exampleAssembled := by
  refine (sameResult_iff exampleSource_accepted (by decide +kernel)).mpr ?_
  have lines : physicalLines exampleSource = [".data\n".toList, "first: .word 1\n".toList,
      "second: .word 2 # here\n".toList, ".text\n".toList, "la a0, second\n".toList] := by
    decide +kernel
  have turn : turnOf (cstring "la a0, second\n".toList) = .content "la a0, second".toList := by
    decide +kernel
  have joins : ∀ comment, ¬ (seenComment "la a0, second\n".toList comment).JoinsToken := by
    intro comment
    rintro ⟨c, first, -⟩
    cases first
  rw [lines]
  refine ⟨?_, ?_, ?_, ?_, ?_, trivial⟩
  · rintro comment ⟨⟩
  · rintro comment ⟨⟩
  · rintro comment ⟨⟩
  · rintro comment ⟨⟩
  · rintro comment -
    refine Or.inr ?_
    rw [turn, KeepsTurn, KeepsContentLine, if_pos (by decide +kernel)]
    exact fun both => joins comment both.2

/-- With its comment `.text` is no segment, and a comment lengthens a list of words. -/
theorem comments_not_sameResult :
    (∃ ctx1 ctx2, Accepted .native 0x80000000 ".text\nnop\n".toList ctx1 ctx2 ∧
      IsChoice (physicalLines ".text\nnop\n".toList) (commentAt 0 "code") ∧
      ¬ SameResult .native 0x80000000
        (commentedSource ".text\nnop\n".toList (commentAt 0 "code")) ctx2) ∧
    ∃ ctx1 ctx2, Accepted .native 0x80000000 ".data\nw: .word 1\n".toList ctx1 ctx2 ∧
      IsChoice (physicalLines ".data\nw: .word 1\n".toList) (commentAt 1 "one, 2") ∧
      ¬ SameResult .native 0x80000000
        (commentedSource ".data\nw: .word 1\n".toList (commentAt 1 "one, 2")) ctx2 := by
  refine ⟨⟨_, _, accepted_of_codes (by decide +kernel) (by decide +kernel), by decide +kernel, ?_⟩,
    ⟨_, _, accepted_of_codes (by decide +kernel) (by decide +kernel), by decide +kernel, ?_⟩⟩
  · rintro ⟨ctx1', ctx2', accepted', -⟩
    have code : (scanLabels .native
        (some (commentedSource ".text\nnop\n".toList (commentAt 0 "code")))
        (initCtx 0x80000000)).1 = .ok := congrArg Prod.fst accepted'.scanned
    exact absurd code (by decide +kernel)
  · rintro ⟨ctx1', ctx2', accepted', -, data, -⟩
    obtain rfl := (congrArg Prod.snd accepted'.scanned).symm
    obtain rfl := (congrArg Prod.snd accepted'.assembled).symm
    exact absurd (congrArg List.length data) (by decide +kernel)

end RiscvAs
