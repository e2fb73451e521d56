/-
Malformed data directives.

A list keeps its nonempty fields, and a number what follows it in its field; a
`.space` has as many fields as it likes, and a string goes from the first quote
of the line to the last.  `Slips` are the lines that are accepted through one of
these, and no other accepted line is malformed.
-/

import RiscvAs.DataDirectives
import RiscvAs.SegmentState

namespace RiscvAs

open Stdio
open Bytes (Byte)

/-- Every quote of the text is escaped, and its last escape is complete. -/
def isEscaped : CString → Bool
  | [] => true
  | '\\' :: _ :: rest => isEscaped rest
  | c :: rest => c != '\\' && c != '"' && isEscaped rest

def IsTrailing (tail : CString) : Prop :=
  skipBlanks tail = [] ∨ (skipBlanks tail).head? = some '#'

/-- A directive and its operands, as the author of a source file writes them. -/
inductive WellFormedData (directive operands : CString) : Prop where
  | integers (isInteger : isIntegerDirective directive = true) {list : List DataOperand}
      (nonempty : list ≠ []) (given : operands = operandList list)
      (inElement : ∀ operand ∈ list, InElement (integerStep directive) operand.value)
  | space (isSpace : directive = ".space".toList) {count : DataOperand}
      {fill : Option DataOperand} (given : operands = operandList (count :: fill.toList))
  | string (isString : isStringDirective directive = true) {body tail : CString}
      (given : operands = '"' :: (body ++ '"' :: tail)) (escaped : isEscaped body = true)
      (trailing : IsTrailing tail)

/-- An accepted line is well formed, and any other leaves the offset alone. -/
structure RejectsMalformed (build : Build) (out : Output) (line : CString) : Prop where
  accepted : (processSegmentData build out line).1 = .ok →
    WellFormedData (mnemonicOf (afterLabel (skipBlanks line)))
      (operandsOf (afterLabel (skipBlanks line)))
  rejected : (processSegmentData build out line).1 ≠ .ok →
    (processSegmentData build out line).2.dataOffset = out.dataOffset

inductive OperandFlaw (field : CString) : Prop where
  | noNumber (missing : scanNumber 0 field = none)
  | leftover {negative : Bool} {magnitude : Nat} {rest : CString} {c : Char}
      (scanned : scanNumber 0 field = some (negative, magnitude, rest)) (member : c ∈ rest)
      (notBlank : isspace c = false)
  /-- `0x` without a digit after it. -/
  | bare {sign : Sign} {x : Char} {rest : CString} (marker : x = 'x' ∨ x = 'X')
      (front : skipBlanks field = sign.text ++ '0' :: x :: rest)
      (noDigit : Stops (isDigitOf 16) rest)

def TooWide (step : Nat) (field : CString) : Prop :=
  ∃ negative magnitude rest, scanNumber 0 field = some (negative, magnitude, rest) ∧
    ¬ InElement step (signedValue negative magnitude)

def afterUnescaped : CString → Option CString
  | [] => none
  | '\\' :: _ :: rest => afterUnescaped rest
  | c :: rest => if c = '"' then some rest else afterUnescaped rest

inductive QuoteFlaw (operands : CString) : Prop where
  | textBefore (front : operands.head? ≠ some '"')
  | unterminated {rest : CString} (given : operands = '"' :: rest)
      (missing : afterUnescaped rest = none)
  | leftover {rest tail : CString} (given : operands = '"' :: rest)
      (found : afterUnescaped rest = some tail) (other : ¬ IsTrailing tail)

/-- The malformed lines that are accepted, with `room` bytes left: what is read of the
arguments is complete and fits, and something else of the operands is not read. -/
inductive Slips (build : Build) (room : Nat) (p : CString) : Prop where
  | integers (isInteger : isIntegerDirective (mnemonicOf p) = true)
      (numbers : ∀ token ∈ strtok ',' (directiveArgs p), tokenValue token ≠ none)
      (fits : integerStep (mnemonicOf p) * (strtok ',' (directiveArgs p)).length ≤ room)
      {field : CString} (member : field ∈ (operandsOf p).splitOn ',')
      (flaw : OperandFlaw field ∨ TooWide (integerStep (mnemonicOf p)) field)
  | space (isSpace : mnemonicOf p = ".space".toList) {countToken : CString}
      {rest : List CString} {count fill : Int}
      (tokens : strtok ',' (directiveArgs p) = countToken :: rest)
      (counted : tokenValue countToken = some count) (nonneg : 0 ≤ count)
      (filled : fillValue rest = some fill) (fits : build.toSize count ≤ room)
      (flaw : 2 < ((operandsOf p).splitOn ',').length ∨
        ∃ field ∈ (operandsOf p).splitOn ',', OperandFlaw field)
  | string (isString : isStringDirective (mnemonicOf p) = true) {text : CString}
      (quoted : quotedText (directiveArgs p) = some text)
      (fits : (units text).flatten.length + 1 ≤ room) (flaw : QuoteFlaw (operandsOf p))

theorem DataOperand.scanNumber_text (operand : DataOperand) :
    scanNumber 0 operand.text =
      some (operand.literal.sign.negative, operand.literal.magnitude.value, operand.after) := by
  have skipped : skipBlanks operand.text = operand.literal.text ++ operand.after :=
    dropWhile_append_stops operand.beforeBlank (operand.literal.stops_blank operand.after)
  have scanned := scanNumber_literal operand.literal operand.after
    (endsLiteral_of_blank operand.afterBlank)
  rw [scanNumber, skipped]
  rwa [scanNumber, skipBlanks_of_stops (operand.literal.stops_blank operand.after)] at scanned

theorem operand_iff {field : CString} :
    (∃ operand : DataOperand, operand.text = field) ↔ ¬ OperandFlaw field := by
  constructor
  · rintro ⟨operand, rfl⟩ flaw
    have scanned := operand.scanNumber_text
    cases flaw with
    | noNumber missing =>
        rw [missing] at scanned
        cases scanned
    | leftover read member notBlank =>
        rw [read] at scanned
        simp only [Option.some.injEq, Prod.mk.injEq] at scanned
        obtain ⟨-, -, rfl⟩ := scanned
        rw [operand.afterBlank _ member] at notBlank
        cases notBlank
    | bare marker front noDigit =>
        have skipped : skipBlanks operand.text = operand.literal.text ++ operand.after :=
          dropWhile_append_stops operand.beforeBlank (operand.literal.stops_blank operand.after)
        exact operand.literal.not_bare (endsLiteral_of_blank operand.afterBlank) marker
          (skipped.symm.trans front) noDigit
  · intro sound
    cases scanned : scanNumber 0 field with
    | none => exact absurd (.noNumber scanned) sound
    | some read =>
        obtain ⟨negative, magnitude, rest⟩ := read
        have blank : ∀ c ∈ rest, isspace c = true := by
          intro c member
          by_contra notBlank
          exact sound (.leftover scanned member (by simpa using notBlank))
        rcases scanNumber_zero_inv scanned with ⟨literal, text, -⟩ | ⟨sign, x, marker, text, -⟩
        · have split : field.takeWhile isspace ++ skipBlanks field = field :=
            List.takeWhile_append_dropWhile
          refine ⟨⟨field.takeWhile isspace, literal, rest,
            fun c member => List.mem_takeWhile_imp member, blank⟩, ?_⟩
          rw [DataOperand.text, ← text, split]
        · refine absurd (.bare marker text ?_) sound
          cases rest with
          | nil => exact stops_nil _
          | cons c rest => exact (stops_cons ..).mpr (isDigitOf_blank (blank c (by simp)))

theorem exists_operands {holds : DataOperand → Prop} {fields : List CString}
    (each : ∀ field ∈ fields, ∃ operand : DataOperand, operand.text = field ∧ holds operand) :
    ∃ list : List DataOperand, list.map DataOperand.text = fields ∧
      ∀ operand ∈ list, holds operand := by
  induction fields with
  | nil => exact ⟨[], rfl, by simp⟩
  | cons field fields ih =>
      obtain ⟨operand, same, first⟩ := each field (List.mem_cons_self ..)
      obtain ⟨list, rfl, rest⟩ := ih fun other member => each other (List.mem_cons_of_mem _ member)
      refine ⟨operand :: list, by rw [List.map_cons, same], ?_⟩
      intro other member
      rcases List.mem_cons.mp member with rfl | later
      · exact first
      · exact rest other later

/-- A text is a list of operands exactly when each of its fields is one. -/
theorem operandList_iff {text : CString} {holds : DataOperand → Prop} :
    (∃ list : List DataOperand, list ≠ [] ∧ text = operandList list ∧
        ∀ operand ∈ list, holds operand) ↔
      ∀ field ∈ text.splitOn ',',
        ∃ operand : DataOperand, operand.text = field ∧ holds operand := by
  constructor
  · rintro ⟨list, nonempty, rfl, all⟩ field member
    rw [splitOn_operandList nonempty, List.mem_map] at member
    obtain ⟨operand, inList, rfl⟩ := member
    exact ⟨operand, rfl, all operand inList⟩
  · intro each
    obtain ⟨list, same, all⟩ := exists_operands each
    refine ⟨list, ?_, ?_, all⟩
    · rintro rfl
      exact List.splitOn_ne_nil _ _ same.symm
    · rw [operandList, same, List.intercalate_splitOn]

theorem element_iff {step : Nat} {field : CString} :
    (∃ operand : DataOperand, operand.text = field ∧ InElement step operand.value) ↔
      ¬ (OperandFlaw field ∨ TooWide step field) := by
  rw [not_or, ← operand_iff]
  constructor
  · rintro ⟨operand, rfl, inElement⟩
    refine ⟨⟨operand, rfl⟩, ?_⟩
    rintro ⟨negative, magnitude, rest, scanned, wide⟩
    rw [operand.scanNumber_text] at scanned
    simp only [Option.some.injEq, Prod.mk.injEq] at scanned
    obtain ⟨rfl, rfl, -⟩ := scanned
    exact wide inElement
  · rintro ⟨⟨operand, rfl⟩, fits⟩
    refine ⟨operand, rfl, ?_⟩
    by_contra wide
    exact fits ⟨_, _, _, operand.scanNumber_text, wide⟩

theorem afterUnescaped_cons {c : Char} {rest : CString}
    (notEscape : ∀ d tail, c = '\\' → rest = d :: tail → False) (notQuote : c ≠ '"') :
    afterUnescaped (c :: rest) = afterUnescaped rest := by
  rw [afterUnescaped, if_neg notQuote]
  exact notEscape

theorem afterUnescaped_iff {s tail : CString} :
    afterUnescaped s = some tail ↔ ∃ body, s = body ++ '"' :: tail ∧ isEscaped body = true := by
  constructor
  · intro found
    induction s using afterUnescaped.induct with
    | case1 => cases found
    | case2 c rest ih =>
        obtain ⟨body, rfl, escaped⟩ := ih found
        exact ⟨'\\' :: c :: body, rfl, escaped⟩
    | case3 rest notEscape =>
        obtain rfl : rest = tail := by simpa [afterUnescaped] using found
        exact ⟨[], rfl, rfl⟩
    | case4 c rest notEscape notQuote ih =>
        rw [afterUnescaped_cons notEscape notQuote] at found
        obtain ⟨body, rfl, escaped⟩ := ih found
        refine ⟨c :: body, rfl, ?_⟩
        have notBackslash : c ≠ '\\' := by
          rintro rfl
          cases body with
          | nil => exact notEscape _ _ rfl rfl
          | cons d body => exact notEscape _ _ rfl rfl
        rw [isEscaped, escaped]
        · simp [notBackslash, notQuote]
        · intro d tail same
          exact absurd same notBackslash
  · rintro ⟨body, rfl, escaped⟩
    induction body using isEscaped.induct with
    | case1 => rfl
    | case2 c rest ih => exact ih escaped
    | case3 c rest notEscape ih =>
        rw [isEscaped] at escaped
        · simp only [Bool.and_eq_true, bne_iff_ne, ne_eq] at escaped
          obtain ⟨⟨notBackslash, notQuote⟩, escaped⟩ := escaped
          rw [List.cons_append, afterUnescaped_cons _ notQuote]
          · exact ih escaped
          · intro d tail same
            exact absurd same notBackslash
        · exact notEscape

theorem quoted_iff {operands : CString} :
    (∃ body tail, operands = '"' :: (body ++ '"' :: tail) ∧ isEscaped body = true ∧
        IsTrailing tail) ↔ ¬ QuoteFlaw operands := by
  constructor
  · rintro ⟨body, tail, rfl, escaped, trailing⟩ flaw
    have found : afterUnescaped (body ++ '"' :: tail) = some tail :=
      afterUnescaped_iff.mpr ⟨body, rfl, escaped⟩
    cases flaw with
    | textBefore front => exact front rfl
    | unterminated given missing =>
        obtain rfl := (List.cons.inj given).2
        rw [missing] at found
        cases found
    | leftover given found' other =>
        obtain rfl := (List.cons.inj given).2
        obtain rfl := Option.some.inj (found'.symm.trans found)
        exact other trailing
  · intro sound
    have front : operands.head? = some '"' := by
      by_contra other
      exact sound (.textBefore other)
    obtain ⟨rest, rfl⟩ := List.head?_eq_some_iff.mp front
    cases found : afterUnescaped rest with
    | none => exact absurd (.unterminated rfl found) sound
    | some tail =>
        obtain ⟨body, rfl, escaped⟩ := afterUnescaped_iff.mp found
        refine ⟨body, tail, rfl, escaped, ?_⟩
        by_contra other
        exact sound (.leftover rfl found other)

/-! ### Accepted lines -/

/-- The directive of a line is its first word: no directive is as long as the width of the
pattern. -/
theorem dataLineBytes_mnemonicOf (build : Build) (p : CString) :
    dataLineBytes build p = directiveBytes build (mnemonicOf p) (directiveArgs p) := by
  by_cases known : isDataDirective (mnemonicOf p) = true
  · have short := isDataDirective_length known
    have text : skipBlanks p ≠ [] := by
      intro empty
      rw [mnemonicOf, empty] at known
      exact absurd known (by decide)
    rw [dataLineBytes_eq text, nameLen, List.take_of_length_le (by omega)]
  · cases denoted : dataLineBytes build p with
    | some bytes => exact absurd (isDataDirective_mnemonicOf denoted) known
    | none =>
        cases other : directiveBytes build (mnemonicOf p) (directiveArgs p) with
        | none => rfl
        | some bytes => exact absurd (isDataDirective_of_bytes other) known

theorem processSegmentData_accepts_iff {build : Build} {out : Output} {line : CString}
    (bounded : out.dataOffset ≤ out.ctx.dataSegment.capacity) :
    (processSegmentData build out line).1 = .ok ↔
      ∃ bytes, directiveBytes build (mnemonicOf (afterLabel (skipBlanks line)))
          (directiveArgs (afterLabel (skipBlanks line))) = some bytes ∧
        bytes.length ≤ out.ctx.dataSegment.capacity - out.dataOffset := by
  rw [← dataLineBytes_mnemonicOf]
  constructor
  · intro accepted
    rcases processed : processSegmentData build out line with ⟨code, out'⟩
    rw [processed] at accepted
    cases accepted
    obtain ⟨bytes, denoted, fits, -⟩ := (processSegmentData_ok_iff bounded).mp processed
    exact ⟨bytes, denoted, by omega⟩
  · rintro ⟨bytes, denoted, fits⟩
    rw [(processSegmentData_ok_iff bounded).mpr ⟨bytes, denoted, by omega, rfl⟩]

theorem integersBytes_iff {step : Nat} {tokens : List CString} :
    (∃ bytes, integersBytes step tokens = some bytes) ↔
      ∀ token ∈ tokens, tokenValue token ≠ none := by
  induction tokens with
  | nil => simp [integersBytes]
  | cons token tokens ih =>
      rw [integersBytes_cons, List.forall_mem_cons, ← ih]
      cases tokenValue token with
      | none => simp
      | some value => simp

section Kinds

variable {build : Build} {room : Nat} {p : CString}

def IsRead (build : Build) (room : Nat) (p : CString) : Prop :=
  ∃ bytes, directiveBytes build (mnemonicOf p) (directiveArgs p) = some bytes ∧
    bytes.length ≤ room

theorem slips_integers_iff (isInteger : isIntegerDirective (mnemonicOf p) = true) :
    (IsRead build room p ∧ ¬ WellFormedData (mnemonicOf p) (operandsOf p)) ↔
      Slips build room p := by
  obtain ⟨notString, notSpace⟩ := integerDirective_other isInteger
  have wellFormed : WellFormedData (mnemonicOf p) (operandsOf p) ↔
      ∀ field ∈ (operandsOf p).splitOn ',',
        ¬ (OperandFlaw field ∨ TooWide (integerStep (mnemonicOf p)) field) := by
    simp only [← element_iff]
    rw [← operandList_iff]
    constructor
    · intro shape
      cases shape with
      | integers _ nonempty given inElement => exact ⟨_, nonempty, given, inElement⟩
      | space isSpace => exact absurd isSpace notSpace
      | string isString => exact absurd isString (by simp [notString])
    · rintro ⟨list, nonempty, given, inElement⟩
      exact .integers isInteger nonempty given inElement
  rw [wellFormed, IsRead, directiveBytes, if_pos isInteger]
  constructor
  · rintro ⟨⟨bytes, denoted, fits⟩, malformed⟩
    rw [integersBytes_length denoted] at fits
    simp only [not_forall, not_not] at malformed
    obtain ⟨field, member, flaw⟩ := malformed
    exact .integers isInteger (integersBytes_iff.mp ⟨bytes, denoted⟩) fits member flaw
  · intro slips
    cases slips with
    | integers _ numbers fits member flaw =>
        obtain ⟨bytes, denoted⟩ := integersBytes_iff.mpr numbers
        refine ⟨⟨bytes, denoted, ?_⟩, fun sound => sound _ member flaw⟩
        rwa [integersBytes_length denoted]
    | space isSpace => exact absurd isSpace notSpace
    | string isString => exact absurd isString (by simp [notString])

theorem slips_string_iff (isString : isStringDirective (mnemonicOf p) = true) :
    (IsRead build room p ∧ ¬ WellFormedData (mnemonicOf p) (operandsOf p)) ↔
      Slips build room p := by
  obtain ⟨notInteger, notSpace⟩ := stringDirective_other isString
  have wellFormed : WellFormedData (mnemonicOf p) (operandsOf p) ↔
      ¬ QuoteFlaw (operandsOf p) := by
    rw [← quoted_iff]
    constructor
    · intro shape
      cases shape with
      | integers isInteger => exact absurd isInteger (by simp [notInteger])
      | space isSpace => exact absurd isSpace notSpace
      | string _ given escaped trailing => exact ⟨_, _, given, escaped, trailing⟩
    · rintro ⟨body, tail, given, escaped, trailing⟩
      exact .string isString given escaped trailing
  rw [wellFormed, not_not, IsRead, directiveBytes, if_neg (by simp [notInteger]),
    if_pos isString, stringBytes]
  constructor
  · rintro ⟨⟨bytes, denoted, fits⟩, flaw⟩
    obtain ⟨text, quoted, rfl⟩ := Option.map_eq_some_iff.mp denoted
    rw [List.length_append, List.length_singleton] at fits
    exact .string isString quoted fits flaw
  · intro slips
    cases slips with
    | integers isInteger => exact absurd isInteger (by simp [notInteger])
    | space isSpace => exact absurd isSpace notSpace
    | string _ quoted fits flaw =>
        refine ⟨⟨_, Option.map_eq_some_iff.mpr ⟨_, quoted, rfl⟩, ?_⟩, flaw⟩
        rwa [List.length_append, List.length_singleton]

theorem operands_count_iff {text : CString} :
    (∃ (count : DataOperand) (fill : Option DataOperand),
        text = operandList (count :: fill.toList)) ↔
      ¬ (2 < (text.splitOn ',').length ∨ ∃ field ∈ text.splitOn ',', OperandFlaw field) := by
  constructor
  · rintro ⟨count, fill, rfl⟩ flaw
    rw [splitOn_operandList (List.cons_ne_nil _ _)] at flaw
    rcases flaw with many | ⟨field, member, flaw⟩
    · cases fill <;> simp at many
    · obtain ⟨operand, -, rfl⟩ := List.mem_map.mp member
      exact operand_iff.mp ⟨operand, rfl⟩ flaw
  · intro sound
    rw [not_or] at sound
    obtain ⟨few, flawless⟩ := sound
    have each : ∀ field ∈ text.splitOn ',',
        ∃ operand : DataOperand, operand.text = field ∧ True := by
      intro field member
      obtain ⟨operand, same⟩ := operand_iff.mpr fun flaw => flawless ⟨field, member, flaw⟩
      exact ⟨operand, same, trivial⟩
    obtain ⟨list, nonempty, rfl, -⟩ := operandList_iff.mpr each
    rw [splitOn_operandList nonempty, List.length_map] at few
    match list with
    | [] => exact absurd rfl nonempty
    | [count] => exact ⟨count, none, rfl⟩
    | [count, fill] => exact ⟨count, some fill, rfl⟩
    | _ :: _ :: _ :: _ => simp at few

theorem spaceBytes_iff {args : CString} {bytes : List Byte} :
    spaceBytes build args = some bytes ↔
      ∃ countToken rest count fill, strtok ',' args = countToken :: rest ∧
        tokenValue countToken = some count ∧ 0 ≤ count ∧ fillValue rest = some fill ∧
        bytes = List.replicate (build.toSize count) (BitVec.ofInt 8 fill) := by
  constructor
  · intro denoted
    unfold spaceBytes at denoted
    split at denoted
    · cases denoted
    · rename_i countToken rest tokens
      obtain ⟨count, counted, kept⟩ := Option.bind_eq_some_iff.mp denoted
      split at kept
      · cases kept
      · rename_i nonneg
        obtain ⟨fill, filled, rfl⟩ := Option.map_eq_some_iff.mp kept
        exact ⟨countToken, rest, count, fill, tokens, counted, by omega, filled, rfl⟩
  · rintro ⟨countToken, rest, count, fill, tokens, counted, nonneg, filled, rfl⟩
    simp only [spaceBytes, tokens, counted, Option.bind_some, filled, Option.map_some]
    exact if_neg (by omega)

theorem slips_space_iff (isSpace : mnemonicOf p = ".space".toList) :
    (IsRead build room p ∧ ¬ WellFormedData (mnemonicOf p) (operandsOf p)) ↔
      Slips build room p := by
  have notInteger : ¬ isIntegerDirective (mnemonicOf p) = true := by
    intro isInteger
    exact (integerDirective_other isInteger).2 isSpace
  have notString : ¬ isStringDirective (mnemonicOf p) = true := by
    intro isString
    exact (stringDirective_other isString).2 isSpace
  have wellFormed : WellFormedData (mnemonicOf p) (operandsOf p) ↔
      ∃ (count : DataOperand) (fill : Option DataOperand),
        operandsOf p = operandList (count :: fill.toList) := by
    constructor
    · intro shape
      cases shape with
      | integers isInteger => exact absurd isInteger notInteger
      | space _ given => exact ⟨_, _, given⟩
      | string isString => exact absurd isString notString
    · rintro ⟨count, fill, given⟩
      exact .space isSpace given
  rw [wellFormed, operands_count_iff, not_not, IsRead, directiveBytes, if_neg notInteger,
    if_neg notString, if_pos isSpace]
  constructor
  · rintro ⟨⟨bytes, denoted, fits⟩, flaw⟩
    obtain ⟨countToken, rest, count, fill, tokens, counted, nonneg, filled, rfl⟩ :=
      spaceBytes_iff.mp denoted
    rw [List.length_replicate] at fits
    exact .space isSpace tokens counted nonneg filled fits flaw
  · intro slips
    cases slips with
    | integers isInteger => exact absurd isInteger notInteger
    | space _ tokens counted nonneg filled fits flaw =>
        refine ⟨⟨_, spaceBytes_iff.mpr
          ⟨_, _, _, _, tokens, counted, nonneg, filled, rfl⟩, ?_⟩, flaw⟩
        rwa [List.length_replicate]
    | string isString => exact absurd isString notString

/-- What is accepted and malformed has slipped through. -/
theorem slips_iff :
    (IsRead build room p ∧ ¬ WellFormedData (mnemonicOf p) (operandsOf p)) ↔
      Slips build room p := by
  by_cases isInteger : isIntegerDirective (mnemonicOf p) = true
  · exact slips_integers_iff isInteger
  · by_cases isString : isStringDirective (mnemonicOf p) = true
    · exact slips_string_iff isString
    · by_cases isSpace : mnemonicOf p = ".space".toList
      · exact slips_space_iff isSpace
      · constructor
        · rintro ⟨⟨bytes, denoted, -⟩, -⟩
          rw [directiveBytes, if_neg isInteger, if_neg isString, if_neg isSpace] at denoted
          cases denoted
        · intro slips
          cases slips with
          | integers yes => exact absurd yes isInteger
          | space yes => exact absurd yes isSpace
          | string yes => exact absurd yes isString

end Kinds

/-- Malformed lines are rejected exactly when none of the slips is taken. -/
theorem rejectsMalformed_iff {build : Build} {out : Output} {line : CString}
    (bounded : out.Bounded) :
    RejectsMalformed build out line ↔
      ¬ Slips build (dataSize - out.dataOffset) (afterLabel (skipBlanks line)) := by
  have inside : out.dataOffset ≤ out.ctx.dataSegment.capacity := by
    rw [bounded.dataCapacity]
    exact bounded.data
  have accepts : (processSegmentData build out line).1 = .ok ↔
      IsRead build (dataSize - out.dataOffset) (afterLabel (skipBlanks line)) := by
    rw [processSegmentData_accepts_iff inside, bounded.dataCapacity]
    rfl
  rw [← slips_iff, ← accepts]
  constructor
  · rintro rejects ⟨accepted, malformed⟩
    exact malformed (rejects.accepted accepted)
  · intro none
    refine ⟨?_, fun failed => (processSegmentData_failed build out line failed).2.2⟩
    intro accepted
    by_contra malformed
    exact none ⟨accepted, malformed⟩

def twoNumbersLine : CString := "v: .byte 1 2".toList

theorem twoNumbers_slips : Slips .native 2048 (afterLabel (skipBlanks twoNumbersLine)) := by
  have number : scanNumber 0 "1 2".toList = some (false, 1, " 2".toList) := by decide
  have flaw : OperandFlaw "1 2".toList :=
    .leftover number (show '2' ∈ " 2".toList by decide) (by decide)
  exact .integers (by decide) (by decide) (by decide) (by decide) (.inl flaw)

theorem twoNumbers_not_rejected :
    ¬ RejectsMalformed .native (assembleStart (initCtx 0)).2 twoNumbersLine := by
  intro rejects
  exact (slips_iff.mpr twoNumbers_slips).2 (rejects.accepted (by decide))

/-- `v: .byte 1, x` -/
def letterLine : CString := "v: .byte 1, x".toList

theorem rejectsMalformed_letter :
    RejectsMalformed .native (assembleStart (initCtx 0)).2 letterLine := by
  refine (rejectsMalformed_iff bounded_init).mpr ?_
  intro slips
  obtain ⟨⟨bytes, denoted, -⟩, -⟩ := slips_iff.mpr slips
  have refused : directiveBytes .native (mnemonicOf (afterLabel (skipBlanks letterLine)))
      (directiveArgs (afterLabel (skipBlanks letterLine))) = none := by decide
  rw [refused] at denoted
  cases denoted
end RiscvAs
