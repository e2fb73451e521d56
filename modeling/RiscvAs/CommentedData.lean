/-
Comments after the arguments of a data directive.

The arguments of a directive go on to the end of the line, so the comment is a part of them:
commas split it into tokens of their own, and a quote in it is the last one of the line.
`KeepsData` is when the directive denotes what it did; where it does not, it denotes nothing or
at least as many bytes.
-/

import RiscvAs.CommentedText
import RiscvAs.DataLines

namespace RiscvAs

open Stdio
open Bytes (Byte)

def commaText (remark : CString) : CString :=
  remark.dropWhile (fun c => c ≠ ',')

/-- The directive denotes the same bytes when the remark is appended to its arguments. -/
inductive KeepsData (build : Build) (directive args remark : CString) : Prop where
  | integers (isInteger : isIntegerDirective directive = true) (given : args ≠ [])
      (ended : args.getLast? ≠ some ',') (commas : ∀ c ∈ commaText remark, c = ',')
  | string (isString : isStringDirective directive = true) (noQuote : '"' ∉ remark)
  | filled (isSpace : directive = ".space".toList) (two : 2 ≤ (strtok ',' args).length)
  | zeroFill (isSpace : directive = ".space".toList) (ended : args.getLast? ≠ some ',')
      (zero : fillValue (strtok ',' (commaText remark)) = some 0)
  | noSpace (isSpace : directive = ".space".toList) (ended : args.getLast? ≠ some ',')
      {token : CString} {count fill : Int} (only : strtok ',' args = [token])
      (counted : tokenValue token = some count) (empty : build.toSize count = 0)
      (read : fillValue (strtok ',' (commaText remark)) = some fill)

section Tokens

variable (comment : Comment)

def Comment.token (comment : Comment) : CString :=
  comment.blanks ++ ' ' :: '#' :: comment.remark.takeWhile (fun c => c ≠ ',')

theorem Comment.token_nonempty : comment.token ≠ [] := by
  simp [Comment.token]

theorem Comment.token_front : BlankFront comment.token := by
  obtain ⟨blanks, remark, allBlank, oneLine⟩ := comment
  cases blanks with
  | nil => exact ⟨' ', rfl, rfl⟩
  | cons c blanks => exact ⟨c, rfl, allBlank c (List.mem_cons_self ..)⟩

theorem Comment.text_commas :
    comment.text.takeWhile (fun c => c ≠ ',') = comment.token ∧
      comment.text.dropWhile (fun c => c ≠ ',') = commaText comment.remark := by
  have accepted : ∀ c ∈ comment.blanks ++ [' ', '#'], decide (c ≠ ',') = true := by
    intro c member
    rw [decide_eq_true_eq]
    rintro rfl
    rcases List.mem_append.mp member with blank | later
    · exact absurd (comment.allBlank _ blank) (by decide)
    · exact absurd later (by decide)
  have split : comment.text = (comment.blanks ++ [' ', '#']) ++ comment.remark := by
    simp [Comment.text]
  rw [split, List.takeWhile_append_of_pos accepted, List.dropWhile_append_of_pos accepted]
  simp [Comment.token, commaText]

theorem comma_not_mem_token : ',' ∉ comment.token := by
  intro member
  rw [← comment.text_commas.1] at member
  exact absurd (List.mem_takeWhile_imp member) (by decide)

theorem skipBlanks_mark {blanks : CString} (allBlank : ∀ c ∈ blanks, isspace c = true)
    (rest : CString) : skipBlanks (blanks ++ ' ' :: '#' :: rest) = '#' :: rest := by
  have split : blanks ++ ' ' :: '#' :: rest = (blanks ++ [' ']) ++ '#' :: rest := by simp
  have front : ∀ c ∈ blanks ++ [' '], isspace c = true := by
    intro c member
    rcases List.mem_append.mp member with blank | space
    · exact allBlank c blank
    · rw [List.mem_singleton.mp space]
      rfl
  rw [split, skipBlanks, dropWhile_append_stops front (by simp [isspace])]

theorem tokenValue_mark {token rest : CString} (mark : skipBlanks token = '#' :: rest) :
    tokenValue token = none := by
  have failed : sscanf formatInteger token = [] := by
    rw [formatInteger, sscanf_blank, mark]
    rfl
  rw [tokenValue, failed]

theorem Comment.tokenValue_token : tokenValue comment.token = none :=
  tokenValue_mark (skipBlanks_mark comment.allBlank _)

theorem tokenValue_append {token : CString} {value : Int} (read : tokenValue token = some value) :
    tokenValue (token ++ comment.token) = some value := by
  rcases tokenValue_cases token with ⟨value', scanned, same⟩ | ⟨-, none⟩
  · obtain rfl : value' = value := by
      rw [read] at same
      exact (Option.some.inj same).symm
    rw [formatInteger, sscanf_blank] at scanned
    have text : skipBlanks token ≠ [] := by
      intro empty
      rw [empty, sscanf_nil] at scanned
      cases scanned
    have scanned' : sscanf formatInteger (token ++ comment.token) = [.int value'] := by
      rw [formatInteger, sscanf_blank, skipBlanks_append text,
        sscanf_int_append comment.token_front scanned]
    rw [tokenValue, scanned']
  · rw [read] at none
    cases none

end Tokens

theorem integersBytes_append (step : Nat) (tokens more : List CString) :
    integersBytes step (tokens ++ more) =
      (integersBytes step tokens).bind (fun bytes =>
        (integersBytes step more).map (fun rest => bytes ++ rest)) := by
  induction tokens with
  | nil =>
      simp only [List.nil_append, integersBytes, List.mapM_nil]
      cases more.mapM tokenValue <;> rfl
  | cons token tokens ih =>
      rw [List.cons_append, integersBytes_cons, integersBytes_cons, ih]
      cases tokenValue token with
      | none => rfl
      | some value =>
          cases integersBytes step tokens with
          | none => rfl
          | some bytes =>
              cases integersBytes step more with
              | none => rfl
              | some rest => simp [List.append_assoc]

theorem integersBytes_length {step : Nat} {tokens : List CString} {bytes : List Byte}
    (denoted : integersBytes step tokens = some bytes) : bytes.length = step * tokens.length := by
  induction tokens generalizing bytes with
  | nil =>
      cases denoted
      rfl
  | cons token tokens ih =>
      rw [integersBytes_cons] at denoted
      obtain ⟨value, -, rest⟩ := Option.bind_eq_some_iff.mp denoted
      obtain ⟨others, denoted', rfl⟩ := Option.map_eq_some_iff.mp rest
      rw [List.length_append, integerBytes_length, ih denoted', List.length_cons, Nat.mul_succ,
        Nat.add_comm]

theorem integerStep_pos (directive : CString) : 0 < integerStep directive := by
  unfold integerStep
  split
  · decide
  · split <;> decide

section Arguments

variable {args : CString} (comment : Comment)

theorem strtok_comment : strtok ',' comment.text =
    comment.token :: strtok ',' (commaText comment.remark) := by
  have split : comment.text = comment.token ++ commaText comment.remark := by
    rw [← comment.text_commas.1, ← comment.text_commas.2, List.takeWhile_append_dropWhile]
  have commas : ∀ c ∈ (commaText comment.remark).head?, c = ',' := by
    intro c first
    have stops := List.head?_dropWhile_not (fun c => decide (c ≠ ',')) comment.remark
    rw [← commaText, Option.mem_def.mp first] at stops
    simpa using stops
  rw [split, strtok_front comment.token_nonempty (comma_not_mem_token comment)]
  cases shape : commaText comment.remark with
  | nil => simp
  | cons c rest =>
      obtain rfl := commas c (by rw [shape]; rfl)
      simp

theorem strtok_append_comment (given : args ≠ []) (ended : args.getLast? ≠ some ',') :
    ∃ tokens token, strtok ',' args = tokens ++ [token] ∧
      strtok ',' (args ++ comment.text) =
        tokens ++ (token ++ comment.token) :: strtok ',' (commaText comment.remark) := by
  obtain ⟨tokens, token, split, appended⟩ := strtok_append given ended
  obtain ⟨front, after⟩ := comment.text_commas
  refine ⟨tokens, token, split, ?_⟩
  rw [appended, front, after]

/-- After a comma the comment is a token of its own. -/
theorem strtok_append_comment_of_comma (ended : args.getLast? = some ',') :
    strtok ',' (args ++ comment.text) =
      strtok ',' args ++ comment.token :: strtok ',' (commaText comment.remark) := by
  rw [strtok_append_of_delim ended, strtok_comment]

end Arguments

section Integers

variable {step : Nat} {args : CString} {bytes : List Byte} (comment : Comment)
  (denoted : integersBytes step (strtok ',' args) = some bytes)

include denoted

theorem integersBytes_comment (given : args ≠ []) (ended : args.getLast? ≠ some ',') :
    integersBytes step (strtok ',' (args ++ comment.text)) =
      (integersBytes step (strtok ',' (commaText comment.remark))).map
        (fun rest => bytes ++ rest) := by
  obtain ⟨tokens, token, split, appended⟩ := strtok_append_comment comment given ended
  rw [split, integersBytes_append] at denoted
  obtain ⟨front, first, rest⟩ := Option.bind_eq_some_iff.mp denoted
  obtain ⟨last, single, rfl⟩ := Option.map_eq_some_iff.mp rest
  rw [integersBytes_cons] at single
  obtain ⟨value, read, alone⟩ := Option.bind_eq_some_iff.mp single
  obtain ⟨none, empty, rfl⟩ := Option.map_eq_some_iff.mp alone
  cases empty
  rw [appended, integersBytes_append, first, integersBytes_cons, tokenValue_append comment read]
  cases integersBytes step (strtok ',' (commaText comment.remark)) with
  | none => rfl
  | some more => simp

theorem integersBytes_comment_of_comma (ended : args.getLast? = some ',') :
    integersBytes step (strtok ',' (args ++ comment.text)) = none := by
  rw [strtok_append_comment_of_comma comment ended, integersBytes_append, denoted,
    integersBytes_cons, comment.tokenValue_token]
  rfl

theorem integersBytes_comment_iff (positive : 0 < step) (given : args ≠ []) :
    integersBytes step (strtok ',' (args ++ comment.text)) = some bytes ↔
      args.getLast? ≠ some ',' ∧ ∀ c ∈ commaText comment.remark, c = ',' := by
  by_cases ended : args.getLast? = some ','
  · rw [integersBytes_comment_of_comma comment denoted ended]
    simp [ended]
  · rw [integersBytes_comment comment denoted given ended, ← strtok_eq_nil_iff]
    constructor
    · intro same
      obtain ⟨more, read, appended⟩ := Option.map_eq_some_iff.mp same
      obtain rfl := List.append_right_eq_self.mp appended
      have none := integersBytes_length read
      rw [List.length_nil, eq_comm, Nat.mul_eq_zero] at none
      exact ⟨ended, List.eq_nil_of_length_eq_zero (none.resolve_left (by omega))⟩
    · rintro ⟨-, none⟩
      rw [none]
      simp [integersBytes]

theorem integersBytes_comment_length (given : args ≠ []) {bytes' : List Byte}
    (denoted' : integersBytes step (strtok ',' (args ++ comment.text)) = some bytes') :
    bytes.length ≤ bytes'.length := by
  by_cases ended : args.getLast? = some ','
  · rw [integersBytes_comment_of_comma comment denoted ended] at denoted'
    cases denoted'
  · rw [integersBytes_comment comment denoted given ended] at denoted'
    obtain ⟨more, -, rfl⟩ := Option.map_eq_some_iff.mp denoted'
    rw [List.length_append]
    omega

end Integers

/-! ### Strings -/

theorem units_nil : units [] = [] := rfl

theorem units_plain {c : Char} (plain : c ≠ '\\') (rest : CString) :
    units (c :: rest) = [charByte c] :: units rest := by
  rw [units]
  intro d tail same
  exact absurd same plain

/-- A quote in a text adds its own byte and those of the text after it, also where a backslash
comes before it. -/
theorem units_quote_length (text more : CString) :
    (units text).flatten.length + (units more).flatten.length ≤
      (units (text ++ '"' :: more)).flatten.length := by
  induction text using units.induct with
  | case1 =>
      rw [List.nil_append, units_plain (by decide), units_nil, List.flatten_nil, List.flatten_cons,
        List.length_append, List.length_nil]
      omega
  | case2 c rest ih =>
      have escape : ∀ t, units ('\\' :: c :: t) = escapeBytes c :: units t := fun t => by rw [units]
      rw [List.cons_append, List.cons_append, escape, escape, List.flatten_cons, List.flatten_cons,
        List.length_append, List.length_append]
      omega
  | case3 c rest notEscape ih =>
      by_cases backslash : c = '\\'
      · subst backslash
        cases rest with
        | nil =>
            -- The backslash is a byte of its own here, and an escape with the quote after it.
            have alone : units ['\\'] = [[charByte '\\']] := rfl
            have escape : units ('\\' :: '"' :: more) = [charByte '"'] :: units more := rfl
            rw [List.cons_append, List.nil_append, alone, escape, List.flatten_cons,
              List.flatten_cons, List.length_append, List.length_append]
            exact Nat.le_of_eq (by simp)
        | cons d rest => exact absurd rfl (notEscape d rest rfl)
      · rw [List.cons_append, units_plain backslash, units_plain backslash, List.flatten_cons,
          List.flatten_cons, List.length_append, List.length_append]
        omega

theorem units_length_pos {text : CString} (nonempty : text ≠ []) :
    0 < (units text).flatten.length := by
  obtain ⟨c, rest, rfl⟩ := List.exists_cons_of_ne_nil nonempty
  obtain ⟨bytes, tail, unit, size, -⟩ := handleDataStringLoop_cons 0 c rest (.start tempData 0)
  rw [unit, List.flatten_cons, List.length_append]
  omega

section Strings

variable {args : CString} {bytes : List Byte} (comment : Comment)

theorem quote_not_mem_text (noQuote : '"' ∉ comment.remark) : '"' ∉ comment.text := by
  intro member
  rcases List.mem_append.mp member with blank | later
  · exact absurd (comment.allBlank _ blank) (by decide)
  · simp only [List.mem_cons] at later
    rcases later with space | mark | inside
    · cases space
    · cases mark
    · exact noQuote inside

theorem quotedText_comment {text : CString} (quoted : quotedText args = some text)
    (noQuote : '"' ∉ comment.remark) : quotedText (args ++ comment.text) = some text := by
  obtain ⟨rest, first, last⟩ := Option.bind_eq_some_iff.mp quoted
  rw [quotedText, afterFirst_append first]
  exact (beforeLast_append (quote_not_mem_text comment noQuote) rest).trans last

/-- With a quote in the comment the text between the quotes goes on. -/
theorem quotedText_comment_of_quote {text : CString} (quoted : quotedText args = some text)
    (quote : '"' ∈ comment.remark) : ∃ more, more ≠ [] ∧
      quotedText (args ++ comment.text) = some (text ++ '"' :: more) := by
  obtain ⟨rest, first, last⟩ := Option.bind_eq_some_iff.mp quoted
  obtain ⟨after, rfl, -⟩ := beforeLast_some last
  cases found : beforeLast '"' comment.remark with
  | none => exact absurd quote (beforeLast_none found)
  | some before =>
      obtain ⟨tail, remark, absent⟩ := beforeLast_some found
      refine ⟨after ++ comment.blanks ++ ' ' :: '#' :: before, by simp, ?_⟩
      have shape : (text ++ '"' :: after) ++ comment.text =
          (text ++ '"' :: (after ++ comment.blanks ++ ' ' :: '#' :: before)) ++ '"' :: tail := by
        simp [Comment.text, remark]
      rw [quotedText, afterFirst_append first, Option.bind_some, shape, beforeLast_last absent]

theorem stringBytes_comment_iff (denoted : stringBytes args = some bytes) :
    stringBytes (args ++ comment.text) = some bytes ↔ '"' ∉ comment.remark := by
  obtain ⟨text, quoted, rfl⟩ := Option.map_eq_some_iff.mp denoted
  constructor
  · intro same quote
    obtain ⟨more, some, quoted'⟩ := quotedText_comment_of_quote comment quoted quote
    rw [stringBytes, quoted'] at same
    have lengths := congrArg List.length (Option.some.inj same)
    rw [List.length_append, List.length_append] at lengths
    have longer := units_quote_length text more
    have positive := units_length_pos some
    omega
  · intro noQuote
    rw [stringBytes, quotedText_comment comment quoted noQuote]
    rfl

theorem stringBytes_comment_length (denoted : stringBytes args = some bytes) {bytes' : List Byte}
    (denoted' : stringBytes (args ++ comment.text) = some bytes') :
    bytes.length ≤ bytes'.length := by
  by_cases quote : '"' ∈ comment.remark
  · obtain ⟨text, quoted, rfl⟩ := Option.map_eq_some_iff.mp denoted
    obtain ⟨more, some, quoted'⟩ := quotedText_comment_of_quote comment quoted quote
    rw [stringBytes, quoted'] at denoted'
    obtain rfl := Option.some.inj denoted'
    rw [List.length_append, List.length_append]
    have longer := units_quote_length text more
    omega
  · rw [(stringBytes_comment_iff comment denoted).mpr quote] at denoted'
    rw [Option.some.inj denoted']

end Strings

theorem fillValue_range {tokens : List CString} {fill : Int} (read : fillValue tokens = some fill) :
    0 ≤ fill ∧ fill ≤ 255 := by
  cases tokens with
  | nil =>
      obtain rfl := Option.some.inj read
      decide
  | cons token tokens =>
      have kept := (Option.filter_eq_some_iff.mp read).2
      simpa using kept

theorem ofInt_eq_zero_iff {fill : Int} (low : 0 ≤ fill) (high : fill ≤ 255) :
    BitVec.ofInt 8 fill = 0 ↔ fill = 0 := by
  constructor
  · intro zero
    have value : (BitVec.ofInt 8 fill).toNat = 0 := by
      rw [zero]
      rfl
    rw [BitVec.toNat_ofInt] at value
    omega
  · rintro rfl
    rfl

section Space

variable {build : Build} {args token : CString} {rest : List CString} {count : Int}

theorem spaceBytes_eq (tokens : strtok ',' args = token :: rest)
    (counted : tokenValue token = some count) (nonneg : 0 ≤ count) :
    spaceBytes build args = (fillValue rest).map (fun fill =>
      List.replicate (build.toSize count) (BitVec.ofInt 8 fill)) := by
  simp only [spaceBytes, tokens]
  rw [counted, Option.bind_some, if_neg (by omega)]

theorem spaceBytes_inv {bytes : List Byte} (denoted : spaceBytes build args = some bytes) :
    ∃ token rest count fill, strtok ',' args = token :: rest ∧ tokenValue token = some count ∧
      0 ≤ count ∧ fillValue rest = some fill ∧
      bytes = List.replicate (build.toSize count) (BitVec.ofInt 8 fill) := by
  unfold spaceBytes at denoted
  split at denoted
  · cases denoted
  · rename_i token rest tokens
    obtain ⟨count, counted, given⟩ := Option.bind_eq_some_iff.mp denoted
    split at given
    · cases given
    · rename_i nonneg
      obtain ⟨fill, read, rfl⟩ := Option.map_eq_some_iff.mp given
      exact ⟨token, rest, count, fill, tokens, counted, by omega, read, rfl⟩

variable {bytes : List Byte} (comment : Comment)

theorem spaceBytes_comment_filled (denoted : spaceBytes build args = some bytes)
    (two : 2 ≤ (strtok ',' args).length) :
    spaceBytes build (args ++ comment.text) = some bytes := by
  obtain ⟨token, rest, count, fill, tokens, counted, nonneg, read, rfl⟩ := spaceBytes_inv denoted
  rw [tokens, List.length_cons] at two
  obtain ⟨second, others, rfl⟩ := List.exists_cons_of_length_pos (by omega : 0 < rest.length)
  have same : ∃ others', strtok ',' (args ++ comment.text) = token :: second :: others' ∨
      strtok ',' (args ++ comment.text) = token :: (second ++ comment.token) :: others' := by
    by_cases ended : args.getLast? = some ','
    · exact ⟨_, Or.inl (by rw [strtok_append_comment_of_comma comment ended, tokens]; rfl)⟩
    · have given : args ≠ [] := by
        rintro rfl
        cases tokens
      obtain ⟨front, last, split, appended⟩ := strtok_append_comment comment given ended
      rw [tokens] at split
      cases front with
      | nil => cases split
      | cons first front =>
          obtain ⟨rfl, later⟩ := List.cons.inj split
          cases front with
          | nil =>
              obtain ⟨rfl, -⟩ := List.cons.inj later
              exact ⟨_, Or.inr appended⟩
          | cons next front =>
              obtain ⟨rfl, -⟩ := List.cons.inj later
              exact ⟨_, Or.inl appended⟩
  have kept : tokenValue second = some fill := (Option.filter_eq_some_iff.mp read).1
  have extended : fillValue [second ++ comment.token] = fillValue [second] := by
    rw [fillValue, fillValue, tokenValue_append comment kept, kept]
  obtain ⟨others', plain | longer⟩ := same
  · rw [spaceBytes_eq plain counted nonneg]
    exact congrArg _ read
  · rw [spaceBytes_eq longer counted nonneg]
    exact congrArg _ (extended.trans read)

theorem spaceBytes_comment (only : strtok ',' args = [token]) (ended : args.getLast? ≠ some ',')
    (counted : tokenValue token = some count) (nonneg : 0 ≤ count) :
    spaceBytes build (args ++ comment.text) =
      (fillValue (strtok ',' (commaText comment.remark))).map (fun fill =>
        List.replicate (build.toSize count) (BitVec.ofInt 8 fill)) := by
  have given : args ≠ [] := by
    rintro rfl
    cases only
  obtain ⟨front, last, split, appended⟩ := strtok_append_comment comment given ended
  rw [only] at split
  obtain ⟨rfl, rfl⟩ : front = [] ∧ last = token := by
    cases front with
    | nil => exact ⟨rfl, (List.cons.inj split).1.symm⟩
    | cons first front => simp at split
  exact spaceBytes_eq appended (tokenValue_append comment counted) nonneg

theorem spaceBytes_comment_of_comma (only : strtok ',' args = [token])
    (ended : args.getLast? = some ',') : spaceBytes build (args ++ comment.text) = none := by
  have tokens := strtok_append_comment_of_comma comment ended
  rw [only] at tokens
  cases denoted : spaceBytes build (args ++ comment.text) with
  | none => rfl
  | some bytes =>
      obtain ⟨token', rest, count, fill, split, -, -, read, -⟩ := spaceBytes_inv denoted
      rw [tokens] at split
      obtain ⟨-, rfl⟩ := List.cons.inj split
      simp [fillValue, comment.tokenValue_token] at read

theorem spaceBytes_comment_length (denoted : spaceBytes build args = some bytes)
    {bytes' : List Byte} (denoted' : spaceBytes build (args ++ comment.text) = some bytes') :
    bytes.length ≤ bytes'.length := by
  by_cases two : 2 ≤ (strtok ',' args).length
  · rw [spaceBytes_comment_filled comment denoted two] at denoted'
    rw [Option.some.inj denoted']
  · obtain ⟨token, rest, count, fill, tokens, counted, nonneg, -, rfl⟩ := spaceBytes_inv denoted
    obtain rfl : rest = [] := by
      rw [tokens, List.length_cons] at two
      exact List.eq_nil_of_length_eq_zero (by omega)
    by_cases ended : args.getLast? = some ','
    · rw [spaceBytes_comment_of_comma comment tokens ended] at denoted'
      cases denoted'
    · rw [spaceBytes_comment comment tokens ended counted nonneg] at denoted'
      obtain ⟨fill', -, rfl⟩ := Option.map_eq_some_iff.mp denoted'
      rw [List.length_replicate, List.length_replicate]

end Space

/-! ### Directives -/

section Kinds

variable {build : Build} {directive args remark : CString}

theorem integerDirective_other (isInteger : isIntegerDirective directive = true) :
    isStringDirective directive = false ∧ directive ≠ ".space".toList := by
  simp only [isIntegerDirective, Bool.or_eq_true, decide_eq_true_eq] at isInteger
  rcases isInteger with (rfl | rfl) | rfl <;> exact ⟨by decide, by decide⟩

theorem stringDirective_other (isString : isStringDirective directive = true) :
    isIntegerDirective directive = false ∧ directive ≠ ".space".toList := by
  simp only [isStringDirective, Bool.or_eq_true, decide_eq_true_eq] at isString
  rcases isString with (rfl | rfl) | rfl <;> exact ⟨by decide, by decide⟩

theorem keepsData_integer_iff (isInteger : isIntegerDirective directive = true) :
    KeepsData build directive args remark ↔
      args ≠ [] ∧ args.getLast? ≠ some ',' ∧ ∀ c ∈ commaText remark, c = ',' := by
  obtain ⟨notString, notSpace⟩ := integerDirective_other isInteger
  constructor
  · intro keeps
    cases keeps with
    | integers _ given ended commas => exact ⟨given, ended, commas⟩
    | string isString => exact absurd isString (by simp [notString])
    | filled isSpace => exact absurd isSpace notSpace
    | zeroFill isSpace => exact absurd isSpace notSpace
    | noSpace isSpace => exact absurd isSpace notSpace
  · rintro ⟨given, ended, commas⟩
    exact .integers isInteger given ended commas

theorem keepsData_string_iff (isString : isStringDirective directive = true) :
    KeepsData build directive args remark ↔ '"' ∉ remark := by
  obtain ⟨notInteger, notSpace⟩ := stringDirective_other isString
  constructor
  · intro keeps
    cases keeps with
    | integers isInteger => exact absurd isInteger (by simp [notInteger])
    | string _ noQuote => exact noQuote
    | filled isSpace => exact absurd isSpace notSpace
    | zeroFill isSpace => exact absurd isSpace notSpace
    | noSpace isSpace => exact absurd isSpace notSpace
  · exact fun noQuote => .string isString noQuote

/-- A fill byte in the arguments, or one in the comment that makes no difference. -/
theorem keepsData_space_cases (isSpace : directive = ".space".toList)
    (keeps : KeepsData build directive args remark) :
    2 ≤ (strtok ',' args).length ∨ args.getLast? ≠ some ',' ∧
      (fillValue (strtok ',' (commaText remark)) = some 0 ∨ ∃ token count fill,
        strtok ',' args = [token] ∧ tokenValue token = some count ∧ build.toSize count = 0 ∧
          fillValue (strtok ',' (commaText remark)) = some fill) := by
  cases keeps with
  | integers isInteger => exact absurd isSpace (integerDirective_other isInteger).2
  | string isString => exact absurd isSpace (stringDirective_other isString).2
  | filled _ two => exact Or.inl two
  | zeroFill _ ended zero => exact Or.inr ⟨ended, Or.inl zero⟩
  | noSpace _ ended only counted empty read =>
      exact Or.inr ⟨ended, Or.inr ⟨_, _, _, only, counted, empty, read⟩⟩

end Kinds

section Directives

variable {build : Build} {directive args : CString} {bytes : List Byte} (comment : Comment)

theorem spaceBytes_comment_iff (isSpace : directive = ".space".toList)
    (denoted : spaceBytes build args = some bytes) :
    spaceBytes build (args ++ comment.text) = some bytes ↔
      KeepsData build directive args comment.remark := by
  obtain ⟨token, rest, count, fill, tokens, counted, nonneg, read, shape⟩ := spaceBytes_inv denoted
  by_cases two : 2 ≤ (strtok ',' args).length
  · exact iff_of_true (spaceBytes_comment_filled comment denoted two) (.filled isSpace two)
  · obtain rfl : rest = [] := by
      rw [tokens, List.length_cons] at two
      exact List.eq_nil_of_length_eq_zero (by omega)
    obtain rfl : fill = 0 := (Option.some.inj read).symm
    by_cases ended : args.getLast? = some ','
    · rw [spaceBytes_comment_of_comma comment tokens ended]
      refine iff_of_false (by simp) ?_
      intro keeps
      rcases keepsData_space_cases isSpace keeps with filled | ⟨notEnded, -⟩
      · exact two filled
      · exact notEnded ended
    · rw [spaceBytes_comment comment tokens ended counted nonneg, shape, Option.map_eq_some_iff]
      constructor
      · rintro ⟨fill', read', same⟩
        rw [List.replicate_inj] at same
        rcases same.2 with none | sameFill
        · exact .noSpace isSpace ended tokens counted none read'
        · have range := fillValue_range read'
          have zero : fill' = 0 := (ofInt_eq_zero_iff range.1 range.2).mp sameFill
          exact .zeroFill isSpace ended (by rw [read', zero])
      · intro keeps
        rcases keepsData_space_cases isSpace keeps with filled | ⟨-, zero | noSpace⟩
        · exact absurd filled two
        · exact ⟨0, zero, rfl⟩
        · obtain ⟨token', count', fill', only, counted', empty, read'⟩ := noSpace
          obtain rfl := (List.cons.inj (only.symm.trans tokens)).1
          obtain rfl := Option.some.inj (counted'.symm.trans counted)
          exact ⟨fill', read', by rw [empty]; rfl⟩

/-- A directive with arguments denotes the same bytes exactly when the comment keeps them. -/
theorem directiveBytes_comment_iff (given : args ≠ [])
    (denoted : directiveBytes build directive args = some bytes) :
    directiveBytes build directive (args ++ comment.text) = some bytes ↔
      KeepsData build directive args comment.remark := by
  unfold directiveBytes at denoted ⊢
  by_cases isInteger : isIntegerDirective directive = true
  · rw [if_pos isInteger] at denoted ⊢
    rw [integersBytes_comment_iff comment denoted (integerStep_pos directive) given,
      keepsData_integer_iff isInteger, and_iff_right given]
  · rw [if_neg isInteger] at denoted ⊢
    by_cases isString : isStringDirective directive = true
    · rw [if_pos isString] at denoted ⊢
      rw [stringBytes_comment_iff comment denoted, keepsData_string_iff isString]
    · rw [if_neg isString] at denoted ⊢
      by_cases isSpace : directive = ".space".toList
      · rw [if_pos isSpace] at denoted ⊢
        exact spaceBytes_comment_iff comment isSpace denoted
      · rw [if_neg isSpace] at denoted
        cases denoted

/-- No comment shortens what a directive denotes. -/
theorem directiveBytes_comment_length (given : args ≠ [])
    (denoted : directiveBytes build directive args = some bytes) {bytes' : List Byte}
    (denoted' : directiveBytes build directive (args ++ comment.text) = some bytes') :
    bytes.length ≤ bytes'.length := by
  unfold directiveBytes at denoted denoted'
  by_cases isInteger : isIntegerDirective directive = true
  · rw [if_pos isInteger] at denoted denoted'
    exact integersBytes_comment_length comment denoted given denoted'
  · rw [if_neg isInteger] at denoted denoted'
    by_cases isString : isStringDirective directive = true
    · rw [if_pos isString] at denoted denoted'
      exact stringBytes_comment_length comment denoted denoted'
    · rw [if_neg isString] at denoted denoted'
      by_cases isSpace : directive = ".space".toList
      · rw [if_pos isSpace] at denoted denoted'
        exact spaceBytes_comment_length comment denoted denoted'
      · rw [if_neg isSpace] at denoted
        cases denoted

theorem isIntegerDirective_of_empty (denoted : directiveBytes build directive [] = some bytes) :
    isIntegerDirective directive = true := by
  by_contra notInteger
  rw [directiveBytes, if_neg notInteger] at denoted
  split at denoted
  · cases denoted
  · split at denoted
    · cases denoted
    · cases denoted

theorem directiveBytes_mark (denoted : directiveBytes build directive [] = some bytes)
    (rest : CString) : directiveBytes build directive ('#' :: rest) = none := by
  have token : strtok ',' (['#'] ++ rest) = (['#'] ++ rest.takeWhile (fun c => c ≠ ',')) ::
      strtok ',' (rest.dropWhile (fun c => c ≠ ',')) :=
    strtok_front (List.cons_ne_nil '#' []) (by decide) rest
  have read : tokenValue ('#' :: rest.takeWhile (fun c => c ≠ ',')) = none :=
    tokenValue_mark (skipBlanks_of_stops (by simp [isspace]))
  rw [List.singleton_append, List.singleton_append] at token
  rw [directiveBytes, if_pos (isIntegerDirective_of_empty denoted), token, integersBytes_cons, read]
  rfl

end Directives

theorem directiveArgs_append {p : CString} (comment : Comment) :
    (directiveArgs p ≠ [] → directiveArgs (p ++ comment.text) = directiveArgs p ++ comment.text) ∧
      (directiveArgs p = [] → directiveArgs (p ++ comment.text) = '#' :: comment.remark) := by
  constructor
  · intro given
    have span : afterSpan [' ', '\t'] p ≠ [] := by
      intro empty
      rw [directiveArgs, empty] at given
      exact given rfl
    rw [directiveArgs, afterSpan, dropWhile_append_of_rest span]
    exact skipBlanks_append given comment.text
  · intro none
    by_cases span : afterSpan [' ', '\t'] p = []
    · obtain ⟨run, blanks, split, accepted, stops⟩ :=
        takeWhile_decompose (fun c => c ∉ [' ', '\t']) comment.blanks
      have allBlank : ∀ c ∈ blanks, isspace c = true := by
        intro c member
        apply comment.allBlank
        rw [split]
        exact List.mem_append_right run member
      have stops' :
        Stops (fun c => decide (c ∉ [' ', '\t'])) (blanks ++ ' ' :: '#' :: comment.remark) := by
        cases blanks with
        | nil => simp
        | cons c blanks => simpa using stops
      have text : comment.text = run ++ (blanks ++ ' ' :: '#' :: comment.remark) := by
        rw [Comment.text, split, List.append_assoc]
      rw [directiveArgs, afterSpan, dropWhile_append_of_all span, text,
        dropWhile_append_stops accepted stops']
      exact skipBlanks_mark allBlank comment.remark
    · have blank : (p.dropWhile (fun c => c ∉ [' ', '\t'])).dropWhile isspace = [] := none
      rw [directiveArgs, afterSpan, dropWhile_append_of_rest span, skipBlanks,
        dropWhile_append_of_all blank]
      exact skipBlanks_mark comment.allBlank comment.remark

section Lines

variable {build : Build} {p : CString} {bytes : List Byte}

theorem dataLineBytes_eq (text : skipBlanks p ≠ []) :
    dataLineBytes build p =
      directiveBytes build ((mnemonicOf p).take (nameLen - 1)) (directiveArgs p) := by
  have some : (mnemonicOf p).take (nameLen - 1) ≠ [] := by
    intro empty
    rcases List.take_eq_nil_iff.mp empty with zero | none
    · exact absurd zero (by decide)
    · exact mnemonicOf_nonempty text none
  rw [dataLineBytes, formatDirective, sscanf_word, if_neg some]

theorem skipBlanks_of_denoted (denoted : dataLineBytes build p = some bytes) :
    skipBlanks p ≠ [] := by
  intro empty
  have known := isDataDirective_mnemonicOf denoted
  rw [mnemonicOf, empty] at known
  exact absurd known (by decide)

theorem mnemonicOf_take (denoted : dataLineBytes build p = some bytes) :
    (mnemonicOf p).take (nameLen - 1) = mnemonicOf p := by
  have short := isDataDirective_length (isDataDirective_mnemonicOf denoted)
  exact List.take_of_length_le (by simp only [nameLen]; omega)

variable (comment : Comment) (denoted : dataLineBytes build p = some bytes)

include denoted

theorem dataLineBytes_append_eq :
    dataLineBytes build (p ++ comment.text) =
      directiveBytes build (mnemonicOf p) (directiveArgs (p ++ comment.text)) := by
  have text := skipBlanks_of_denoted denoted
  have text' : skipBlanks (p ++ comment.text) ≠ [] := by
    rw [skipBlanks_append text]
    exact List.append_ne_nil_of_left_ne_nil text comment.text
  rw [dataLineBytes_eq text', mnemonicOf_append comment.blankFront text, mnemonicOf_take denoted]

theorem dataLineBytes_comment_iff :
    dataLineBytes build (p ++ comment.text) = some bytes ↔
      KeepsData build (mnemonicOf p) (directiveArgs p) comment.remark := by
  have denoted' := denoted
  rw [dataLineBytes_eq (skipBlanks_of_denoted denoted), mnemonicOf_take denoted] at denoted'
  obtain ⟨appended, marked⟩ := directiveArgs_append comment (p := p)
  rw [dataLineBytes_append_eq comment denoted]
  by_cases given : directiveArgs p = []
  · rw [given] at denoted' ⊢
    rw [marked given, directiveBytes_mark denoted']
    refine iff_of_false (by simp) ?_
    rw [keepsData_integer_iff (isIntegerDirective_of_empty denoted')]
    exact fun keeps => keeps.1 rfl
  · rw [appended given]
    exact directiveBytes_comment_iff comment given denoted'

theorem dataLineBytes_comment_length {bytes' : List Byte}
    (denoted' : dataLineBytes build (p ++ comment.text) = some bytes') :
    bytes.length ≤ bytes'.length := by
  have whole := denoted
  rw [dataLineBytes_eq (skipBlanks_of_denoted denoted), mnemonicOf_take denoted] at whole
  obtain ⟨appended, marked⟩ := directiveArgs_append comment (p := p)
  rw [dataLineBytes_append_eq comment denoted] at denoted'
  by_cases given : directiveArgs p = []
  · rw [given] at whole
    rw [marked given, directiveBytes_mark whole] at denoted'
    cases denoted'
  · rw [appended given] at denoted'
    exact directiveBytes_comment_length comment given whole denoted'

end Lines

end RiscvAs
