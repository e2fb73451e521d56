/-
Comments after the text of an instruction line.

No pattern of the assembler names the blanks before a comment.  A number, a mnemonic or a symbol
ends at the first of them; a register that is the last operand is read by a pattern that
goes on to its fourth character, and `parse_register` then takes vertical tabs and form feeds
for characters of the name.
-/

import RiscvAs.Stdio.Appended
import RiscvAs.ExplicitBase
import RiscvAs.Agreement

namespace RiscvAs

open Stdio
open Rv32 (Word)

/-- The blanks at the end of a line and a comment ` # remark`. -/
structure Comment where
  blanks : CString
  remark : CString
  allBlank : ∀ c ∈ blanks, isspace c = true
  oneLine : '\n' ∉ blanks

def Comment.text (comment : Comment) : CString :=
  comment.blanks ++ ' ' :: '#' :: comment.remark

theorem Comment.blankFront (comment : Comment) : BlankFront comment.text := by
  obtain ⟨blanks, remark, allBlank, oneLine⟩ := comment
  cases blanks with
  | nil => exact ⟨' ', rfl, rfl⟩
  | cons c blanks => exact ⟨c, rfl, allBlank c (List.mem_cons_self ..)⟩

/-- The first blank is none of those that end a register for `parse_register`. -/
def Comment.JoinsToken (comment : Comment) : Prop :=
  ∃ c ∈ comment.blanks.head?, c ∉ [' ', '\t', '\r', '\n']

instance (comment : Comment) : Decidable comment.JoinsToken :=
  decidable_of_iff (comment.blanks.head?.any (fun c => c ∉ [' ', '\t', '\r', '\n']) = true)
    (by simp [Comment.JoinsToken, Option.any_eq_true])

section Parts

variable {line : CString} (tail : CString)

theorem rest_of_operands (some : operandsOf line ≠ []) :
    skipBlanks line ≠ [] ∧ (skipBlanks line).dropWhile (fun c => !isspace c) ≠ [] := by
  have rest : (skipBlanks line).dropWhile (fun c => !isspace c) ≠ [] := by
    intro empty
    rw [operandsOf, empty] at some
    exact some rfl
  refine ⟨?_, rest⟩
  intro empty
  rw [empty] at rest
  exact rest rfl

theorem mnemonicOf_append_of_operands (some : operandsOf line ≠ []) :
    mnemonicOf (line ++ tail) = mnemonicOf line := by
  obtain ⟨text, rest⟩ := rest_of_operands some
  rw [mnemonicOf, skipBlanks_append text, takeWhile_append_of_rest rest]
  rfl

theorem operandsOf_append (some : operandsOf line ≠ []) :
    operandsOf (line ++ tail) = operandsOf line ++ tail := by
  obtain ⟨text, rest⟩ := rest_of_operands some
  rw [operandsOf, skipBlanks_append text, dropWhile_append_of_rest rest, skipBlanks_append some]
  rfl

theorem mnemonicOf_append {tail : CString} (front : BlankFront tail) (text : skipBlanks line ≠ []) :
    mnemonicOf (line ++ tail) = mnemonicOf line := by
  have stops : Stops (fun c => !isspace c) tail := front.stops fun c blank => by simp [blank]
  rw [mnemonicOf, skipBlanks_append text, takeWhile_append_of_stops stops]
  rfl

def afterComma (s : CString) : CString :=
  skipBlanks ((s.dropWhile (fun c => c ≠ ',')).drop 1)

theorem secondText_eq (line : CString) : secondText line = afterComma (operandsOf line) := rfl

def thirdText (line : CString) : CString :=
  afterComma (secondText line)

theorem rest_of_afterComma {s : CString} (some : afterComma s ≠ []) :
    s.dropWhile (fun c => c ≠ ',') ≠ [] := by
  intro empty
  rw [afterComma, empty] at some
  exact some rfl

theorem operandsOf_of_secondText (some : secondText line ≠ []) : operandsOf line ≠ [] := by
  intro empty
  rw [secondText_eq, empty] at some
  exact some rfl

theorem afterComma_append {s : CString} (some : afterComma s ≠ []) :
    afterComma (s ++ tail) = afterComma s ++ tail := by
  have rest := rest_of_afterComma some
  obtain ⟨c, after, split⟩ := List.exists_cons_of_ne_nil rest
  rw [afterComma, split] at some
  rw [afterComma, afterComma, dropWhile_append_of_rest rest, split]
  exact skipBlanks_append some tail

theorem secondText_append (some : secondText line ≠ []) :
    secondText (line ++ tail) = secondText line ++ tail := by
  rw [secondText_eq, operandsOf_append tail (operandsOf_of_secondText some),
    afterComma_append tail some]
  rfl

end Parts

section Patterns

variable {format : List Directive} {s line : CString} {v w : Value} {vs : List Value}

theorem sscanf_field_append
    (scanned : sscanf (fieldDirective :: .char ',' :: .blank :: format) s = v :: w :: vs) :
    sscanf format (afterComma s) = w :: vs ∧ ∀ tail,
      sscanf (fieldDirective :: .char ',' :: .blank :: format) (s ++ tail) =
        v :: sscanf format (afterComma s ++ tail) := by
  obtain ⟨run, rest, rfl, nonempty, noComma, short, -, rfl, comma⟩ := sscanf_set_inv scanned
  obtain ⟨after, rfl, others⟩ := sscanf_char_inv comma
  rw [sscanf_blank] at others
  have accepted : ∀ c ∈ run, decide (c ≠ ',') = true := by simpa using noComma
  have same : afterComma (run ++ ',' :: after) = skipBlanks after := by
    rw [afterComma, dropWhile_append_stops accepted (by simp)]
    rfl
  have some : skipBlanks after ≠ [] := by
    intro empty
    rw [empty, sscanf_nil] at others
    cases others
  rw [same]
  refine ⟨others, fun tail => ?_⟩
  rw [List.append_assoc, List.cons_append, fieldDirective,
    sscanf_set _ nonempty noComma short (by simp), sscanf_char, sscanf_blank,
    skipBlanks_append some]

theorem sscanf_firstField_append
    (scanned : sscanf (.skipToken :: .blank :: fieldDirective :: .char ',' :: .blank :: format)
      line = v :: w :: vs) :
    sscanf format (secondText line) = w :: vs ∧ ∀ tail,
      sscanf (.skipToken :: .blank :: fieldDirective :: .char ',' :: .blank :: format)
        (line ++ tail) = v :: sscanf format (secondText line ++ tail) := by
  have mnemonic := mnemonicOf_nonempty_of_skipToken scanned
  rw [sscanf_operands mnemonic] at scanned
  have operands : operandsOf line ≠ [] := by
    intro empty
    rw [empty, sscanf_nil] at scanned
    cases scanned
  obtain ⟨others, appended⟩ := sscanf_field_append scanned
  refine ⟨others, fun tail => ?_⟩
  have mnemonic' : mnemonicOf (line ++ tail) ≠ [] := by
    rw [mnemonicOf_append_of_operands tail operands]
    exact mnemonic
  rw [sscanf_operands mnemonic', operandsOf_append tail operands, appended tail]
  rfl

theorem sscanf_int_append {bits : Nat} {tail : CString} (front : BlankFront tail)
    (scanned : sscanf [.int bits] s = [v]) : sscanf [.int bits] (s ++ tail) = [v] := by
  obtain ⟨values, rest, converted, joined⟩ := sscanf_eq_cons scanned
  obtain ⟨⟨negative, magnitude, after⟩, number, same⟩ := Option.map_eq_some_iff.mp converted
  obtain ⟨rfl, rfl⟩ := Prod.mk.inj same
  have converted' : convert (.int bits) (s ++ tail) =
      some ([.int (saturate bits (signedValue negative magnitude))], after ++ tail) := by
    simp only [convert, scanNumber_append front number, Option.map_some]
  rw [sscanf_convert converted']
  exact joined

theorem sscanf_word_append {tail : CString} (front : BlankFront tail)
    (scanned : sscanf [.token none] s = [v]) : sscanf [.token none] (s ++ tail) = [v] := by
  obtain ⟨run, rest, split, nonempty, noBlank, -, stops, rfl, -⟩ := sscanf_token_inv scanned
  have stops : Stops (fun c => !isspace c) rest := by simpa using stops
  have text : skipBlanks s ≠ [] := by
    rw [split]
    exact List.append_ne_nil_of_left_ne_nil nonempty rest
  have stops' : Stops (fun c => !isspace c) (rest ++ tail) := by
    cases rest with
    | nil => exact front.stops fun c blank => by simp [blank]
    | cons c rest => simpa using stops
  have read : sscanf [.token none] (run ++ (rest ++ tail)) = [.str run] :=
    sscanf_token [] nonempty noBlank (by simp) stops'
  rw [← List.append_assoc, ← split, ← skipBlanks_append text] at read
  simpa only [sscanf, convert, skipBlanks_skipBlanks] using read

end Patterns

section Numbers

variable {build : Build} {line tail : CString} {v w x : Value} (front : BlankFront tail)

include front

theorem sscanf_formatU_append (scanned : sscanf (formatU build) line = [v, w]) :
    sscanf (formatU build) (line ++ tail) = [v, w] := by
  obtain ⟨number, appended⟩ := sscanf_firstField_append scanned
  rw [formatU, appended tail, sscanf_int_append front number]

theorem sscanf_formatI_append (scanned : sscanf (formatI build) line = [v, w, x]) :
    sscanf (formatI build) (line ++ tail) = [v, w, x] := by
  obtain ⟨others, appended⟩ := sscanf_firstField_append scanned
  obtain ⟨number, appended'⟩ := sscanf_field_append others
  rw [formatI, appended tail, appended' tail, sscanf_int_append front number]

theorem sscanf_formatLa_append (scanned : sscanf formatLa line = [v, w]) :
    sscanf formatLa (line ++ tail) = [v, w] := by
  obtain ⟨word, appended⟩ := sscanf_firstField_append scanned
  rw [formatLa, appended tail, sscanf_word_append front word]

end Numbers

/-! ### A register at the end of a line -/

/-- What a pattern of width four reads at the front of the text. -/
def cutField (stop : List Char) (s : CString) : CString :=
  (s.takeWhile (fun c => c ∉ stop)).take (registerLen - 1)

/-- The field reaches the end of the text before its fourth character, and is one word. -/
structure OpenField (stop : List Char) (s : CString) : Prop where
  unstopped : ∀ c ∈ s, c ∉ stop
  short : s.length < registerLen - 1
  word : registerToken s = skipBlanks s

section Fields

variable {stop : List Char} {s : CString}

theorem cutField_append_of_stopped (stopped : ¬ ∀ c ∈ s, c ∉ stop) (tail : CString) :
    cutField stop (s ++ tail) = cutField stop s := by
  have rest : s.dropWhile (fun c => c ∉ stop) ≠ [] := by
    intro all
    exact stopped (by simpa using List.dropWhile_eq_nil_iff.mp all)
  rw [cutField, takeWhile_append_of_rest rest]
  rfl

theorem cutField_of_unstopped (unstopped : ∀ c ∈ s, c ∉ stop) (tail : CString) :
    cutField stop (s ++ tail) = s.take (registerLen - 1) ++
      (tail.takeWhile (fun c => c ∉ stop)).take (registerLen - 1 - s.length) := by
  have accepted : ∀ c ∈ s, decide (c ∉ stop) = true := by simpa using unstopped
  rw [cutField, List.takeWhile_append_of_pos accepted, List.take_append]

theorem cutField_append_of_long (unstopped : ∀ c ∈ s, c ∉ stop)
    (long : ¬ s.length < registerLen - 1) (tail : CString) :
    cutField stop (s ++ tail) = cutField stop s := by
  have whole := cutField_of_unstopped unstopped []
  rw [List.append_nil] at whole
  rw [cutField_of_unstopped unstopped, whole, Nat.sub_eq_zero_of_le (Nat.le_of_not_lt long)]
  rfl

theorem cutField_append_of_short (unstopped : ∀ c ∈ s, c ∉ stop)
    (short : s.length < registerLen - 1) (tail : CString) :
    cutField stop (s ++ tail) =
      s ++ (tail.takeWhile (fun c => c ∉ stop)).take (registerLen - 1 - s.length) := by
  rw [cutField_of_unstopped unstopped, List.take_of_length_le (Nat.le_of_lt short)]

theorem cutField_of_short (unstopped : ∀ c ∈ s, c ∉ stop) (short : s.length < registerLen - 1) :
    cutField stop s = s := by
  have whole := cutField_append_of_short unstopped short []
  simpa using whole

theorem registerToken_append_of_stops {tail : CString} (text : skipBlanks s ≠ [])
    (stops : Stops (fun c => c ∉ [' ', '\t', '\r', '\n']) tail) :
    registerToken (s ++ tail) = registerToken s := by
  rw [registerToken, skipBlanks_append text, takeWhile_append_of_stops stops]
  rfl

theorem registerToken_append_of_rest (notWord : registerToken s ≠ skipBlanks s) (tail : CString) :
    registerToken (s ++ tail) = registerToken s := by
  have rest : (skipBlanks s).dropWhile (fun c => c ∉ [' ', '\t', '\r', '\n']) ≠ [] := by
    intro none
    have parts := List.takeWhile_append_dropWhile
      (p := fun c => decide (c ∉ [' ', '\t', '\r', '\n'])) (l := skipBlanks s)
    rw [none, List.append_nil] at parts
    exact notWord parts
  have text : skipBlanks s ≠ [] := by
    intro empty
    rw [empty] at rest
    exact rest rfl
  rw [registerToken, skipBlanks_append text, takeWhile_append_of_rest rest]
  rfl

theorem nonempty_of_register {build : Build} {value : BitVec 8}
    (accepted : parseRegister build s = .ok value) : skipBlanks s ≠ [] := by
  intro empty
  have long := (parseRegister_ok accepted).1
  rw [registerToken, empty] at long
  exact absurd long (by decide)

variable {build : Build} {value : BitVec 8} (comment : Comment)
  (blankStop : ∀ c, isspace c = true → c ≠ '\n' → c ∉ stop)

include blankStop

theorem Comment.takeWhile_text :
    comment.text.takeWhile (fun c => c ∉ stop) =
      (comment.blanks ++ [' ']) ++ ('#' :: comment.remark).takeWhile (fun c => c ∉ stop) := by
  have accepted : ∀ c ∈ comment.blanks ++ [' '], decide (c ∉ stop) = true := by
    intro c member
    rw [decide_eq_true_eq]
    rcases List.mem_append.mp member with blank | space
    · refine blankStop c (comment.allBlank c blank) ?_
      rintro rfl
      exact comment.oneLine blank
    · rw [List.mem_singleton.mp space]
      exact blankStop ' ' rfl (by decide)
  have split : comment.text = (comment.blanks ++ [' ']) ++ '#' :: comment.remark := by
    simp [Comment.text]
  rw [split, List.takeWhile_append_of_pos accepted]

/-- The register is read as it was, unless its field is open and the blank joins its word. -/
theorem registerToken_cutField (accepted : parseRegister build (cutField stop s) = .ok value)
    (apart : ¬ (OpenField stop s ∧ comment.JoinsToken)) :
    registerToken (cutField stop (s ++ comment.text)) = registerToken (cutField stop s) := by
  by_cases unstopped : ∀ c ∈ s, c ∉ stop
  · by_cases short : s.length < registerLen - 1
    · have same := cutField_of_short unstopped short
      rw [cutField_append_of_short unstopped short, same]
      rw [same] at accepted
      by_cases word : registerToken s = skipBlanks s
      · have noJoin : ¬ comment.JoinsToken := fun joins => apart ⟨⟨unstopped, short, word⟩, joins⟩
        apply registerToken_append_of_stops (nonempty_of_register accepted)
        intro c member
        rw [comment.takeWhile_text blankStop, List.head?_take, if_neg (by omega)] at member
        by_contra kept
        cases blanks : comment.blanks with
        | nil =>
            rw [blanks] at member
            obtain rfl : ' ' = c := Option.some.inj member
            exact kept (by decide)
        | cons b more =>
            rw [blanks] at member
            obtain rfl : b = c := Option.some.inj member
            exact noJoin ⟨b, by rw [blanks]; rfl, by simpa using kept⟩
      · exact registerToken_append_of_rest word _
    · rw [cutField_append_of_long unstopped short]
  · rw [cutField_append_of_stopped unstopped]

/-- Otherwise the blank is taken for a part of the name. -/
theorem parseRegister_cutField_joined (accepted : parseRegister build (cutField stop s) = .ok value)
    (isOpen : OpenField stop s) (joins : comment.JoinsToken) :
    ∃ e, parseRegister build (cutField stop (s ++ comment.text)) = .error e := by
  obtain ⟨b, first, notEnd⟩ := joins
  obtain ⟨more, blanks⟩ := List.head?_eq_some_iff.mp first
  have text := nonempty_of_register accepted
  rw [cutField_of_short isOpen.unstopped isOpen.short] at accepted text
  have long := (parseRegister_ok accepted).1
  have within := registerToken_length_le s
  have room : registerLen - 1 - s.length ≤ (comment.blanks ++ [' ']).length := by
    simp only [registerLen, blanks, List.length_append, List.length_cons]
    omega
  have some : registerLen - 1 - s.length ≠ 0 := Nat.sub_ne_zero_of_lt isOpen.short
  cases parsed : parseRegister build (cutField stop (s ++ comment.text)) with
  | error e => exact ⟨e, rfl⟩
  | ok value' =>
      exfalso
      have known := name_or_loose_of_ok parsed
      have allToken : ∀ c ∈ skipBlanks s, decide (c ∉ [' ', '\t', '\r', '\n']) = true :=
        List.takeWhile_eq_self_iff.mp isOpen.word
      rw [cutField_append_of_short isOpen.unstopped isOpen.short, comment.takeWhile_text blankStop,
        List.take_append_of_le_length room, registerToken, skipBlanks_append text,
        List.takeWhile_append_of_pos allToken, blanks, List.cons_append,
        List.take_cons (Nat.pos_of_ne_zero some),
        List.takeWhile_cons_of_pos (by simpa using notEnd)]
        at known
      have nonempty : b :: ((more ++ [' ']).take (registerLen - 1 - s.length - 1)).takeWhile
          (fun c => c ∉ [' ', '\t', '\r', '\n']) ≠ [] := List.cons_ne_nil _ _
      have last := List.getLast?_eq_some_getLast nonempty
      have member := List.getLast_mem nonempty
      generalize List.getLast _ nonempty = d at last member
      have inBlanks : d ∈ comment.blanks ++ [' '] := by
        rw [blanks, List.cons_append]
        rcases List.mem_cons.mp member with rfl | later
        · exact List.mem_cons_self ..
        · exact List.mem_cons_of_mem b (List.mem_of_mem_take ((List.takeWhile_subset _) later))
      have blank : isspace d = true := by
        rcases List.mem_append.mp inBlanks with inside | space
        · exact comment.allBlank d inside
        · rw [List.mem_singleton.mp space]
          rfl
      have notBlank := getLast_noBlank known (by rw [List.getLast?_append, last]; rfl)
      rw [blank] at notBlank
      cases notBlank

end Fields

/-- The text from which the last operand of an accepted line is read, when it is a register, and the
characters that end it. -/
inductive LastRegister (build : Build) (line : CString) : List Char → CString → Prop where
  | third {instr : Instruction} (found : findInstruction (mnemonicOf line) = some instr)
      (rType : instr.type = .R) : LastRegister build line ['#', '\n'] (thirdText line)
  | pair (op : PairOp) (named : mnemonicOf line = op.mnemonic.toList) :
      LastRegister build line ['#', '\n'] (secondText line)
  | retry (loadStore : isLoadStore (mnemonicOf line) = true) (retry : TakesRetry build line) :
      LastRegister build line ['#', '\n'] (secondText line)
  | base {negative : Bool} {magnitude : Nat} {rest : CString}
      (loadStore : isLoadStore (mnemonicOf line) = true)
      (number : scanNumber 0 (secondText line) = some (negative, magnitude, '(' :: rest)) :
      LastRegister build line [')'] rest

theorem blank_not_end : ∀ c, isspace c = true → c ≠ '\n' → c ∉ ['#', '\n'] := by
  intro c blank other member
  rcases List.mem_cons.mp member with rfl | newline
  · cases blank
  · exact other (List.mem_singleton.mp newline)

theorem LastRegister.blankStop {build : Build} {line : CString} {stop : List Char} {s : CString}
    (last : LastRegister build line stop s) :
    ∀ c, isspace c = true → c ≠ '\n' → c ∉ stop := by
  cases last with
  | third => exact blank_not_end
  | pair => exact blank_not_end
  | retry => exact blank_not_end
  | base =>
      intro c blank other member
      rw [List.mem_singleton.mp member] at blank
      cases blank

structure ReadsComment (build : Build) (ctx : AssemblerCtx) (line : CString) (textOffset : Nat)
    (words : List Word) (stop : List Char) (s : CString) (comment : Comment) : Prop where
  apart : ¬ (OpenField stop s ∧ comment.JoinsToken) →
    lineWords build ctx (line ++ comment.text) textOffset = .ok words
  joined : OpenField stop s → comment.JoinsToken →
    ∀ words', lineWords build ctx (line ++ comment.text) textOffset ≠ .ok words'

theorem cutField_append_nonempty {stop : List Char} {s : CString} (nonempty : cutField stop s ≠ [])
    (tail : CString) : cutField stop (s ++ tail) ≠ [] := by
  cases s with
  | nil => exact absurd rfl nonempty
  | cons c s =>
      by_cases stops : c ∈ stop
      · simp [cutField, stops] at nonempty
      · simp [cutField, stops, registerLen]

theorem sscanf_lastField_append {s : CString} {v : Value}
    (scanned : sscanf [lastFieldDirective] s = [v]) :
    v = .str (cutField ['#', '\n'] s) ∧ ∀ tail,
      sscanf [lastFieldDirective] (s ++ tail) = [.str (cutField ['#', '\n'] (s ++ tail))] := by
  have reads : ∀ t, sscanf [lastFieldDirective] t =
      if cutField ['#', '\n'] t = [] then [] else [.str (cutField ['#', '\n'] t)] :=
    sscanf_lastField_eq
  rw [reads] at scanned
  split at scanned
  · cases scanned
  · rename_i nonempty
    obtain rfl := (List.cons.inj scanned).1
    refine ⟨rfl, fun tail => ?_⟩
    rw [reads, if_neg (cutField_append_nonempty nonempty tail)]

section Patterns

variable {build : Build} {line : CString} {v w x : Value}

theorem sscanf_formatPair_append (scanned : sscanf formatPair line = [v, w]) :
    w = .str (cutField ['#', '\n'] (secondText line)) ∧ ∀ tail, sscanf formatPair (line ++ tail) =
      [v, .str (cutField ['#', '\n'] (secondText line ++ tail))] := by
  obtain ⟨last, appended⟩ := sscanf_firstField_append scanned
  obtain ⟨same, appended'⟩ := sscanf_lastField_append last
  refine ⟨same, fun tail => ?_⟩
  rw [formatPair, appended tail, appended' tail]

theorem sscanf_formatR_append (scanned : sscanf formatR line = [v, w, x]) :
    x = .str (cutField ['#', '\n'] (thirdText line)) ∧ ∀ tail, sscanf formatR (line ++ tail) =
      [v, w, .str (cutField ['#', '\n'] (thirdText line ++ tail))] := by
  obtain ⟨others, appended⟩ := sscanf_firstField_append scanned
  obtain ⟨last, appended'⟩ := sscanf_field_append others
  obtain ⟨same, appended''⟩ := sscanf_lastField_append last
  refine ⟨same, fun tail => ?_⟩
  rw [formatR, appended tail, appended' tail, appended'' tail]
  rfl

theorem sscanf_base_cutField (rest : CString) :
    sscanf [.set (registerLen - 1) [')'], .char ')'] rest =
      if cutField [')'] rest = [] then [] else [.str (cutField [')'] rest)] := by
  have same : (insideBase rest).take (registerLen - 1) = cutField [')'] rest := by
    rw [insideBase, cutField]
    simp only [List.mem_singleton]
  have empty : insideBase rest = [] ↔ cutField [')'] rest = [] := by
    rw [← same, List.take_eq_nil_iff]
    simp [registerLen]
  rw [sscanf_base_eq, same]
  simp only [empty]

theorem sscanf_formatOffset_append (scanned : sscanf (formatOffset build) line = [v, w, x]) :
    ∃ negative magnitude rest, scanNumber 0 (secondText line) =
        some (negative, magnitude, '(' :: rest) ∧ x = .str (cutField [')'] rest) ∧
      ∀ tail, BlankFront tail → sscanf (formatOffset build) (line ++ tail) =
        [v, w, .str (cutField [')'] (rest ++ tail))] := by
  obtain ⟨others, appended⟩ := sscanf_firstField_append scanned
  obtain ⟨values, left, converted, joined⟩ := sscanf_eq_cons others
  obtain ⟨⟨negative, magnitude, unread⟩, number, read⟩ := Option.map_eq_some_iff.mp converted
  obtain ⟨rfl, rfl⟩ := Prod.mk.inj read
  obtain ⟨rfl, base⟩ := List.cons.inj joined
  obtain ⟨rest, rfl, last⟩ := sscanf_char_inv base
  rw [sscanf_base_cutField] at last
  split at last
  · cases last
  · rename_i nonempty
    obtain rfl := (List.cons.inj last).1
    refine ⟨negative, magnitude, rest, number, rfl, fun tail front => ?_⟩
    have converted' : convert (.int build.longBits) (secondText line ++ tail) =
        some ([.int (saturate build.longBits (signedValue negative magnitude))],
          '(' :: (rest ++ tail)) := by
      simp only [convert, scanNumber_append front number, Option.map_some, List.cons_append]
    rw [formatOffset, appended tail, sscanf_convert converted', sscanf_char, sscanf_base_cutField,
      if_neg (cutField_append_nonempty nonempty tail)]
    rfl

theorem registerToken_letter {text : CString} {value : BitVec 8}
    (accepted : parseRegister build text = .ok value) :
    ∃ c rest, registerToken text = c :: rest ∧ c ∈ ['x', 'a', 's', 't', 'r', 'g', 'z'] := by
  unfold parseRegister at accepted
  generalize registerToken text = token at accepted ⊢
  simp only at accepted
  split at accepted
  · cases accepted
  · split at accepted
    · exact ⟨_, _, rfl, by decide⟩
    · exact ⟨_, _, rfl, by decide⟩
    · exact ⟨_, _, rfl, by decide⟩
    · exact ⟨_, _, rfl, by decide⟩
    · exact ⟨_, _, rfl, by decide⟩
    · exact ⟨_, _, rfl, by decide⟩
    · exact ⟨_, _, rfl, by decide⟩
    · exact ⟨_, _, rfl, by decide⟩
    · exact ⟨_, _, rfl, by decide⟩
    · cases accepted

theorem scanNumber_letter {c : Char} (letter : c ∈ ['x', 'a', 's', 't', 'r', 'g', 'z'])
    (rest : CString) : scanNumber 0 (c :: rest) = none := by
  simp only [List.mem_cons, List.not_mem_nil, or_false] at letter
  rcases letter with rfl | rfl | rfl | rfl | rfl | rfl | rfl <;> rfl

theorem scanNumber_register {stop : List Char} {s : CString} {value : BitVec 8}
    (front : Stops isspace s) (accepted : parseRegister build (cutField stop s) = .ok value)
    (tail : CString) : scanNumber 0 (s ++ tail) = none := by
  obtain ⟨c, rest, token, letter⟩ := registerToken_letter accepted
  have notBlank : isspace c = false := by
    simp only [List.mem_cons, List.not_mem_nil, or_false] at letter
    rcases letter with rfl | rfl | rfl | rfl | rfl | rfl | rfl <;> rfl
  have nonempty : cutField stop s ≠ [] := by
    intro empty
    rw [empty] at token
    cases token
  cases s with
  | nil => exact absurd rfl nonempty
  | cons d s =>
      obtain rfl : d = c := by
        have first : (cutField stop (d :: s)).head? = some d := by
          by_cases stops : d ∈ stop
          · simp [cutField, stops] at nonempty
          · simp [cutField, stops, registerLen]
        obtain ⟨more, shape⟩ := List.head?_eq_some_iff.mp first
        have blank : isspace d = false := by simpa using front
        rw [registerToken, shape, skipBlanks_of_stops (by simpa using blank)] at token
        have head := congrArg List.head? token
        rw [List.head?_takeWhile] at head
        exact (Option.some.inj (Option.filter_eq_some_iff.mp head).1)
      exact scanNumber_letter letter (s ++ tail)

end Patterns

/-! ### Words from the last register -/

section Registers

variable (build : Build) (instr : Instruction) (read : Except Failure (BitVec 8))

/-- `rs2` is read last of the line and first by its handler. -/
def rTypeWords (rs1 rd : CString) : Except Failure (List Word) :=
  (read >>= fun rs2Val => parseRegister build rs1 >>= fun rs1Val =>
    parseRegister build rd >>= fun rdVal =>
      pure (assembleRType instr rs2Val rs1Val rdVal)).map (fun w => [w])

def iTypeWords (imm : Int) (rd : CString) : Except Failure (List Word) :=
  (checkImmediate imm int12Min int12Max >>= fun _ => read >>= fun rs1Val =>
    parseRegister build rd >>= fun rdVal =>
      pure (assembleIType instr rs1Val (BitVec.ofInt 32 imm) rdVal)).map (fun w => [w])

def sTypeWords (imm : Int) (rs2 : CString) : Except Failure (List Word) :=
  (checkImmediate imm int12Min int12Max >>= fun _ => parseRegister build rs2 >>= fun rs2Val =>
    read >>= fun rs1Val =>
      pure (assembleSType instr rs1Val rs2Val (BitVec.ofInt 32 imm))).map (fun w => [w])

variable (e : Failure) (words : List Word)

theorem rTypeWords_error (rs1 rd : CString) :
    rTypeWords build instr (.error e) rs1 rd ≠ .ok words := by
  intro failed
  cases failed

theorem iTypeWords_error (imm : Int) (rd : CString) :
    iTypeWords build instr (.error e) imm rd ≠ .ok words := by
  intro failed
  unfold iTypeWords at failed
  cases checked : checkImmediate imm int12Min int12Max with
  | error e' =>
      rw [checked] at failed
      cases failed
  | ok done =>
      rw [checked] at failed
      cases failed

theorem sTypeWords_error (imm : Int) (rs2 : CString) :
    sTypeWords build instr (.error e) imm rs2 ≠ .ok words := by
  intro failed
  unfold sTypeWords at failed
  cases checked : checkImmediate imm int12Min int12Max with
  | error e' =>
      rw [checked] at failed
      cases failed
  | ok done =>
      cases parsed : parseRegister build rs2 with
      | error e' =>
          rw [checked, parsed] at failed
          cases failed
      | ok value =>
          rw [checked, parsed] at failed
          cases failed

end Registers

section Words

variable {build : Build} {ctx : AssemblerCtx} {line : CString} {textOffset : Nat}
  {words : List Word} {stop : List Char} {s : CString} {comment : Comment}

/-- The words are got from the register by a computation that fails with it. -/
theorem readsComment_of_register (F : Except Failure (BitVec 8) → Except Failure (List Word))
    (strict : ∀ e words', F (.error e) ≠ .ok words')
    (blankStop : ∀ c, isspace c = true → c ≠ '\n' → c ∉ stop)
    (encoded : F (parseRegister build (cutField stop s)) = .ok words)
    (reads : lineWords build ctx (line ++ comment.text) textOffset =
      F (parseRegister build (cutField stop (s ++ comment.text)))) :
    ReadsComment build ctx line textOffset words stop s comment := by
  cases parsed : parseRegister build (cutField stop s) with
  | error e =>
      rw [parsed] at encoded
      exact absurd encoded (strict e words)
  | ok value =>
      constructor
      · intro apart
        have same := registerToken_cutField comment blankStop parsed apart
        rw [reads, parseRegister_congr build same, encoded]
      · intro isOpen joins words'
        obtain ⟨e, failed⟩ := parseRegister_cutField_joined comment blankStop parsed isOpen joins
        rw [reads, failed]
        exact strict e words'

theorem operandsOf_nonempty {v w : Value} {vs : List Value} {format : List Directive}
    (scanned : sscanf (.skipToken :: .blank :: fieldDirective :: .char ',' :: .blank :: format)
      line = v :: w :: vs) : operandsOf line ≠ [] := by
  intro empty
  rw [sscanf_operands (mnemonicOf_nonempty_of_skipToken scanned), empty, sscanf_nil] at scanned
  cases scanned

theorem readsComment_rType {instr : Instruction}
    (found : findInstruction (mnemonicOf line) = some instr) (rType : instr.type = .R)
    (encoded : lineWords build ctx line textOffset = .ok words) (comment : Comment) :
    ReadsComment build ctx line textOffset words ['#', '\n'] (thirdText line) comment := by
  have real : instr.type ≠ .P := by simp [rType]
  have blankStop := (LastRegister.third found rType : LastRegister build line _ _).blankStop
  have encodes : ∀ text rd rs1 rs2, findInstruction (mnemonicOf text) = some instr →
      sscanf formatR text = [.str rd, .str rs1, .str rs2] →
      lineWords build ctx text textOffset =
        (handleRTypeInstr build instr rs1 rs2 rd).map (fun w => [w]) := by
    intro text rd rs1 rs2 found scanned
    rw [lineWords_of_real (lineInstruction_of_mnemonicOf found) real]
    simp only [encode, rType, scanned]
  obtain ⟨rd, rs1, rs2, scanned⟩ : ∃ rd rs1 rs2,
      sscanf formatR line = [.str rd, .str rs1, .str rs2] := by
    rw [lineWords_of_real (lineInstruction_of_mnemonicOf found) real] at encoded
    simp only [encode, rType] at encoded
    split at encoded
    · rename_i rd rs1 rs2 scanned
      exact ⟨rd, rs1, rs2, scanned⟩
    · cases encoded
  obtain ⟨same, appended⟩ := sscanf_formatR_append scanned
  obtain rfl := Value.str.inj same
  have found' := found
  rw [← mnemonicOf_append_of_operands comment.text (operandsOf_nonempty scanned)] at found'
  rw [encodes _ _ _ _ found scanned] at encoded
  exact readsComment_of_register (fun read => rTypeWords build instr read rs1 rd)
    (fun e words' => rTypeWords_error build instr e words' rs1 rd) blankStop encoded
    (encodes _ _ _ _ found' (appended comment.text))

/-- The words of a load or a store, from the register of its base. -/
theorem lineWords_loadStore {name : CString} (loadStore : isLoadStore name = true) (build : Build)
    (ctx : AssemblerCtx) (textOffset : Nat) (reg : CString) (imm : Int) :
    ∃ F : Except Failure (BitVec 8) → Except Failure (List Word),
      (∀ e words, F (.error e) ≠ .ok words) ∧ ∀ line base, mnemonicOf line = name →
        scanOffsetOperands build line = .ok (reg, imm, base) →
        lineWords build ctx line textOffset = F (parseRegister build base) := by
  rcases loadStore_cases loadStore with ⟨op, rfl⟩ | ⟨op, rfl⟩
  · obtain ⟨instr, record, isLoadStore, -⟩ := loadRecord op
    refine ⟨fun read => iTypeWords build instr read imm reg,
      fun e words => iTypeWords_error build instr e words imm reg, ?_⟩
    intro line base named scanned
    have found : findInstruction (mnemonicOf line) = some instr := by rw [named, record.found]
    rw [lineWords_of_real (lineInstruction_of_mnemonicOf found) (by simp [record.type]),
      findInstruction_name found, named]
    have operands := (if_pos isLoadStore : scanITypeOperands build line (loadMnemonic op).toList =
      scanOffsetOperands build line).trans scanned
    rw [encode_of_scanIType record.type operands]
    rfl
  · obtain ⟨instr, record, -⟩ := storeRecord op
    refine ⟨fun read => sTypeWords build instr read imm reg,
      fun e words => sTypeWords_error build instr e words imm reg, ?_⟩
    intro line base named scanned
    have found : findInstruction (mnemonicOf line) = some instr := by rw [named, record.found]
    rw [lineWords_of_real (lineInstruction_of_mnemonicOf found) (by simp [record.type]),
      encode_of_scanSType record.type scanned]
    rfl

theorem scanOffsetOperands_of_lineWords (loadStore : isLoadStore (mnemonicOf line) = true)
    (encoded : lineWords build ctx line textOffset = .ok words) :
    ∃ reg imm base value, scanOffsetOperands build line = .ok (reg, imm, base) ∧
      parseRegister build base = .ok value := by
  obtain ⟨instr, found, notPseudo, encodes⟩ := encode_loadStore loadStore
  rw [lineWords_of_real (lineInstruction_of_mnemonicOf found) notPseudo,
    findInstruction_name found] at encoded
  obtain ⟨w, result, -⟩ := map_eq_ok_iff.mp encoded
  obtain ⟨reg, imm, base, encodedFrom⟩ := (encodes build line).2 w result
  obtain ⟨r, names⟩ := encodedFrom.second
  exact ⟨reg, imm, base, _, encodedFrom.scanned, names.parsed⟩

theorem secondText_front (line : CString) : Stops isspace (secondText line) :=
  stops_skipBlanks _

theorem readsComment_retry (loadStore : isLoadStore (mnemonicOf line) = true)
    (retry : TakesRetry build line) (encoded : lineWords build ctx line textOffset = .ok words)
    (comment : Comment) :
    ReadsComment build ctx line textOffset words ['#', '\n'] (secondText line) comment := by
  have blankStop := (LastRegister.retry loadStore retry).blankStop
  obtain ⟨reg, imm, base, value, scanned, parsed⟩ :=
    scanOffsetOperands_of_lineWords loadStore encoded
  rcases scanOffsetOperands_cases scanned with offset | ⟨-, pair⟩
  · exact absurd offset (retry _ _ _)
  · obtain rfl : imm = 0 := by
      rw [scanOffsetOperands_of_retry retry pair] at scanned
      cases scanned
      rfl
    obtain ⟨same, appended⟩ := sscanf_formatPair_append pair
    obtain rfl := Value.str.inj same
    have operands := operandsOf_nonempty pair
    have named := mnemonicOf_append_of_operands comment.text operands
    have some : secondText line ≠ [] := by
      intro empty
      rw [empty] at parsed
      cases parsed
    have retry' : TakesRetry build (line ++ comment.text) := by
      intro reg' imm' base' offset
      obtain ⟨negative, magnitude, rest, number, -, -⟩ := sscanf_formatOffset_append offset
      rw [secondText_append comment.text some,
        scanNumber_register (secondText_front line) parsed comment.text] at number
      cases number
    obtain ⟨F, strict, reads⟩ := lineWords_loadStore loadStore build ctx textOffset reg 0
    rw [reads line _ rfl scanned] at encoded
    exact readsComment_of_register F strict blankStop encoded
      (reads _ _ named (scanOffsetOperands_of_retry retry' (appended comment.text)))

theorem readsComment_base {negative : Bool} {magnitude : Nat} {rest : CString}
    (loadStore : isLoadStore (mnemonicOf line) = true)
    (number : scanNumber 0 (secondText line) = some (negative, magnitude, '(' :: rest))
    (encoded : lineWords build ctx line textOffset = .ok words) (comment : Comment) :
    ReadsComment build ctx line textOffset words [')'] rest comment := by
  have blankStop := (LastRegister.base loadStore number : LastRegister build line _ rest).blankStop
  obtain ⟨reg, imm, base, value, scanned, parsed⟩ :=
    scanOffsetOperands_of_lineWords loadStore encoded
  rcases scanOffsetOperands_cases scanned with offset | ⟨-, pair⟩
  · obtain ⟨negative', magnitude', rest', number', same, appended⟩ :=
      sscanf_formatOffset_append offset
    obtain rfl : rest' = rest := by
      rw [number] at number'
      cases number'
      rfl
    obtain rfl := Value.str.inj same
    have named := mnemonicOf_append_of_operands comment.text (operandsOf_nonempty offset)
    obtain ⟨F, strict, reads⟩ := lineWords_loadStore loadStore build ctx textOffset reg imm
    rw [reads line _ rfl scanned] at encoded
    exact readsComment_of_register F strict blankStop encoded
      (reads _ _ named (scanOffsetOperands_of_first (appended comment.text comment.blankFront)))
  · -- The second operand would be a number and a register.
    obtain ⟨same, -⟩ := sscanf_formatPair_append pair
    obtain rfl := Value.str.inj same
    have none := scanNumber_register (secondText_front line) parsed []
    rw [List.append_nil, number] at none
    cases none

theorem encode_pair_words (op : PairOp) {instr : Instruction}
    (found : findInstruction op.kind.target.toList = some instr) (build : Build) {first : CString}
    (isFirst : IsField first) :
    ∃ F : Except Failure (BitVec 8) → Except Failure (List Word),
      (∀ e words, F (.error e) ≠ .ok words) ∧ ∀ second, IsLastField second →
        (op.immediate ≠ none → ',' ∉ second) →
        (encode build instr (op.kind.text first second) op.kind.target.toList).map (fun w => [w]) =
          F (parseRegister build second) := by
  cases kind : op.kind with
  | imm target own =>
      obtain ⟨⟨low, high⟩, immediate⟩ := op.kind_imm kind
      obtain ⟨record, isRecord, notLoadStore, -⟩ := iRecord target
      rw [kind] at found
      obtain rfl : instr = record := Option.some.inj (found.symm.trans isRecord.found)
      refine ⟨fun read => iTypeWords build instr read own first,
        fun e words => iTypeWords_error build instr e words own first, ?_⟩
      intro second isSecond noComma
      have isField := isSecond.isField (noComma (by rw [immediate]; simp))
      have scanned := scanITypeOperands_printed build isFirst
        (findInstruction_isToken isRecord.found) notLoadStore isField low high
      rw [PairKind.text, PairKind.target, encode_of_scanIType isRecord.type scanned]
      rfl
  | reg target =>
      obtain ⟨record, isRecord, -⟩ := rRecord target
      rw [kind] at found
      obtain rfl : instr = record := Option.some.inj (found.symm.trans isRecord.found)
      refine ⟨fun read => rTypeWords build instr read RegName.zero.text first,
        fun e words => rTypeWords_error build instr e words RegName.zero.text first, ?_⟩
      intro second isSecond noComma
      have read := sscanf_formatR (findInstruction_isToken isRecord.found) isFirst
        RegName.zero.isField isSecond
      simp only [encode, isRecord.type, PairKind.text, read]
      rfl

theorem firstOperand_append (some : secondText line ≠ []) (tail : CString) :
    firstOperand (line ++ tail) = firstOperand line := by
  rw [firstOperand, operandsOf_append tail (operandsOf_of_secondText some),
    takeWhile_append_of_rest (rest_of_afterComma (s := operandsOf line) some)]
  rfl

theorem comma_not_mem_front (comment : Comment) :
    ',' ∉ comment.text.takeWhile (fun c => c ∉ ['#', '\n']) := by
  intro member
  rw [comment.takeWhile_text blank_not_end, List.takeWhile_cons_of_neg (by decide), List.append_nil]
    at member
  rcases List.mem_append.mp member with blank | space
  · exact absurd (comment.allBlank _ blank) (by decide)
  · cases List.mem_singleton.mp space

/-- An accepted field of a pair that ends in an immediate has a comma only when it is
as long as the buffer allows. -/
theorem encode_pair_noComma (op : PairOp) {instr : Instruction}
    (found : findInstruction op.kind.target.toList = some instr) {first second : CString}
    (isFirst : IsField first) (isSecond : IsLastField second)
    (short : second.length < registerLen - 1)
    (encoded : (encode build instr (op.kind.text first second) op.kind.target.toList).map
      (fun w => [w]) = .ok words) : op.immediate ≠ none → ',' ∉ second := by
  intro immediate comma
  obtain ⟨own, hasOwn⟩ := Option.ne_none_iff_exists'.mp immediate
  obtain ⟨target, kind⟩ := PairOp.kind_of_immediate hasOwn
  obtain ⟨w, result, -⟩ := map_eq_ok_iff.mp encoded
  obtain ⟨a, b, c, digit, rd, rs, rfl, -⟩ := encode_pair_comma_ok kind found isFirst isSecond
    comma result
  exact absurd short (by simp [registerLen])

theorem readsComment_pair (op : PairOp) (named : mnemonicOf line = op.mnemonic.toList)
    (encoded : lineWords build ctx line textOffset = .ok words) (comment : Comment) :
    ReadsComment build ctx line textOffset words ['#', '\n'] (secondText line) comment := by
  have blankStop := (LastRegister.pair op named : LastRegister build line _ _).blankStop
  obtain ⟨isField, nonempty⟩ := lineWords_pair_ok named _ _ encoded
  obtain ⟨instr, found⟩ := op.target_found
  rw [lineWords_pair named _ _ found isField nonempty] at encoded
  have some : secondText line ≠ [] := secondText_nonempty nonempty
  have named' :=
    (mnemonicOf_append_of_operands comment.text (operandsOf_of_secondText some)).trans named
  have field : secondField (line ++ comment.text) =
      cutField ['#', '\n'] (secondText line ++ comment.text) := by
    rw [← secondText_append comment.text some]
    rfl
  have nonempty' : secondField (line ++ comment.text) ≠ [] := by
    rw [field]
    exact cutField_append_nonempty nonempty comment.text
  have isField' : IsField (firstOperand (line ++ comment.text)) := by
    rwa [firstOperand_append some]
  have encodes : lineWords build ctx (line ++ comment.text) textOffset =
      (encode build instr (op.kind.text (firstOperand line) (secondField (line ++ comment.text)))
        op.kind.target.toList).map (fun w => [w]) := by
    rw [← firstOperand_append some comment.text]
    exact lineWords_pair named' ctx textOffset found isField' nonempty'
  by_cases short : (∀ c ∈ secondText line, c ∉ ['#', '\n']) ∧
      (secondText line).length < registerLen - 1
  · have whole : secondField line = secondText line := cutField_of_short short.1 short.2
    have plain : op.immediate ≠ none → ',' ∉ secondField line :=
      encode_pair_noComma op found isField (secondField_isLast nonempty)
        (by rw [whole]; exact short.2) encoded
    have plain' : op.immediate ≠ none → ',' ∉ secondField (line ++ comment.text) := by
      intro immediate comma
      rw [field, cutField_append_of_short short.1 short.2, ← whole] at comma
      rcases List.mem_append.mp comma with first | later
      · exact plain immediate first
      · exact comma_not_mem_front comment (List.mem_of_mem_take later)
    obtain ⟨F, strict, words⟩ := encode_pair_words op found build isField
    rw [words _ (secondField_isLast nonempty) plain] at encoded
    rw [words _ (secondField_isLast nonempty') plain', field] at encodes
    exact readsComment_of_register F strict blankStop encoded encodes
  · have same : secondField (line ++ comment.text) = secondField line := by
      rw [field]
      by_cases unstopped : ∀ c ∈ secondText line, c ∉ ['#', '\n']
      · exact cutField_append_of_long unstopped (fun length => short ⟨unstopped, length⟩) _
      · exact cutField_append_of_stopped unstopped _
    rw [same] at encodes
    constructor
    · intro apart
      rw [encodes, encoded]
    · intro isOpen
      exact absurd ⟨isOpen.unstopped, isOpen.short⟩ short

end Words

theorem storeType_loadStore {name : CString} {instr : Instruction}
    (found : findInstruction name = some instr) (sType : instr.type = .S) :
    isLoadStore name = true := by
  have names : ∀ instr ∈ instructions, instr.type = .S → isLoadStore instr.name.toList = true := by
    decide
  have member := names instr (List.mem_of_find?_eq_some found) sType
  rwa [findInstruction_name found] at member

section Plain

variable {build : Build} {ctx : AssemblerCtx} {line tail : CString} {textOffset : Nat}
  {words : List Word}

theorem exists_lastRegister (loadStore : isLoadStore (mnemonicOf line) = true)
    (encoded : lineWords build ctx line textOffset = .ok words) :
    ∃ stop s, LastRegister build line stop s := by
  obtain ⟨reg, imm, base, value, scanned, -⟩ := scanOffsetOperands_of_lineWords loadStore encoded
  rcases scanOffsetOperands_cases scanned with offset | ⟨retry, -⟩
  · obtain ⟨negative, magnitude, rest, number, -⟩ := sscanf_formatOffset_append offset
    exact ⟨_, _, .base loadStore number⟩
  · exact ⟨_, _, .retry loadStore retry⟩

theorem encode_append {instr : Instruction} {w : Word} (front : BlankFront tail)
    (found : findInstruction (mnemonicOf line) = some instr) (notR : instr.type ≠ .R)
    (notLoadStore : isLoadStore (mnemonicOf line) = false)
    (encoded : encode build instr line (mnemonicOf line) = .ok w) :
    encode build instr (line ++ tail) (mnemonicOf line) = .ok w := by
  unfold encode at encoded ⊢
  split at encoded
  · rename_i rType
    exact absurd rType notR
  · rename_i iType
    obtain ⟨operands, scanned, rest⟩ := bind_eq_ok_iff.mp encoded
    have scanned' : scanITypeOperands build (line ++ tail) (mnemonicOf line) = .ok operands := by
      rw [scanITypeOperands, notLoadStore] at scanned ⊢
      simp only [Bool.false_eq_true, if_false] at scanned ⊢
      split at scanned
      · rename_i rd rs1 imm read
        rw [sscanf_formatI_append front read]
        exact scanned
      · cases scanned
    exact bind_eq_ok_iff.mpr ⟨operands, scanned', rest⟩
  · rename_i sType
    rw [storeType_loadStore found sType] at notLoadStore
    cases notLoadStore
  · split at encoded
    · rename_i rs1 rs2 imm read
      rw [sscanf_formatI_append front read]
      exact encoded
    · cases encoded
  · split at encoded
    · rename_i rd imm read
      rw [sscanf_formatU_append front read]
      exact encoded
    · cases encoded
  · split at encoded
    · rename_i rd imm read
      rw [sscanf_formatU_append front read]
      exact encoded
    · cases encoded
  · exact encoded
  · cases encoded

theorem pairOp_of_name {instr : Instruction}
    (found : findInstruction (mnemonicOf line) = some instr)
    (op : PairOp) (name : instr.name = op.mnemonic) : mnemonicOf line = op.mnemonic.toList := by
  rw [← name, findInstruction_name found]

theorem expandPseudoInstr_append {instr : Instruction} {currentPc : Word}
    {expansion : PseudoExpansion} (front : BlankFront tail)
    (found : findInstruction (mnemonicOf line) = some instr)
    (notPair : ∀ op : PairOp, mnemonicOf line ≠ op.mnemonic.toList)
    (expanded : expandPseudoInstr build ctx instr line currentPc = .ok expansion) :
    expandPseudoInstr build ctx instr (line ++ tail) currentPc = .ok expansion := by
  have other : ∀ op : PairOp, instr.name ≠ op.mnemonic :=
    fun op name => notPair op (pairOp_of_name found op name)
  have notMv : instr.name ≠ "mv" := other .mv
  have notNeg : instr.name ≠ "neg" := other .neg
  have notNot : instr.name ≠ "not" := other .not
  have notSeqz : instr.name ≠ "seqz" := other .seqz
  have notSnez : instr.name ≠ "snez" := other .snez
  simp only [expandPseudoInstr, if_neg notMv, if_neg notNeg, if_neg notNot, if_neg notSeqz,
    if_neg notSnez] at expanded ⊢
  split at expanded
  · rename_i li
    rw [if_pos li]
    unfold expandLi at expanded ⊢
    split at expanded
    · rename_i rd value read
      rw [sscanf_formatU_append front read]
      exact expanded
    · cases expanded
  · rename_i notLi
    rw [if_neg notLi]
    split at expanded
    · rename_i la
      rw [if_pos la]
      unfold expandLa at expanded ⊢
      split at expanded
      · rename_i rd symbolName read
        rw [sscanf_formatLa_append front read]
        exact expanded
      · cases expanded
    · rename_i notLa
      rw [if_neg notLa]
      exact expanded

theorem lineWords_append (front : BlankFront tail)
    (plain : ∀ stop s, ¬ LastRegister build line stop s)
    (encoded : lineWords build ctx line textOffset = .ok words) :
    lineWords build ctx (line ++ tail) textOffset = .ok words := by
  obtain ⟨instr, instruction⟩ := lineInstruction_of_lineWords encoded
  have found := lineInstruction_ok instruction
  have notLoadStore : isLoadStore (mnemonicOf line) = false := by
    by_contra loadStore
    obtain ⟨stop, s, last⟩ := exists_lastRegister (by simpa using loadStore) encoded
    exact plain stop s last
  have text : skipBlanks line ≠ [] := by
    intro empty
    rw [mnemonicOf, empty] at found
    cases found
  have found' := found
  rw [← mnemonicOf_append front text] at found'
  have instruction' := lineInstruction_of_mnemonicOf found'
  by_cases pseudo : instr.type = .P
  · rw [lineWords_of_pseudo instruction pseudo] at encoded
    rw [lineWords_of_pseudo instruction' pseudo]
    obtain ⟨expansion, expanded, printed⟩ := bind_eq_ok_iff.mp encoded
    have notPair : ∀ op : PairOp, mnemonicOf line ≠ op.mnemonic.toList :=
      fun op named => plain _ _ (.pair op named)
    exact bind_eq_ok_iff.mpr ⟨expansion, expandPseudoInstr_append front found notPair expanded,
      printed⟩
  · rw [lineWords_of_real instruction pseudo, findInstruction_name found] at encoded
    rw [lineWords_of_real instruction' pseudo, findInstruction_name found]
    obtain ⟨w, result, -⟩ := map_eq_ok_iff.mp encoded
    have notR : instr.type ≠ .R := fun rType => plain _ _ (.third found rType)
    rw [encode_append front found notR notLoadStore result, ← encoded, result]

end Plain

/-! ### Comments on instruction lines -/

def OpenRegister (build : Build) (line : CString) : Prop :=
  ∃ stop s, LastRegister build line stop s ∧ OpenField stop s

section Comments

variable {build : Build} {ctx : AssemblerCtx} {line : CString} {textOffset : Nat}
  {words : List Word}

theorem readsComment_of_last {stop : List Char} {s : CString}
    (last : LastRegister build line stop s)
    (encoded : lineWords build ctx line textOffset = .ok words) (comment : Comment) :
    ReadsComment build ctx line textOffset words stop s comment := by
  cases last with
  | third found rType => exact readsComment_rType found rType encoded comment
  | pair op named => exact readsComment_pair op named encoded comment
  | retry loadStore retry => exact readsComment_retry loadStore retry encoded comment
  | base loadStore number => exact readsComment_base loadStore number encoded comment

theorem lineWords_comment (encoded : lineWords build ctx line textOffset = .ok words)
    (comment : Comment) (apart : ¬ (OpenRegister build line ∧ comment.JoinsToken)) :
    lineWords build ctx (line ++ comment.text) textOffset = .ok words := by
  by_cases plain : ∀ stop s, ¬ LastRegister build line stop s
  · exact lineWords_append comment.blankFront plain encoded
  · simp only [not_forall, not_not] at plain
    obtain ⟨stop, s, last⟩ := plain
    apply (readsComment_of_last last encoded comment).apart
    rintro ⟨isOpen, joins⟩
    exact apart ⟨⟨stop, s, last, isOpen⟩, joins⟩

theorem lineWords_comment_joined (encoded : lineWords build ctx line textOffset = .ok words)
    (comment : Comment) (isOpen : OpenRegister build line) (joins : comment.JoinsToken)
    (words' : List Word) :
    lineWords build ctx (line ++ comment.text) textOffset ≠ .ok words' := by
  obtain ⟨stop, s, last, field⟩ := isOpen
  exact (readsComment_of_last last encoded comment).joined field joins words'

theorem expandPseudoInstr_pair {op : PairOp} {instr : Instruction} {currentPc : Word}
    {expansion : PseudoExpansion} (found : findInstruction op.mnemonic.toList = some instr)
    (expanded : expandPseudoInstr build ctx instr line currentPc = .ok expansion) :
    expansion.count = 1 := by
  obtain ⟨record, isRecord, -, expands⟩ := op.exists_record
  obtain rfl : record = instr := Option.some.inj (isRecord.symm.trans found)
  rw [expands] at expanded
  unfold expandPair at expanded
  split at expanded
  · rw [expandWith_count expanded]
    rfl
  · cases expanded

theorem lineCount_comment {scanCtx : AssemblerCtx} {offset : Word} {count : Nat}
    (counted : lineCount build scanCtx line offset = .ok count) (comment : Comment)
    (encoded : lineWords build ctx (line ++ comment.text) textOffset = .ok words) :
    lineCount build scanCtx (line ++ comment.text) offset = .ok count := by
  obtain ⟨instr, instruction, rest⟩ := bind_eq_ok_iff.mp counted
  have found := lineInstruction_ok instruction
  have text : skipBlanks line ≠ [] := by
    intro empty
    rw [mnemonicOf, empty] at found
    cases found
  have same := mnemonicOf_append comment.blankFront text
  have instruction' : lineInstruction (line ++ comment.text) = .ok instr :=
    lineInstruction_of_mnemonicOf (same ▸ found)
  refine bind_eq_ok_iff.mpr ⟨instr, instruction', ?_⟩
  by_cases pseudo : instr.type = .P
  · rw [if_pos pseudo] at rest ⊢
    obtain ⟨expansion, expanded, counts⟩ := bind_eq_ok_iff.mp rest
    by_cases notPair : ∀ op : PairOp, mnemonicOf line ≠ op.mnemonic.toList
    · have expanded' := expandPseudoInstr_append comment.blankFront found notPair expanded
      exact bind_eq_ok_iff.mpr ⟨expansion, expanded', counts⟩
    · simp only [not_forall, not_not] at notPair
      obtain ⟨op, named⟩ := notPair
      rw [named] at found
      have notLa : instr.name ≠ "la" := by
        intro la
        have name := findInstruction_name found
        rw [la] at name
        cases op <;> exact absurd name (by decide)
      rw [lineWords_of_pseudo instruction' pseudo] at encoded
      obtain ⟨expansion', expanded', -⟩ := bind_eq_ok_iff.mp encoded
      rw [expandPseudoInstr_congr build notLa ctx scanCtx _ _
        (getTextVaddr scanCtx.baseVaddr + offset)] at expanded'
      refine bind_eq_ok_iff.mpr ⟨expansion', expanded', ?_⟩
      rw [expandPseudoInstr_pair found expanded', ← counts, expandPseudoInstr_pair found expanded]
  · rw [if_neg pseudo] at rest ⊢
    exact rest

end Comments

end RiscvAs
