/-
Text after the last operand of a line.

The number of converted values says nothing about what comes after the last of
them: a register is cut at four characters and ends at a blank, a number ends
where its digits do, and no value follows a closing parenthesis.  `TextSlips` are
the lines that are accepted with such a remainder.
-/

import RiscvAs.ScannedOperands
import RiscvAs.MalformedData

namespace RiscvAs

open Stdio
open Rv32 (Word Reg)

def EndsInRegister (s : CString) : Prop :=
  ∃ (name : RegName) (tail : CString), s = name.text ++ tail ∧ IsTrailing tail

def EndsInLiteral (s : CString) : Prop :=
  ∃ (literal : Literal) (tail : CString), s = literal.text ++ tail ∧ IsTrailing tail

/-- `literal(register)` -/
def EndsInBase (s : CString) : Prop :=
  ∃ (literal : Literal) (inner tail : CString) (name : RegName),
    s = literal.text ++ '(' :: (inner ++ ')' :: tail) ∧ Spells inner name ∧ IsTrailing tail

/-- The last operand of the format, and nothing but blanks and a comment after it. -/
def EndsWell (instr : Instruction) (line : CString) : Prop :=
  match instr.type with
  | .R => EndsInRegister (thirdText line)
  | .I =>
      if isLoadStore instr.name.toList then
        EndsInBase (secondText line) ∨ EndsInRegister (secondText line)
      else EndsInLiteral (thirdText line)
  | .S => EndsInBase (secondText line) ∨ EndsInRegister (secondText line)
  | .B => EndsInLiteral (thirdText line)
  | .U | .J => EndsInLiteral (secondText line)
  | .Z => IsTrailing (operandsOf line)
  | .P => True

/-- No accepted line has a remainder, and a rejected line leaves the offset alone. -/
structure RejectsLeftover (build : Build) (out : Output) (line : CString) : Prop where
  accepted : ∀ instr, findInstruction (mnemonicOf line) = some instr →
    (processSegmentText build out line).1 = .ok → EndsWell instr line
  rejected : (processSegmentText build out line).1 ≠ .ok →
    (processSegmentText build out line).2.textOffset = out.textOffset

/-- The word that is taken for a register. -/
def lastWord (s : CString) : CString :=
  registerToken (cutField ['#', '\n'] s)

/-- That word is a numeral that no register has, or it is not the end of the line. -/
def RegisterLeft (s : CString) : Prop :=
  (∀ name : RegName, lastWord s ≠ name.text) ∨ ¬ IsTrailing (s.drop (lastWord s).length)

def IsBarePrefix (s rest : CString) : Prop :=
  ∃ sign x, (x = 'x' ∨ x = 'X') ∧ s = Sign.text sign ++ '0' :: x :: rest

/-- The number is no literal, or it is not the end of the line. -/
def NumberLeft (s rest : CString) : Prop :=
  ¬ IsTrailing rest ∨ IsBarePrefix s rest

/-- The number is no literal, the parentheses hold more than a register, or the closing one is
missing or not the end of the line. -/
def BaseLeft (s rest : CString) : Prop :=
  IsBarePrefix s ('(' :: rest) ∨ (∀ name : RegName, ¬ Spells (insideBase rest) name) ∨
    ∀ tail, rest = insideBase rest ++ ')' :: tail → ¬ IsTrailing tail

/-- The lines that are accepted with a remainder, when there is room for a word. -/
inductive TextSlips (build : Build) (instr : Instruction) (line : CString) : Prop where
  | register (type : instr.type = .R) (first : IsRegisterField build (firstOperand line))
      (second : IsRegisterField build (middleOperand line))
      (last : ∃ r, Names build (cutField ['#', '\n'] (thirdText line)) r)
      (left : RegisterLeft (thirdText line))
  | immediate (type : instr.type = .I) (notLoad : isLoadStore instr.name.toList = false)
      (first : IsRegisterField build (firstOperand line))
      (second : IsRegisterField build (middleOperand line))
      {negative : Bool} {magnitude : Nat} {rest : CString}
      (number : scanNumber 0 (thirdText line) = some (negative, magnitude, rest))
      (range : IsInt12 (signedValue negative magnitude)) (left : NumberLeft (thirdText line) rest)
  | branch (type : instr.type = .B) (first : IsRegisterField build (firstOperand line))
      (second : IsRegisterField build (middleOperand line))
      {negative : Bool} {magnitude : Nat} {rest : CString}
      (number : scanNumber 0 (thirdText line) = some (negative, magnitude, rest))
      (range : IsBranchOffset (signedValue negative magnitude))
      (left : NumberLeft (thirdText line) rest)
  | upper (type : instr.type = .U) (first : IsRegisterField build (firstOperand line))
      {negative : Bool} {magnitude : Nat} {rest : CString}
      (number : scanNumber 0 (secondText line) = some (negative, magnitude, rest))
      (range : int20Min ≤ signedValue negative magnitude ∧
        signedValue negative magnitude ≤ int20Max)
      (left : NumberLeft (secondText line) rest)
  | offset (loadStore : isLoadStore instr.name.toList = true)
      (first : IsRegisterField build (firstOperand line))
      {negative : Bool} {magnitude : Nat} {rest : CString}
      (reads : ReadsBase build (secondText line) negative magnitude rest)
      (left : BaseLeft (secondText line) rest)
  | base (loadStore : isLoadStore instr.name.toList = true)
      (first : IsRegisterField build (firstOperand line))
      (last : ∃ r, Names build (cutField ['#', '\n'] (secondText line)) r)
      (left : RegisterLeft (secondText line))
  | noOperands (type : instr.type = .Z) (left : ¬ IsTrailing (operandsOf line))

theorem endsLiteral_of_trailing {tail : CString} (trailing : IsTrailing tail) :
    EndsLiteral tail := by
  cases tail with
  | nil => exact endsLiteral_nil
  | cons c tail =>
      by_cases blank : isspace c = true
      · rw [endsLiteral_cons]
        refine ⟨isDigitOf_blank blank, ?_, ?_⟩
        · rintro rfl
          cases blank
        · rintro rfl
          cases blank
      · have front : skipBlanks (c :: tail) = c :: tail :=
          skipBlanks_of_stops (by simpa using blank)
        rw [IsTrailing, front] at trailing
        rcases trailing with empty | mark
        · cases empty
        · obtain rfl : c = '#' := Option.some.inj mark
          rw [endsLiteral_cons]
          decide

theorem not_isBarePrefix (literal : Literal) {rest : CString} (ends : EndsLiteral rest) :
    ¬ IsBarePrefix (literal.text ++ rest) rest := by
  rintro ⟨sign, x, marker, same⟩
  exact literal.not_bare ends marker same (stops_of_endsLiteral (by decide) ends)

theorem literal_iff {s rest : CString} {negative : Bool} {magnitude : Nat}
    (front : Stops isspace s) (number : scanNumber 0 s = some (negative, magnitude, rest))
    (ends : EndsLiteral rest) :
    (∃ literal : Literal, s = literal.text ++ rest) ↔ ¬ IsBarePrefix s rest := by
  constructor
  · rintro ⟨literal, rfl⟩
    exact not_isBarePrefix literal ends
  · intro notBare
    rcases scanNumber_zero_inv number with ⟨literal, text, -⟩ | ⟨sign, x, marker, text, -⟩
    · exact ⟨literal, (skipBlanks_of_stops front).symm.trans text⟩
    · exact absurd ⟨sign, x, marker, (skipBlanks_of_stops front).symm.trans text⟩ notBare

theorem endsInLiteral_iff {s rest : CString} {negative : Bool} {magnitude : Nat}
    (front : Stops isspace s) (number : scanNumber 0 s = some (negative, magnitude, rest)) :
    EndsInLiteral s ↔ ¬ NumberLeft s rest := by
  constructor
  · rintro ⟨literal, tail, rfl, trailing⟩ left
    have ends := endsLiteral_of_trailing trailing
    rw [scanNumber_literal literal tail ends] at number
    simp only [Option.some.injEq, Prod.mk.injEq] at number
    obtain ⟨-, -, rfl⟩ := number
    exact left.elim (fun other => other trailing) (not_isBarePrefix literal ends)
  · intro whole
    rw [NumberLeft, not_or, not_not] at whole
    obtain ⟨trailing, notBare⟩ := whole
    obtain ⟨literal, same⟩ :=
      (literal_iff front number (endsLiteral_of_trailing trailing)).mpr notBare
    exact ⟨literal, rest, same, trailing⟩

/-- What a register pattern reads of blanks and a comment is blank. -/
theorem blank_of_trailing {tail : CString} (trailing : IsTrailing tail) {c : Char}
    (member : c ∈ tail.takeWhile (fun c => c ∉ ['#', '\n'])) : isspace c = true := by
  obtain ⟨blanks, rest, rfl, allBlank, stops⟩ := takeWhile_decompose isspace tail
  rw [IsTrailing, skipBlanks, dropWhile_append_stops allBlank stops] at trailing
  have inBlanks : c ∈ blanks := by
    rcases trailing with rfl | mark
    · rw [List.append_nil] at member
      exact (List.takeWhile_prefix _).subset member
    · obtain ⟨more, rfl⟩ := List.head?_eq_some_iff.mp mark
      have stopped : Stops (fun c => decide (c ∉ ['#', '\n'])) ('#' :: more) := by simp
      rw [takeWhile_append_of_stops stopped] at member
      exact (List.takeWhile_prefix _).subset member
  exact allBlank c inBlanks

theorem isPrefix_lastWord {s : CString} (front : Stops isspace s) : lastWord s <+: s := by
  have cut : cutField ['#', '\n'] s <+: s :=
    (List.take_prefix _ _).trans (List.takeWhile_prefix _)
  have cutFront : Stops isspace (cutField ['#', '\n'] s) := by
    intro c first
    obtain ⟨more, same⟩ := cut
    apply front
    rw [← same, List.head?_append, first]
    rfl
  rw [lastWord, registerToken, skipBlanks_of_stops cutFront]
  exact (List.takeWhile_prefix _).trans cut

theorem lastWord_of_name {build : Build} {name : RegName} {tail : CString} {r : Reg}
    (names : Names build (cutField ['#', '\n'] (name.text ++ tail)) r)
    (trailing : IsTrailing tail) : lastWord (name.text ++ tail) = name.text := by
  have isLast := name.isLastField
  have cut := cutField_of_unstopped isLast.noEnd tail
  rw [List.take_of_length_le isLast.short] at cut
  generalize run : (tail.takeWhile (fun c => c ∉ ['#', '\n'])).take
    (registerLen - 1 - name.text.length) = w at cut
  have blank : ∀ c ∈ w, isspace c = true := by
    intro c member
    rw [← run] at member
    exact blank_of_trailing trailing (List.mem_of_mem_take member)
  have word : registerToken (cutField ['#', '\n'] (name.text ++ tail)) =
      name.text ++ w.takeWhile (fun c => c ∉ [' ', '\t', '\r', '\n']) := by
    have token := registerToken_name name
    have skipped := skipBlanks_name (List.forall_mem_nil _) name w
    rw [registerToken, skipBlanks_of_stops isLast.front, List.takeWhile_eq_self_iff] at token
    rw [List.nil_append] at skipped
    rw [cut, registerToken, skipped, List.takeWhile_append_of_pos token]
  have none := no_blank_end (name_or_loose_of_ok names.parsed) word
    fun c member => blank c ((List.takeWhile_prefix _).subset member)
  rw [lastWord, word, none, List.append_nil]

theorem endsInRegister_iff {build : Build} {s : CString} (front : Stops isspace s)
    (last : ∃ r, Names build (cutField ['#', '\n'] s) r) :
    EndsInRegister s ↔ ¬ RegisterLeft s := by
  constructor
  · rintro ⟨name, tail, rfl, trailing⟩ left
    obtain ⟨r, names⟩ := last
    have word := lastWord_of_name names trailing
    rcases left with noName | more
    · exact noName name word
    · rw [word, List.drop_left] at more
      exact more trailing
  · intro whole
    rw [RegisterLeft, not_or, not_not] at whole
    obtain ⟨named, trailing⟩ := whole
    obtain ⟨name, word⟩ := not_forall_not.mp named
    have split := List.prefix_iff_eq_append.mp (isPrefix_lastWord front)
    refine ⟨name, s.drop (lastWord s).length, ?_, trailing⟩
    rw [← word, split]

theorem endsInBase_iff {s rest : CString} {negative : Bool} {magnitude : Nat}
    (front : Stops isspace s) (number : scanNumber 0 s = some (negative, magnitude, '(' :: rest)) :
    EndsInBase s ↔ ¬ BaseLeft s rest := by
  have ends : ∀ more, EndsLiteral ('(' :: more) := by
    intro more
    rw [endsLiteral_cons]
    decide
  constructor
  · rintro ⟨literal, inner, tail, name, rfl, spells, trailing⟩ left
    rw [scanNumber_literal literal _ (ends _)] at number
    simp only [Option.some.injEq, Prod.mk.injEq, List.cons.injEq, true_and] at number
    obtain ⟨-, -, rfl⟩ := number
    have inside := insideBase_eq spells.noParen.2 tail
    rcases left with bare | noName | open'
    · exact not_isBarePrefix literal (ends _) bare
    · rw [inside] at noName
      exact noName name spells
    · rw [inside] at open'
      exact open' tail rfl trailing
  · intro whole
    rw [BaseLeft, not_or, not_or] at whole
    obtain ⟨notBare, named, closed⟩ := whole
    obtain ⟨literal, same⟩ := (literal_iff front number (ends rest)).mpr notBare
    obtain ⟨name, spells⟩ := not_forall_not.mp named
    simp only [not_forall, not_not] at closed
    obtain ⟨tail, split, trailing⟩ := closed
    exact ⟨literal, insideBase rest, tail, name, by rw [← split, same], spells, trailing⟩

/-! ### Accepted lines -/

theorem processSegmentText_real_ok_iff {build : Build} {out : Output} {line : CString}
    {instr : Instruction} (found : findInstruction (mnemonicOf line) = some instr)
    (real : instr.type ≠ .P) :
    (processSegmentText build out line).1 = .ok ↔
      out.textOffset + 4 ≤ out.ctx.textSegment.capacity ∧
        ∃ w, encode build instr line instr.name.toList = .ok w := by
  have words : lineWords build out.ctx line out.textOffset =
      (encode build instr line instr.name.toList).map (fun w => [w]) :=
    lineWords_of_real (lineInstruction_of_mnemonicOf found) real
  constructor
  · intro accepted
    rcases processed : processSegmentText build out line with ⟨code, out'⟩
    rw [processed] at accepted
    cases accepted
    obtain ⟨encodedWords, encoded, room, -⟩ := processSegmentText_ok processed
    rw [words] at encoded
    obtain ⟨w, result, rfl⟩ := map_eq_ok_iff.mp encoded
    exact ⟨room (by simp), w, result⟩
  · rintro ⟨room, w, encoded⟩
    rw [encoded] at words
    rw [processSegmentText_of_words words room]

/-- The table has no jumps, and its loads and stores are those of two formats. -/
theorem instruction_types {name : CString} {instr : Instruction}
    (found : findInstruction name = some instr) : instr.type ≠ .J ∧
      (isLoadStore instr.name.toList = true → instr.type = .I ∨ instr.type = .S) := by
  have types : ∀ instr ∈ instructions, instr.type ≠ .J ∧
      (isLoadStore instr.name.toList = true → instr.type = .I ∨ instr.type = .S) := by
    decide
  exact types instr (List.mem_of_find?_eq_some found)

theorem thirdText_front (line : CString) : Stops isspace (thirdText line) :=
  stops_skipBlanks _

section Slips

variable {build : Build} {instr : Instruction} {line : CString}
  (found : findInstruction (mnemonicOf line) = some instr)

include found

theorem endsWell_loadStore (loadStore : isLoadStore instr.name.toList = true) :
    EndsWell instr line ↔ EndsInBase (secondText line) ∨ EndsInRegister (secondText line) := by
  unfold EndsWell
  rcases (instruction_types found).2 loadStore with type | type
  · simp only [type, loadStore, if_true]
  · simp only [type]

/-- A number in front of parentheses is no register. -/
theorem not_endsWell_offset (loadStore : isLoadStore instr.name.toList = true) {negative : Bool}
    {magnitude : Nat} {rest : CString}
    (number : scanNumber 0 (secondText line) = some (negative, magnitude, '(' :: rest)) :
    ¬ EndsWell instr line ↔ BaseLeft (secondText line) rest := by
  have notRegister : ¬ EndsInRegister (secondText line) := by
    rintro ⟨register, tail, same, -⟩
    rw [same, register.scanNumber_text] at number
    cases number
  rw [endsWell_loadStore found loadStore, endsInBase_iff (secondText_front line) number,
    or_iff_left notRegister, not_not]

theorem not_endsWell_base (loadStore : isLoadStore instr.name.toList = true)
    (last : ∃ r, Names build (cutField ['#', '\n'] (secondText line)) r) :
    ¬ EndsWell instr line ↔ RegisterLeft (secondText line) := by
  have notBase : ¬ EndsInBase (secondText line) := by
    rintro ⟨literal, inner, tail, _, same, -, -⟩
    obtain ⟨r, names⟩ := last
    have noNumber := scanNumber_register (secondText_front line) names.parsed []
    have number := scanNumber_literal literal ('(' :: (inner ++ ')' :: tail))
      (by rw [endsLiteral_cons]; decide)
    rw [List.append_nil, same, number] at noNumber
    cases noNumber
  rw [endsWell_loadStore found loadStore, or_iff_right notBase,
    endsInRegister_iff (secondText_front line) last, not_not]

theorem TextSlips.accepted (slips : TextSlips build instr line) :
    (∃ w, encode build instr line instr.name.toList = .ok w) ∧ ¬ EndsWell instr line := by
  have mnemonic : mnemonicOf line ≠ [] := (findInstruction_isToken found).nonempty
  have found' : findInstruction instr.name.toList = some instr := by
    rw [findInstruction_name found, found]
  cases slips with
  | register type first second last left =>
      refine ⟨(encode_rType_ok_iff mnemonic type).mpr ⟨first, second, last⟩, ?_⟩
      simp only [EndsWell, type]
      rwa [endsInRegister_iff (thirdText_front line) last, not_not]
  | immediate type notLoad first second number range left =>
      refine ⟨(encode_immediate_ok_iff mnemonic type notLoad).mpr
        ⟨first, second, _, _, _, number, range⟩, ?_⟩
      simp only [EndsWell, type, notLoad, Bool.false_eq_true, if_false]
      rwa [endsInLiteral_iff (thirdText_front line) number, not_not]
  | branch type first second number range left =>
      refine ⟨(encode_bType_ok_iff mnemonic type).mpr ⟨first, second, _, _, _, number, range⟩, ?_⟩
      simp only [EndsWell, type]
      rwa [endsInLiteral_iff (thirdText_front line) number, not_not]
  | upper type first number range left =>
      refine ⟨(encode_uType_ok_iff mnemonic type).mpr ⟨first, _, _, _, number, range⟩, ?_⟩
      simp only [EndsWell, type]
      rwa [endsInLiteral_iff (secondText_front line) number, not_not]
  | offset loadStore first reads left =>
      exact ⟨(encode_loadStore_ok_iff mnemonic loadStore found').mpr
        ⟨first, Or.inl ⟨_, _, _, reads⟩⟩,
          (not_endsWell_offset found loadStore reads.number).mpr left⟩
  | base loadStore first last left =>
      exact ⟨(encode_loadStore_ok_iff mnemonic loadStore found').mpr ⟨first, Or.inr last⟩,
        (not_endsWell_base found loadStore last).mpr left⟩
  | noOperands type left =>
      refine ⟨⟨assembleZType instr, by simp only [encode, type]⟩, ?_⟩
      simp only [EndsWell, type]
      exact left

theorem slips_of_loadStore (loadStore : isLoadStore instr.name.toList = true)
    (encoded : ∃ w, encode build instr line instr.name.toList = .ok w)
    (left : ¬ EndsWell instr line) : TextSlips build instr line := by
  have mnemonic : mnemonicOf line ≠ [] := (findInstruction_isToken found).nonempty
  have found' : findInstruction instr.name.toList = some instr := by
    rw [findInstruction_name found, found]
  obtain ⟨first, ⟨negative, magnitude, rest, reads⟩ | last⟩ :=
    (encode_loadStore_ok_iff mnemonic loadStore found').mp encoded
  · exact .offset loadStore first reads ((not_endsWell_offset found loadStore reads.number).mp left)
  · exact .base loadStore first last ((not_endsWell_base found loadStore last).mp left)

theorem slips_of_accepted (encoded : ∃ w, encode build instr line instr.name.toList = .ok w)
    (left : ¬ EndsWell instr line) : TextSlips build instr line := by
  have mnemonic : mnemonicOf line ≠ [] := (findInstruction_isToken found).nonempty
  by_cases loadStore : isLoadStore instr.name.toList = true
  · exact slips_of_loadStore found loadStore encoded left
  · have notLoad : isLoadStore instr.name.toList = false := by simpa using loadStore
    cases type : instr.type with
    | R =>
        obtain ⟨first, second, last⟩ := (encode_rType_ok_iff mnemonic type).mp encoded
        simp only [EndsWell, type] at left
        rw [endsInRegister_iff (thirdText_front line) last, not_not] at left
        exact .register type first second last left
    | I =>
        obtain ⟨first, second, negative, magnitude, rest, number, range⟩ :=
          (encode_immediate_ok_iff mnemonic type notLoad).mp encoded
        simp only [EndsWell, type, notLoad, Bool.false_eq_true, if_false] at left
        rw [endsInLiteral_iff (thirdText_front line) number, not_not] at left
        exact .immediate type notLoad first second number range left
    | S =>
        rw [findInstruction_name found, storeType_loadStore found type] at notLoad
        cases notLoad
    | B =>
        obtain ⟨first, second, negative, magnitude, rest, number, range⟩ :=
          (encode_bType_ok_iff mnemonic type).mp encoded
        simp only [EndsWell, type] at left
        rw [endsInLiteral_iff (thirdText_front line) number, not_not] at left
        exact .branch type first second number range left
    | U =>
        obtain ⟨first, negative, magnitude, rest, number, range⟩ :=
          (encode_uType_ok_iff mnemonic type).mp encoded
        simp only [EndsWell, type] at left
        rw [endsInLiteral_iff (secondText_front line) number, not_not] at left
        exact .upper type first number range left
    | J => exact absurd type (instruction_types found).1
    | Z =>
        simp only [EndsWell, type] at left
        exact .noOperands type left
    | P =>
        obtain ⟨w, encoded⟩ := encoded
        simp only [encode, type] at encoded
        cases encoded

end Slips

/-- Lines with a remainder are rejected exactly when none of the slips is taken. -/
theorem rejectsLeftover_iff (build : Build) (out : Output) (line : CString) :
    RejectsLeftover build out line ↔
      ∀ instr, findInstruction (mnemonicOf line) = some instr →
        out.textOffset + 4 ≤ out.ctx.textSegment.capacity → ¬ TextSlips build instr line := by
  constructor
  · intro rejects instr found room slips
    obtain ⟨encoded, left⟩ := slips.accepted found
    have real : instr.type ≠ .P := by
      intro pseudo
      obtain ⟨w, encoded⟩ := encoded
      simp only [encode, pseudo] at encoded
      cases encoded
    exact left (rejects.accepted instr found
      ((processSegmentText_real_ok_iff found real).mpr ⟨room, encoded⟩))
  · intro none
    refine ⟨?_, fun failed => (processSegmentText_failed build out line failed).2.1⟩
    intro instr found accepted
    by_cases real : instr.type = .P
    · simp only [EndsWell, real]
    · obtain ⟨room, encoded⟩ := (processSegmentText_real_ok_iff found real).mp accepted
      by_contra left
      exact none instr found room (slips_of_accepted found encoded left)

/-- `addi a0, a1, 12 34` is the instruction with the immediate 12. -/
theorem addi_leftover_accepted :
    ¬ RejectsLeftover .native (assembleStart (initCtx 0)).2 "addi a0, a1, 12 34".toList := by
  have found : findInstruction (mnemonicOf "addi a0, a1, 12 34".toList) =
      some ⟨"addi", 0x13, 0x0, 0x00, .I⟩ := by decide
  have number : scanNumber 0 (thirdText "addi a0, a1, 12 34".toList) =
      some (false, 12, " 34".toList) := by decide
  have left : NumberLeft (thirdText "addi a0, a1, 12 34".toList) " 34".toList :=
    Or.inl (by unfold IsTrailing; decide)
  intro rejects
  have well : EndsInLiteral (thirdText "addi a0, a1, 12 34".toList) :=
    rejects.accepted _ found (by decide)
  exact (endsInLiteral_iff (thirdText_front _) number).mp well left

end RiscvAs
