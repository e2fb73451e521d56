/-
What an accepted register or line looks like.

These are the converses of the reading rules: from what a scan stored back to
the characters it read.
-/

import RiscvAs.TextSegment

namespace RiscvAs

open Stdio
open Rv32 (Reg)

theorem comma_not_mem_of_digits {digits : CString}
    (consumed : digits.dropWhile (isDigitOf 10) = []) : ',' ∉ digits := fun member =>
  absurd (List.dropWhile_eq_nil_iff.mp consumed ',' member) (by decide)

theorem scanMagnitude_whole {digits : CString} {magnitude : Nat}
    (scanned : scanMagnitude 10 digits = some (magnitude, [])) : digits ≠ [] ∧ ',' ∉ digits := by
  unfold scanMagnitude at scanned
  split at scanned
  · cases scanned
  · rename_i rest
    simp only [OfNat.ofNat_ne_zero, if_false, scanDigits, Option.some.injEq,
      Prod.mk.injEq] at scanned
    have noComma := comma_not_mem_of_digits scanned.2
    exact ⟨by simp, by simp [noComma]⟩
  · rename_i c rest notZero
    simp only [OfNat.ofNat_ne_zero, if_false, scanDigits] at scanned
    split at scanned
    · simp only [Option.some.injEq, Prod.mk.injEq] at scanned
      exact ⟨by simp, comma_not_mem_of_digits scanned.2⟩
    · cases scanned

/-- A number read to the end of its text has no comma in it. -/
theorem scanNumber_whole {s : CString} {negative : Bool} {magnitude : Nat}
    (read : scanNumber 10 s = some (negative, magnitude, [])) : s ≠ [] ∧ ',' ∉ s := by
  obtain ⟨blanks, after, rfl, allBlank, stops⟩ := takeWhile_decompose isspace s
  have skipped : skipBlanks (blanks ++ after) = after := dropWhile_append_stops allBlank stops
  have blanksNoComma : ',' ∉ blanks := fun member => absurd (allBlank ',' member) (by decide)
  obtain ⟨⟨m, rest⟩, scanned, same⟩ := Option.map_eq_some_iff.mp read
  simp only [Prod.mk.injEq] at same
  obtain ⟨-, rfl, rfl⟩ := same
  rw [skipped] at scanned
  have whole : after ≠ [] ∧ ',' ∉ after := by
    unfold scanSign at scanned
    split at scanned
    · have digits := scanMagnitude_whole scanned
      exact ⟨by simp, by simp [digits.2]⟩
    · have digits := scanMagnitude_whole scanned
      exact ⟨by simp, by simp [digits.2]⟩
    · exact scanMagnitude_whole scanned
  exact ⟨by simp [whole.1], by simp [blanksNoComma, whole.2]⟩

theorem parseNumbered_ok {build : Build} {digits : CString} {limit : Nat} {number : Nat → Nat}
    {value : BitVec 8} (accepted : parseNumbered build digits limit number = .ok value) :
    digits ≠ [] ∧ ',' ∉ digits ∧ ∃ n ≤ limit, value = BitVec.ofNat 8 (number n) := by
  unfold parseNumbered at accepted
  split at accepted
  · rename_i read scanned
    split at accepted
    · cases accepted
    · rename_i small
      obtain ⟨values, rest, converted, joined⟩ := sscanf_eq_cons scanned
      obtain ⟨⟨negative, magnitude, after⟩, number, same⟩ := Option.map_eq_some_iff.mp converted
      obtain ⟨rfl, rfl⟩ := Prod.mk.inj same
      -- A character after the number would be a second value.
      have ended : after = [] := by
        cases after with
        | nil => rfl
        | cons c after => simp [sscanf, convert] at joined
      subst ended
      obtain ⟨nonempty, noComma⟩ := scanNumber_whole number
      exact ⟨nonempty, noComma, read.toNat, by omega, (Except.ok.inj accepted).symm⟩
  · cases accepted

theorem parseNamed_ok {reg name : CString} {number value : BitVec 8}
    (accepted : parseNamed reg name number = .ok value) : reg = name ∧ value = number := by
  unfold parseNamed at accepted
  split at accepted
  · rename_i same
    exact ⟨same, (Except.ok.inj accepted).symm⟩
  · cases accepted

theorem parseRegister_ok {build : Build} {text : CString} {value : BitVec 8}
    (accepted : parseRegister build text = .ok value) :
    2 ≤ (registerToken text).length ∧ (registerToken text).length < registerLen ∧
      ',' ∉ registerToken text ∧ ∃ r : Reg, value = regByte r := by
  unfold parseRegister at accepted
  generalize registerToken text = token at accepted ⊢
  simp only at accepted
  split at accepted
  · cases accepted
  · rename_i length
    have numbered : ∀ (c : Char) (digits : CString) (limit : Nat) (number : Nat → Nat),
        c ≠ ',' → token = c :: digits → (∀ n ≤ limit, number n < 32) →
        parseNumbered build digits limit number = .ok value →
        2 ≤ token.length ∧ token.length < registerLen ∧ ',' ∉ token ∧
          ∃ r : Reg, value = regByte r := by
      intro c digits limit number notComma shape bound parsed
      obtain ⟨nonempty, noComma, n, small, rfl⟩ := parseNumbered_ok parsed
      have positive := List.length_pos_iff.mpr nonempty
      subst shape
      simp only [List.length_cons] at length ⊢
      exact ⟨by omega, by omega, by simp [noComma, notComma.symm],
        ⟨number n, bound n small⟩, rfl⟩
    have named : ∀ (name : CString) (r : Reg), 2 ≤ name.length → name.length < registerLen →
        ',' ∉ name → parseNamed token name (regByte r) = .ok value →
        2 ≤ token.length ∧ token.length < registerLen ∧ ',' ∉ token ∧
          ∃ r : Reg, value = regByte r := by
      intro name r long short noComma parsed
      obtain ⟨rfl, rfl⟩ := parseNamed_ok parsed
      exact ⟨long, short, noComma, r, rfl⟩
    split at accepted
    · exact numbered 'x' _ 31 _ (by decide) rfl (by omega) accepted
    · exact numbered 'a' _ 7 _ (by decide) rfl (by omega) accepted
    · exact named _ 2 (by decide) (by decide) (by decide) accepted
    · exact numbered 's' _ 11 _ (by decide) rfl (by intro n small; split <;> omega) accepted
    · exact named _ 4 (by decide) (by decide) (by decide) accepted
    · exact numbered 't' _ 6 _ (by decide) rfl (by intro n small; split <;> omega) accepted
    · exact named _ 1 (by decide) (by decide) (by decide) accepted
    · exact named _ 3 (by decide) (by decide) (by decide) accepted
    · exact named _ 0 (by decide) (by decide) (by decide) accepted
    · cases accepted

theorem exists_names {build : Build} {text : CString} {value : BitVec 8}
    (accepted : parseRegister build text = .ok value) :
    ∃ r : Reg, value = regByte r ∧ Names build text r := by
  obtain ⟨-, -, -, r, rfl⟩ := parseRegister_ok accepted
  exact ⟨r, rfl, ⟨accepted⟩⟩

/-- `parse_register` only looks at the token. -/
theorem parseRegister_congr (build : Build) {text text' : CString}
    (same : registerToken text = registerToken text') :
    parseRegister build text = parseRegister build text' := by
  simp only [parseRegister, same]

def mnemonicOf (line : CString) : CString :=
  (skipBlanks line).takeWhile (fun c => !isspace c)

def operandsOf (line : CString) : CString :=
  skipBlanks ((skipBlanks line).dropWhile (fun c => !isspace c))

theorem operandsOf_eq {line name rest : CString} (split : skipBlanks line = name ++ rest)
    (noBlank : ∀ c ∈ name, isspace c = false) (stops : Stops (fun c => !isspace c) rest) :
    operandsOf line = skipBlanks rest := by
  rw [operandsOf, split,
    dropWhile_append_stops (fun c member => by simp [noBlank c member]) stops]

theorem mnemonicOf_eq {line name rest : CString} (split : skipBlanks line = name ++ rest)
    (noBlank : ∀ c ∈ name, isspace c = false) (stops : Stops (fun c => !isspace c) rest) :
    mnemonicOf line = name := by
  rw [mnemonicOf, split,
    takeWhile_append_stops (fun c member => by simp [noBlank c member]) stops]

theorem sscanf_operands {line : CString} (nonempty : mnemonicOf line ≠ [])
    (format : List Directive) :
    sscanf (.skipToken :: .blank :: format) line = sscanf format (operandsOf line) := by
  obtain ⟨run, rest, split, accepted, stops⟩ :=
    takeWhile_decompose (fun c => !isspace c) (skipBlanks line)
  have noBlank : ∀ c ∈ run, isspace c = false := fun c member => by simpa using accepted c member
  have word : run ≠ [] := mnemonicOf_eq split noBlank stops ▸ nonempty
  have read : convert .skipToken line = some ([], rest) := by
    have ran : scanRun none (fun c => !isspace c) (run ++ rest) = some (run, rest) :=
      scanRun_append word accepted (by simp) stops
    simp only [convert, split, ran, Option.map_some]
  rw [sscanf_convert read, sscanf_blank, operandsOf_eq split noBlank stops]
  rfl

theorem mnemonicOf_nonempty_of_skipToken {line : CString} {format : List Directive} {v : Value}
    {vs : List Value} (scanned : sscanf (.skipToken :: format) line = v :: vs) :
    mnemonicOf line ≠ [] := by
  obtain ⟨run, rest, split, nonempty, noBlank, stops, -⟩ := sscanf_skipToken_inv scanned
  rw [mnemonicOf_eq split noBlank stops]
  exact nonempty

theorem firstField_inv {line : CString} {format : List Directive} {rd v : Value}
    {vs : List Value}
    (scanned : sscanf (.skipToken :: .blank :: fieldDirective :: .char ',' :: .blank :: format)
      line = rd :: v :: vs) :
    ∃ first after, rd = .str first ∧ IsField first ∧ operandsOf line = first ++ ',' :: after ∧
      sscanf format (skipBlanks after) = v :: vs := by
  rw [sscanf_operands (mnemonicOf_nonempty_of_skipToken scanned)] at scanned
  obtain ⟨first, rest, split, nonempty, noComma, short, -, rfl, comma⟩ := sscanf_set_inv scanned
  obtain ⟨after, rfl, others⟩ := sscanf_char_inv comma
  rw [sscanf_blank] at others
  refine ⟨first, after, rfl, ⟨nonempty, short, noComma, ?_⟩, split, others⟩
  have front : Stops isspace (operandsOf line) := stops_skipBlanks _
  rw [split] at front
  exact (stops_append nonempty _).mp front

theorem lineInstruction_ok {line : CString} {instr : Instruction}
    (accepted : lineInstruction line = .ok instr) :
    findInstruction (mnemonicOf line) = some instr := by
  have names : ∀ instr ∈ instructions, instr.name.toList.length < nameLen - 1 := by decide
  unfold lineInstruction at accepted
  split at accepted
  · rename_i name scanned
    split at accepted
    · cases accepted
    · rename_i found
      cases accepted
      rw [formatName, sscanf_blank] at scanned
      obtain ⟨run, rest, split, nonempty, noBlank, short, stops, same, -⟩ :=
        sscanf_token_inv scanned
      obtain rfl := Value.str.inj same
      rw [skipBlanks_skipBlanks] at split
      -- No name of the table is as long as the width of the pattern.
      have shorter := names instr (List.mem_of_find?_eq_some found)
      rw [findInstruction_name found] at shorter
      rcases stops with stops | full
      · rw [mnemonicOf_eq split noBlank stops, found]
      · rw [Option.some.inj full] at shorter
        exact absurd shorter (lt_irrefl _)
  · cases accepted

theorem lineInstruction_of_mnemonicOf {line : CString} {instr : Instruction}
    (found : findInstruction (mnemonicOf line) = some instr) :
    lineInstruction line = .ok instr := by
  obtain ⟨run, rest, split, accepted, stops⟩ :=
    takeWhile_decompose (fun c => !isspace c) (skipBlanks line)
  have noBlank : ∀ c ∈ run, isspace c = false := fun c member => by simpa using accepted c member
  rw [mnemonicOf_eq split noBlank stops] at found
  have read := lineInstruction_of_found found stops
  rw [← split] at read
  simpa only [lineInstruction, formatName, sscanf_blank, skipBlanks_skipBlanks] using read

end RiscvAs
