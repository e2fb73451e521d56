/-
Which texts `parse_register` takes for a register.

It reads the first word of its argument, up to four characters, and the number
of a name by `%hhu`.  So it also takes numerals that no name has, it ignores
what follows the first word, and a vertical tab or a form feed does not end that
word.
-/

import RiscvAs.Trimming
import RiscvAs.Reading

namespace RiscvAs

open Stdio

/-- `parse_register` with `*out_value` as it was before the call. -/
def parseRegisterOut (build : Build) (reg : CString) (outValue : BitVec 8) :
    AssemblerError × BitVec 8 :=
  match parseRegister build reg with
  | .ok value => (.ok, value)
  | .error e => (.fail e, outValue)

def Spells (reg : CString) (name : RegName) : Prop :=
  ∃ before after, reg = before ++ (name.text ++ after) ∧ (∀ c ∈ before, isspace c = true) ∧
    ∀ c ∈ after, isspace c = true

/-- Exactly the names are accepted, each with its number, and a rejected text leaves
`*out_value` alone. -/
structure RegisterFaithful (build : Build) (reg : CString) : Prop where
  accepted : ∀ outValue n, parseRegisterOut build reg outValue = (.ok, n) ↔
    ∃ name, Spells reg name ∧ n = regByte name.number
  rejected : ∀ outValue, (∀ name, ¬ Spells reg name) →
    parseRegisterOut build reg outValue = (.fail .invalidRegister, outValue)

structure IsNumeral (s blanks : CString) (sign : Sign) (digits : CString) : Prop where
  split : s = blanks ++ (sign.text ++ digits)
  blank : ∀ c ∈ blanks, isspace c = true
  nonempty : digits ≠ []
  decimal : ∀ c ∈ digits, isDigitOf 10 c = true

theorem scanMagnitude_ten_iff {s : CString} {magnitude : Nat} :
    scanMagnitude 10 s = some (magnitude, []) ↔
      s ≠ [] ∧ (∀ c ∈ s, isDigitOf 10 c = true) ∧ magnitude = digitsValue 10 0 s := by
  have digits : ∀ t : CString, scanDigits 10 t = (magnitude, []) ↔
      (∀ c ∈ t, isDigitOf 10 c = true) ∧ magnitude = digitsValue 10 0 t := by
    intro t
    simp only [scanDigits, Prod.mk.injEq]
    constructor
    · rintro ⟨value, consumed⟩
      have all := List.dropWhile_eq_nil_iff.mp consumed
      rw [List.takeWhile_eq_self_iff.mpr all] at value
      exact ⟨all, value.symm⟩
    · rintro ⟨all, value⟩
      rw [List.takeWhile_eq_self_iff.mpr all]
      exact ⟨value.symm, List.dropWhile_eq_nil_iff.mpr all⟩
  have zero : ∀ t : CString, digitsValue 10 0 ('0' :: t) = digitsValue 10 0 t := fun t => rfl
  unfold scanMagnitude
  split
  · simp
  · rename_i rest
    rw [if_neg (by decide), Option.some.injEq, digits]
    simp only [zero, List.mem_cons, forall_eq_or_imp, ne_eq, List.cons_ne_nil, not_false_eq_true,
      true_and]
    exact (and_congr_left (fun _ => (and_iff_right (by decide)).symm))
  · rename_i c rest notZero
    simp only [OfNat.ofNat_ne_zero, if_false]
    split
    · rename_i digit
      rw [Option.some.injEq, digits]
      simp
    · rename_i notDigit
      simp [notDigit]

theorem IsNumeral.front {s blanks digits : CString} {sign : Sign}
    (numeral : IsNumeral s blanks sign digits) :
    skipBlanks s = sign.text ++ digits ∧
      scanSign (sign.text ++ digits) = (sign.negative, digits) := by
  obtain ⟨c, rest, rfl⟩ := List.exists_cons_of_ne_nil numeral.nonempty
  obtain ⟨notBlank, notMinus, notPlus⟩ :=
    isDigitOf_front (by decide) (numeral.decimal c (List.mem_cons_self ..))
  constructor
  · rw [skipBlanks, numeral.split]
    apply dropWhile_append_stops numeral.blank
    cases sign with
    | none => simpa [Sign.text] using notBlank
    | plus => simp [Sign.text, isspace]
    | minus => simp [Sign.text, isspace]
  · cases sign with
    | none => simp [Sign.text, scanSign, Sign.negative, notMinus, notPlus]
    | plus => rfl
    | minus => rfl

theorem scanNumber_ten_iff {s : CString} {negative : Bool} {magnitude : Nat} :
    scanNumber 10 s = some (negative, magnitude, []) ↔
      ∃ blanks sign digits, IsNumeral s blanks sign digits ∧ negative = sign.negative ∧
        magnitude = digitsValue 10 0 digits := by
  constructor
  · intro read
    obtain ⟨blanks, after, rfl, blank, stops⟩ := takeWhile_decompose isspace s
    have skipped : skipBlanks (blanks ++ after) = after := dropWhile_append_stops blank stops
    obtain ⟨⟨m, rest⟩, scanned, same⟩ := Option.map_eq_some_iff.mp read
    simp only [Prod.mk.injEq] at same
    obtain ⟨rfl, rfl, rfl⟩ := same
    rw [skipped] at scanned ⊢
    unfold scanSign at scanned ⊢
    split at scanned
    · obtain ⟨nonempty, decimal, value⟩ := scanMagnitude_ten_iff.mp scanned
      exact ⟨blanks, .minus, _, ⟨rfl, blank, nonempty, decimal⟩, rfl, value⟩
    · obtain ⟨nonempty, decimal, value⟩ := scanMagnitude_ten_iff.mp scanned
      exact ⟨blanks, .plus, _, ⟨rfl, blank, nonempty, decimal⟩, rfl, value⟩
    · obtain ⟨nonempty, decimal, value⟩ := scanMagnitude_ten_iff.mp scanned
      exact ⟨blanks, .none, _, ⟨rfl, blank, nonempty, decimal⟩, rfl, value⟩
  · rintro ⟨blanks, sign, digits, numeral, rfl, rfl⟩
    obtain ⟨skipped, signed⟩ := numeral.front
    have magnitude := scanMagnitude_ten_iff.mpr ⟨numeral.nonempty, numeral.decimal, rfl⟩
    rw [scanNumber, skipped, signed]
    simp only [magnitude, Option.map_some]

theorem parseNumbered_ok_iff {build : Build} {s : CString} {limit : Nat} {number : Nat → Nat}
    {value : BitVec 8} :
    parseNumbered build s limit number = .ok value ↔
      ∃ blanks sign digits, IsNumeral s blanks sign digits ∧
        toUnsignedChar build.longBits sign.negative (digitsValue 10 0 digits) ≤ limit ∧
        value = BitVec.ofNat 8 (number (toUnsignedChar build.longBits sign.negative
          (digitsValue 10 0 digits))) := by
  have scan : ∀ n : Int, sscanf [.hhu build.longBits, .anyChar] s = [.int n] ↔
      ∃ negative magnitude, scanNumber 10 s = some (negative, magnitude, []) ∧
        n = toUnsignedChar build.longBits negative magnitude := by
    intro n
    cases read : scanNumber 10 s with
    | none => simp [sscanf, convert, read]
    | some result =>
        obtain ⟨negative, magnitude, rest⟩ := result
        cases rest with
        | nil =>
            simp only [sscanf, convert, read, Option.map_some, List.append_nil, List.cons.injEq,
              Value.int.injEq, and_true, Option.some.injEq, Prod.mk.injEq]
            constructor
            · rintro rfl
              exact ⟨negative, magnitude, ⟨rfl, rfl⟩, rfl⟩
            · rintro ⟨_, _, ⟨rfl, rfl⟩, rfl⟩
              rfl
        | cons c rest => simp [sscanf, convert, read]
  unfold parseNumbered
  constructor
  · intro parsed
    split at parsed
    · rename_i n scanned
      obtain ⟨negative, magnitude, read, rfl⟩ := (scan n).mp scanned
      obtain ⟨blanks, sign, digits, numeral, rfl, rfl⟩ := scanNumber_ten_iff.mp read
      split at parsed
      · cases parsed
      · rename_i small
        refine ⟨blanks, sign, digits, numeral, by omega, ?_⟩
        exact (Except.ok.inj parsed).symm
    · cases parsed
  · rintro ⟨blanks, sign, digits, numeral, small, rfl⟩
    have read := scanNumber_ten_iff.mpr ⟨blanks, sign, digits, numeral, rfl, rfl⟩
    rw [(scan _).mpr ⟨_, _, read, rfl⟩]
    simp only
    rw [if_neg (by omega)]
    rfl

theorem digitsValue_lt {digits : CString} (decimal : ∀ c ∈ digits, isDigitOf 10 c = true)
    (initial : Nat) : digitsValue 10 initial digits < (initial + 1) * 10 ^ digits.length := by
  induction digits generalizing initial with
  | nil => simp [digitsValue]
  | cons c digits ih =>
      have digit : (digitValue c).getD 0 < 10 := by
        have small := decimal c (List.mem_cons_self ..)
        unfold isDigitOf at small
        cases value : digitValue c with
        | none => simp
        | some d => simpa [value] using small
      have rest := ih (fun d member => decimal d (List.mem_cons_of_mem c member))
        (10 * initial + (digitValue c).getD 0)
      have room : 10 * initial + (digitValue c).getD 0 + 1 ≤ (initial + 1) * 10 := by omega
      calc digitsValue 10 initial (c :: digits)
          = digitsValue 10 (10 * initial + (digitValue c).getD 0) digits := rfl
        _ < (10 * initial + (digitValue c).getD 0 + 1) * 10 ^ digits.length := rest
        _ ≤ (initial + 1) * 10 * 10 ^ digits.length := Nat.mul_le_mul_right _ room
        _ = (initial + 1) * 10 ^ (c :: digits).length := by
          rw [List.length_cons, pow_succ, Nat.mul_assoc, Nat.mul_comm 10]

/-- What `%hhu` makes of at most three characters: only a minus zero is small. -/
theorem toUnsignedChar_short (build : Build) {sign : Sign} {digits : CString} {limit : Nat}
    (decimal : ∀ c ∈ digits, isDigitOf 10 c = true)
    (short : (sign.text ++ digits).length ≤ 3) (small : limit ≤ 31) :
    toUnsignedChar build.longBits sign.negative (digitsValue 10 0 digits) ≤ limit ↔
      if sign = .minus then digitsValue 10 0 digits = 0
      else digitsValue 10 0 digits % 256 ≤ limit := by
  have bound := digitsValue_lt decimal 0
  rw [List.length_append] at short
  have powers : ∀ n ≤ 3, 10 ^ n ≤ 1000 := fun n le => Nat.pow_le_pow_right (by decide) le
  have three := powers digits.length (by omega)
  generalize digitsValue 10 0 digits = m at bound ⊢
  have fits : ¬ 2 ^ build.longBits ≤ m := by cases build <;> simp only [Build.longBits] <;> omega
  rw [toUnsignedChar, if_neg fits]
  cases sign with
  | none => simp [Sign.negative]
  | plus => simp [Sign.negative]
  | minus =>
      have two : 10 ^ digits.length ≤ 100 :=
        Nat.pow_le_pow_right (by decide) (show digits.length ≤ 2 by
          simp only [Sign.text, List.length_singleton] at short
          omega)
      simp only [Sign.negative, if_true]
      cases build <;> simp only [Build.longBits] <;> omega

/-! ### Accepted words -/

def numberLimit : Char → Option Nat
  | 'x' => some 31
  | 'a' => some 7
  | 's' => some 11
  | 't' => some 6
  | _ => none

theorem numberLimit_le {letter : Char} {limit : Nat} (known : numberLimit letter = some limit) :
    limit ≤ 31 := by
  unfold numberLimit at known
  split at known <;> cases known <;> decide

/-- A letter of the numbered names with a numeral in a spelling that no name has. -/
def IsLooseNumeral (token : CString) : Prop :=
  token.length < registerLen ∧ (∀ name : RegName, token ≠ name.text) ∧
    ∃ letter limit s blanks sign digits, token = letter :: s ∧ numberLimit letter = some limit ∧
      IsNumeral s blanks sign digits ∧
      if sign = .minus then digitsValue 10 0 digits = 0 else digitsValue 10 0 digits % 256 ≤ limit

theorem registerToken_name (name : RegName) : registerToken name.text = name.text := by
  have plain := name.isPlainField
  rw [registerToken, skipBlanks_of_stops plain.front, List.takeWhile_eq_self_iff]
  intro c member
  have noEnd := plain.noEnd c member
  rw [decide_eq_true_eq]
  intro stop
  apply noEnd
  simp only [List.mem_cons, List.not_mem_nil, or_false] at stop ⊢
  tauto

theorem parseRegister_of_name {build : Build} {reg : CString} {name : RegName}
    (token : registerToken reg = name.text) :
    parseRegister build reg = .ok (regByte name.number) := by
  rw [parseRegister_congr build (token.trans (registerToken_name name).symm)]
  exact (name.names build).parsed

theorem parseRegister_numbered (build : Build) {reg s : CString} {letter : Char} {limit : Nat}
    (token : registerToken reg = letter :: s) (short : (letter :: s).length < registerLen)
    (known : numberLimit letter = some limit) (notP : ∀ rest, s ≠ 'p' :: rest) :
    ∃ number, parseRegister build reg = parseNumbered build s limit number := by
  have fits : ¬ ((letter :: s).length = 0 ∨ (letter :: s).length ≥ registerLen) := by
    rw [List.length_cons] at short ⊢
    omega
  unfold parseRegister
  simp only [token, if_neg fits]
  unfold numberLimit at known
  split at known
  · exact ⟨_, by cases known; rfl⟩
  · exact ⟨_, by cases known; rfl⟩
  · cases known
    have other : ∀ (c : Char) (t : CString), c ≠ 's' → 's' :: s ≠ c :: t :=
      fun c t differs same => differs (List.cons.inj same).1.symm
    split
    case h_3 heq => exact absurd (List.cons.inj heq).2 (notP _)
    case h_4 heq =>
      obtain ⟨-, rfl⟩ := List.cons.inj heq
      exact ⟨_, rfl⟩
    case h_10 _ _ _ notS _ _ _ _ _ => exact absurd rfl (notS s)
    all_goals
      rename_i heq
      exact absurd heq (other _ _ (by decide))
  · cases known
    have other : ∀ (c : Char) (t : CString), c ≠ 't' → 't' :: s ≠ c :: t :=
      fun c t differs same => differs (List.cons.inj same).1.symm
    split
    case h_5 heq => exact absurd (List.cons.inj heq).2 (notP _)
    case h_6 heq =>
      obtain ⟨-, rfl⟩ := List.cons.inj heq
      exact ⟨_, rfl⟩
    case h_10 _ _ _ _ _ notT _ _ _ => exact absurd rfl (notT s)
    all_goals
      rename_i heq
      exact absurd heq (other _ _ (by decide))
  · cases known

theorem parseRegister_of_loose {build : Build} {reg : CString}
    (loose : IsLooseNumeral (registerToken reg)) :
    ∃ value, parseRegister build reg = .ok value := by
  obtain ⟨short, -, letter, limit, s, blanks, sign, digits, token, known, numeral, small⟩ := loose
  have notP : ∀ rest, s ≠ 'p' :: rest := by
    rintro rest rfl
    have read := scanNumber_ten_iff.mpr ⟨blanks, sign, digits, numeral, rfl, rfl⟩
    cases read
  rw [token] at short
  obtain ⟨number, parsed⟩ := parseRegister_numbered build token short known notP
  have three : (sign.text ++ digits).length ≤ 3 := by
    have length := congrArg List.length numeral.split
    rw [List.length_append] at length
    rw [List.length_cons, registerLen] at short
    omega
  have small' := (toUnsignedChar_short build numeral.decimal three (numberLimit_le known)).mpr small
  rw [parsed]
  exact ⟨_, parseNumbered_ok_iff.mpr ⟨blanks, sign, digits, numeral, small', rfl⟩⟩

/-- An accepted word is a name or a loose numeral. -/
theorem name_or_loose_of_ok {build : Build} {reg : CString} {value : BitVec 8}
    (accepted : parseRegister build reg = .ok value) :
    (∃ name : RegName, registerToken reg = name.text) ∨ IsLooseNumeral (registerToken reg) := by
  have short := (parseRegister_ok accepted).2.1
  unfold parseRegister at accepted
  generalize registerToken reg = token at accepted short ⊢
  have named : ∀ (name : RegName) (number : BitVec 8), parseNamed token name.text number =
      .ok value → (∃ name : RegName, token = name.text) ∨ IsLooseNumeral token :=
    fun name number parsed => Or.inl ⟨name, (parseNamed_ok parsed).1⟩
  have numbered : ∀ (letter : Char) (s : CString) (limit : Nat) (number : Nat → Nat),
      token = letter :: s → numberLimit letter = some limit →
      parseNumbered build s limit number = .ok value →
      (∃ name : RegName, token = name.text) ∨ IsLooseNumeral token := by
    intro letter s limit number same known parsed
    obtain ⟨blanks, sign, digits, numeral, small, -⟩ := parseNumbered_ok_iff.mp parsed
    by_cases isName : ∃ name : RegName, token = name.text
    · exact Or.inl isName
    · have three : (sign.text ++ digits).length ≤ 3 := by
        have length := congrArg List.length numeral.split
        rw [List.length_append] at length
        rw [same, List.length_cons, registerLen] at short
        omega
      have small' :=
        (toUnsignedChar_short build numeral.decimal three (numberLimit_le known)).mp small
      exact Or.inr ⟨short, fun name same' => isName ⟨name, same'⟩, letter, limit, s, blanks, sign,
        digits, same, known, numeral, small'⟩
  simp only at accepted
  split at accepted
  · cases accepted
  · split at accepted
    · exact numbered 'x' _ 31 _ rfl rfl accepted
    · exact numbered 'a' _ 7 _ rfl rfl accepted
    · exact named .sp _ accepted
    · exact numbered 's' _ 11 _ rfl rfl accepted
    · exact named .tp _ accepted
    · exact numbered 't' _ 6 _ rfl rfl accepted
    · exact named .ra _ accepted
    · exact named .gp _ accepted
    · exact named .zero _ accepted
    · cases accepted

theorem parseRegister_error {build : Build} {reg : CString} {e : Failure}
    (rejected : parseRegister build reg = .error e) : e = .invalidRegister := by
  have numbered : ∀ (s : CString) (limit : Nat) (number : Nat → Nat),
      parseNumbered build s limit number = .error e → e = .invalidRegister := by
    intro s limit number failed
    unfold parseNumbered at failed
    split at failed
    · split at failed
      · exact (Except.error.inj failed).symm
      · cases failed
    · exact (Except.error.inj failed).symm
  have named : ∀ (text name : CString) (number : BitVec 8),
      parseNamed text name number = .error e → e = .invalidRegister := by
    intro text name number failed
    unfold parseNamed at failed
    split at failed
    · cases failed
    · exact (Except.error.inj failed).symm
  unfold parseRegister at rejected
  simp only at rejected
  split at rejected
  · exact (Except.error.inj rejected).symm
  · split at rejected
    · exact numbered _ _ _ rejected
    · exact numbered _ _ _ rejected
    · exact named _ _ _ rejected
    · exact numbered _ _ _ rejected
    · exact named _ _ _ rejected
    · exact numbered _ _ _ rejected
    · exact named _ _ _ rejected
    · exact named _ _ _ rejected
    · exact named _ _ _ rejected
    · exact (Except.error.inj rejected).symm

def afterToken (reg : CString) : CString :=
  (skipBlanks reg).dropWhile (fun c => c ∉ [' ', '\t', '\r', '\n'])

theorem RegName.noBlank (name : RegName) : ∀ c ∈ name.text, isspace c = false := by
  obtain ⟨-, -, -, -, plain⟩ := name.good
  intro c member
  have inside := List.all_eq_true.mp plain c member
  simp only [Bool.and_eq_true, Bool.not_eq_true'] at inside
  exact inside.1

theorem skipBlanks_name {before : CString} (blank : ∀ c ∈ before, isspace c = true)
    (name : RegName) (rest : CString) :
    skipBlanks (before ++ (name.text ++ rest)) = name.text ++ rest := by
  apply dropWhile_append_stops blank
  obtain ⟨c, tail, text⟩ := List.exists_cons_of_ne_nil name.isPlainField.nonempty
  have front := name.noBlank c (by simp [text])
  simpa [text] using front

/-- A spelled name is the front of the word, and all the rest is blank. -/
theorem spells_iff {reg : CString} {name : RegName} :
    Spells reg name ↔ ∃ w, registerToken reg = name.text ++ w ∧ (∀ c ∈ w, isspace c = true) ∧
      ∀ c ∈ afterToken reg, isspace c = true := by
  have plain : ∀ c ∈ name.text, decide (c ∉ [' ', '\t', '\r', '\n']) = true := by
    intro c member
    rw [decide_eq_true_eq]
    intro stop
    apply name.isPlainField.noEnd c member
    simp only [List.mem_cons, List.not_mem_nil, or_false] at stop ⊢
    tauto
  constructor
  · rintro ⟨before, after, rfl, blank, blank'⟩
    have skipped := skipBlanks_name blank name after
    refine ⟨after.takeWhile (fun c => c ∉ [' ', '\t', '\r', '\n']), ?_, ?_, ?_⟩
    · rw [registerToken, skipped, List.takeWhile_append_of_pos plain]
    · exact fun c member => blank' c ((List.takeWhile_prefix _).subset member)
    · rw [afterToken, skipped, List.dropWhile_append_of_pos plain]
      exact fun c member => blank' c ((List.dropWhile_suffix _).subset member)
  · rintro ⟨w, token, blank, blank'⟩
    refine ⟨reg.takeWhile isspace, w ++ afterToken reg, ?_, ?_, ?_⟩
    · rw [← List.append_assoc name.text, ← token, registerToken, afterToken,
        List.takeWhile_append_dropWhile]
      exact List.takeWhile_append_dropWhile.symm
    · exact fun c member => List.mem_takeWhile_imp member
    · intro c member
      exact (List.mem_append.mp member).elim (blank c) (blank' c)

theorem IsNumeral.getLast_noBlank {s blanks digits : CString} {sign : Sign}
    (numeral : IsNumeral s blanks sign digits) {d : Char} (last : s.getLast? = some d) :
    isspace d = false := by
  have lastDigit : digits.getLast? = some d := by
    rw [numeral.split, ← List.append_assoc, List.getLast?_append] at last
    obtain ⟨e, found⟩ := Option.isSome_iff_exists.mp
      (List.getLast?_isSome.mpr numeral.nonempty)
    rw [found] at last ⊢
    exact last
  exact (isDigitOf_front (by decide) (numeral.decimal d (List.mem_of_getLast? lastDigit))).1

/-- An accepted word does not end in a blank. -/
theorem getLast_noBlank {token : CString}
    (known : (∃ name : RegName, token = name.text) ∨ IsLooseNumeral token) {d : Char}
    (last : token.getLast? = some d) : isspace d = false := by
  rcases known with ⟨other, same⟩ |
    ⟨-, -, letter, limit, s, blanks, sign, digits, same, -, numeral, -⟩
  · exact other.noBlank d (same ▸ List.mem_of_getLast? last)
  · have nonempty : s ≠ [] := by
      rw [numeral.split]
      simp [numeral.nonempty]
    obtain ⟨c, rest, rfl⟩ := List.exists_cons_of_ne_nil nonempty
    rw [same, List.getLast?_cons_cons] at last
    exact numeral.getLast_noBlank last

theorem no_blank_end {token w : CString} {name : RegName}
    (known : (∃ name : RegName, token = name.text) ∨ IsLooseNumeral token)
    (split : token = name.text ++ w) (blank : ∀ c ∈ w, isspace c = true) : w = [] := by
  by_contra more
  have some := List.getLast?_eq_some_getLast more
  have last : token.getLast? = Option.some (w.getLast more) := by
    rw [split, List.getLast?_append, some]
    rfl
  have notBlank := getLast_noBlank known last
  rw [blank _ (List.getLast_mem more)] at notBlank
  cases notBlank

inductive Misread (reg : CString) : Prop where
  /-- More text after a name. -/
  | trailing (name : RegName) (token : registerToken reg = name.text)
      (more : ∃ c ∈ afterToken reg, isspace c = false)
  /-- A numeral that no name has. -/
  | loose (numeral : IsLooseNumeral (registerToken reg))
  /-- A vertical tab or a form feed directly after a name. -/
  | vertical (name : RegName) (w : CString) (token : registerToken reg = name.text ++ w)
      (nonempty : w ≠ []) (blank : ∀ c ∈ w, isspace c = true)
      (rest : ∀ c ∈ afterToken reg, isspace c = true)

section Condition

variable {build : Build} {reg : CString}

theorem parseRegisterOut_ok_iff {outValue value : BitVec 8} :
    parseRegisterOut build reg outValue = (.ok, value) ↔ parseRegister build reg = .ok value := by
  cases result : parseRegister build reg with
  | error e => simp [parseRegisterOut, result]
  | ok read => simp [parseRegisterOut, result]

theorem Misread.not_faithful (misread : Misread reg) : ¬ RegisterFaithful build reg := by
  intro faithful
  cases misread with
  | trailing name token more =>
      obtain ⟨c, member, notBlank⟩ := more
      have parsed : parseRegister build reg = .ok (regByte name.number) :=
        parseRegister_of_name token
      obtain ⟨other, spelled, -⟩ :=
        (faithful.accepted 0 _).mp (parseRegisterOut_ok_iff.mpr parsed)
      obtain ⟨w, -, -, rest⟩ := spells_iff.mp spelled
      rw [rest c member] at notBlank
      cases notBlank
  | loose numeral =>
      have read : ∃ value, parseRegister build reg = .ok value := parseRegister_of_loose numeral
      obtain ⟨value, parsed⟩ := read
      obtain ⟨name, spelled, -⟩ :=
        (faithful.accepted 0 _).mp (parseRegisterOut_ok_iff.mpr parsed)
      obtain ⟨w, token, blank, -⟩ := spells_iff.mp spelled
      obtain rfl := no_blank_end (Or.inr numeral) token blank
      rw [List.append_nil] at token
      exact numeral.2.1 name token
  | vertical name w token nonempty blank rest =>
      have spelled : Spells reg name := spells_iff.mpr ⟨w, token, blank, rest⟩
      have parsed := parseRegisterOut_ok_iff.mp
        ((faithful.accepted 0 _).mpr ⟨name, spelled, rfl⟩)
      exact nonempty (no_blank_end (name_or_loose_of_ok parsed) token blank)

theorem registerToken_of_spells (right : ¬ Misread reg) {name : RegName}
    (spelled : Spells reg name) : registerToken reg = name.text := by
  obtain ⟨w, token, blank, rest⟩ := spells_iff.mp spelled
  by_cases empty : w = []
  · rw [token, empty, List.append_nil]
  · exact absurd (.vertical name w token empty blank rest) right

theorem parseRegister_ok_iff_spells (right : ¬ Misread reg) {value : BitVec 8} :
    parseRegister build reg = .ok value ↔
      ∃ name, Spells reg name ∧ value = regByte name.number := by
  constructor
  · intro parsed
    rcases name_or_loose_of_ok parsed with ⟨name, token⟩ | loose
    · refine ⟨name, spells_iff.mpr ⟨[], by rw [token, List.append_nil], by simp, ?_⟩, ?_⟩
      · intro c member
        by_contra notBlank
        exact right (.trailing name token ⟨c, member, by simpa using notBlank⟩)
      · rw [parseRegister_of_name token] at parsed
        exact (Except.ok.inj parsed).symm
    · exact absurd (.loose loose) right
  · rintro ⟨name, spelled, rfl⟩
    exact parseRegister_of_name (registerToken_of_spells right spelled)

end Condition

theorem registerFaithful_iff (build : Build) (reg : CString) :
    RegisterFaithful build reg ↔ ¬ Misread reg := by
  constructor
  · intro faithful misread
    exact misread.not_faithful faithful
  · intro right
    constructor
    · intro outValue n
      exact parseRegisterOut_ok_iff.trans (parseRegister_ok_iff_spells right)
    · intro outValue none
      cases result : parseRegister build reg with
      | ok value =>
          obtain ⟨name, spelled, -⟩ := (parseRegister_ok_iff_spells right).mp result
          exact absurd spelled (none name)
      | error e =>
          obtain rfl := parseRegister_error result
          rw [parseRegisterOut, result]

/-- `x256` is read as `x0`. -/
theorem x256_not_faithful :
    parseRegister .native "x256".toList = .ok 0 ∧
      ¬ RegisterFaithful .native "x256".toList := by
  refine ⟨by decide, ?_⟩
  intro faithful
  have parsed : parseRegisterOut .native "x256".toList 0 = (.ok, 0) := by decide
  obtain ⟨name, spelled, -⟩ := (faithful.accepted 0 0).mp parsed
  obtain ⟨w, token, blank, -⟩ := spells_iff.mp spelled
  have whole : registerToken "x256".toList = "x256".toList := by decide
  have unspelled : ∀ name : RegName, ¬ (name.text <+: "x256".toList ∧
      ("x256".toList.drop name.text.length).all isspace = true) := by
    intro name
    cases name with
    | x n => revert n; decide
    | zero | ra | sp | gp | tp => decide
    | t n => revert n; decide
    | s n => revert n; decide
    | a n => revert n; decide
  rw [whole] at token
  refine unspelled name ⟨⟨w, token.symm⟩, ?_⟩
  rw [token, List.drop_left]
  exact List.all_eq_true.mpr blank

end RiscvAs
