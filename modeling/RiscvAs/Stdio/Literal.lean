/-
Integer literals and decimal printing.

`Literal` is the spelling of an integer that `%li` reads whole: a sign, then a
decimal number without leading zero, a `0x` number or an octal number.  What
`printf("%d")` prints is such a literal, so it is read back as it was printed.
-/

import RiscvAs.Stdio.Scanf

namespace Stdio

inductive Sign where
  | none | plus | minus
  deriving DecidableEq, Repr

def Sign.text : Sign → CString
  | .none => []
  | .plus => ['+']
  | .minus => ['-']

def Sign.negative : Sign → Bool
  | .minus => true
  | _ => false

inductive Magnitude where
  | decimal (first : Char) (digits : List Char) (nonzero : first ≠ '0')
      (decimalDigits : ∀ c ∈ first :: digits, isDigitOf 10 c = true)
  | hex (x : Char) (digits : List Char) (marker : x = 'x' ∨ x = 'X') (nonempty : digits ≠ [])
      (hexDigits : ∀ c ∈ digits, isDigitOf 16 c = true)
  | octal (digits : List Char) (octalDigits : ∀ c ∈ digits, isDigitOf 8 c = true)

def Magnitude.text : Magnitude → CString
  | .decimal first digits _ _ => first :: digits
  | .hex x digits _ _ _ => '0' :: x :: digits
  | .octal digits _ => '0' :: digits

def Magnitude.value : Magnitude → Nat
  | .decimal first digits _ _ => digitsValue 10 0 (first :: digits)
  | .hex _ digits _ _ _ => digitsValue 16 0 digits
  | .octal digits _ => digitsValue 8 0 digits

structure Literal where
  sign : Sign
  magnitude : Magnitude

def Literal.text (literal : Literal) : CString :=
  literal.sign.text ++ literal.magnitude.text

def Literal.value (literal : Literal) : Int :=
  signedValue literal.sign.negative literal.magnitude.value

def EndsLiteral (s : CString) : Prop :=
  Stops (fun c => isDigitOf 16 c || c == 'x' || c == 'X') s

@[simp] theorem endsLiteral_nil : EndsLiteral [] := stops_nil _

@[simp] theorem endsLiteral_cons (c : Char) (s : CString) :
    EndsLiteral (c :: s) ↔ isDigitOf 16 c = false ∧ c ≠ 'x' ∧ c ≠ 'X' := by
  simp [EndsLiteral, and_assoc]

theorem isDigitOf_mono {base base' : Nat} (le : base ≤ base') {c : Char}
    (digit : isDigitOf base c = true) : isDigitOf base' c = true := by
  unfold isDigitOf at digit ⊢
  cases value : digitValue c with
  | none => simp [value] at digit
  | some d =>
      simp only [value, decide_eq_true_eq] at digit ⊢
      omega

theorem stops_of_endsLiteral {base : Nat} (le : base ≤ 16) {s : CString}
    (ends : EndsLiteral s) : Stops (isDigitOf base) s := by
  cases s with
  | nil => exact stops_nil _
  | cons c s =>
      rw [stops_cons]
      by_contra digit
      have hexDigit := isDigitOf_mono le (by simpa using digit : isDigitOf base c = true)
      rw [((endsLiteral_cons c s).mp ends).1] at hexDigit
      cases hexDigit

theorem scanDigits_append {base : Nat} (le : base ≤ 16) {digits rest : CString}
    (all : ∀ c ∈ digits, isDigitOf base c = true) (ends : EndsLiteral rest) :
    scanDigits base (digits ++ rest) = (digitsValue base 0 digits, rest) := by
  have stops := stops_of_endsLiteral le ends
  simp only [scanDigits, takeWhile_append_stops all stops, dropWhile_append_stops all stops]

theorem scanMagnitude_text (magnitude : Magnitude) (rest : CString) (ends : EndsLiteral rest) :
    scanMagnitude 0 (magnitude.text ++ rest) = some (magnitude.value, rest) := by
  cases magnitude with
  | decimal first digits nonzero decimalDigits =>
      have firstDigit := decimalDigits first (by simp)
      have scanned := scanDigits_append (by decide) decimalDigits ends
      simp only [List.cons_append] at scanned
      simp [Magnitude.text, Magnitude.value, scanMagnitude, firstDigit, scanned]
  | hex x digits marker nonempty hexDigits =>
      simp [Magnitude.text, Magnitude.value, scanMagnitude, marker,
        scanDigits_append (le_refl 16) hexDigits ends]
  | octal digits octalDigits =>
      have scanned := scanDigits_append (by decide) octalDigits ends
      cases digits with
      | nil =>
          cases rest with
          | nil => simp [Magnitude.text, Magnitude.value, scanMagnitude, digitsValue]
          | cons c rest =>
              have notMarker := ((endsLiteral_cons c rest).mp ends).2
              simpa [Magnitude.text, Magnitude.value, scanMagnitude, notMarker] using scanned
      | cons c digits =>
          have digit := octalDigits c (by simp)
          have notMarker : ¬ (c = 'x' ∨ c = 'X') := by
            rintro (rfl | rfl) <;> exact absurd digit (by decide)
          simpa [Magnitude.text, Magnitude.value, scanMagnitude, notMarker] using scanned

theorem isDigitOf_front {base : Nat} (le : base ≤ 16) {c : Char} (digit : isDigitOf base c = true) :
    isspace c = false ∧ c ≠ '-' ∧ c ≠ '+' := by
  have hexDigit := isDigitOf_mono le digit
  refine ⟨?_, ?_, ?_⟩
  · by_contra blank
    have code : c.toNat = 32 ∨ (9 ≤ c.toNat ∧ c.toNat ≤ 13) := by
      simp only [isspace, Bool.not_eq_false, Bool.or_eq_true, beq_iff_eq, Bool.and_eq_true,
        decide_eq_true_eq] at blank
      rcases blank with rfl | range
      · exact Or.inl rfl
      · exact Or.inr range
    have outside : digitValue c = none := by
      simp only [digitValue, Char.le_def, UInt32.le_iff_toNat_le]
      change (if 48 ≤ c.toNat ∧ c.toNat ≤ 57 then _ else
        if 97 ≤ c.toNat ∧ c.toNat ≤ 102 then _ else
        if 65 ≤ c.toNat ∧ c.toNat ≤ 70 then _ else _) = none
      rw [if_neg (by omega), if_neg (by omega), if_neg (by omega)]
    simp [isDigitOf, outside] at hexDigit
  · rintro rfl
    exact absurd hexDigit (by decide)
  · rintro rfl
    exact absurd hexDigit (by decide)

theorem Magnitude.text_front (magnitude : Magnitude) :
    ∃ c s, magnitude.text = c :: s ∧ isDigitOf 10 c = true := by
  cases magnitude with
  | decimal first digits nonzero decimalDigits =>
      exact ⟨first, digits, rfl, decimalDigits first (by simp)⟩
  | hex x digits marker nonempty hexDigits => exact ⟨'0', x :: digits, rfl, by decide⟩
  | octal digits octalDigits => exact ⟨'0', digits, rfl, by decide⟩

theorem scanSign_text (literal : Literal) (rest : CString) :
    scanSign (literal.text ++ rest) =
      (literal.sign.negative, literal.magnitude.text ++ rest) := by
  obtain ⟨c, s, front, digit⟩ := literal.magnitude.text_front
  obtain ⟨-, notMinus, notPlus⟩ := isDigitOf_front (by decide) digit
  rcases literal with ⟨sign, magnitude⟩
  simp only at front
  cases sign <;> simp [Literal.text, Sign.text, Sign.negative, scanSign, front, notMinus, notPlus]

theorem Literal.text_front (literal : Literal) :
    ∃ c s, literal.text = c :: s ∧ isspace c = false := by
  obtain ⟨c, s, front, digit⟩ := literal.magnitude.text_front
  have notBlank := (isDigitOf_front (by decide) digit).1
  rcases literal with ⟨sign, magnitude⟩
  simp only at front
  cases sign with
  | none => exact ⟨c, s, by simp [Literal.text, Sign.text, front], notBlank⟩
  | plus => exact ⟨'+', magnitude.text, rfl, by decide⟩
  | minus => exact ⟨'-', magnitude.text, rfl, by decide⟩

theorem Literal.stops_blank (literal : Literal) (rest : CString) :
    Stops isspace (literal.text ++ rest) := by
  obtain ⟨c, s, front, notBlank⟩ := literal.text_front
  simp [front, notBlank]

/-- The characters of a literal: its sign, the marker of a base, and digits. -/
theorem Literal.text_chars (literal : Literal) {c : Char} (member : c ∈ literal.text) :
    c = '+' ∨ c = '-' ∨ c = 'x' ∨ c = 'X' ∨ isDigitOf 16 c = true := by
  rcases literal with ⟨sign, magnitude⟩
  rcases List.mem_append.mp member with inSign | inMagnitude
  · cases sign with
    | none => cases inSign
    | plus => exact Or.inl (List.mem_singleton.mp inSign)
    | minus => exact Or.inr (Or.inl (List.mem_singleton.mp inSign))
  · cases magnitude with
    | decimal first digits nonzero decimalDigits =>
        have digit := isDigitOf_mono (by decide : 10 ≤ 16) (decimalDigits c inMagnitude)
        simp [digit]
    | hex x digits marker nonempty hexDigits =>
        simp only [Magnitude.text, List.mem_cons] at inMagnitude
        rcases inMagnitude with rfl | rfl | digit
        · decide
        · rcases marker with rfl | rfl <;> simp
        · simp [hexDigits c digit]
    | octal digits octalDigits =>
        simp only [Magnitude.text, List.mem_cons] at inMagnitude
        rcases inMagnitude with rfl | digit
        · decide
        · have digit16 := isDigitOf_mono (by decide : 8 ≤ 16) (octalDigits c digit)
          simp [digit16]

theorem Literal.comma_not_mem (literal : Literal) : ',' ∉ literal.text := by
  intro member
  have chars := literal.text_chars member
  revert chars
  decide

theorem scanNumber_literal (literal : Literal) (rest : CString) (ends : EndsLiteral rest) :
    scanNumber 0 (literal.text ++ rest) =
      some (literal.sign.negative, literal.magnitude.value, rest) := by
  simp only [scanNumber, skipBlanks_of_stops (literal.stops_blank rest), scanSign_text,
    scanMagnitude_text _ _ ends, Option.map_some]

/-- `%li` reads a literal whole and stores its saturated value. -/
theorem convert_int_literal (bits : Nat) (literal : Literal) (rest : CString)
    (ends : EndsLiteral rest) :
    convert (.int bits) (literal.text ++ rest) =
      some ([.int (saturate bits literal.value)], rest) := by
  simp only [convert, scanNumber_literal literal rest ends, Option.map_some, Literal.value]

theorem sscanf_int_literal (format : List Directive) (bits : Nat) (literal : Literal)
    (rest : CString) (ends : EndsLiteral rest) :
    sscanf (.int bits :: format) (literal.text ++ rest) =
      .int (saturate bits literal.value) :: sscanf format rest :=
  sscanf_convert (convert_int_literal bits literal rest ends) format

theorem saturate_of_range {bits : Nat} {value : Int} (low : -(2 ^ (bits - 1) : Int) ≤ value)
    (high : value ≤ 2 ^ (bits - 1) - 1) : saturate bits value = value := by
  simp only [saturate, min_eq_right high, max_eq_right low]

/-- Saturation neither moves a value into an interval inside the type nor out
of it. -/
theorem saturate_range_iff {bits : Nat} {value low high : Int}
    (hlow : -(2 ^ (bits - 1) : Int) < low) (hhigh : high < 2 ^ (bits - 1) - 1) :
    (low ≤ saturate bits value ∧ saturate bits value ≤ high) ↔ (low ≤ value ∧ value ≤ high) := by
  simp only [saturate]
  omega

/-! ### Printing -/

/-- `%d` -/
def printInt (value : Int) : CString :=
  if value < 0 then '-' :: Nat.toDigits 10 value.natAbs else Nat.toDigits 10 value.natAbs

theorem digitValue_digitChar {d : Nat} (lt : d < 10) : digitValue (Nat.digitChar d) = some d := by
  interval_cases d <;> decide

theorem digitsValue_toDigits (n : Nat) : digitsValue 10 0 (Nat.toDigits 10 n) = n := by
  induction n using Nat.strong_induction_on with
  | _ n ih =>
      by_cases small : n < 10
      · simp [Nat.toDigits_of_lt_base small, digitsValue, digitValue_digitChar small]
      · have smaller := ih (n / 10) (by omega)
        rw [Nat.toDigits_of_base_le (by decide) (by omega)]
        simp only [digitsValue] at smaller
        simp only [digitsValue, List.foldl_append, List.foldl_cons, List.foldl_nil, smaller,
          digitValue_digitChar (Nat.mod_lt n (by decide)), Option.getD_some]
        omega

theorem isDigitOf_toDigits {n : Nat} {c : Char} (member : c ∈ Nat.toDigits 10 n) :
    isDigitOf 10 c = true := by
  induction n using Nat.strong_induction_on with
  | _ n ih =>
      by_cases small : n < 10
      · rw [Nat.toDigits_of_lt_base small, List.mem_singleton] at member
        simp [member, isDigitOf, digitValue_digitChar small, small]
      · rw [Nat.toDigits_of_base_le (by decide) (by omega), List.mem_append,
          List.mem_singleton] at member
        rcases member with earlier | last
        · exact ih (n / 10) (by omega) earlier
        · have digit := Nat.mod_lt n (by decide : 0 < 10)
          simp [last, isDigitOf, digitValue_digitChar digit, digit]

theorem toDigits_front {n : Nat} (positive : 0 < n) :
    ∃ first digits, Nat.toDigits 10 n = first :: digits ∧ first ≠ '0' := by
  induction n using Nat.strong_induction_on with
  | _ n ih =>
      by_cases small : n < 10
      · refine ⟨Nat.digitChar n, [], Nat.toDigits_of_lt_base small, ?_⟩
        interval_cases n <;> decide
      · obtain ⟨first, digits, front, nonzero⟩ := ih (n / 10) (by omega) (by omega)
        refine ⟨first, digits ++ [Nat.digitChar (n % 10)], ?_, nonzero⟩
        rw [Nat.toDigits_of_base_le (by decide) (by omega), front]
        rfl

theorem exists_magnitude (n : Nat) :
    ∃ magnitude : Magnitude, magnitude.text = Nat.toDigits 10 n ∧ magnitude.value = n := by
  rcases Nat.eq_zero_or_pos n with rfl | positive
  · exact ⟨.octal [] (by simp), by simp [Magnitude.text], rfl⟩
  · obtain ⟨first, digits, front, nonzero⟩ := toDigits_front positive
    refine ⟨.decimal first digits nonzero ?_, front.symm, ?_⟩
    · intro c member
      exact isDigitOf_toDigits (n := n) (by rw [front]; exact member)
    · simp only [Magnitude.value, ← front, digitsValue_toDigits]

theorem exists_literal_printInt (value : Int) :
    ∃ literal : Literal, literal.text = printInt value ∧ literal.value = value := by
  obtain ⟨magnitude, spelled, magnitudeValue⟩ := exists_magnitude value.natAbs
  by_cases negative : value < 0
  · refine ⟨⟨.minus, magnitude⟩, ?_, ?_⟩
    · simp [Literal.text, Sign.text, printInt, negative, spelled]
    · simp only [Literal.value, Sign.negative, signedValue, if_true, magnitudeValue]
      omega
  · refine ⟨⟨.none, magnitude⟩, ?_, ?_⟩
    · simp [Literal.text, Sign.text, printInt, negative, spelled]
    · simp only [Literal.value, Sign.negative, signedValue, Bool.false_eq_true, if_false,
        magnitudeValue]
      omega

theorem printInt_length_le {value : Int} (low : -(2 ^ 31 : Int) ≤ value)
    (high : value < 2 ^ 31) : (printInt value).length ≤ 11 := by
  have digits : (Nat.toDigits 10 value.natAbs).length ≤ 10 :=
    (Nat.length_toDigits_le_iff (by decide) (by decide)).mpr (by omega)
  unfold printInt
  split
  · simp only [List.length_cons]
    omega
  · omega

/-- A literal's digits, or `0x` with no digit after it. -/
theorem scanMagnitude_zero_inv {s rest : CString} {value : Nat}
    (read : scanMagnitude 0 s = some (value, rest)) :
    (∃ magnitude : Magnitude, s = magnitude.text ++ rest ∧ magnitude.value = value) ∨
      ∃ x, (x = 'x' ∨ x = 'X') ∧ s = '0' :: x :: rest ∧ value = 0 := by
  have digits : ∀ base (t : CString), scanDigits base t = (value, rest) →
      t = t.takeWhile (isDigitOf base) ++ rest ∧
        digitsValue base 0 (t.takeWhile (isDigitOf base)) = value := by
    intro base t scanned
    obtain ⟨valueEq, rfl⟩ := Prod.mk.inj scanned
    exact ⟨List.takeWhile_append_dropWhile.symm, valueEq⟩
  unfold scanMagnitude at read
  split at read
  · cases read
  · rename_i t
    rw [if_pos rfl] at read
    cases t with
    | nil =>
        obtain ⟨rfl, rfl⟩ := Prod.mk.inj (Option.some.inj read)
        exact Or.inl ⟨.octal [] (by simp), rfl, rfl⟩
    | cons x t =>
        simp only at read
        split at read
        · rename_i marker
          obtain ⟨split, valueEq⟩ := digits 16 t (Option.some.inj read)
          by_cases empty : t.takeWhile (isDigitOf 16) = []
          · rw [empty] at split valueEq
            exact Or.inr ⟨x, marker, by rw [← List.nil_append rest, ← split], valueEq.symm⟩
          · refine Or.inl ⟨.hex x (t.takeWhile (isDigitOf 16)) marker empty
              (fun c member => List.mem_takeWhile_imp member), ?_, valueEq⟩
            simpa [Magnitude.text] using split
        · obtain ⟨split, valueEq⟩ := digits 8 (x :: t) (Option.some.inj read)
          refine Or.inl ⟨.octal ((x :: t).takeWhile (isDigitOf 8))
            (fun c member => List.mem_takeWhile_imp member), ?_, valueEq⟩
          rw [Magnitude.text, List.cons_append, ← split]
  · rename_i c t notZero
    simp only [if_true] at read
    split at read
    · rename_i digit
      obtain ⟨split, valueEq⟩ := digits 10 (c :: t) (Option.some.inj read)
      rw [List.takeWhile_cons_of_pos digit] at split valueEq
      refine Or.inl ⟨.decimal c (t.takeWhile (isDigitOf 10)) ?_ ?_, split, valueEq⟩
      · rintro rfl
        exact notZero rfl
      · intro d member
        rcases List.mem_cons.mp member with rfl | inside
        · exact digit
        · exact List.mem_takeWhile_imp inside
    · cases read

theorem scanNumber_zero_inv {s rest : CString} {negative : Bool} {value : Nat}
    (read : scanNumber 0 s = some (negative, value, rest)) :
    (∃ literal : Literal, skipBlanks s = literal.text ++ rest ∧
        literal.value = signedValue negative value) ∨
      ∃ sign x, (x = 'x' ∨ x = 'X') ∧ skipBlanks s = Sign.text sign ++ '0' :: x :: rest ∧
        value = 0 := by
  obtain ⟨⟨magnitude, after⟩, scanned, same⟩ := Option.map_eq_some_iff.mp read
  simp only [Prod.mk.injEq] at same
  obtain ⟨rfl, rfl, rfl⟩ := same
  obtain ⟨sign, signed⟩ : ∃ sign, skipBlanks s = Sign.text sign ++ (scanSign (skipBlanks s)).2 ∧
      (scanSign (skipBlanks s)).1 = sign.negative := by
    generalize skipBlanks s = t
    unfold scanSign
    split
    · exact ⟨.minus, rfl, rfl⟩
    · exact ⟨.plus, rfl, rfl⟩
    · exact ⟨.none, rfl, rfl⟩
  rcases scanMagnitude_zero_inv scanned with ⟨digits, text, valueEq⟩ | ⟨x, marker, text, zero⟩
  · refine Or.inl ⟨⟨sign, digits⟩, ?_, ?_⟩
    · rw [Literal.text, List.append_assoc, ← text]
      exact signed.1
    · rw [Literal.value, valueEq, signed.2]
  · exact Or.inr ⟨sign, x, marker, by rw [← text]; exact signed.1, zero⟩

theorem Magnitude.getLast_text (magnitude : Magnitude) :
    ∃ c ∈ magnitude.text.getLast?, isDigitOf 16 c = true := by
  have lastOf : ∀ (base : Nat) (before run : CString), base ≤ 16 → run ≠ [] →
      (∀ c ∈ run, isDigitOf base c = true) →
      ∃ c ∈ (before ++ run).getLast?, isDigitOf 16 c = true := by
    intro base before run le nonempty all
    refine ⟨run.getLast nonempty, ?_, isDigitOf_mono le (all _ (List.getLast_mem nonempty))⟩
    rw [List.getLast?_append, List.getLast?_eq_some_getLast nonempty]
    rfl
  cases magnitude with
  | decimal first run nonzero decimalDigits =>
      exact lastOf 10 [] (first :: run) (by decide) (by simp) decimalDigits
  | hex x run marker nonempty hexDigits =>
      exact lastOf 16 ['0', x] run (by decide) nonempty hexDigits
  | octal run octalDigits =>
      refine lastOf 8 [] ('0' :: run) (by decide) (by simp) ?_
      intro c member
      rcases List.mem_cons.mp member with rfl | inside
      · decide
      · exact octalDigits c inside

theorem Literal.ne_bare (literal : Literal) (sign : Sign) {x : Char} (marker : x = 'x' ∨ x = 'X') :
    literal.text ≠ sign.text ++ ['0', x] := by
  intro same
  obtain ⟨c, last, digit⟩ := literal.magnitude.getLast_text
  have ends : literal.text.getLast? = some c := by
    rw [Literal.text, List.getLast?_append, Option.mem_def.mp last]
    rfl
  rw [same, List.getLast?_append] at ends
  obtain rfl : x = c := by simpa using ends
  rcases marker with rfl | rfl <;> exact absurd digit (by decide)

end Stdio
