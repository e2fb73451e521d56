/-
Operands as the source spells them: register names, the fields a pattern cuts
out of a line, and how each directive of a pattern reads them.
-/

import RiscvAs.Packing
import RiscvAs.Pseudo

namespace RiscvAs

open Stdio
open Rv32 (Reg)

inductive RegName where
  | x (n : Fin 32)
  | zero
  | ra
  | sp
  | gp
  | tp
  | t (n : Fin 7)
  | s (n : Fin 12)
  | a (n : Fin 8)
  deriving DecidableEq

def RegName.text : RegName → CString
  | .x n => 'x' :: Nat.toDigits 10 n
  | .zero => "zero".toList
  | .ra => "ra".toList
  | .sp => "sp".toList
  | .gp => "gp".toList
  | .tp => "tp".toList
  | .t n => 't' :: Nat.toDigits 10 n
  | .s n => 's' :: Nat.toDigits 10 n
  | .a n => 'a' :: Nat.toDigits 10 n

def RegName.number : RegName → Reg
  | .x n => n
  | .zero => 0
  | .ra => 1
  | .sp => 2
  | .gp => 3
  | .tp => 4
  | .t n => if n.val < 3 then ⟨n.val + 5, by omega⟩ else ⟨n.val + 25, by omega⟩
  | .s n => if n.val < 2 then ⟨n.val + 8, by omega⟩ else ⟨n.val + 16, by omega⟩
  | .a n => ⟨n.val + 10, by omega⟩

/-- A mnemonic, which `%s` and `%63s` read whole. -/
structure IsToken (text : CString) : Prop where
  nonempty : text ≠ []
  short : text.length ≤ nameLen - 1
  noBlank : ∀ c ∈ text, isspace c = false

/-- A field that a `%4[^,]` reads whole before a comma. -/
structure IsField (text : CString) : Prop where
  nonempty : text ≠ []
  short : text.length ≤ registerLen - 1
  noComma : ∀ c ∈ text, c ∉ [',']
  front : Stops isspace text

/-- A field that a `%4[^#\n]` reads whole before the end of the line. -/
structure IsLastField (text : CString) : Prop where
  nonempty : text ≠ []
  short : text.length ≤ registerLen - 1
  noEnd : ∀ c ∈ text, c ∉ ['#', '\n']
  front : Stops isspace text

structure IsPlainField (text : CString) : Prop extends IsField text where
  noEnd : ∀ c ∈ text, c ∉ ['#', '\n', '(', ')', ' ', '\t', '\r']

/-- The facts about a name that its finitely many spellings decide. -/
abbrev RegName.Good (name : RegName) : Prop :=
  parseRegister .native name.text = .ok (BitVec.ofNat 8 name.number.val) ∧
    parseRegister .rp2350 name.text = .ok (BitVec.ofNat 8 name.number.val) ∧
    name.text ≠ [] ∧ name.text.length ≤ registerLen - 1 ∧
    name.text.all (fun c =>
      !isspace c && c ∉ [',', '#', '\n', '(', ')', ' ', '\t', '\r']) = true

theorem RegName.good (name : RegName) : name.Good := by
  cases name with
  | x n => revert n; decide
  | zero | ra | sp | gp | tp => decide
  | t n => revert n; decide
  | s n => revert n; decide
  | a n => revert n; decide

def regByte (r : Reg) : BitVec 8 :=
  BitVec.ofNat 8 r.val

theorem toReg_regByte (r : Reg) : toReg (regByte r) = r := by
  apply Fin.ext
  have bound := r.isLt
  simp only [toReg, regByte, BitVec.toNat_ofNat]
  omega

theorem regByte_lt (r : Reg) : (regByte r).toNat < 2 ^ 5 := by
  have bound := r.isLt
  rw [regByte, BitVec.toNat_ofNat]
  omega

structure Names (build : Build) (text : CString) (r : Reg) : Prop where
  parsed : parseRegister build text = .ok (regByte r)

theorem RegName.names (build : Build) (name : RegName) : Names build name.text name.number := by
  obtain ⟨native, rp2350, -⟩ := name.good
  cases build
  · exact ⟨native⟩
  · exact ⟨rp2350⟩

theorem RegName.isPlainField (name : RegName) : IsPlainField name.text := by
  obtain ⟨-, -, nonempty, short, plain⟩ := name.good
  simp only [List.all_eq_true, Bool.and_eq_true, Bool.not_eq_true', decide_eq_true_eq,
    List.mem_cons, List.not_mem_nil, or_false, not_or] at plain
  refine ⟨⟨nonempty, short, fun c member => ?_, fun c member => ?_⟩, fun c member => ?_⟩
  · simpa using (plain c member).2.1
  · exact (plain c (List.mem_of_mem_head? member)).1
  · simpa using (plain c member).2.2

theorem RegName.isField (name : RegName) : IsField name.text :=
  name.isPlainField.toIsField

theorem IsPlainField.isLastField {text : CString} (isPlain : IsPlainField text) :
    IsLastField text where
  nonempty := isPlain.nonempty
  short := isPlain.short
  noEnd c inside stop := isPlain.noEnd c inside (by
    simp only [List.mem_cons, List.not_mem_nil, or_false] at stop ⊢
    tauto)
  front := isPlain.front

theorem RegName.isLastField (name : RegName) : IsLastField name.text :=
  name.isPlainField.isLastField

theorem RegName.scanNumber_text (name : RegName) (rest : CString) :
    scanNumber 0 (name.text ++ rest) = none := by
  cases name <;> rfl

theorem RegName.sscanf_int (name : RegName) (rest : CString) (format : List Directive)
    (bits : Nat) : sscanf (.int bits :: format) (name.text ++ rest) = [] :=
  sscanf_fail (by simp only [convert, name.scanNumber_text, Option.map_none]) format

/-! ### Immediates -/

section Immediates

variable (build : Build) {value low high : Int}

/-- A `long` holds every `int`. -/
theorem saturate_longBits (hlow : -2 ^ 31 ≤ value) (hhigh : value ≤ 2 ^ 31 - 1) :
    saturate build.longBits value = value := by
  cases build <;> exact saturate_of_range (by simp only [Build.longBits]; omega)
    (by simp only [Build.longBits]; omega)

/-- The saturated value is in an interval of `int` values exactly when the
value is. -/
theorem saturate_longBits_iff (hlow : -2 ^ 31 < low) (hhigh : high < 2 ^ 31 - 1) :
    (low ≤ saturate build.longBits value ∧ saturate build.longBits value ≤ high) ↔
      (low ≤ value ∧ value ≤ high) := by
  cases build <;> exact saturate_range_iff (by simp only [Build.longBits]; omega)
    (by simp only [Build.longBits]; omega)

theorem checkImmediate_of_range (hlow : low ≤ value) (hhigh : value ≤ high) :
    checkImmediate value low high = .ok () := by
  rw [checkImmediate, if_neg (by omega)]

theorem checkImmediate_of_not_range (outside : ¬ (low ≤ value ∧ value ≤ high)) :
    checkImmediate value low high = .error .invalidImmediate := by
  rw [checkImmediate, if_pos (by omega)]

theorem checkImmediate_ok_iff :
    checkImmediate value low high = .ok () ↔ low ≤ value ∧ value ≤ high := by
  constructor
  · intro checked
    by_contra outside
    rw [checkImmediate_of_not_range outside] at checked
    cases checked
  · rintro ⟨hlow, hhigh⟩
    exact checkImmediate_of_range hlow hhigh

theorem checkImmAndLastB_ok_iff :
    checkImmAndLastB value low high = .ok () ↔ (low ≤ value ∧ value ≤ high) ∧ value % 2 = 0 := by
  unfold checkImmAndLastB
  constructor
  · intro checked
    split at checked
    · cases checked
    · omega
  · rintro ⟨⟨hlow, hhigh⟩, even⟩
    rw [if_neg (by omega)]

end Immediates

section Reading

variable (format : List Directive) {name field rest : CString}

theorem sscanf_nextField (isField : IsField field) :
    sscanf (fieldDirective :: .char ',' :: .blank :: format) (field ++ ',' :: rest) =
      .str field :: sscanf format (skipBlanks rest) := by
  rw [fieldDirective, sscanf_set _ isField.nonempty isField.noComma isField.short (by simp),
    sscanf_char, sscanf_blank]

theorem sscanf_firstField (isToken : IsToken name) (isField : IsField field) :
    sscanf (.skipToken :: .blank :: fieldDirective :: .char ',' :: .blank :: format)
        (name ++ ' ' :: (field ++ ',' :: rest)) =
      .str field :: sscanf format (skipBlanks rest) := by
  have front : Stops isspace (field ++ ',' :: rest) :=
    (stops_append isField.nonempty _).mpr isField.front
  rw [sscanf_skipToken _ isToken.nonempty isToken.noBlank (by simp [isspace]), sscanf_blank,
    skipBlanks_space, skipBlanks_of_stops front, sscanf_nextField format isField]

theorem sscanf_lastField (isLast : IsLastField field)
    (stops : Stops (fun c => c ∉ ['#', '\n']) rest) :
    sscanf [lastFieldDirective] (field ++ rest) = [.str field] := by
  rw [lastFieldDirective, sscanf_set _ isLast.nonempty isLast.noEnd isLast.short stops]
  rfl

end Reading

section Lines

variable {name first second : CString} (isToken : IsToken name) (isFirst : IsField first)

include isToken isFirst

theorem sscanf_formatPair {last : CString} (isLast : IsLastField last) :
    sscanf formatPair (name ++ ' ' :: (first ++ ',' :: ' ' :: last)) =
      [.str first, .str last] := by
  have read := sscanf_lastField isLast (stops_nil _)
  rw [List.append_nil] at read
  rw [formatPair, sscanf_firstField _ isToken isFirst, skipBlanks_space,
    skipBlanks_of_stops isLast.front, read]

theorem sscanf_formatU (build : Build) (literal : Literal) :
    sscanf (formatU build) (name ++ ' ' :: (first ++ ',' :: ' ' :: literal.text)) =
      [.str first, .int (saturate build.longBits literal.value)] := by
  have read := sscanf_int_literal [] build.longBits literal [] endsLiteral_nil
  have front := literal.stops_blank []
  rw [List.append_nil] at read front
  rw [formatU, sscanf_firstField _ isToken isFirst, skipBlanks_space,
    skipBlanks_of_stops front, read]
  rfl

theorem sscanf_formatOffset (build : Build) (literal : Literal) {base : CString}
    (isBase : IsPlainField base) :
    sscanf (formatOffset build) (name ++ ' ' :: (first ++ ',' :: ' ' ::
        (literal.text ++ '(' :: (base ++ [')'])))) =
      [.str first, .int (saturate build.longBits literal.value), .str base] := by
  have noParen : ∀ c ∈ base, c ∉ [')'] := by
    intro c inside paren
    exact isBase.noEnd c inside (by simp [List.mem_singleton.mp paren])
  rw [formatOffset, sscanf_firstField _ isToken isFirst, skipBlanks_space,
    skipBlanks_of_stops (literal.stops_blank _),
    sscanf_int_literal _ _ _ _ (by rw [endsLiteral_cons]; decide), sscanf_char,
    sscanf_set _ isBase.nonempty noParen isBase.short (by simp), sscanf_char]
  rfl

/-- A base alone ends the offset pattern at its number. -/
theorem sscanf_formatOffset_base (build : Build) (base : RegName) :
    sscanf (formatOffset build) (name ++ ' ' :: (first ++ ',' :: ' ' :: base.text)) =
      [.str first] := by
  have read := base.sscanf_int [] [.char '(', .set (registerLen - 1) [')'], .char ')']
    build.longBits
  rw [List.append_nil] at read
  rw [formatOffset, sscanf_firstField _ isToken isFirst, skipBlanks_space,
    skipBlanks_of_stops base.isField.front, read]

variable (isSecond : IsField second)

include isSecond

theorem sscanf_twoFields (format : List Directive) (rest : CString) :
    sscanf (.skipToken :: .blank :: fieldDirective :: .char ',' :: .blank :: fieldDirective ::
        .char ',' :: .blank :: format)
        (name ++ ' ' :: (first ++ ',' :: ' ' :: (second ++ ',' :: ' ' :: rest))) =
      .str first :: .str second :: sscanf format (skipBlanks rest) := by
  have front : Stops isspace (second ++ ',' :: ' ' :: rest) :=
    (stops_append isSecond.nonempty _).mpr isSecond.front
  rw [sscanf_firstField _ isToken isFirst, skipBlanks_space, skipBlanks_of_stops front,
    sscanf_nextField format isSecond, skipBlanks_space]

theorem sscanf_formatR {last : CString} (isLast : IsLastField last) :
    sscanf formatR (name ++ ' ' :: (first ++ ',' :: ' ' :: (second ++ ',' :: ' ' :: last))) =
      [.str first, .str second, .str last] := by
  have read := sscanf_lastField isLast (stops_nil _)
  rw [List.append_nil] at read
  rw [formatR, sscanf_twoFields isToken isFirst isSecond, skipBlanks_of_stops isLast.front, read]

theorem sscanf_formatI (build : Build) (literal : Literal) :
    sscanf (formatI build)
        (name ++ ' ' :: (first ++ ',' :: ' ' :: (second ++ ',' :: ' ' :: literal.text))) =
      [.str first, .str second, .int (saturate build.longBits literal.value)] := by
  have read := sscanf_int_literal [] build.longBits literal [] endsLiteral_nil
  have front := literal.stops_blank []
  rw [List.append_nil] at read front
  rw [formatI, sscanf_twoFields isToken isFirst isSecond, skipBlanks_of_stops front, read]
  rfl

end Lines

end RiscvAs
