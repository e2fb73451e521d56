/-
The two builds and the width of `long`.

Every immediate goes through `%li`, so a 32-bit `long` saturates where a 64-bit
one does not.  The range checks hide that, except the one of `li`: there the
32-bit build stores four bytes into a zeroed `int64_t`, which turns a negative
value into a large one and brings a value that is too large into range.
-/

import RiscvAs.RegisterNames
import RiscvAs.LoadImmediate
import RiscvAs.EmittedBytes

namespace RiscvAs

open Stdio
open Rv32 (Word)

/-- Both builds return the same code for a line and have emitted the same bytes
after it. -/
structure WidthIndependent (out : Output) (line : CString) : Prop where
  code : (processSegmentText .native out line).1 = (processSegmentText .rp2350 out line).1
  bytes : (processSegmentText .native out line).2.textBytes =
    (processSegmentText .rp2350 out line).2.textBytes

/-- `li` with a literal that is a negative `int32_t` or larger than any. -/
def WidthSensitive (line : CString) : Prop :=
  mnemonicOf line = "li".toList ∧ ∃ rd after negative magnitude rest, IsField rd ∧
    operandsOf line = rd ++ ',' :: after ∧ scanNumber 0 after = some (negative, magnitude, rest) ∧
    ((int32Min ≤ signedValue negative magnitude ∧ signedValue negative magnitude < 0) ∨
      int32Max < signedValue negative magnitude)

theorem scanMagnitude_ten_lt {s rest : CString} {magnitude : Nat}
    (read : scanMagnitude 10 s = some (magnitude, rest)) : magnitude < 10 ^ s.length := by
  have bounded : ∀ t : CString, (scanDigits 10 t).1 < 10 ^ t.length := by
    intro t
    have decimal : ∀ c ∈ t.takeWhile (isDigitOf 10), isDigitOf 10 c = true :=
      fun c member => List.mem_takeWhile_imp member
    have bound := digitsValue_lt decimal 0
    have shorter : 10 ^ (t.takeWhile (isDigitOf 10)).length ≤ 10 ^ t.length :=
      Nat.pow_le_pow_right (by decide) (List.takeWhile_prefix _).length_le
    rw [Nat.zero_add, Nat.one_mul] at bound
    exact lt_of_lt_of_le bound shorter
  unfold scanMagnitude at read
  split at read
  · cases read
  · rename_i t
    simp only [OfNat.ofNat_ne_zero, if_false, Option.some.injEq] at read
    have bound := bounded t
    rw [read] at bound
    exact lt_of_lt_of_le bound (Nat.pow_le_pow_right (by decide) (by simp))
  · rename_i c t notZero
    simp only [OfNat.ofNat_ne_zero, if_false] at read
    split at read
    · have bound := bounded (c :: t)
      rw [Option.some.inj read] at bound
      exact bound
    · cases read

theorem scanNumber_ten_lt {s rest : CString} {negative : Bool} {magnitude : Nat}
    (read : scanNumber 10 s = some (negative, magnitude, rest)) : magnitude < 10 ^ s.length := by
  obtain ⟨⟨value, after⟩, scanned, same⟩ := Option.map_eq_some_iff.mp read
  simp only [Prod.mk.injEq] at same
  obtain ⟨-, rfl, rfl⟩ := same
  have signed : (scanSign (skipBlanks s)).2.length ≤ (skipBlanks s).length := by
    generalize skipBlanks s = t
    unfold scanSign
    split <;> simp
  have skipped : (skipBlanks s).length ≤ s.length := (List.dropWhile_suffix _).length_le
  exact lt_of_lt_of_le (scanMagnitude_ten_lt scanned)
    (Nat.pow_le_pow_right (by decide) (le_trans signed skipped))

theorem toUnsignedChar_width (negative : Bool) {magnitude : Nat} (small : magnitude < 10 ^ 3) :
    toUnsignedChar Build.rp2350.longBits negative magnitude =
      toUnsignedChar Build.native.longBits negative magnitude := by
  have narrow : Build.rp2350.longBits = 32 := rfl
  have wide : Build.native.longBits = 64 := rfl
  rw [toUnsignedChar, toUnsignedChar, narrow, wide, if_neg (by omega : ¬ 2 ^ 32 ≤ magnitude),
    if_neg (by omega : ¬ 2 ^ 64 ≤ magnitude)]
  cases negative with
  | false => rfl
  | true =>
      simp only [if_true]
      omega

theorem parseNumbered_width {digits : CString} (short : digits.length ≤ 3) (limit : Nat)
    (number : Nat → Nat) :
    parseNumbered .rp2350 digits limit number = parseNumbered .native digits limit number := by
  have converted : convert (.hhu Build.rp2350.longBits) digits =
      convert (.hhu Build.native.longBits) digits := by
    cases read : scanNumber 10 digits with
    | none => simp only [convert, read, Option.map_none]
    | some result =>
        obtain ⟨negative, magnitude, rest⟩ := result
        have small : magnitude < 10 ^ 3 :=
          lt_of_lt_of_le (scanNumber_ten_lt read) (Nat.pow_le_pow_right (by decide) short)
        simp only [convert, read, Option.map_some, toUnsignedChar_width negative small]
  simp only [parseNumbered, sscanf, converted]

/-- A register is at most four characters, so its number fits any `long`. -/
theorem parseRegister_width (reg : CString) :
    parseRegister .rp2350 reg = parseRegister .native reg := by
  unfold parseRegister
  generalize registerToken reg = token
  simp only
  split
  · rfl
  · rename_i fits
    have short : ∀ (c : Char) (digits : CString), token = c :: digits → digits.length ≤ 3 := by
      intro c digits shape
      rw [shape, List.length_cons] at fits
      simp only [registerLen] at fits
      omega
    split
    · exact parseNumbered_width (short _ _ rfl) _ _
    · exact parseNumbered_width (short _ _ rfl) _ _
    · rfl
    · exact parseNumbered_width (short _ _ rfl) _ _
    · rfl
    · exact parseNumbered_width (short _ _ rfl) _ _
    · rfl
    · rfl
    · rfl
    · rfl

/-- A directive of the native formats with a 32-bit `long`. -/
def narrowDirective : Directive → Directive
  | .int _ => .int 32
  | directive => directive

/-- A value of the native build in a 32-bit `long`. -/
def narrowValue : Value → Value
  | .int value => .int (saturate 32 value)
  | value => value

theorem saturate_saturate (value : Int) :
    saturate 32 (saturate 64 value) = saturate 32 value := by
  simp only [saturate]
  omega

theorem convert_narrow {directive : Directive} (s : CString)
    (wide : ∀ bits, directive = .int bits → bits = 64) (notChar : ∀ bits, directive ≠ .hhu bits) :
    convert (narrowDirective directive) s =
      (convert directive s).map (fun read => (read.1.map narrowValue, read.2)) := by
  cases directive with
  | int bits =>
      obtain rfl := wide bits rfl
      simp only [narrowDirective, convert, Option.map_map]
      congr 1
      funext read
      simp only [Function.comp_apply, List.map_cons, List.map_nil, narrowValue, saturate_saturate]
  | hhu bits => exact absurd rfl (notChar bits)
  | char c =>
      cases s with
      | nil => rfl
      | cons d s =>
          simp only [narrowDirective, convert]
          split <;> rfl
  | anyChar => cases s <;> rfl
  | blank => rfl
  | skipToken =>
      simp only [narrowDirective, convert, Option.map_map]
      rfl
  | token width =>
      simp only [narrowDirective, convert, Option.map_map]
      rfl
  | set width stop =>
      simp only [narrowDirective, convert, Option.map_map]
      rfl

/-- The native formats have no number but `%li`. -/
def IsLongFormat (format : List Directive) : Prop :=
  ∀ directive ∈ format, (∀ bits, directive = .int bits → bits = 64) ∧
    ∀ bits, directive ≠ .hhu bits

theorem sscanf_narrow {format : List Directive} (long : IsLongFormat format) (s : CString) :
    sscanf (format.map narrowDirective) s = (sscanf format s).map narrowValue := by
  induction format generalizing s with
  | nil => rfl
  | cons directive format ih =>
      have first := long directive (List.mem_cons_self ..)
      have rest : IsLongFormat format := fun d member => long d (List.mem_cons_of_mem _ member)
      have converted := convert_narrow s first.1 first.2
      cases read : convert directive s with
      | none =>
          rw [read] at converted
          rw [List.map_cons, sscanf_fail converted, sscanf_fail read]
          rfl
      | some result =>
          obtain ⟨values, after⟩ := result
          rw [read, Option.map_some] at converted
          rw [List.map_cons, sscanf_convert converted, sscanf_convert read, List.map_append,
            ih rest]

theorem sscanf_formatU_narrow (line : CString) :
    sscanf (formatU .rp2350) line = (sscanf (formatU .native) line).map narrowValue := by
  have long : IsLongFormat (formatU .native) := by
    simp [IsLongFormat, formatU, fieldDirective, Build.longBits]
  exact sscanf_narrow long line

theorem sscanf_formatI_narrow (line : CString) :
    sscanf (formatI .rp2350) line = (sscanf (formatI .native) line).map narrowValue := by
  have long : IsLongFormat (formatI .native) := by
    simp [IsLongFormat, formatI, fieldDirective, Build.longBits]
  exact sscanf_narrow long line

theorem sscanf_formatOffset_narrow (line : CString) :
    sscanf (formatOffset .rp2350) line =
      (sscanf (formatOffset .native) line).map narrowValue := by
  have long : IsLongFormat (formatOffset .native) := by
    simp [IsLongFormat, formatOffset, fieldDirective, Build.longBits]
  exact sscanf_narrow long line

section Checks

variable {α : Type} (low high : Int) (hlow : -2 ^ 31 < low) (hhigh : high < 2 ^ 31 - 1)
  (value : Int) (next : Int → Except Failure α)

include hlow hhigh

/-- A check that the value passes or fails whatever the width of `long`. -/
theorem checkImmediate_narrow :
    (checkImmediate (saturate 32 value) low high >>= fun _ => next (saturate 32 value)) =
      (checkImmediate value low high >>= fun _ => next value) := by
  have range : (low ≤ saturate 32 value ∧ saturate 32 value ≤ high) ↔
    (low ≤ value ∧ value ≤ high) :=
    saturate_range_iff (by omega) (by omega)
  by_cases inside : low ≤ value ∧ value ≤ high
  · have kept : saturate 32 value = value := saturate_of_range (by omega) (by omega)
    rw [kept]
  · rw [checkImmediate_of_not_range inside,
      checkImmediate_of_not_range (fun narrow => inside (range.mp narrow)), error_bind, error_bind]

theorem checkImmAndLastB_narrow :
    (checkImmAndLastB (saturate 32 value) low high >>= fun _ => next (saturate 32 value)) =
      (checkImmAndLastB value low high >>= fun _ => next value) := by
  have range : (low ≤ saturate 32 value ∧ saturate 32 value ≤ high) ↔
    (low ≤ value ∧ value ≤ high) :=
    saturate_range_iff (by omega) (by omega)
  by_cases inside : low ≤ value ∧ value ≤ high
  · have kept : saturate 32 value = value := saturate_of_range (by omega) (by omega)
    rw [kept]
  · have outside := fun narrow => inside (range.mp narrow)
    rw [checkImmAndLastB, checkImmAndLastB, if_pos (by omega), if_pos (by omega), error_bind,
      error_bind]

end Checks

theorem scanOffsetOperands_narrow (line : CString) :
    scanOffsetOperands .rp2350 line =
      (scanOffsetOperands .native line).map
        (fun read => (read.1, saturate 32 read.2.1, read.2.2)) := by
  simp only [scanOffsetOperands, sscanf_formatOffset_narrow]
  generalize sscanf (formatOffset .native) line = values
  generalize sscanf formatPair line = pair
  -- Without three values, both builds read the pair.
  rcases values with _ | ⟨_ | _ | _, _ | ⟨_ | _ | _, _ | ⟨_ | _ | _, _ | ⟨_, _⟩⟩⟩⟩ <;>
    first | rfl | (rcases pair with _ | ⟨_ | _ | _, _ | ⟨_ | _ | _, _ | ⟨_, _⟩⟩⟩ <;> rfl)

theorem scanITypeOperands_narrow (line name : CString) :
    scanITypeOperands .rp2350 line name =
      (scanITypeOperands .native line name).map
        (fun read => (read.1, saturate 32 read.2.1, read.2.2)) := by
  simp only [scanITypeOperands, sscanf_formatI_narrow]
  split
  · exact scanOffsetOperands_narrow line
  · generalize sscanf (formatI .native) line = values
    rcases values with _ | ⟨_ | _ | _, _ | ⟨_ | _ | _, _ | ⟨_ | _ | _, _ | ⟨_, _⟩⟩⟩⟩ <;> rfl

/-- No real instruction depends on the width of `long`. -/
theorem encode_width (instr : Instruction) (line name : CString) :
    encode .rp2350 instr line name = encode .native instr line name := by
  unfold encode
  cases instr.type with
  | R => simp only [handleRTypeInstr, parseRegister_width]
  | I =>
      simp only [scanITypeOperands_narrow]
      cases scanITypeOperands .native line name with
      | error e => rfl
      | ok read =>
          obtain ⟨rd, imm, rs1⟩ := read
          simp only [handleITypeInstr, parseRegister_width]
          exact checkImmediate_narrow int12Min int12Max (by decide) (by decide) imm
            (fun imm => handleITypeInstr .native instr rs1 (BitVec.ofInt 32 imm) rd)
  | S =>
      simp only [scanOffsetOperands_narrow]
      cases scanOffsetOperands .native line with
      | error e => rfl
      | ok read =>
          obtain ⟨rs2, imm, rs1⟩ := read
          simp only [handleSTypeInstr, parseRegister_width]
          exact checkImmediate_narrow int12Min int12Max (by decide) (by decide) imm
            (fun imm => handleSTypeInstr .native instr rs1 rs2 (BitVec.ofInt 32 imm))
  | B =>
      simp only [sscanf_formatI_narrow, handleBTypeInstr, parseRegister_width]
      generalize sscanf (formatI .native) line = values
      have checked := fun rs1 rs2 imm =>
        checkImmAndLastB_narrow int13Min int13Max (by decide) (by decide) imm
          (fun imm => handleBTypeInstr .native instr rs1 rs2 (BitVec.ofInt 32 imm))
      rcases values with _ | ⟨rs1 | _ | _, _ | ⟨rs2 | _ | _, _ | ⟨_ | imm | _, _ | ⟨_, _⟩⟩⟩⟩ <;>
        first | rfl | exact checked rs1 rs2 imm
  | U =>
      simp only [sscanf_formatU_narrow, handleUTypeInstr, parseRegister_width]
      generalize sscanf (formatU .native) line = values
      have checked := fun rd imm =>
        checkImmediate_narrow int20Min int20Max (by decide) (by decide) imm
          (fun imm => handleUTypeInstr .native instr rd (BitVec.ofInt 32 imm))
      rcases values with _ | ⟨rd | _ | _, _ | ⟨_ | imm | _, _ | ⟨_, _⟩⟩⟩ <;>
        first | rfl | exact checked rd imm
  | J =>
      simp only [sscanf_formatU_narrow, handleJTypeInstr, parseRegister_width]
      generalize sscanf (formatU .native) line = values
      have checked := fun rd imm =>
        checkImmAndLastB_narrow int21Min int21Max (by decide) (by decide) imm
          (fun imm => handleJTypeInstr .native instr rd (BitVec.ofInt 32 imm))
      rcases values with _ | ⟨rd | _ | _, _ | ⟨_ | imm | _, _ | ⟨_, _⟩⟩⟩ <;>
        first | rfl | exact checked rd imm
  | Z => rfl
  | P => rfl

theorem encodePseudoInstr_width (expansion : PseudoExpansion) :
    encodePseudoInstr .rp2350 expansion = encodePseudoInstr .native expansion := by
  simp only [encodePseudoInstr, encode_width]

/-! ### The pseudo-instruction `li` -/

theorem handleITypeInstr_error {build : Build} {instr : Instruction} {rs1 rd : CString}
    {imm : Word} {e : Failure} (rejected : handleITypeInstr build instr rs1 imm rd = .error e) :
    e = .invalidRegister := by
  unfold handleITypeInstr at rejected
  cases first : parseRegister build rs1 with
  | error e' =>
      rw [first, error_bind] at rejected
      cases rejected
      exact parseRegister_error first
  | ok rs1Val =>
      cases second : parseRegister build rd with
      | error e' =>
          rw [first, ok_bind, second, error_bind] at rejected
          cases rejected
          exact parseRegister_error second
      | ok rdVal =>
          rw [first, ok_bind, second, ok_bind] at rejected
          cases rejected

theorem handleUTypeInstr_error {build : Build} {instr : Instruction} {rd : CString}
    {imm : Word} {e : Failure} (rejected : handleUTypeInstr build instr rd imm = .error e) :
    e = .invalidRegister := by
  unfold handleUTypeInstr at rejected
  cases only : parseRegister build rd with
  | error e' =>
      rw [only, error_bind] at rejected
      cases rejected
      exact parseRegister_error only
  | ok rdVal =>
      rw [only, ok_bind] at rejected
      cases rejected

def PseudoExpansion.InRange (build : Build) (expansion : PseudoExpansion) : Prop :=
  ∀ entry ∈ expansion.lines,
    encode build entry.1 entry.2 entry.1.name.toList ≠ .error .invalidImmediate

theorem PseudoExpansion.inRange_reset (build : Build) : PseudoExpansion.reset.InRange build := by
  intro entry member
  cases member

theorem encodePseudoInstr_inRange {build : Build} {expansion : PseudoExpansion}
    (inRange : expansion.InRange build) :
    encodePseudoInstr build expansion ≠ .error .invalidImmediate := by
  obtain ⟨lines⟩ := expansion
  unfold PseudoExpansion.InRange at inRange
  unfold encodePseudoInstr
  simp only at inRange ⊢
  induction lines with
  | nil =>
      intro failed
      cases failed
  | cons entry lines ih =>
      have first := inRange entry (List.mem_cons_self ..)
      have rest := ih (fun other member => inRange other (List.mem_cons_of_mem _ member))
      rw [List.mapM_cons]
      cases encoded : encode build entry.1 entry.2 entry.1.name.toList with
      | error e =>
          intro failed
          cases failed
          exact first encoded
      | ok w =>
          rw [ok_bind]
          cases mapped :
            lines.mapM (fun entry => encode build entry.1 entry.2 entry.1.name.toList) with
          | error e =>
              intro failed
              cases failed
              exact rest mapped
          | ok words =>
              intro failed
              cases failed

/-- What an expansion gives: not an immediate out of range, and lines without one. -/
def StaysInRange (build : Build) (expanded : Except Failure PseudoExpansion) : Prop :=
  expanded ≠ .error .invalidImmediate ∧
    ∀ expansion, expanded = .ok expansion → expansion.InRange build

theorem expandWith_inRange {build : Build} {expansion : PseudoExpansion}
    (inRange : expansion.InRange build) {name : String} {instr : Instruction}
    (found : findInstruction name.toList = some instr) {text : CString}
    (short : text.length < lineBufLen)
    (encoded : encode build instr text name.toList ≠ .error .invalidImmediate) :
    StaysInRange build (expandWith expansion name text) := by
  have copied : snprintf lineBufLen text = text := List.take_of_length_le (by omega)
  simp only [StaysInRange, expandWith, found, pseudoExpansionAdd, copied]
  split
  · exact ⟨by simp, by simp⟩
  · refine ⟨by simp, ?_⟩
    rintro expansion' same entry member
    cases same
    rcases List.mem_append.mp member with earlier | last
    · exact inRange entry earlier
    · rw [List.mem_singleton] at last
      subst last
      rw [findInstruction_name found]
      exact encoded

section Printed

variable (build : Build) {instr : Instruction} {first second : CString} (isFirst : IsField first)
  {value : Int}

include isFirst

theorem encode_printed_upper_inRange {op : Rv32.UOp}
    (record : Record (upperMnemonic op) .U (upperOpcode op) instr)
    (low : int20Min ≤ value) (high : value ≤ int20Max) :
    encode build instr ((upperMnemonic op).toList ++ ' ' :: (first ++ ',' :: ' ' :: printInt value))
      (upperMnemonic op).toList ≠ .error .invalidImmediate := by
  obtain ⟨literal, spelled, rfl⟩ := exists_literal_printInt value
  have read := sscanf_formatU (findInstruction_isToken record.found) isFirst build literal
  have checked := checkImmediate_of_range low high
  simp only [int20Min, int20Max] at low high
  rw [saturate_longBits build (by omega) (by omega)] at read
  intro failed
  rw [← spelled] at failed
  simp only [encode, record.type, read, checked, ok_bind] at failed
  cases handleUTypeInstr_error failed

theorem encode_printed_imm_inRange {op : Rv32.IOp}
    (record : Record (iMnemonic op) .I 0x13 instr)
    (notLoadStore : isLoadStore (iMnemonic op).toList = false) (isSecond : IsField second)
    (small : IsInt12 value) :
    encode build instr ((iMnemonic op).toList ++ ' ' ::
        (first ++ ',' :: ' ' :: (second ++ ',' :: ' ' :: printInt value)))
      (iMnemonic op).toList ≠ .error .invalidImmediate := by
  have scanned := scanITypeOperands_printed build isFirst (findInstruction_isToken record.found)
    notLoadStore isSecond small.1 small.2
  intro failed
  rw [encode_of_scanIType record.type scanned, checkImmediate_of_range small.1 small.2,
    ok_bind] at failed
  cases handleITypeInstr_error failed

variable {expansion : PseudoExpansion} (inRange : expansion.InRange build)

include inRange

theorem expandWith_upper_inRange (op : Rv32.UOp) (x : Word) :
    StaysInRange build (expandWith expansion (upperMnemonic op)
      ((upperMnemonic op).toList ++ ' ' ::
        (first ++ ',' :: ' ' :: printInt (highPart x).toInt))) := by
  obtain ⟨instr, record⟩ := upperRecord op
  obtain ⟨low, high⟩ := highPart_range x
  exact expandWith_inRange inRange record.found
    (printed_upper_short isFirst (by simp only [int32Min]; omega)
      (by simp only [int32Max]; omega) op)
    (encode_printed_upper_inRange build isFirst record (by simp only [int20Min]; omega)
      (by simp only [int20Max]; omega))

theorem expandWith_imm_inRange (op : Rv32.IOp) (isSecond : IsField second) (small : IsInt12 value) :
    StaysInRange build (expandWith expansion (iMnemonic op) ((iMnemonic op).toList ++ ' ' ::
      (first ++ ',' :: ' ' :: (second ++ ',' :: ' ' :: printInt value)))) := by
  obtain ⟨instr, record, notLoadStore, -⟩ := iRecord op
  obtain ⟨low, high⟩ := int32_of_int12 small
  exact expandWith_inRange inRange record.found (printed_imm_short isFirst low high op isSecond)
    (encode_printed_imm_inRange build isFirst record notLoadStore isSecond small)

end Printed

theorem expandLiInstr_inRange (build : Build) {rd : CString} (isField : IsField rd) (value : Int) :
    StaysInRange build (expandLiInstr rd value .reset) := by
  have start := PseudoExpansion.inRange_reset build
  unfold expandLiInstr
  simp only
  split
  · rename_i small
    have first := expandWith_imm_inRange build isField start .addi RegName.zero.isField small
    simpa [RegName.text, iMnemonic] using first
  · have upper := expandWith_upper_inRange build isField start .lui (BitVec.ofInt 32 value)
    have printed : "lui ".toList ++ rd ++ ", ".toList ++
        printInt (highPart (BitVec.ofInt 32 value)).toInt =
          (upperMnemonic .lui).toList ++ ' ' ::
            (rd ++ ',' :: ' ' :: printInt (highPart (BitVec.ofInt 32 value)).toInt) := by
      simp [upperMnemonic]
    rw [printed, show "lui" = upperMnemonic .lui from rfl]
    cases expanded : expandWith .reset (upperMnemonic .lui) ((upperMnemonic .lui).toList ++ ' ' ::
        (rd ++ ',' :: ' ' :: printInt (highPart (BitVec.ofInt 32 value)).toInt)) with
    | error e =>
        rw [error_bind]
        exact ⟨expanded ▸ upper.1, by simp⟩
    | ok middle =>
        have middleInRange := upper.2 middle expanded
        rw [ok_bind]
        split
        · have second := expandWith_imm_inRange build isField middleInRange .addi isField
            (isInt12_lowPart (BitVec.ofInt 32 value))
          simpa [iMnemonic] using second
        · refine ⟨by simp [pure, Except.pure], ?_⟩
          intro expansion same
          cases same
          exact middleInRange

def liWords (rd : CString) (imm64 : Int) : Except Failure (List Word) := do
  checkImmediate imm64 int32Min int32Max
  let expansion ← expandLiInstr rd imm64 .reset
  encodePseudoInstr .native expansion

theorem liWords_of_not_range {imm64 : Int} (outside : ¬ (int32Min ≤ imm64 ∧ imm64 ≤ int32Max))
    (rd : CString) : liWords rd imm64 = .error .invalidImmediate := by
  rw [liWords, checkImmediate_of_not_range outside, error_bind]

theorem liWords_of_range {rd : CString} (isField : IsField rd) {imm64 : Int}
    (inside : int32Min ≤ imm64 ∧ imm64 ≤ int32Max) :
    liWords rd imm64 ≠ .error .invalidImmediate := by
  obtain ⟨notRange, lines⟩ := expandLiInstr_inRange .native isField imm64
  rw [liWords, checkImmediate_of_range inside.1 inside.2, ok_bind]
  cases expanded : expandLiInstr rd imm64 .reset with
  | error e =>
      intro failed
      cases failed
      exact notRange expanded
  | ok expansion =>
      rw [ok_bind]
      exact encodePseudoInstr_inRange (lines expansion expanded)

theorem scanNumber_skipBlanks (base : Nat) (s : CString) :
    scanNumber base (skipBlanks s) = scanNumber base s := by
  simp only [scanNumber, skipBlanks_skipBlanks]

section Stored

variable {value : Int}

theorem storeLong_native_of_range (low : int32Min ≤ value) (high : value ≤ int32Max) :
    int32Min ≤ storeLong .native (saturate 64 value) ∧
      storeLong .native (saturate 64 value) ≤ int32Max :=
  (saturate_int32 value).mpr ⟨low, high⟩

theorem storeLong_native_of_large (large : int32Max < value) :
    ¬ (int32Min ≤ storeLong .native (saturate 64 value) ∧
      storeLong .native (saturate 64 value) ≤ int32Max) := by
  intro inside
  have range := (saturate_int32 value).mp inside
  omega

theorem storeLong_rp2350_of_negative (low : int32Min ≤ value) (negative : value < 0) :
    ¬ (int32Min ≤ storeLong .rp2350 (saturate 32 value) ∧
      storeLong .rp2350 (saturate 32 value) ≤ int32Max) := by
  simp only [storeLong, saturate, int32Min, int32Max] at low ⊢
  omega

theorem storeLong_rp2350_of_large (large : int32Max < value) :
    int32Min ≤ storeLong .rp2350 (saturate 32 value) ∧
      storeLong .rp2350 (saturate 32 value) ≤ int32Max := by
  simp only [storeLong, saturate, int32Min, int32Max] at large ⊢
  omega

theorem liWords_width (rd : CString)
    (insensitive : ¬ ((int32Min ≤ value ∧ value < 0) ∨ int32Max < value)) :
    liWords rd (storeLong .rp2350 (saturate 32 (saturate 64 value))) =
      liWords rd (storeLong .native (saturate 64 value)) := by
  rw [saturate_saturate]
  by_cases nonneg : 0 ≤ value
  · have same : storeLong .rp2350 (saturate 32 value) = storeLong .native (saturate 64 value) := by
      simp only [storeLong, saturate, int32Min, int32Max] at insensitive ⊢
      omega
    rw [same]
  · have native : ¬ (int32Min ≤ storeLong .native (saturate 64 value) ∧
        storeLong .native (saturate 64 value) ≤ int32Max) := by
      intro inside
      have range := (saturate_int32 value).mp inside
      omega
    have rp2350 : ¬ (int32Min ≤ storeLong .rp2350 (saturate 32 value) ∧
        storeLong .rp2350 (saturate 32 value) ≤ int32Max) := by
      simp only [storeLong, saturate, int32Min, int32Max] at insensitive ⊢
      omega
    rw [liWords_of_not_range native, liWords_of_not_range rp2350]

end Stored

/-! ### Lines -/

theorem sscanf_int_eq {bits : Nat} {s : CString} {v : Value} :
    sscanf [.int bits] s = [v] ↔ ∃ negative magnitude rest,
      scanNumber 0 s = some (negative, magnitude, rest) ∧
        v = .int (saturate bits (signedValue negative magnitude)) := by
  cases read : scanNumber 0 s with
  | none => simp [sscanf, convert, read]
  | some result =>
      obtain ⟨negative, magnitude, rest⟩ := result
      simp only [sscanf, convert, read, Option.map_some, List.append_nil, List.cons.injEq,
        and_true, Option.some.injEq, Prod.mk.injEq]
      constructor
      · intro same
        exact ⟨negative, magnitude, rest, ⟨rfl, rfl, rfl⟩, same.symm⟩
      · rintro ⟨_, _, _, ⟨rfl, rfl, rfl⟩, same⟩
        exact same.symm

theorem sscanf_formatU_eq {build : Build} {line rd : CString} {v : Value} :
    sscanf (formatU build) line = [.str rd, v] ↔ mnemonicOf line ≠ [] ∧ IsField rd ∧
      ∃ after negative magnitude rest, operandsOf line = rd ++ ',' :: after ∧
        scanNumber 0 after = some (negative, magnitude, rest) ∧
        v = .int (saturate build.longBits (signedValue negative magnitude)) := by
  constructor
  · intro scanned
    obtain ⟨first, after, same, isField, split, number⟩ := firstField_inv scanned
    cases same
    obtain ⟨negative, magnitude, rest, read, value⟩ := sscanf_int_eq.mp number
    rw [scanNumber_skipBlanks] at read
    exact ⟨mnemonicOf_nonempty_of_skipToken scanned, isField, after, negative, magnitude, rest,
      split, read, value⟩
  · rintro ⟨nonempty, isField, after, negative, magnitude, rest, split, read, value⟩
    rw [← scanNumber_skipBlanks] at read
    rw [formatU, sscanf_operands nonempty, split, sscanf_nextField _ isField,
      sscanf_int_eq.mpr ⟨negative, magnitude, rest, read, value⟩]

theorem lineWords_width {line : CString} (notLi : mnemonicOf line ≠ "li".toList)
    (ctx : AssemblerCtx) (textOffset : Nat) :
    lineWords .rp2350 ctx line textOffset = lineWords .native ctx line textOffset := by
  unfold lineWords
  cases instruction : lineInstruction line with
  | error e => rfl
  | ok instr =>
      have name := findInstruction_name (lineInstruction_ok instruction)
      have other : instr.name ≠ "li" := by
        intro same
        rw [same] at name
        exact notLi name.symm
      simp only [ok_bind, expandPseudoInstr, if_neg other, encodePseudoInstr_width, encode_width]

theorem lineWords_li_eq {line : CString} (li : mnemonicOf line = "li".toList) (build : Build)
    (ctx : AssemblerCtx) (textOffset : Nat) :
    lineWords build ctx line textOffset =
      match sscanf (formatU build) line with
      | [.str rd, .int value] => liWords rd (storeLong build value)
      | _ => .error .parseError := by
  have found : findInstruction (mnemonicOf line) = some ⟨"li", 0x13, 0x0, 0x00, .P⟩ := by
    rw [li]
    rfl
  have encoded : encodePseudoInstr build = encodePseudoInstr .native := by
    funext expansion
    cases build with
    | native => rfl
    | rp2350 => exact encodePseudoInstr_width expansion
  rw [lineWords_of_pseudo (lineInstruction_of_mnemonicOf found) rfl, expandPseudoInstr, if_pos rfl,
    expandLi, encoded]
  rcases sscanf (formatU build) line with
    _ | ⟨rd | _ | _, _ | ⟨_ | value | _, _ | ⟨_, _⟩⟩⟩
  case cons.str.cons.int.nil =>
    simp only [liWords, bind_assoc]
  all_goals rfl

theorem copyText_code (bytes : List Bytes.Byte) (segment : Segment) (currentSize : Nat) :
    (copyText bytes segment currentSize).1 = .ok ∨
      (copyText bytes segment currentSize).1 = .fail .err := by
  induction bytes generalizing segment currentSize with
  | nil => exact Or.inl rfl
  | cons byte bytes ih =>
      rw [copyText]
      split
      · exact Or.inr rfl
      · exact ih _ _

theorem processSegmentText_invalidImmediate_iff {build : Build} {out : Output} {line : CString} :
    (processSegmentText build out line).1 = .fail .invalidImmediate ↔
      lineWords build out.ctx line out.textOffset = .error .invalidImmediate := by
  cases encoded : lineWords build out.ctx line out.textOffset with
  | error e => simp [processSegmentText, encoded]
  | ok words =>
      have code := copyText_code (words.flatMap wordBytes) out.ctx.textSegment out.textOffset
      rcases copied : copyText (words.flatMap wordBytes) out.ctx.textSegment out.textOffset
        with ⟨_ | _, segment, currentSize⟩
      · simp [processSegmentText, encoded, copied]
      · rw [copied] at code
        simp only [processSegmentText, encoded, copied]
        simp only [reduceCtorEq, false_or, AssemblerError.fail.injEq] at code
        simp [code]

theorem widthIndependent_of_words {out : Output} {line : CString}
    (same : lineWords .rp2350 out.ctx line out.textOffset =
      lineWords .native out.ctx line out.textOffset) : WidthIndependent out line := by
  have results : processSegmentText .native out line = processSegmentText .rp2350 out line := by
    simp only [processSegmentText, same]
  exact ⟨by rw [results], by rw [results]⟩

/-- The builds agree on every line but `li` with a literal that is negative or too large
for an `int32_t`. -/
theorem widthIndependent_iff (out : Output) (line : CString) :
    WidthIndependent out line ↔ ¬ WidthSensitive line := by
  constructor
  · rintro independent ⟨li, rd, after, negative, magnitude, rest, isField, split, read, range⟩
    have nonempty : mnemonicOf line ≠ [] := by simp [li]
    have scanned : ∀ build, sscanf (formatU build) line =
        [.str rd, .int (saturate build.longBits (signedValue negative magnitude))] := fun build =>
      sscanf_formatU_eq.mpr ⟨nonempty, isField, after, negative, magnitude, rest, split, read, rfl⟩
    have native := lineWords_li_eq li .native out.ctx out.textOffset
    have rp2350 := lineWords_li_eq li .rp2350 out.ctx out.textOffset
    rw [scanned] at native rp2350
    have codes := independent.code
    rcases range with small | large
    · have rejected := processSegmentText_invalidImmediate_iff.mpr
        (rp2350.trans (liWords_of_not_range (storeLong_rp2350_of_negative small.1 small.2) rd))
      have accepted := liWords_of_range isField
        (storeLong_native_of_range small.1 (by simp only [int32Max]; omega))
      rw [← codes] at rejected
      exact accepted (native.symm.trans (processSegmentText_invalidImmediate_iff.mp rejected))
    · have rejected := processSegmentText_invalidImmediate_iff.mpr
        (native.trans (liWords_of_not_range (storeLong_native_of_large large) rd))
      have accepted := liWords_of_range isField (storeLong_rp2350_of_large large)
      rw [codes] at rejected
      exact accepted (rp2350.symm.trans (processSegmentText_invalidImmediate_iff.mp rejected))
  · intro insensitive
    apply widthIndependent_of_words
    by_cases li : mnemonicOf line = "li".toList
    · rw [lineWords_li_eq li, lineWords_li_eq li, sscanf_formatU_narrow]
      rcases scanned : sscanf (formatU .native) line with
        _ | ⟨rd | _ | _, _ | ⟨_ | v | _, _ | ⟨_, _⟩⟩⟩
      case cons.str.cons.int.nil =>
        obtain ⟨-, isField, after, negative, magnitude, rest, split, read, same⟩ :=
          sscanf_formatU_eq.mp scanned
        cases same
        exact liWords_width rd (fun range => insensitive
          ⟨li, rd, after, negative, magnitude, rest, isField, split, read, range⟩)
      all_goals rfl
    · exact lineWords_width li out.ctx out.textOffset

/-- `li a0, -1` is accepted on one build and rejected on the other. -/
theorem li_negative_not_widthIndependent :
    ¬ WidthIndependent ⟨initCtx 0, 0, 0⟩ "li a0, -1".toList := by
  intro independent
  have codes := independent.code
  have native : (processSegmentText .native ⟨initCtx 0, 0, 0⟩ "li a0, -1".toList).1 = .ok := by
    decide +kernel
  have rp2350 : (processSegmentText .rp2350 ⟨initCtx 0, 0, 0⟩ "li a0, -1".toList).1 =
      .fail .invalidImmediate := by
    decide +kernel
  rw [native, rp2350] at codes
  cases codes

end RiscvAs
