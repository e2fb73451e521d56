/-
Disassembling words.

Every emittable word has a line that is assembled to it again.
-/

import RiscvAs.EmittedWords
import RiscvAs.Layout

namespace RiscvAs

open Stdio
open Bytes (Byte)
open Rv32
open Relocation (Fragment)

theorem octal_nil : ∀ c ∈ ([] : List Char), isDigitOf 8 c = true := by
  simp

theorem decimal_digits {n : Nat} {digits : List Char} (printed : Nat.toDigits 10 n = digits) :
    ∀ c ∈ digits, isDigitOf 10 c = true :=
  fun _ member => isDigitOf_toDigits (printed ▸ member)

def magnitudeOf (n : Nat) : Magnitude :=
  match printed : Nat.toDigits 10 n with
  | [] => .octal [] octal_nil
  | first :: digits =>
      if zero : first = '0' then .octal [] octal_nil
      else .decimal first digits zero (decimal_digits printed)

def literalOf (value : Int) : Literal :=
  ⟨if value < 0 then .minus else .none, magnitudeOf value.natAbs⟩

theorem magnitudeOf_spec (n : Nat) :
    (magnitudeOf n).text = Nat.toDigits 10 n ∧ (magnitudeOf n).value = n := by
  unfold magnitudeOf
  rcases Nat.eq_zero_or_pos n with rfl | positive
  · exact ⟨rfl, rfl⟩
  · obtain ⟨first, digits, front, nonzero⟩ := toDigits_front positive
    split
    · rename_i none
      rw [front] at none
      cases none
    · rename_i first' digits' front'
      obtain ⟨rfl, rfl⟩ := List.cons.inj (front.symm.trans front')
      rw [dif_neg nonzero]
      refine ⟨front'.symm, ?_⟩
      simp only [Magnitude.value, ← front', digitsValue_toDigits]

theorem literalOf_text (value : Int) : (literalOf value).text = printInt value := by
  rw [literalOf, Literal.text, (magnitudeOf_spec _).1, printInt]
  split <;> rfl

theorem literalOf_value (value : Int) : (literalOf value).value = value := by
  rw [literalOf, Literal.value, (magnitudeOf_spec _).2]
  split
  · simp only [Sign.negative, signedValue, if_true]
    omega
  · simp only [Sign.negative, signedValue, Bool.false_eq_true, if_false]
    omega

/-- The mnemonic of the immediate format that `funct3` stands for. -/
def immediateMnemonic (funct3 : Nat) : String :=
  match funct3 with
  | 0 => "addi"
  | 1 => "slli"
  | 2 => "slti"
  | 3 => "sltiu"
  | 4 => "xori"
  | 5 => "srli"
  | 6 => "ori"
  | _ => "andi"

def immediateLine (w : Word) : CString :=
  (immediateMnemonic (field w 12 3)).toList ++ ' ' :: ((RegName.x (regField w 7)).text ++
    ',' :: ' ' :: ((RegName.x (regField w 15)).text ++ ',' :: ' ' :: (literalOf (immI w)).text))

def canonicalOf : Instr → Option CanonicalLine
  | .reg op rd rs1 rs2 => some (.reg op (.x rd) (.x rs1) (.x rs2))
  | .load op rd rs1 imm => some (.load op (.x rd) (literalOf imm) (.x rs1))
  | .store op rs1 rs2 imm => some (.store op (.x rs2) (literalOf imm) (.x rs1))
  | .branch op rs1 rs2 imm => some (.branch op (.x rs1) (.x rs2) (literalOf imm))
  | .upper op rd imm => some (.upper op (.x rd) (literalOf imm))
  | .ecall => some .ecall
  | .imm .. | .shift .. | .jal .. | .jalr .. | .ebreak => none

def disassembleWord (w : Word) : Option CString :=
  if field w 0 7 = 0x13 then some (immediateLine w)
  else ((decode w).bind canonicalOf).map CanonicalLine.text

def textContent (line : CString) : Content :=
  ⟨"text".toList, line⟩

theorem isText_textContent (line : CString) : isText (textContent line).segment = true := rfl

def IsGraphic (s : CString) : Prop :=
  ∀ c ∈ s, isspace c = false ∧ c ≠ '\x00'

structure IsTail (s : CString) : Prop where
  nonempty : s ≠ []
  chars : ∀ c ∈ s, c ≠ '\n' ∧ c ≠ '\x00'
  back : s.rdropWhile isspace = s

theorem IsGraphic.chars {s : CString} (isGraphic : IsGraphic s) :
    ∀ c ∈ s, c ≠ '\n' ∧ c ≠ '\x00' := by
  intro c member
  obtain ⟨notBlank, notNul⟩ := isGraphic c member
  refine ⟨?_, notNul⟩
  rintro rfl
  cases notBlank

theorem IsGraphic.isTail {s : CString} (isGraphic : IsGraphic s) (nonempty : s ≠ []) :
    IsTail s := by
  refine ⟨nonempty, isGraphic.chars, List.rdropWhile_eq_self_iff.mpr fun given => ?_⟩
  rw [(isGraphic _ (List.getLast_mem given)).1]
  decide

theorem IsTail.prepend {front s : CString} (tail : IsTail s)
    (chars : ∀ c ∈ front, c ≠ '\n' ∧ c ≠ '\x00') : IsTail (front ++ s) := by
  refine ⟨List.append_ne_nil_of_right_ne_nil front tail.nonempty,
    List.forall_mem_append.mpr ⟨chars, tail.chars⟩, List.rdropWhile_eq_self_iff.mpr fun given => ?_⟩
  rw [List.getLast_append_of_ne_nil given tail.nonempty]
  exact List.rdropWhile_eq_self_iff.mp tail.back tail.nonempty

theorem IsTail.operand {text s : CString} (tail : IsTail s) (isGraphic : IsGraphic text) :
    IsTail (text ++ ',' :: ' ' :: s) := by
  have separated : IsTail (',' :: ' ' :: s) := @IsTail.prepend [',', ' '] s tail (by simp)
  exact separated.prepend isGraphic.chars

theorem RegName.isGraphic (name : RegName) : IsGraphic name.text := by
  have checked : name.text.all (fun c => !isspace c && c ≠ '\x00') = true := by
    cases name with
    | x n => revert n; decide
    | zero | ra | sp | gp | tp => decide
    | t n => revert n; decide
    | s n => revert n; decide
    | a n => revert n; decide
  intro c member
  simpa using List.all_eq_true.mp checked c member

theorem RegName.isTail (name : RegName) : IsTail name.text :=
  name.isGraphic.isTail name.isField.nonempty

theorem isGraphic_literal (literal : Literal) : IsGraphic literal.text := by
  intro c member
  rcases literal.text_chars member with rfl | rfl | rfl | rfl | digit
  · decide
  · decide
  · decide
  · decide
  · refine ⟨(isDigitOf_front (by decide) digit).1, ?_⟩
    rintro rfl
    cases digit

theorem isTail_literal (literal : Literal) : IsTail literal.text := by
  obtain ⟨c, s, front, -⟩ := literal.text_front
  exact (isGraphic_literal literal).isTail (front ▸ List.cons_ne_nil c s)

def IsOperands (s : CString) : Prop :=
  s = [] ∨ ∃ tail, s = ' ' :: tail ∧ IsTail tail

theorem CanonicalLine.isOperands (line : CanonicalLine) : IsOperands line.operands := by
  have base : ∀ (literal : Literal) (name : RegName),
      IsTail (literal.text ++ '(' :: (name.text ++ [')'])) := by
    intro literal name
    have close : IsTail [')'] := IsGraphic.isTail (by simp [IsGraphic, isspace]) (by simp)
    have inner : IsTail ('(' :: (name.text ++ [')'])) :=
      @IsTail.prepend ['('] _ (close.prepend name.isGraphic.chars) (by simp)
    exact inner.prepend (isGraphic_literal literal).chars
  cases line with
  | reg op rd rs1 rs2 =>
      exact Or.inr ⟨_, rfl, (rs2.isTail.operand rs1.isGraphic).operand rd.isGraphic⟩
  | imm op rd rs1 literal =>
      exact Or.inr ⟨_, rfl, ((isTail_literal literal).operand rs1.isGraphic).operand rd.isGraphic⟩
  | load op rd literal name => exact Or.inr ⟨_, rfl, (base literal name).operand rd.isGraphic⟩
  | loadBase op rd name => exact Or.inr ⟨_, rfl, name.isTail.operand rd.isGraphic⟩
  | store op src literal name => exact Or.inr ⟨_, rfl, (base literal name).operand src.isGraphic⟩
  | storeBase op src name => exact Or.inr ⟨_, rfl, name.isTail.operand src.isGraphic⟩
  | branch op rs1 rs2 literal =>
      exact Or.inr ⟨_, rfl, ((isTail_literal literal).operand rs2.isGraphic).operand rs1.isGraphic⟩
  | upper op rd literal => exact Or.inr ⟨_, rfl, (isTail_literal literal).operand rd.isGraphic⟩
  | ecall => exact Or.inl rfl

theorem instructions_front : ∀ instr ∈ instructions,
    instr.name.toList.head? ≠ some '#' ∧ instr.name.toList.head? ≠ some '.' ∧
      instr.name.toList.all (fun c => !isspace c && c ≠ '\x00') = true := by
  decide

theorem isTidy_of_tail {segment line : CString} (isGraphic : IsGraphic segment)
    (segmentShort : segment.length ≤ 8) (tail : IsTail line) (front : Stops isspace line)
    (notComment : line.head? ≠ some '#') (notDot : line.head? ≠ some '.')
    (short : line.length < lineBufLen) : Content.IsTidy ⟨segment, line⟩ := by
  have dotted : IsTail ('.' :: segment) := by
    refine IsGraphic.isTail (fun c member => ?_) (List.cons_ne_nil _ _)
    rcases List.mem_cons.mp member with rfl | later
    · decide
    · exact isGraphic c later
  have segmentTrimmed : IsTrimmed ('.' :: segment) :=
    ⟨by simp [isspace], dotted.back, fun newline => (dotted.chars _ newline).1 rfl,
      fun c member => (dotted.chars c member).2⟩
  have room : ('.' :: segment).length < lineBufLen := by
    rw [List.length_cons]
    simp only [lineBufLen]
    omega
  exact ⟨⟨segmentTrimmed, List.cons_ne_nil _ _, room⟩, ⟨⟨front, tail.back,
    fun newline => (tail.chars _ newline).1 rfl, fun c member => (tail.chars c member).2⟩,
    tail.nonempty, short⟩, tail.nonempty, front, notComment, notDot, short⟩

theorem isTidy_textContent {name : String} {instr : Instruction} {operands : CString}
    (found : findInstruction name.toList = some instr) (isOperands : IsOperands operands)
    (short : (name.toList ++ operands).length < lineBufLen) :
    (textContent (name.toList ++ operands)).IsTidy := by
  have isToken := findInstruction_isToken found
  obtain ⟨notComment, notDot, graphic⟩ :=
    instructions_front instr (List.mem_of_find?_eq_some found)
  rw [findInstruction_name found] at notComment notDot graphic
  have isGraphic : IsGraphic name.toList := by
    intro c member
    simpa using List.all_eq_true.mp graphic c member
  have tail : IsTail (name.toList ++ operands) := by
    rcases isOperands with rfl | ⟨tail, rfl, isTail⟩
    · rw [List.append_nil]
      exact isGraphic.isTail isToken.nonempty
    · have blank : IsTail (' ' :: tail) := @IsTail.prepend [' '] tail isTail (by simp)
      exact blank.prepend isGraphic.chars
  have front : Stops isspace (name.toList ++ operands) :=
    (stops_append isToken.nonempty operands).mpr (stops_of_rejected isToken.noBlank)
  have head : (name.toList ++ operands).head? = name.toList.head? :=
    List.head?_append_of_ne_nil _ isToken.nonempty
  exact isTidy_of_tail (by simp [IsGraphic, isspace]) (by decide) tail front (head ▸ notComment)
    (head ▸ notDot) short

/-! ### Reading the line of a word -/

theorem immediateRecord {funct3 : Nat} (small : funct3 < 8) :
    ∃ instr, Record (immediateMnemonic funct3) .I 0x13 instr ∧ instr.funct3.toNat = funct3 ∧
      isLoadStore (immediateMnemonic funct3).toList = false := by
  interval_cases funct3 <;> exact ⟨_, ⟨rfl, rfl, rfl⟩, rfl, by decide⟩

theorem assembleIType_immI {instr : Instruction} (fits : instr.Fits) {w : Word}
    (opcode : instr.opcode.toNat = field w 0 7) (funct3 : instr.funct3.toNat = field w 12 3) :
    assembleIType instr (regByte (regField w 15)) (BitVec.ofInt 32 (immI w))
      (regByte (regField w 7)) = w := by
  obtain ⟨hopcode, hRd, hfunct3, hRs1, hImm⟩ := assembleIType_fields fits
    (regByte_lt (regField w 15)) (regByte_lt (regField w 7)) (BitVec.ofInt 32 (immI w)) _ rfl
  generalize assembleIType instr (regByte (regField w 15)) (BitVec.ofInt 32 (immI w))
    (regByte (regField w 7)) = assembled at *
  rw [toReg_regByte] at hRd hRs1
  have bits : (BitVec.ofInt 32 (immI w)).toNat % 2 ^ 12 = field w 20 12 := by
    have value := ofInt_toNat_mod (immI w) 12 (by decide)
    rw [← (immI_range w).1, immBits, ← value, Int.toNat_natCast]
  have sameRd : field assembled 7 5 = field w 7 5 := congrArg Fin.val hRd
  have sameRs1 : field assembled 15 5 = field w 15 5 := congrArg Fin.val hRs1
  rw [← pack_fields assembled, ← pack_fields w, hopcode, hfunct3, hImm, opcode, funct3, bits,
    sameRd, sameRs1]

theorem readFragment_immediateLine {w : Word} (opcode : field w 0 7 = 0x13) :
    readFragment .native (textContent (immediateLine w)) = some (.code (wordBytes w)) := by
  obtain ⟨instr, record, funct3, notLoadStore⟩ := immediateRecord (field_lt w 12 3)
  have isToken := findInstruction_isToken record.found
  have range := (immI_range w).2
  have scanned : scanITypeOperands .native (immediateLine w)
      (immediateMnemonic (field w 12 3)).toList =
        .ok ((RegName.x (regField w 7)).text, immI w, (RegName.x (regField w 15)).text) := by
    have kept : saturate Build.native.longBits (literalOf (immI w)).value = immI w := by
      rw [literalOf_value, saturate_longBits .native (by omega) (by omega)]
    simp only [scanITypeOperands, notLoadStore, immediateLine, Bool.false_eq_true, if_false,
      sscanf_formatI isToken (RegName.x (regField w 7)).isField
        (RegName.x (regField w 15)).isField .native (literalOf (immI w)), kept]
  have checked : checkImmediate (immI w) int12Min int12Max = .ok () :=
    checkImmediate_ok_iff.mpr (by simp only [int12Min, int12Max]; omega)
  have instruction : lineInstruction (immediateLine w) = .ok instr :=
    lineInstruction_of_found record.found (by simp [isspace])
  have words : lineWords .native (initCtx 0) (immediateLine w) 0 = .ok [w] := by
    rw [lineWords_of_real instruction (by rw [record.type]; decide),
      findInstruction_name record.found, encode_of_scanIType record.type scanned, checked]
    simp only [handleITypeInstr, ((RegName.x (regField w 7)).names .native).parsed,
      ((RegName.x (regField w 15)).names .native).parsed, ok_bind, pure_eq_ok, Except.map]
    rw [show (RegName.x (regField w 15)).number = regField w 15 from rfl,
      show (RegName.x (regField w 7)).number = regField w 7 from rfl,
      assembleIType_immI (findInstruction_fits record.found) (record.opcode.trans opcode.symm)
        funct3]
  have notLa : ¬ IsLa (textContent (immediateLine w)).line :=
    not_isLa_printed record.found (by simp [isspace])
      (ne_la_of_real record.found (by rw [record.type]; decide))
  rw [readFragment_of_words (isText_textContent _) notLa words, List.flatMap_singleton]

theorem canonicalOf_spec {instr : Instr} {line : CanonicalLine} (encodable : instr.Encodable)
    (spelled : canonicalOf instr = some line) : line.InRange ∧ line.instr = instr := by
  cases instr with
  | reg op rd rs1 rs2 =>
      cases spelled
      exact ⟨trivial, rfl⟩
  | load op rd rs1 imm =>
      cases spelled
      simp only [CanonicalLine.InRange, CanonicalLine.instr, literalOf_value]
      simp only [Instr.Encodable] at encodable
      exact ⟨by omega, rfl⟩
  | store op rs1 rs2 imm =>
      cases spelled
      simp only [CanonicalLine.InRange, CanonicalLine.instr, literalOf_value]
      simp only [Instr.Encodable] at encodable
      exact ⟨by omega, rfl⟩
  | branch op rs1 rs2 imm =>
      cases spelled
      simp only [CanonicalLine.InRange, CanonicalLine.instr, literalOf_value]
      simp only [Instr.Encodable] at encodable
      exact ⟨by omega, rfl⟩
  | upper op rd imm =>
      cases spelled
      simp only [CanonicalLine.InRange, CanonicalLine.instr, literalOf_value]
      simp only [Instr.Encodable] at encodable
      have kept : ((imm : Int) % 2 ^ 20).toNat = imm := by omega
      rw [kept]
      exact ⟨by omega, rfl⟩
  | ecall =>
      cases spelled
      exact ⟨trivial, rfl⟩
  | imm | shift | jal | jalr | ebreak => cases spelled

theorem readFragment_canonicalOf {w : Word} {instr : Instr} {line : CanonicalLine}
    (decoded : decode w = some instr) (spelled : canonicalOf instr = some line) :
    readFragment .native (textContent line.text) = some (.code (wordBytes w)) := by
  obtain ⟨same, encodable⟩ := wordOf_of_decode decoded
  obtain ⟨inRange, instrEq⟩ := canonicalOf_spec encodable spelled
  have isItem : (textContent line.text).IsItem (.text (.plain line)) :=
    ⟨isText_textContent _, rfl⟩
  have read := (@Statement.readFragment _ (.plain line) trivial isItem).1 inRange
  rw [read]
  simp [Statement.fragment, instrsBytes, instrEq, same]

theorem RegName.text_length (name : RegName) : name.text.length ≤ 4 :=
  name.isField.short

theorem literalOf_length {value : Int} (low : -(2 ^ 31 : Int) ≤ value) (high : value < 2 ^ 31) :
    (literalOf value).text.length ≤ 11 :=
  literalOf_text value ▸ printInt_length_le low high

theorem mnemonic_length {name : String} {instr : Instruction}
    (found : findInstruction name.toList = some instr) : name.toList.length ≤ 63 :=
  (findInstruction_isToken found).short

theorem isTidy_immediateLine (w : Word) : (textContent (immediateLine w)).IsTidy := by
  obtain ⟨instr, record, -⟩ := immediateRecord (field_lt w 12 3)
  have range := (immI_range w).2
  have mnemonic := mnemonic_length record.found
  have rd := (RegName.x (regField w 7)).text_length
  have rs1 := (RegName.x (regField w 15)).text_length
  have literal := @literalOf_length (immI w) (by omega) (by omega)
  refine isTidy_textContent record.found (Or.inr ⟨_, rfl, ?_⟩) ?_
  · exact ((isTail_literal _).operand (RegName.isGraphic _)).operand (RegName.isGraphic _)
  · simp only [List.length_append, List.length_cons, lineBufLen]
    omega

theorem isTidy_canonicalOf {instr : Instr} {line : CanonicalLine} (encodable : instr.Encodable)
    (spelled : canonicalOf instr = some line) : (textContent line.text).IsTidy := by
  obtain ⟨record, encoded⟩ := line.exists_encoded .native
  have mnemonic := mnemonic_length encoded.found
  refine isTidy_textContent encoded.found line.isOperands ?_
  have operands : line.operands.length ≤ 64 := by
    cases instr with
    | reg op rd rs1 rs2 =>
        cases spelled
        have first := (RegName.x rd).text_length
        have second := (RegName.x rs1).text_length
        have third := (RegName.x rs2).text_length
        simp only [CanonicalLine.operands, List.length_append, List.length_cons]
        omega
    | load op rd rs1 imm | store op rd rs1 imm =>
        cases spelled
        have first := (RegName.x rd).text_length
        have second := (RegName.x rs1).text_length
        simp only [Instr.Encodable] at encodable
        have literal := @literalOf_length imm (by omega) (by omega)
        simp only [CanonicalLine.operands, List.length_append, List.length_cons, List.length_nil]
        omega
    | branch op rs1 rs2 imm =>
        cases spelled
        have first := (RegName.x rs1).text_length
        have second := (RegName.x rs2).text_length
        simp only [Instr.Encodable] at encodable
        have literal := @literalOf_length imm (by omega) (by omega)
        simp only [CanonicalLine.operands, List.length_append, List.length_cons]
        omega
    | upper op rd imm =>
        cases spelled
        have first := (RegName.x rd).text_length
        simp only [Instr.Encodable] at encodable
        have literal := @literalOf_length imm (by omega) (by omega)
        simp only [CanonicalLine.operands, List.length_append, List.length_cons]
        omega
    | ecall =>
        cases spelled
        exact Nat.zero_le _
    | imm | shift | jal | jalr | ebreak => cases spelled
  rw [List.length_append]
  simp only [lineBufLen]
  omega

/-- The line of a word is printed as it is, and read as the word. -/
theorem disassembleWord_spec {w : Word} {line : CString} (printed : disassembleWord w = some line) :
    (textContent line).IsTidy ∧
      readFragment .native (textContent line) = some (.code (wordBytes w)) := by
  unfold disassembleWord at printed
  split at printed
  · rename_i opcode
    cases printed
    exact ⟨isTidy_immediateLine w, readFragment_immediateLine opcode⟩
  · obtain ⟨canonical, spelled, rfl⟩ := Option.map_eq_some_iff.mp printed
    obtain ⟨instr, decoded, spelled⟩ := Option.bind_eq_some_iff.mp spelled
    exact ⟨isTidy_canonicalOf (wordOf_of_decode decoded).2 spelled,
      readFragment_canonicalOf decoded spelled⟩

/-- Every emittable word has a line. -/
theorem exists_disassembleWord {w : Word} (emittable : Emittable w) :
    ∃ line, disassembleWord w = some line := by
  unfold disassembleWord
  by_cases opcode : field w 0 7 = 0x13
  · exact ⟨_, if_pos opcode⟩
  · obtain ⟨instr, decoded, listed⟩ := emittable.resolve_left opcode
    rw [if_neg opcode, decoded, Option.bind_some]
    have packed := (wordOf_of_decode decoded).1
    cases instr with
    | reg | load | store | branch | upper | ecall => exact ⟨_, rfl⟩
    | imm | shift =>
        rw [← packed, wordOf] at opcode
        exact absurd (opcode_pack (by decide) _ _ _ _) opcode
    | jal | jalr | ebreak => exact listed.elim

theorem exists_disassembled {words : List Word} (emittable : ∀ w ∈ words, Emittable w) :
    ∃ lines, words.mapM disassembleWord = some lines ∧
      List.Forall₂ (fun w line => disassembleWord w = some line) words lines := by
  induction words with
  | nil => exact ⟨[], rfl, .nil⟩
  | cons w words ih =>
      obtain ⟨emittableFirst, emittableRest⟩ := List.forall_mem_cons.mp emittable
      obtain ⟨line, first⟩ := exists_disassembleWord emittableFirst
      obtain ⟨lines, rest, each⟩ := ih emittableRest
      exact ⟨line :: lines, by rw [List.mapM_cons, first, rest]; rfl, .cons first each⟩

theorem readAs_disassembled {words : List Word} {lines : List CString}
    (each : List.Forall₂ (fun w line => disassembleWord w = some line) words lines) :
    (∀ content ∈ lines.map textContent, content.IsTidy) ∧
      ReadAs .native (lines.map textContent) ((words.map wordBytes).map .code) := by
  induction each with
  | nil => exact ⟨fun content member => absurd member List.not_mem_nil, .nil⟩
  | @cons w line words lines first rest ih =>
      obtain ⟨isTidy, read⟩ := disassembleWord_spec first
      exact ⟨List.forall_mem_cons.mpr ⟨isTidy, ih.1⟩, .cons read ih.2⟩

end RiscvAs
