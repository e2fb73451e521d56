/-
Disassembling an executable.

The text of the output is printed word by word, its data sixteen bytes a line.  The
listing is assembled to the same output again, so the files that the assembler can
write are those of emittable words and of any data that has room.
-/

import RiscvAs.Disassembly
import RiscvAs.Executable
import RiscvAs.WrittenImage

namespace RiscvAs

open Stdio
open Bytes (Byte)
open Rv32
open Relocation (Fragment)

def byteOperand (byte : Byte) : DataOperand :=
  ⟨[], literalOf byte.toNat, [], isspace_of_mem_nil, isspace_of_mem_nil⟩

/-- The names are `d0` to `d127`. -/
def pieceName (i : Nat) : CString :=
  'd' :: Nat.toDigits 10 (i % maxSymbols)

theorem isLabelName_piece (i : Nat) : IsLabelName (pieceName i) := by
  have every : ∀ i : Fin maxSymbols, IsLabelName ('d' :: Nat.toDigits 10 i) := by decide +kernel
  exact every ⟨i % maxSymbols, Nat.mod_lt i (by decide)⟩

/-- Sixteen bytes a line, as long as there are names. -/
def byteDefinitions : Nat → List Byte → List Definition
  | 0, _ | _ + 1, [] => []
  | count + 1, byte :: bytes =>
      { label := pieceName count
        isName := isLabelName_piece count
        value := .numbers ".byte".toList rfl (byteOperand byte)
          ((bytes.take 15).map byteOperand) } ::
        byteDefinitions count (bytes.drop 15)

def dataContent (definition : Definition) : Content :=
  ⟨"data".toList, definition.line.text⟩

def wordsOf : List Byte → List Word
  | b0 :: b1 :: b2 :: b3 :: bytes =>
      BitVec.ofNat 32 (Bytes.ofLittleEndian [b0, b1, b2, b3]) :: wordsOf bytes
  | _ => []

def listing (image : Image) : Option (List Char) :=
  ((wordsOf image.text).mapM disassembleWord).map (fun lines => printContents
    (lines.map textContent ++ (byteDefinitions maxSymbols image.data).map dataContent))

def disassembleFile (file : List Byte) : Option (List Char) :=
  (readImage file).bind listing

example : listing ⟨0, [0x73, 0, 0, 0], [1, 255], 0⟩ =
    some ".text\necall\n.data\nd127: .byte 1,255\n".toList := by decide +kernel

theorem wordsOf_wordBytes (words : List Word) : wordsOf (words.flatMap wordBytes) = words := by
  induction words with
  | nil => rfl
  | cons w words ih =>
      have whole := ofLittleEndian_wordBytes w
      obtain ⟨b0, b1, b2, b3, bytes⟩ : ∃ b0 b1 b2 b3, wordBytes w = [b0, b1, b2, b3] :=
        ⟨_, _, _, _, rfl⟩
      rw [bytes] at whole
      rw [List.flatMap_cons, bytes]
      show BitVec.ofNat 32 (Bytes.ofLittleEndian [b0, b1, b2, b3]) ::
        wordsOf (words.flatMap wordBytes) = _
      rw [whole, ih]

theorem byteOperand_value (byte : Byte) : (byteOperand byte).value = byte.toNat :=
  literalOf_value _

theorem elementBytes_byte (byte : Byte) : elementBytes 1 byte.toNat = [byte] := by
  have bound := byte.isLt
  have kept : ((byte.toNat : Int) % 2 ^ (8 * 1)).toNat = byte.toNat := by omega
  rw [elementBytes, kept]
  simp [Bytes.littleEndian]

theorem byteValue_bytes (byte : Byte) (bytes : List Byte) :
    (DataValue.numbers ".byte".toList rfl (byteOperand byte) (bytes.map byteOperand)).bytes =
      byte :: bytes := by
  have each : ∀ bytes : List Byte, (bytes.map byteOperand).flatMap
      (fun operand => elementBytes (integerStep ".byte".toList) operand.value) = bytes := by
    intro bytes
    induction bytes with
    | nil => rfl
    | cons byte bytes ih =>
        rw [List.map_cons, List.flatMap_cons, ih, byteOperand_value,
          show integerStep ".byte".toList = 1 from rfl, elementBytes_byte]
        rfl
  exact each (byte :: bytes)

theorem byteValue_meaningful (byte : Byte) (bytes : List Byte) :
    (DataValue.numbers ".byte".toList rfl (byteOperand byte)
      (bytes.map byteOperand)).Meaningful := by
  intro operand member
  rw [← List.map_cons] at member
  obtain ⟨byte', -, rfl⟩ := List.mem_map.mp member
  have bound := byte'.isLt
  rw [byteOperand_value, show integerStep ".byte".toList = 1 from rfl, InElement]
  omega

section Definitions

variable {definition : Definition}

theorem byteDefinitions_meaningful {count : Nat} {bytes : List Byte}
    (member : definition ∈ byteDefinitions count bytes) : definition.value.Meaningful := by
  induction count, bytes using byteDefinitions.induct with
  | case1 | case2 => cases member
  | case3 count byte bytes ih =>
      rcases List.mem_cons.mp member with rfl | later
      · exact byteValue_meaningful byte _
      · exact ih later

theorem byteDefinitions_bytes {count : Nat} {bytes : List Byte}
    (enough : bytes.length ≤ 16 * count) :
    (byteDefinitions count bytes).flatMap (fun definition => definition.value.bytes) = bytes := by
  induction count, bytes using byteDefinitions.induct with
  | case1 bytes =>
      rw [Nat.le_zero, List.length_eq_zero_iff] at enough
      rw [enough]
      rfl
  | case2 => rfl
  | case3 count byte bytes ih =>
      rw [byteDefinitions, List.flatMap_cons, byteValue_bytes, ih, List.cons_append,
        List.take_append_drop]
      rw [List.length_drop]
      rw [List.length_cons] at enough
      omega

theorem pieceName_injective {i j : Nat} (small : i < maxSymbols) (small' : j < maxSymbols)
    (same : pieceName i = pieceName j) : i = j := by
  have digits := congrArg (digitsValue 10 0) (List.cons.inj same).2
  rwa [digitsValue_toDigits, digitsValue_toDigits, Nat.mod_eq_of_lt small,
    Nat.mod_eq_of_lt small'] at digits

theorem byteDefinitions_labels (count : Nat) (bytes : List Byte) :
    (byteDefinitions count bytes).map Definition.label <+:
      (List.range count).reverse.map pieceName := by
  induction count, bytes using byteDefinitions.induct with
  | case1 | case2 => exact List.nil_prefix
  | case3 count byte bytes ih =>
      rw [List.range_succ, List.reverse_append]
      exact List.cons_prefix_cons.mpr ⟨rfl, ih⟩

theorem byteDefinitions_distinct (bytes : List Byte) :
    ((byteDefinitions maxSymbols bytes).map Definition.label).Nodup ∧
      (byteDefinitions maxSymbols bytes).length ≤ maxSymbols := by
  have front := byteDefinitions_labels maxSymbols bytes
  have names : ((List.range maxSymbols).reverse.map pieceName).Nodup := by
    refine List.Nodup.map_on ?_ (List.nodup_reverse.mpr List.nodup_range)
    intro i member j member' same
    rw [List.mem_reverse, List.mem_range] at member member'
    exact pieceName_injective member member' same
  have length := front.length_le
  rw [List.length_map, List.length_map, List.length_reverse, List.length_range] at length
  exact ⟨names.sublist front.sublist, length⟩

/-! ### Printing definitions -/

theorem isTail_operandList (byte : Byte) (bytes : List Byte) :
    IsTail (operandList ((byte :: bytes).map byteOperand)) ∧
      (operandList ((byte :: bytes).map byteOperand)).length ≤ 12 * bytes.length + 11 := by
  have text : ∀ byte, (byteOperand byte).text = (literalOf byte.toNat).text := by
    intro byte
    simp [DataOperand.text, byteOperand]
  have short : ∀ byte : Byte, (literalOf byte.toNat).text.length ≤ 11 := by
    intro byte
    have bound := byte.isLt
    exact literalOf_length (by omega) (by omega)
  induction bytes generalizing byte with
  | nil =>
      have single : operandList ([byte].map byteOperand) = (literalOf byte.toNat).text := by
        simp [operandList, text]
      rw [single]
      exact ⟨isTail_literal _, short byte⟩
  | cons next bytes ih =>
      obtain ⟨isTail, length⟩ := ih next
      have split : operandList ((byte :: next :: bytes).map byteOperand) =
          (literalOf byte.toNat).text ++
            ([','] ++ operandList ((next :: bytes).map byteOperand)) := by
        simp [operandList, text, List.intercalate]
      have first := short byte
      have comma : IsTail ([','] ++ operandList ((next :: bytes).map byteOperand)) :=
        isTail.prepend (by simp)
      rw [split]
      refine ⟨comma.prepend (isGraphic_literal _).chars, ?_⟩
      simp only [List.length_append, List.length_cons, List.length_nil]
      omega

theorem byteDefinitions_isTidy {count : Nat} {bytes : List Byte}
    (member : definition ∈ byteDefinitions count bytes) : (dataContent definition).IsTidy := by
  induction count, bytes using byteDefinitions.induct with
  | case1 | case2 => cases member
  | case3 count byte bytes ih =>
      rcases List.mem_cons.mp member with rfl | later
      · obtain ⟨isTail, length⟩ := isTail_operandList byte (bytes.take 15)
        have taken := List.length_take_le 15 bytes
        have isName := isLabelName_piece count
        have nameShort := isName.short
        have split : (Definition.line ⟨pieceName count, isName, .numbers ".byte".toList rfl
            (byteOperand byte) ((bytes.take 15).map byteOperand)⟩).text =
            pieceName count ++ (": .byte ".toList ++
              operandList ((byte :: bytes.take 15).map byteOperand)) := by
          simp [DataLine.text, Definition.line, DataValue.directive, DataValue.args]
        have graphic : IsGraphic (pieceName count) := fun c member =>
          ⟨isName.noBlank c member, isName.noNul c member⟩
        have front := (isTail.prepend (by simp) :
          IsTail (": .byte ".toList ++ operandList _)).prepend graphic.chars
        rw [dataContent, split]
        refine isTidy_of_tail (by simp [IsGraphic, isspace]) (by decide) front ?_ ?_ ?_ ?_
        · simp [pieceName, isspace]
        · simp [pieceName]
        · simp [pieceName]
        · simp only [labelLen] at nameShort
          have middle : ": .byte ".toList.length = 8 := rfl
          rw [List.length_append, List.length_append, middle]
          simp only [lineBufLen]
          omega
      · exact ih later

theorem readAs_byteDefinitions (count : Nat) (bytes : List Byte) :
    ReadAs .native ((byteDefinitions count bytes).map dataContent)
      (Relocation.dataFragments ((byteDefinitions count bytes).map
        (fun definition => (definition.label, definition.value.bytes)))) := by
  rw [ReadAs, Relocation.dataFragments, List.map_map, List.forall₂_map_left_iff,
    List.forall₂_map_right_iff, List.forall₂_same]
  intro definition member
  exact Definition.readFragment (byteDefinitions_meaningful member) ⟨rfl, rfl⟩

end Definitions

def imageFragments (words : List Word) (entries : List (CString × List Byte)) :
    List (Fragment CString Byte) :=
  (words.map wordBytes).map .code ++ Relocation.dataFragments entries

section Image

variable {words : List Word} {entries : List (CString × List Byte)}

theorem linkedText_image :
    Relocation.linkedText (imageFragments words entries) = words.flatMap wordBytes := by
  rw [Relocation.linkedText, imageFragments, Relocation.text_append, Relocation.text_code,
    Relocation.text_data, List.append_nil, List.flatMap_def]

theorem dataBytes_image :
    Relocation.dataBytes (imageFragments words entries) = entries.flatMap Prod.snd := by
  rw [imageFragments, Relocation.dataBytes_append, Relocation.dataBytes_code, List.nil_append,
    Relocation.dataBytes_data]

theorem names_image :
    Relocation.names (imageFragments words entries) = entries.map Prod.fst := by
  rw [imageFragments, Relocation.names_append, Relocation.names_code, List.nil_append,
    Relocation.names_data]

theorem fits_image (room : 4 * words.length ≤ dataSize)
    (dataRoom : (entries.flatMap Prod.snd).length ≤ dataSize)
    (distinct : (entries.map Prod.fst).Nodup) (few : entries.length ≤ maxSymbols) :
    Fits (imageFragments words entries) := by
  refine ⟨?_, ?_, ?_, ?_, ?_⟩
  · rw [← Relocation.text_length (Relocation.place (imageFragments words entries)) 0,
      ← Relocation.linkedText, linkedText_image, wordsBytes_length]
    exact room
  · rwa [dataBytes_image]
  · rwa [names_image]
  · rwa [names_image, List.length_map]
  · exact Relocation.defined_append.mpr
      ⟨Relocation.defined_code _ _, Relocation.defined_data _ _⟩

end Image

/-- The listing of an image is assembled to its text and its data. -/
theorem listing_assembles {words : List Word} {image : Image}
    (text : image.text = words.flatMap wordBytes) (emittable : ∀ w ∈ words, Emittable w)
    (room : 4 * words.length ≤ dataSize) (dataRoom : image.data.length ≤ dataSize)
    (baseVaddr : Word) :
    ∃ source ctx1 ctx2, listing image = some source ∧
      Accepted .native baseVaddr source ctx1 ctx2 ∧
      ctx2.textSegment.bytes = image.text ∧ ctx2.dataSegment.bytes = image.data := by
  obtain ⟨lines, printed, each⟩ := exists_disassembled emittable
  obtain ⟨isTidyText, readText⟩ := readAs_disassembled each
  obtain ⟨distinct, few⟩ := byteDefinitions_distinct image.data
  let definitions := byteDefinitions maxSymbols image.data
  let entries := definitions.map (fun definition => (definition.label, definition.value.bytes))
  have bytes : entries.flatMap Prod.snd = image.data := by
    rw [List.flatMap_map]
    exact byteDefinitions_bytes dataRoom
  have fits : Fits (imageFragments words entries) :=
    fits_image room (by rwa [bytes]) (by rwa [List.map_map]) (by rwa [List.length_map])
  have isTidy : ∀ content ∈ lines.map textContent ++ definitions.map dataContent,
      content.IsTidy := by
    refine List.forall_mem_append.mpr ⟨isTidyText, ?_⟩
    intro content member
    obtain ⟨definition, inData, rfl⟩ := List.mem_map.mp member
    exact byteDefinitions_isTidy inData
  have read : ReadAs .native (lines.map textContent ++ definitions.map dataContent)
      (imageFragments words entries) :=
    List.rel_append readText (readAs_byteDefinitions maxSymbols image.data)
  rw [← sourceContents_printContents isTidy] at read
  obtain ⟨ctx1, ctx2, accepted, links⟩ := accepted_of_readAs baseVaddr read fits
  refine ⟨_, ctx1, ctx2, ?_, accepted, ?_, ?_⟩
  · rw [listing, text, wordsOf_wordBytes, printed, Option.map_some]
  · rw [links.text, linkedText_image, text]
  · rw [links.data, dataBytes_image, bytes]

/-- The images of accepted files are those of emittable words, and of any bytes as data, that
have room. -/
theorem assembled_iff_emittable (baseVaddr : Word) (text data : List Byte) :
    (∃ source ctx1 ctx2, Accepted .native baseVaddr source ctx1 ctx2 ∧
        ctx2.textSegment.bytes = text ∧ ctx2.dataSegment.bytes = data) ↔
      data.length ≤ dataSize ∧ ∃ words : List Word, 4 * words.length ≤ dataSize ∧
        (∀ w ∈ words, Emittable w) ∧ text = words.flatMap wordBytes := by
  constructor
  · rintro ⟨source, ctx1, ctx2, accepted, rfl, rfl⟩
    obtain ⟨fragments, -, fits, links⟩ := accepted.readAs
    exact ⟨links.data ▸ fits.data, accepted.exists_words⟩
  · rintro ⟨dataRoom, words, room, emittable, rfl⟩
    obtain ⟨source, ctx1, ctx2, -, accepted, text, data⟩ := @listing_assembles words
      ⟨baseVaddr, words.flatMap wordBytes, data, 0⟩ rfl emittable room dataRoom baseVaddr
    exact ⟨source, ctx1, ctx2, accepted, text, data⟩

section Accepted

variable {build : Build} {source : List Char} {baseVaddr : Word} {ctx1 ctx2 : AssemblerCtx}
  (accepted : Accepted build baseVaddr source ctx1 ctx2)

include accepted

/-- The listing of an output file is assembled to the same file. -/
theorem disassembleFile_reassembles :
    ∃ listed ctx1' ctx2', disassembleFile (writer32 ctx2 baseVaddr) = some listed ∧
      Accepted .native baseVaddr listed ctx1' ctx2' ∧
      writer32 ctx2' baseVaddr = writer32 ctx2 baseVaddr := by
  obtain ⟨words, room, emittable, text⟩ := accepted.exists_words
  obtain ⟨fragments, -, fits, links⟩ := accepted.readAs
  have bss := accepted.bss_size
  have dataRoom : ctx2.dataSegment.bytes.length ≤ dataSize := links.data ▸ fits.data
  obtain ⟨listed, ctx1', ctx2', printed, accepted', text', data'⟩ :=
    @listing_assembles words (ctx2.image baseVaddr) text emittable room dataRoom baseVaddr
  refine ⟨listed, ctx1', ctx2', ?_, accepted', writer32_congr ?_⟩
  · rw [disassembleFile, readImage_of_small accepted.shoff_small (by omega)]
    exact printed
  · rw [AssemblerCtx.image, text', data', accepted'.bss_size, AssemblerCtx.image, bss]

end Accepted

theorem disassembleFile_reassembles_example :
    ∃ listed ctx1 ctx2,
      disassembleFile (writer32 exampleAssembled 0x80000000) = some listed ∧
      Accepted .native 0x80000000 listed ctx1 ctx2 ∧
      writer32 ctx2 0x80000000 = writer32 exampleAssembled 0x80000000 :=
  disassembleFile_reassembles exampleSource_accepted

end RiscvAs
