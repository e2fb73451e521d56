/-
The file of `writer32` as a loader sees it.

`writer32`, `get_text_vaddr`, `get_data_vaddr` and the order of the writes each
say where the segments are; here they are found to say the same, from the bytes
of the file alone.
-/

import RiscvAs.ElfReader

namespace RiscvAs

open Bytes (Byte)
open Rv32 (Word)

def asciiBytes (text : String) : List Byte :=
  text.toList.map (fun c => BitVec.ofNat 8 c.toNat)

/-- Ranges of a file, offset and length, that follow each other from `start` to `finish`. -/
def Tiles : Nat → List (Nat × Nat) → Nat → Prop
  | start, [], finish => start = finish
  | start, range :: ranges, finish => range.1 = start ∧ Tiles (start + range.2) ranges finish

structure Describes (file : List Byte) (header : Elf32Shdr) (name : String) (bytes : List Byte) :
    Prop where
  name : sectionName file header = some (asciiBytes name)
  size : header.size.toNat = bytes.length
  range : (file.drop header.offset.toNat).take header.size.toNat = bytes

structure Sections (ctx : AssemblerCtx) (baseVaddr : Word) (file : List Byte)
    (null text data bss strings : Elf32Shdr) : Prop where
  table : sectionHeadersOf file = [null, text, data, bss, strings]
  textRange : Describes file text ".text" ctx.textSegment.bytes
  textAddr : text.addr = getTextVaddr baseVaddr
  dataRange : Describes file data ".data" ctx.dataSegment.bytes
  dataAddr : data.addr = getDataVaddr ctx baseVaddr
  bssName : sectionName file bss = some (asciiBytes ".bss")
  bssAddr : bss.addr = getDataVaddr ctx baseVaddr + BitVec.ofNat 32 ctx.dataSegment.size
  bssSize : bss.size.toNat = ctx.bssSegment.size
  stringsRange : Describes file strings ".shstrtab" shstrtab
  ranges : Tiles 0
    [ (0, (elfHeaderOf file).ehsize.toNat),
      ((elfHeaderOf file).phoff.toNat,
        (elfHeaderOf file).phnum.toNat * (elfHeaderOf file).phentsize.toNat),
      (text.offset.toNat, text.size.toNat),
      (data.offset.toNat, data.size.toNat),
      (strings.offset.toNat, strings.size.toNat),
      ((elfHeaderOf file).shoff.toNat,
        (elfHeaderOf file).shnum.toNat * (elfHeaderOf file).shentsize.toNat) ]
    file.length

/-- The file loads to the layout of the context. -/
structure LoadsLayout (ctx : AssemblerCtx) (baseVaddr : Word) (file : List Byte) : Prop where
  program : ∃ header, programHeadersOf file = [header] ∧ header.type = ptLoad
  text : ∀ memory, ∀ i < ctx.textSegment.size,
    loadElf file memory (getTextVaddr baseVaddr + BitVec.ofNat 32 i) = ctx.textSegment.data i
  data : ∀ memory, ∀ j < ctx.dataSegment.size,
    loadElf file memory (getDataVaddr ctx baseVaddr + BitVec.ofNat 32 j) = ctx.dataSegment.data j
  bss : ∀ memory, ∀ k < ctx.bssSegment.size,
    loadElf file memory (getDataVaddr ctx baseVaddr +
      BitVec.ofNat 32 (ctx.dataSegment.size + k)) = 0
  entry : (elfHeaderOf file).entry = getTextVaddr baseVaddr
  sections : ∃ null text data bss strings, Sections ctx baseVaddr file null text data bss strings

theorem drop_take_middle (before middle after : List Byte) :
    ((before ++ (middle ++ after)).drop before.length).take middle.length = middle := by
  rw [List.drop_left, List.take_left]

theorem getElem?_middle (before middle after : List Byte) {i : Nat} (inside : i < middle.length) :
    (before ++ (middle ++ after))[before.length + i]? = middle[i]? := by
  rw [List.getElem?_append_right (Nat.le_add_right _ _), Nat.add_sub_cancel_left,
    List.getElem?_append_left inside]

theorem Segment.bytes_getElem? (segment : Segment) {i : Nat} (inside : i < segment.size) :
    segment.bytes[i]? = some (segment.data i) :=
  Bytes.window_getElem? segment.data inside

section Parts

variable (ctx : AssemblerCtx) (baseVaddr : Word)

def headerBytes : List Byte :=
  (elfHeader ctx baseVaddr).bytes ++ (programHeader ctx baseVaddr).bytes

theorem headerBytes_length : (headerBytes ctx baseVaddr).length = fileTextOffset := by
  rw [headerBytes, List.length_append, elfHeader_bytes_length, programHeader_bytes_length]
  rfl

theorem headerText_length :
    (headerBytes ctx baseVaddr ++ ctx.textSegment.bytes).length = fileDataOffset ctx := by
  rw [List.length_append, headerBytes_length, Segment.bytes_length]
  rfl

theorem image_length :
    (headerBytes ctx baseVaddr ++ ctx.textSegment.bytes ++ ctx.dataSegment.bytes).length =
      fileShstrtabOffset ctx := by
  rw [List.length_append, headerText_length, Segment.bytes_length]
  rfl

theorem beforeSections_length :
    (headerBytes ctx baseVaddr ++ ctx.textSegment.bytes ++ ctx.dataSegment.bytes ++
      shstrtab).length = fileShoff ctx := by
  rw [List.length_append, image_length]
  rfl

theorem shdr_bytes_length (header : Elf32Shdr) : header.bytes.length = shdrSize := by
  simp [Elf32Shdr.bytes, word, shdrSize]

theorem writer32_length :
    (writer32 ctx baseVaddr).length = fileShoff ctx + shNumSections * shdrSize := by
  have before := beforeSections_length ctx baseVaddr
  have sections : ((sectionHeaders ctx baseVaddr).flatMap Elf32Shdr.bytes).length =
      shNumSections * shdrSize := by
    simp only [sectionHeaders, List.flatMap_cons, List.flatMap_nil, List.length_append,
      shdr_bytes_length]
    rfl
  rw [← before, ← sections, ← List.length_append]
  rfl

def sectionBytes : List Byte :=
  (sectionHeaders ctx baseVaddr).flatMap Elf32Shdr.bytes

theorem writer32_text : writer32 ctx baseVaddr = headerBytes ctx baseVaddr ++
    (ctx.textSegment.bytes ++ (ctx.dataSegment.bytes ++ (shstrtab ++
      sectionBytes ctx baseVaddr))) := by
  simp only [writer32, headerBytes, sectionBytes, List.append_assoc]

theorem writer32_data : writer32 ctx baseVaddr =
    headerBytes ctx baseVaddr ++ ctx.textSegment.bytes ++
      (ctx.dataSegment.bytes ++ (shstrtab ++ sectionBytes ctx baseVaddr)) := by
  simp only [writer32, headerBytes, sectionBytes, List.append_assoc]

theorem writer32_strings : writer32 ctx baseVaddr =
    headerBytes ctx baseVaddr ++ ctx.textSegment.bytes ++ ctx.dataSegment.bytes ++
      (shstrtab ++ sectionBytes ctx baseVaddr) := by
  simp only [writer32, headerBytes, sectionBytes, List.append_assoc]

theorem phdr_bytes_length (header : Elf32Phdr) : header.bytes.length = phdrSize := by
  simp [Elf32Phdr.bytes, word, phdrSize]

theorem elfHeaderOf_writer32 : elfHeaderOf (writer32 ctx baseVaddr) = elfHeader ctx baseVaddr := by
  have read := readEhdr_bytes (elfHeader ctx baseVaddr) rfl
  simp only [elfHeaderOf, writer32, List.append_assoc, read]

theorem programHeadersOf_writer32 :
    programHeadersOf (writer32 ctx baseVaddr) = [programHeader ctx baseVaddr] := by
  have read := readTable_flatMap phdr_bytes_length readPhdr_bytes
    (elfHeader ctx baseVaddr).bytes [programHeader ctx baseVaddr]
    (ctx.textSegment.bytes ++ (ctx.dataSegment.bytes ++ (shstrtab ++
      (sectionHeaders ctx baseVaddr).flatMap Elf32Shdr.bytes)))
  rw [elfHeader_bytes_length, List.flatMap_singleton] at read
  simp only [programHeadersOf, elfHeaderOf_writer32]
  rw [writer32]
  simp only [List.append_assoc]
  exact read

theorem sectionHeadersOf_writer32 (small : fileShoff ctx < 2 ^ 32) :
    sectionHeadersOf (writer32 ctx baseVaddr) = sectionHeaders ctx baseVaddr := by
  have read := readTable_flatMap shdr_bytes_length readShdr_bytes
    (headerBytes ctx baseVaddr ++ ctx.textSegment.bytes ++ ctx.dataSegment.bytes ++ shstrtab)
    (sectionHeaders ctx baseVaddr) []
  have offset : (elfHeader ctx baseVaddr).shoff.toNat = fileShoff ctx := by
    rw [elfHeader, fillElfHeader, BitVec.toNat_ofNat]
    exact Nat.mod_eq_of_lt small
  rw [beforeSections_length, List.append_nil] at read
  simp only [sectionHeadersOf, elfHeaderOf_writer32, offset]
  exact read

end Parts

/-! ### The image in memory -/

section Image

variable {ctx : AssemblerCtx} {baseVaddr : Word}

theorem textVaddr_add (i : Nat) :
    getTextVaddr baseVaddr + BitVec.ofNat 32 i =
      baseVaddr + BitVec.ofNat 32 (fileTextOffset + i) := by
  rw [getTextVaddr, BitVec.add_assoc, ← BitVec.ofNat_add]
  rfl

theorem dataVaddr_eq :
    getDataVaddr ctx baseVaddr = baseVaddr + BitVec.ofNat 32 (fileDataOffset ctx) := by
  rw [getDataVaddr, textVaddr_add]
  rfl

theorem dataVaddr_add (j : Nat) :
    getDataVaddr ctx baseVaddr + BitVec.ofNat 32 j =
      baseVaddr + BitVec.ofNat 32 (fileDataOffset ctx + j) := by
  rw [dataVaddr_eq, BitVec.add_assoc, ← BitVec.ofNat_add]

variable (fits : fileShstrtabOffset ctx + ctx.bssSegment.size < 2 ^ 32)

include fits

theorem loadElf_writer32 (memory : Rv32.Memory) {n : Nat}
    (inside : n < fileShstrtabOffset ctx + ctx.bssSegment.size) :
    loadElf (writer32 ctx baseVaddr) memory (baseVaddr + BitVec.ofNat 32 n) =
      if n < fileShstrtabOffset ctx then ((writer32 ctx baseVaddr)[n]?).getD 0 else 0 := by
  have index : (baseVaddr + BitVec.ofNat 32 n - baseVaddr).toNat = n := by
    rw [BitVec.add_comm, BitVec.add_sub_cancel, BitVec.toNat_ofNat]
    exact Nat.mod_eq_of_lt (by omega)
  have filesz : (programHeader ctx baseVaddr).filesz.toNat = fileShstrtabOffset ctx := by
    rw [programHeader, fillProgramHeader, BitVec.toNat_ofNat]
    exact Nat.mod_eq_of_lt (by omega)
  have memsz : (programHeader ctx baseVaddr).memsz.toNat =
      fileShstrtabOffset ctx + ctx.bssSegment.size := by
    rw [programHeader, fillProgramHeader, BitVec.toNat_ofNat]
    exact Nat.mod_eq_of_lt fits
  have vaddr : (programHeader ctx baseVaddr).vaddr = baseVaddr := rfl
  have offset : (programHeader ctx baseVaddr).offset.toNat = 0 := rfl
  have single : [programHeader ctx baseVaddr].filter (fun header => header.type = ptLoad) =
      [programHeader ctx baseVaddr] := rfl
  rw [loadElf, programHeadersOf_writer32, single, List.foldl_cons, List.foldl_nil]
  simp only [loadSegment, vaddr, index, filesz, memsz, offset, Nat.zero_add, if_pos inside]

theorem loadElf_text (memory : Rv32.Memory) {i : Nat} (inside : i < ctx.textSegment.size) :
    loadElf (writer32 ctx baseVaddr) memory (getTextVaddr baseVaddr + BitVec.ofNat 32 i) =
      ctx.textSegment.data i := by
  have before : fileTextOffset + i < fileShstrtabOffset ctx := by
    rw [fileShstrtabOffset, fileDataOffset]
    omega
  have byte : (writer32 ctx baseVaddr)[fileTextOffset + i]? = some (ctx.textSegment.data i) := by
    rw [writer32_text, ← headerBytes_length ctx baseVaddr,
      getElem?_middle _ _ _ (Segment.bytes_length ctx.textSegment ▸ inside),
      Segment.bytes_getElem? _ inside]
  rw [textVaddr_add, loadElf_writer32 fits memory (by omega), if_pos before, byte]
  rfl

theorem loadElf_data (memory : Rv32.Memory) {j : Nat} (inside : j < ctx.dataSegment.size) :
    loadElf (writer32 ctx baseVaddr) memory (getDataVaddr ctx baseVaddr + BitVec.ofNat 32 j) =
      ctx.dataSegment.data j := by
  have before : fileDataOffset ctx + j < fileShstrtabOffset ctx := by
    rw [fileShstrtabOffset]
    omega
  have byte : (writer32 ctx baseVaddr)[fileDataOffset ctx + j]? =
      some (ctx.dataSegment.data j) := by
    rw [writer32_data, ← headerText_length ctx baseVaddr,
      getElem?_middle _ _ _ (Segment.bytes_length ctx.dataSegment ▸ inside),
      Segment.bytes_getElem? _ inside]
  rw [dataVaddr_add, loadElf_writer32 fits memory (by omega), if_pos before, byte]
  rfl

theorem loadElf_bss (memory : Rv32.Memory) {k : Nat} (inside : k < ctx.bssSegment.size) :
    loadElf (writer32 ctx baseVaddr) memory
      (getDataVaddr ctx baseVaddr + BitVec.ofNat 32 (ctx.dataSegment.size + k)) = 0 := by
  have after : fileDataOffset ctx + (ctx.dataSegment.size + k) = fileShstrtabOffset ctx + k := by
    rw [fileShstrtabOffset]
    omega
  rw [dataVaddr_add, after, loadElf_writer32 fits memory (by omega), if_neg (by omega)]

end Image

section SectionTable

variable {ctx : AssemblerCtx} {baseVaddr : Word} (small : fileShoff ctx < 2 ^ 32)

include small

theorem toNat_offset {offset : Nat} (within : offset ≤ fileShoff ctx) :
    (BitVec.ofNat 32 offset).toNat = offset := by
  rw [BitVec.toNat_ofNat]
  exact Nat.mod_eq_of_lt (by omega)

theorem sectionName_writer32 {header : Elf32Shdr} {name : List Byte} (offset : Nat)
    (stands : header.name.toNat = offset)
    (found : (shstrtab.drop offset).takeWhile (· ≠ 0) = name)
    (ended : name.length < (shstrtab.drop offset).length) :
    sectionName (writer32 ctx baseVaddr) header = some name := by
  have strings : (sectionHeaders ctx baseVaddr)[(elfHeader ctx baseVaddr).shstrndx.toNat]? =
      some (fillSectionHeader strOffShstrtab 3 0 0 (BitVec.ofNat 32 (fileShstrtabOffset ctx))
        (BitVec.ofNat 32 shstrtab.length) 1) := rfl
  have start : (BitVec.ofNat 32 (fileShstrtabOffset ctx)).toNat = fileShstrtabOffset ctx :=
    toNat_offset small (Nat.le_add_right _ _)
  have inside : offset ≤ shstrtab.length := by
    rw [List.length_drop] at ended
    omega
  rw [sectionName, sectionHeadersOf_writer32 _ _ small, elfHeaderOf_writer32, strings]
  simp only [Option.map_some, fillSectionHeader, start, stands, Option.some.injEq]
  rw [writer32_strings, ← image_length ctx baseVaddr, List.drop_length_add_append,
    List.drop_append_of_le_length inside, List.takeWhile_append, found,
    if_neg (by omega)]

omit small in
theorem describes_of_split {file before middle after : List Byte} {header : Elf32Shdr}
    {name : String} (split : file = before ++ (middle ++ after))
    (offset : header.offset.toNat = before.length) (size : header.size.toNat = middle.length)
    (named : sectionName file header = some (asciiBytes name)) :
    Describes file header name middle := by
  refine ⟨named, size, ?_⟩
  rw [offset, size, split]
  exact drop_take_middle before middle after

theorem sections_writer32 (bssSmall : ctx.bssSegment.size < 2 ^ 32) :
    ∃ null text data bss strings,
      Sections ctx baseVaddr (writer32 ctx baseVaddr) null text data bss strings := by
  have length : shstrtab.length = 28 := by decide
  have textStart : (BitVec.ofNat 32 fileTextOffset).toNat = fileTextOffset := by decide
  have textSize : (BitVec.ofNat 32 ctx.textSegment.size).toNat = ctx.textSegment.size :=
    toNat_offset small (by simp only [fileShoff, fileShstrtabOffset, fileDataOffset]; omega)
  have dataStart : (BitVec.ofNat 32 (fileDataOffset ctx)).toNat = fileDataOffset ctx :=
    toNat_offset small (by simp only [fileShoff, fileShstrtabOffset]; omega)
  have dataSize : (BitVec.ofNat 32 ctx.dataSegment.size).toNat = ctx.dataSegment.size :=
    toNat_offset small (by simp only [fileShoff, fileShstrtabOffset]; omega)
  have stringsStart : (BitVec.ofNat 32 (fileShstrtabOffset ctx)).toNat = fileShstrtabOffset ctx :=
    toNat_offset small (Nat.le_add_right _ _)
  have stringsSize : (BitVec.ofNat 32 shstrtab.length).toNat = shstrtab.length := by decide
  refine ⟨_, _, _, _, _,
    { table := (sectionHeadersOf_writer32 ctx baseVaddr small).trans rfl
      textRange := describes_of_split (writer32_text ctx baseVaddr) ?_ ?_
        (sectionName_writer32 small strOffText rfl (by decide) (by decide))
      textAddr := rfl
      dataRange := describes_of_split (writer32_data ctx baseVaddr) ?_ ?_
        (sectionName_writer32 small strOffData rfl (by decide) (by decide))
      dataAddr := dataVaddr_eq.symm
      bssName := sectionName_writer32 small strOffBss rfl (by decide) (by decide)
      bssAddr := (dataVaddr_add ctx.dataSegment.size).symm
      bssSize := ?_
      stringsRange := describes_of_split (writer32_strings ctx baseVaddr) ?_ ?_
        (sectionName_writer32 small strOffShstrtab rfl (by decide) (by decide))
      ranges := ?_ }⟩
  · exact textStart.trans (headerBytes_length ctx baseVaddr).symm
  · exact textSize.trans (Segment.bytes_length ctx.textSegment).symm
  · exact dataStart.trans (headerText_length ctx baseVaddr).symm
  · exact dataSize.trans (Segment.bytes_length ctx.dataSegment).symm
  · rw [fillSectionHeader, BitVec.toNat_ofNat]
    exact Nat.mod_eq_of_lt bssSmall
  · exact stringsStart.trans (image_length ctx baseVaddr).symm
  · exact stringsSize
  · rw [elfHeaderOf_writer32, writer32_length]
    refine ⟨rfl, rfl, textStart, ?_, ?_, ?_, ?_⟩
    · show (BitVec.ofNat 32 (fileDataOffset ctx)).toNat =
        fileTextOffset + (BitVec.ofNat 32 ctx.textSegment.size).toNat
      rw [dataStart, textSize]
      rfl
    · show (BitVec.ofNat 32 (fileShstrtabOffset ctx)).toNat = fileTextOffset +
        (BitVec.ofNat 32 ctx.textSegment.size).toNat + (BitVec.ofNat 32 ctx.dataSegment.size).toNat
      rw [stringsStart, textSize, dataSize]
      rfl
    · show (BitVec.ofNat 32 (fileShoff ctx)).toNat = fileTextOffset +
        (BitVec.ofNat 32 ctx.textSegment.size).toNat +
        (BitVec.ofNat 32 ctx.dataSegment.size).toNat + (BitVec.ofNat 32 shstrtab.length).toNat
      rw [toNat_offset small (le_refl _), textSize, dataSize, stringsSize]
      rfl
    · show fileTextOffset + (BitVec.ofNat 32 ctx.textSegment.size).toNat +
        (BitVec.ofNat 32 ctx.dataSegment.size).toNat + (BitVec.ofNat 32 shstrtab.length).toNat +
        shNumSections * shdrSize = fileShoff ctx + shNumSections * shdrSize
      rw [textSize, dataSize, stringsSize]
      rfl

end SectionTable

theorem writer32_loadsLayout (ctx : AssemblerCtx) (baseVaddr : Word)
    (textSmall : ctx.textSegment.size ≤ 2048) (dataSmall : ctx.dataSegment.size ≤ 2048)
    (fits : baseVaddr.toNat + (fileTextOffset + ctx.textSegment.size + ctx.dataSegment.size +
      ctx.bssSegment.size) < 2 ^ 32) :
    LoadsLayout ctx baseVaddr (writer32 ctx baseVaddr) := by
  have image : fileShstrtabOffset ctx =
      fileTextOffset + ctx.textSegment.size + ctx.dataSegment.size := rfl
  have memory : fileShstrtabOffset ctx + ctx.bssSegment.size < 2 ^ 32 := by omega
  have small : fileShoff ctx < 2 ^ 32 := by
    have length : shstrtab.length = 28 := by decide
    have headers : fileTextOffset = 84 := rfl
    rw [fileShoff, image, length, headers]
    omega
  exact
    { program := ⟨programHeader ctx baseVaddr, programHeadersOf_writer32 ctx baseVaddr, rfl⟩
      text := fun memory' _ inside => loadElf_text memory memory' inside
      data := fun memory' _ inside => loadElf_data memory memory' inside
      bss := fun memory' _ inside => loadElf_bss memory memory' inside
      entry := by
        rw [elfHeaderOf_writer32]
        rfl
      sections := sections_writer32 small (by omega) }

def exampleCtx : AssemblerCtx :=
  { initCtx 0x80000000 with
    textSegment := { initSegment with size := 4 }
    bssSegment := { initSegment with size := 16 } }

theorem writer32_loadsLayout_example :
    LoadsLayout exampleCtx 0x80000000 (writer32 exampleCtx 0x80000000) :=
  writer32_loadsLayout exampleCtx 0x80000000 (by decide) (by decide) (by decide)

end RiscvAs
