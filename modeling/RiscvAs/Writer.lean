/-
The ELF file of `src/writer.c`.

The structures are those of the system's `elf.h` for 32-bit files, with the
constants the writer uses.  `writer32` gives the bytes that the native build
writes when every library call succeeds, on a little-endian host.
-/

import RiscvAs.Context
import RiscvAs.Rv32.Execution

namespace RiscvAs

open Bytes (Byte)
open Rv32 (Word)

structure Elf32Ehdr where
  ident : List Byte
  type : BitVec 16
  machine : BitVec 16
  version : Word
  entry : Word
  phoff : Word
  shoff : Word
  flags : Word
  ehsize : BitVec 16
  phentsize : BitVec 16
  phnum : BitVec 16
  shentsize : BitVec 16
  shnum : BitVec 16
  shstrndx : BitVec 16
  deriving DecidableEq

structure Elf32Phdr where
  type : Word
  offset : Word
  vaddr : Word
  paddr : Word
  filesz : Word
  memsz : Word
  flags : Word
  align : Word
  deriving DecidableEq

structure Elf32Shdr where
  name : Word
  type : Word
  flags : Word
  addr : Word
  offset : Word
  size : Word
  link : Word
  info : Word
  addralign : Word
  entsize : Word
  deriving DecidableEq

def half (x : BitVec 16) : List Byte :=
  Bytes.littleEndian 2 x.toNat

def word (x : Word) : List Byte :=
  Bytes.littleEndian 4 x.toNat

def Elf32Ehdr.bytes (h : Elf32Ehdr) : List Byte :=
  h.ident ++ half h.type ++ half h.machine ++ word h.version ++ word h.entry ++ word h.phoff ++
    word h.shoff ++ word h.flags ++ half h.ehsize ++ half h.phentsize ++ half h.phnum ++
    half h.shentsize ++ half h.shnum ++ half h.shstrndx

def Elf32Phdr.bytes (h : Elf32Phdr) : List Byte :=
  word h.type ++ word h.offset ++ word h.vaddr ++ word h.paddr ++ word h.filesz ++
    word h.memsz ++ word h.flags ++ word h.align

def Elf32Shdr.bytes (h : Elf32Shdr) : List Byte :=
  word h.name ++ word h.type ++ word h.flags ++ word h.addr ++ word h.offset ++ word h.size ++
    word h.link ++ word h.info ++ word h.addralign ++ word h.entsize

/-- `sizeof(Elf32_Shdr)` -/
def shdrSize : Nat := 40

def shNumSections : Nat := 5

def shIdxShstrtab : Nat := 4

def strOffText : Nat := 1
def strOffData : Nat := 7
def strOffBss : Nat := 13
def strOffShstrtab : Nat := 18

def pageAlign : Nat := 0x1000

def fillIdent32 : List Byte :=
  [0x7f, 0x45, 0x4c, 0x46, 1, 1, 1, 0, 0] ++ List.replicate 7 0

def fillElfHeader (entryPoint shoff : Word) : Elf32Ehdr :=
  { ident := fillIdent32
    type := 2
    machine := 243
    version := 1
    entry := entryPoint
    phoff := BitVec.ofNat 32 ehdrSize
    shoff := shoff
    flags := 0
    ehsize := BitVec.ofNat 16 ehdrSize
    phentsize := BitVec.ofNat 16 phdrSize
    phnum := 1
    shentsize := BitVec.ofNat 16 shdrSize
    shnum := BitVec.ofNat 16 shNumSections
    shstrndx := BitVec.ofNat 16 shIdxShstrtab }

def fillProgramHeader (baseVaddr filesz memsz : Word) : Elf32Phdr :=
  { type := 1
    offset := 0
    vaddr := baseVaddr
    paddr := baseVaddr
    filesz := filesz
    memsz := memsz
    flags := 7
    align := BitVec.ofNat 32 pageAlign }

def nullSectionHeader : Elf32Shdr :=
  { name := 0, type := 0, flags := 0, addr := 0, offset := 0, size := 0, link := 0, info := 0,
    addralign := 0, entsize := 0 }

def fillSectionHeader (name type flags : Nat) (addr offset size : Word) (align : Nat) :
    Elf32Shdr :=
  { nullSectionHeader with
    name := BitVec.ofNat 32 name
    type := BitVec.ofNat 32 type
    flags := BitVec.ofNat 32 flags
    addr := addr
    offset := offset
    size := size
    addralign := BitVec.ofNat 32 align }

def shstrtab : List Byte :=
  "\x00.text\x00.data\x00.bss\x00.shstrtab\x00".toList.map (fun c => BitVec.ofNat 8 c.toNat)

/-! ### Layout -/

def fileTextOffset : Nat := ehdrSize + phdrSize

def fileDataOffset (ctx : AssemblerCtx) : Nat :=
  fileTextOffset + ctx.textSegment.size

def fileShstrtabOffset (ctx : AssemblerCtx) : Nat :=
  fileDataOffset ctx + ctx.dataSegment.size

def fileShoff (ctx : AssemblerCtx) : Nat :=
  fileShstrtabOffset ctx + shstrtab.length

def elfHeader (ctx : AssemblerCtx) (baseVaddr : Word) : Elf32Ehdr :=
  fillElfHeader (baseVaddr + BitVec.ofNat 32 fileTextOffset) (BitVec.ofNat 32 (fileShoff ctx))

def programHeader (ctx : AssemblerCtx) (baseVaddr : Word) : Elf32Phdr :=
  fillProgramHeader baseVaddr (BitVec.ofNat 32 (fileShstrtabOffset ctx))
    (BitVec.ofNat 32 (fileShstrtabOffset ctx + ctx.bssSegment.size))

def sectionHeaders (ctx : AssemblerCtx) (baseVaddr : Word) : List Elf32Shdr :=
  let at32 (offset : Nat) : Word := BitVec.ofNat 32 offset
  [ nullSectionHeader,
    fillSectionHeader strOffText 1 (2 + 4) (baseVaddr + at32 fileTextOffset)
      (at32 fileTextOffset) (at32 ctx.textSegment.size) pageAlign,
    fillSectionHeader strOffData 1 (2 + 1) (baseVaddr + at32 (fileDataOffset ctx))
      (at32 (fileDataOffset ctx)) (at32 ctx.dataSegment.size) pageAlign,
    fillSectionHeader strOffBss 8 (2 + 1) (baseVaddr + at32 (fileShstrtabOffset ctx))
      (at32 (fileShstrtabOffset ctx)) (at32 ctx.bssSegment.size) pageAlign,
    fillSectionHeader strOffShstrtab 3 0 0 (at32 (fileShstrtabOffset ctx))
      (at32 shstrtab.length) 1 ]

/-- The bytes of a segment that are written: all of them, in one call that is
skipped for an empty segment. -/
def Segment.bytes (segment : Segment) : List Byte :=
  Bytes.window segment.data segment.size

def writer32 (ctx : AssemblerCtx) (baseVaddr : Word) : List Byte :=
  (elfHeader ctx baseVaddr).bytes ++ (programHeader ctx baseVaddr).bytes ++
    ctx.textSegment.bytes ++ ctx.dataSegment.bytes ++ shstrtab ++
    (sectionHeaders ctx baseVaddr).flatMap Elf32Shdr.bytes

theorem elfHeader_bytes_length (ctx : AssemblerCtx) (baseVaddr : Word) :
    (elfHeader ctx baseVaddr).bytes.length = ehdrSize := by
  simp [Elf32Ehdr.bytes, elfHeader, fillElfHeader, fillIdent32, half, word, ehdrSize]

theorem programHeader_bytes_length (ctx : AssemblerCtx) (baseVaddr : Word) :
    (programHeader ctx baseVaddr).bytes.length = phdrSize := by
  simp [Elf32Phdr.bytes, word, phdrSize]

theorem Segment.bytes_length (segment : Segment) : segment.bytes.length = segment.size :=
  Bytes.window_length _ _

/-- The memory holds the file range of a program header at its address. -/
def Loaded (header : Elf32Phdr) (file : List Byte) (memory : Rv32.Memory) : Prop :=
  ∀ i < header.filesz.toNat, ∀ byte, file[header.offset.toNat + i]? = some byte →
    memory (header.vaddr + BitVec.ofNat 32 i) = byte

def imageMemory (file : List Byte) (address : Word) : Rv32.Memory :=
  fun a => (file[(a - address).toNat]?).getD 0

theorem loaded_imageMemory (ctx : AssemblerCtx) (baseVaddr : Word) (file : List Byte) :
    Loaded (programHeader ctx baseVaddr) file (imageMemory file baseVaddr) := by
  intro i inside byte read
  have small : i < 2 ^ 32 := Nat.lt_trans inside (BitVec.isLt _)
  have index : (baseVaddr + BitVec.ofNat 32 i - baseVaddr).toNat = i := by
    rw [BitVec.add_comm, BitVec.add_sub_cancel, BitVec.toNat_ofNat]
    exact Nat.mod_eq_of_lt small
  have offset : (programHeader ctx baseVaddr).offset.toNat = 0 := rfl
  rw [offset, Nat.zero_add] at read
  rw [imageMemory, programHeader, fillProgramHeader, index, read]
  rfl

/-- The image that the program header describes has the segments at the
addresses that `get_text_vaddr` and `get_data_vaddr` give. -/
theorem holds_of_loaded {ctx : AssemblerCtx} {baseVaddr : Word} {memory : Rv32.Memory}
    (small : fileShstrtabOffset ctx < 2 ^ 32)
    (loaded : Loaded (programHeader ctx baseVaddr) (writer32 ctx baseVaddr) memory) :
    Rv32.Holds memory (getTextVaddr baseVaddr) ctx.textSegment.bytes ∧
      Rv32.Holds memory (getDataVaddr ctx baseVaddr) ctx.dataSegment.bytes := by
  let headers := (elfHeader ctx baseVaddr).bytes ++ (programHeader ctx baseVaddr).bytes
  have headersLength : headers.length = ehdrSize + phdrSize := by
    rw [List.length_append, elfHeader_bytes_length, programHeader_bytes_length]
  have file : Rv32.Holds memory baseVaddr
      (headers ++ (ctx.textSegment.bytes ++ ctx.dataSegment.bytes)) := by
    intro i byte read
    have inside := (List.getElem?_eq_some_iff.mp read).1
    simp only [List.length_append, Segment.bytes_length, headersLength] at inside
    have filesz : (programHeader ctx baseVaddr).filesz.toNat = fileShstrtabOffset ctx := by
      rw [programHeader, fillProgramHeader, BitVec.toNat_ofNat]
      exact Nat.mod_eq_of_lt small
    apply loaded i
    · rw [filesz, fileShstrtabOffset, fileDataOffset, fileTextOffset]
      omega
    · have split : writer32 ctx baseVaddr =
          (headers ++ (ctx.textSegment.bytes ++ ctx.dataSegment.bytes)) ++
            (shstrtab ++ (sectionHeaders ctx baseVaddr).flatMap Elf32Shdr.bytes) := by
        simp only [writer32, headers, List.append_assoc]
      rw [show (programHeader ctx baseVaddr).offset.toNat = 0 from rfl, Nat.zero_add, split,
        List.getElem?_append_left (List.getElem?_eq_some_iff.mp read).1, read]
  obtain ⟨-, segments⟩ := file.append
  rw [headersLength] at segments
  obtain ⟨text, data⟩ := segments.append
  rw [Segment.bytes_length] at data
  exact ⟨text, data⟩

end RiscvAs
