/-
What the output file keeps of an assembly.

The base, the text, the data and the size of the bss are read back from the headers
of the file, and nothing else of the context goes into it.
-/

import RiscvAs.ElfLayout

namespace RiscvAs

open Bytes (Byte)
open Rv32 (Word)

structure Image where
  baseVaddr : Word
  text : List Byte
  data : List Byte
  bssSize : Nat
  deriving DecidableEq

def AssemblerCtx.image (ctx : AssemblerCtx) (baseVaddr : Word) : Image :=
  ⟨baseVaddr, ctx.textSegment.bytes, ctx.dataSegment.bytes, ctx.bssSegment.size⟩

def sectionRange (file : List Byte) (header : Elf32Shdr) : List Byte :=
  (file.drop header.offset.toNat).take header.size.toNat

/-- An executable with one program header and the sections of `writer32`. -/
def readImage (file : List Byte) : Option Image :=
  match programHeadersOf file, sectionHeadersOf file with
  | [load], [_, text, data, bss, _] =>
      some ⟨load.vaddr, sectionRange file text, sectionRange file data, bss.size.toNat⟩
  | _, _ => none

section Files

variable {ctx ctx' : AssemblerCtx} {baseVaddr baseVaddr' : Word}

theorem sectionRange_middle {file before middle after : List Byte} {header : Elf32Shdr}
    (split : file = before ++ (middle ++ after)) (offset : header.offset.toNat = before.length)
    (size : header.size.toNat = middle.length) : sectionRange file header = middle := by
  rw [sectionRange, offset, size, split, drop_take_middle]

theorem readImage_of_small (small : fileShoff ctx < 2 ^ 32)
    (bssSmall : ctx.bssSegment.size < 2 ^ 32) :
    readImage (writer32 ctx baseVaddr) = some (ctx.image baseVaddr) := by
  have textSize := ctx.textSegment.bytes_length
  have dataSize := ctx.dataSegment.bytes_length
  have headers := headerBytes_length ctx baseVaddr
  have code := headerText_length ctx baseVaddr
  have within : fileDataOffset ctx ≤ fileShoff ctx ∧ ctx.dataSegment.size ≤ fileShoff ctx ∧
      ctx.textSegment.size ≤ fileShoff ctx ∧ fileTextOffset ≤ fileShoff ctx := by
    simp only [fileShoff, fileShstrtabOffset, fileDataOffset]
    omega
  have text : sectionRange (writer32 ctx baseVaddr)
      (fillSectionHeader strOffText 1 (2 + 4) (baseVaddr + BitVec.ofNat 32 fileTextOffset)
        (BitVec.ofNat 32 fileTextOffset) (BitVec.ofNat 32 ctx.textSegment.size) pageAlign) =
      ctx.textSegment.bytes := by
    refine sectionRange_middle (writer32_text ctx baseVaddr) ?_ ?_
    · rw [fillSectionHeader, BitVec.toNat_ofNat, headers]
      exact Nat.mod_eq_of_lt (by omega)
    · rw [fillSectionHeader, BitVec.toNat_ofNat, textSize]
      exact Nat.mod_eq_of_lt (by omega)
  have data : sectionRange (writer32 ctx baseVaddr)
      (fillSectionHeader strOffData 1 (2 + 1) (baseVaddr + BitVec.ofNat 32 (fileDataOffset ctx))
        (BitVec.ofNat 32 (fileDataOffset ctx)) (BitVec.ofNat 32 ctx.dataSegment.size) pageAlign) =
      ctx.dataSegment.bytes := by
    refine sectionRange_middle (writer32_data ctx baseVaddr) ?_ ?_
    · rw [fillSectionHeader, BitVec.toNat_ofNat, code]
      exact Nat.mod_eq_of_lt (by omega)
    · rw [fillSectionHeader, BitVec.toNat_ofNat, dataSize]
      exact Nat.mod_eq_of_lt (by omega)
  have bss : (BitVec.ofNat 32 ctx.bssSegment.size).toNat = ctx.bssSegment.size := by
    rw [BitVec.toNat_ofNat]
    exact Nat.mod_eq_of_lt bssSmall
  simp only [readImage, programHeadersOf_writer32, sectionHeadersOf_writer32 ctx baseVaddr small,
    sectionHeaders, text, data]
  simp only [fillSectionHeader, bss, programHeader, fillProgramHeader, AssemblerCtx.image]

/-- The file is a function of its image. -/
theorem writer32_congr (same : ctx.image baseVaddr = ctx'.image baseVaddr') :
    writer32 ctx baseVaddr = writer32 ctx' baseVaddr' := by
  obtain ⟨rfl, text, data, bss⟩ := Image.mk.inj same
  have textSize : ctx.textSegment.size = ctx'.textSegment.size := by
    rw [← Segment.bytes_length, text, Segment.bytes_length]
  have dataSize : ctx.dataSegment.size = ctx'.dataSegment.size := by
    rw [← Segment.bytes_length, data, Segment.bytes_length]
  have dataOffset : fileDataOffset ctx = fileDataOffset ctx' := by
    rw [fileDataOffset, fileDataOffset, textSize]
  have stringsOffset : fileShstrtabOffset ctx = fileShstrtabOffset ctx' := by
    rw [fileShstrtabOffset, fileShstrtabOffset, dataOffset, dataSize]
  have shoff : fileShoff ctx = fileShoff ctx' := by rw [fileShoff, fileShoff, stringsOffset]
  have elf : elfHeader ctx baseVaddr = elfHeader ctx' baseVaddr := by
    rw [elfHeader, elfHeader, shoff]
  have program : programHeader ctx baseVaddr = programHeader ctx' baseVaddr := by
    rw [programHeader, programHeader, stringsOffset, bss]
  have sections : sectionHeaders ctx baseVaddr = sectionHeaders ctx' baseVaddr := by
    simp only [sectionHeaders, textSize, dataSize, dataOffset, stringsOffset, bss]
  rw [writer32, writer32, elf, program, sections, text, data]

/-- The image is read back from the file, so two files are the same exactly when their images
are. -/
theorem readImage_writer32 (small : fileShoff ctx < 2 ^ 32)
    (bssSmall : ctx.bssSegment.size < 2 ^ 32) :
    readImage (writer32 ctx baseVaddr) = some (ctx.image baseVaddr) ∧
      ∀ ctx' baseVaddr', fileShoff ctx' < 2 ^ 32 → ctx'.bssSegment.size < 2 ^ 32 →
        (writer32 ctx baseVaddr = writer32 ctx' baseVaddr' ↔
          ctx.image baseVaddr = ctx'.image baseVaddr') := by
  have read := @readImage_of_small ctx baseVaddr small bssSmall
  refine ⟨read, fun ctx' baseVaddr' small' bssSmall' => ⟨fun same => ?_, writer32_congr⟩⟩
  rw [same, readImage_of_small small' bssSmall'] at read
  exact (Option.some.inj read).symm

end Files

theorem readImage_writer32_example :
    readImage (writer32 exampleCtx 0x80000000) = some ⟨0x80000000, [0, 0, 0, 0], [], 16⟩ :=
  (readImage_writer32 (by decide) (by decide)).1

end RiscvAs
