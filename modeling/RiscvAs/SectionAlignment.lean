/-
The alignment of the sections in the written file.

Every allocated section has `sh_addralign` one page, while `writer32` lays the
sections out back to back behind the headers.  So the file offsets agree with
the addresses, but no section with file contents starts on a page.
-/

import RiscvAs.ElfLayout

namespace RiscvAs

open Bytes (Byte)
open Rv32 (Word)

def shfAlloc : Word := 2

def shtNobits : Word := 8

def Elf32Shdr.IsAllocated (header : Elf32Shdr) : Prop :=
  header.flags &&& shfAlloc ≠ 0

def Elf32Shdr.IsAligned (header : Elf32Shdr) : Prop :=
  header.addr.toNat % header.addralign.toNat = 0

/-- The section lies in the segment, at a file offset that a page-wise mapping keeps. -/
structure PlacedIn (load : Elf32Phdr) (header : Elf32Shdr) : Prop where
  congruent : header.offset.toNat % load.align.toNat = header.addr.toNat % load.align.toNat
  above : load.vaddr.toNat ≤ header.addr.toNat
  below : header.addr.toNat + header.size.toNat ≤ load.vaddr.toNat + load.memsz.toNat

/-- The file has one segment to load, at a congruent offset, with all allocated sections. -/
def SectionsPlaced (file : List Byte) : Prop :=
  ∃ load, programHeadersOf file = [load] ∧ load.type = ptLoad ∧
    load.vaddr.toNat % load.align.toNat = load.offset.toNat % load.align.toNat ∧
    ∀ header ∈ sectionHeadersOf file, header.IsAllocated → PlacedIn load header

structure WellAligned (file : List Byte) : Prop where
  aligned : ∀ header ∈ sectionHeadersOf file, header.IsAllocated → header.IsAligned
  placed : SectionsPlaced file

section Headers

variable (ctx : AssemblerCtx) (baseVaddr : Word)

def pageSection (name type flags offset size : Nat) : Elf32Shdr :=
  fillSectionHeader name type flags (baseVaddr + BitVec.ofNat 32 offset) (BitVec.ofNat 32 offset)
    (BitVec.ofNat 32 size) pageAlign

theorem allocated_cases {header : Elf32Shdr} (member : header ∈ sectionHeaders ctx baseVaddr)
    (allocated : header.IsAllocated) :
    header = pageSection baseVaddr strOffText 1 (2 + 4) fileTextOffset ctx.textSegment.size ∨
      header = pageSection baseVaddr strOffData 1 (2 + 1) (fileDataOffset ctx)
        ctx.dataSegment.size ∨
      header = pageSection baseVaddr strOffBss 8 (2 + 1) (fileShstrtabOffset ctx)
        ctx.bssSegment.size := by
  simp only [sectionHeaders, List.mem_cons, List.not_mem_nil, or_false] at member
  rcases member with rfl | rfl | rfl | rfl | rfl
  · exact absurd (show (0 : Word) &&& shfAlloc = 0 by decide) allocated
  · exact Or.inl rfl
  · exact Or.inr (Or.inl rfl)
  · exact Or.inr (Or.inr rfl)
  · exact absurd (show BitVec.ofNat 32 0 &&& shfAlloc = 0 by decide) allocated

variable {ctx baseVaddr}

theorem pageSection_addr {offset : Nat} (fits : baseVaddr.toNat + offset < 2 ^ 32)
    (name type flags size : Nat) :
    (pageSection baseVaddr name type flags offset size).addr.toNat = baseVaddr.toNat + offset := by
  simp only [pageSection, fillSectionHeader, BitVec.toNat_add, BitVec.toNat_ofNat]
  omega

theorem pageSection_type (name type flags offset size : Nat) :
    (pageSection baseVaddr name type flags offset size).type = BitVec.ofNat 32 type := rfl

/-- The base addresses that `main` passes are on a page. -/
theorem page_base (base : baseVaddr = 0x80000000 ∨ baseVaddr = 0x10000) :
    baseVaddr.toNat % 4096 = 0 ∧ baseVaddr.toNat ≤ 2 ^ 31 := by
  rcases base with rfl | rfl
  · decide
  · decide

theorem pageSection_aligned_iff (base : baseVaddr = 0x80000000 ∨ baseVaddr = 0x10000)
    {offset : Nat} (small : offset < 2 ^ 31) (name type flags size : Nat) :
    (pageSection baseVaddr name type flags offset size).IsAligned ↔ offset % 4096 = 0 := by
  obtain ⟨page, high⟩ := page_base base
  have align : (pageSection baseVaddr name type flags offset size).addralign.toNat = 4096 := rfl
  rw [Elf32Shdr.IsAligned, pageSection_addr (by omega), align]
  omega

theorem pageSection_placedIn (base : baseVaddr = 0x80000000 ∨ baseVaddr = 0x10000)
    {name type flags offset size : Nat}
    (fits : baseVaddr.toNat + (fileShstrtabOffset ctx + ctx.bssSegment.size) < 2 ^ 32)
    (inside : offset + size ≤ fileShstrtabOffset ctx + ctx.bssSegment.size) :
    PlacedIn (programHeader ctx baseVaddr)
      (pageSection baseVaddr name type flags offset size) := by
  obtain ⟨page, -⟩ := page_base base
  have addr := pageSection_addr (show baseVaddr.toNat + offset < 2 ^ 32 by omega)
    name type flags size
  have start : (pageSection baseVaddr name type flags offset size).offset.toNat = offset := by
    simp only [pageSection, fillSectionHeader, BitVec.toNat_ofNat]
    omega
  have length : (pageSection baseVaddr name type flags offset size).size.toNat = size := by
    simp only [pageSection, fillSectionHeader, BitVec.toNat_ofNat]
    omega
  have align : (programHeader ctx baseVaddr).align.toNat = 4096 := rfl
  have vaddr : (programHeader ctx baseVaddr).vaddr = baseVaddr := rfl
  have memsz : (programHeader ctx baseVaddr).memsz.toNat =
      fileShstrtabOffset ctx + ctx.bssSegment.size := by
    simp only [programHeader, fillProgramHeader, BitVec.toNat_ofNat]
    omega
  constructor
  · rw [start, addr, align]
    omega
  · rw [addr, vaddr]
    omega
  · rw [addr, length, vaddr, memsz]
    omega

end Headers

section File

variable {ctx : AssemblerCtx} {baseVaddr : Word} (textSmall : ctx.textSegment.size ≤ 2048)
  (dataSmall : ctx.dataSegment.size ≤ 2048)
  (base : baseVaddr = 0x80000000 ∨ baseVaddr = 0x10000)

include textSmall dataSmall

theorem fileShoff_small : fileShoff ctx < 2 ^ 32 := by
  have length : shstrtab.length = 28 := by decide
  have headers : fileTextOffset = 84 := rfl
  rw [fileShoff, fileShstrtabOffset, fileDataOffset, length, headers]
  omega

include base

/-- Only `.bss` can start on a page, when text and data fill the first one. -/
theorem allocated_aligned_iff {header : Elf32Shdr}
    (member : header ∈ sectionHeadersOf (writer32 ctx baseVaddr))
    (allocated : header.IsAllocated) :
    header.IsAligned ↔
      header.type = shtNobits ∧ ctx.textSegment.size + ctx.dataSegment.size = 4012 := by
  rw [sectionHeadersOf_writer32 _ _ (fileShoff_small textSmall dataSmall)] at member
  have headers : fileTextOffset = 84 := rfl
  have progbits : BitVec.ofNat 32 1 ≠ shtNobits := by decide
  have nobits : BitVec.ofNat 32 8 = shtNobits := rfl
  rcases allocated_cases ctx baseVaddr member allocated with rfl | rfl | rfl
  · rw [pageSection_aligned_iff base (by decide), pageSection_type, headers]
    exact iff_of_false (by decide) (fun both => progbits both.1)
  · rw [pageSection_aligned_iff base (by rw [fileDataOffset, headers]; omega), pageSection_type,
      fileDataOffset, headers]
    exact iff_of_false (by omega) (fun both => progbits both.1)
  · rw [pageSection_aligned_iff base
      (by rw [fileShstrtabOffset, fileDataOffset, headers]; omega), pageSection_type,
      fileShstrtabOffset, fileDataOffset, headers]
    simp only [nobits, true_and]
    omega

/-- All but the alignment of sections holds, for an image that does not wrap around. -/
theorem sectionsPlaced_writer32
    (fits : baseVaddr.toNat + (fileShstrtabOffset ctx + ctx.bssSegment.size) < 2 ^ 32) :
    SectionsPlaced (writer32 ctx baseVaddr) := by
  have image : fileShstrtabOffset ctx =
      fileTextOffset + ctx.textSegment.size + ctx.dataSegment.size := rfl
  refine ⟨_, programHeadersOf_writer32 ctx baseVaddr, rfl, (page_base base).1, ?_⟩
  intro header member allocated
  rw [sectionHeadersOf_writer32 _ _ (fileShoff_small textSmall dataSmall)] at member
  rcases allocated_cases ctx baseVaddr member allocated with rfl | rfl | rfl
  · exact pageSection_placedIn base fits (by omega)
  · exact pageSection_placedIn base fits (by rw [fileDataOffset]; omega)
  · exact pageSection_placedIn base fits (le_refl _)

theorem not_wellAligned : ¬ WellAligned (writer32 ctx baseVaddr) := by
  intro follows
  have member : pageSection baseVaddr strOffText 1 (2 + 4) fileTextOffset ctx.textSegment.size ∈
      sectionHeadersOf (writer32 ctx baseVaddr) := by
    rw [sectionHeadersOf_writer32 _ _ (fileShoff_small textSmall dataSmall)]
    exact List.mem_cons_of_mem _ (List.mem_cons_self ..)
  have aligned := follows.aligned _ member (show BitVec.ofNat 32 (2 + 4) &&& shfAlloc ≠ 0 by decide)
  rw [pageSection_aligned_iff base (by decide)] at aligned
  exact absurd aligned (by decide)

end File

/-- No file that the assembler writes follows the alignment rules: its `.text` header
does not. -/
theorem writer32_not_wellAligned (ctx : AssemblerCtx) (baseVaddr : Word)
    (textSmall : ctx.textSegment.size ≤ 2048) (dataSmall : ctx.dataSegment.size ≤ 2048)
    (base : baseVaddr = 0x80000000 ∨ baseVaddr = 0x10000) :
    ¬ WellAligned (writer32 ctx baseVaddr) :=
  not_wellAligned textSmall dataSmall base

/-- Four bytes of text, eight bytes of data and sixteen bytes of bss. -/
def threeSectionsCtx : AssemblerCtx :=
  { exampleCtx with dataSegment := { initSegment with size := 8 } }

theorem writer32_not_wellAligned_sections :
    ¬ WellAligned (writer32 threeSectionsCtx 0x80000000) :=
  writer32_not_wellAligned threeSectionsCtx 0x80000000 (by decide) (by decide) (Or.inl rfl)

theorem exampleCtx_not_wellAligned : ¬ WellAligned (writer32 exampleCtx 0x80000000) :=
  not_wellAligned (by decide) (by decide) (Or.inl rfl)

end RiscvAs
