/-
What a loader reads in an ELF file.

The headers are read field by field from the bytes of the file, at the offsets
that the file gives; nothing here looks at how the file was written.
-/

import RiscvAs.Writer

namespace RiscvAs

open Bytes (Byte)
open Rv32 (Word)

abbrev ElfReader := StateM (List Byte)

def readBytes (count : Nat) : ElfReader (List Byte) :=
  fun file => (file.take count, file.drop count)

def readHalf : ElfReader (BitVec 16) := do
  let bytes ← readBytes 2
  return BitVec.ofNat 16 (Bytes.ofLittleEndian bytes)

def readWord : ElfReader Word := do
  let bytes ← readBytes 4
  return BitVec.ofNat 32 (Bytes.ofLittleEndian bytes)

def readEhdr : ElfReader Elf32Ehdr := do
  let ident ← readBytes 16
  let type ← readHalf
  let machine ← readHalf
  let version ← readWord
  let entry ← readWord
  let phoff ← readWord
  let shoff ← readWord
  let flags ← readWord
  let ehsize ← readHalf
  let phentsize ← readHalf
  let phnum ← readHalf
  let shentsize ← readHalf
  let shnum ← readHalf
  let shstrndx ← readHalf
  return { ident, type, machine, version, entry, phoff, shoff, flags, ehsize, phentsize, phnum,
           shentsize, shnum, shstrndx }

def readPhdr : ElfReader Elf32Phdr := do
  let type ← readWord
  let offset ← readWord
  let vaddr ← readWord
  let paddr ← readWord
  let filesz ← readWord
  let memsz ← readWord
  let flags ← readWord
  let align ← readWord
  return { type, offset, vaddr, paddr, filesz, memsz, flags, align }

def readShdr : ElfReader Elf32Shdr := do
  let name ← readWord
  let type ← readWord
  let flags ← readWord
  let addr ← readWord
  let offset ← readWord
  let size ← readWord
  let link ← readWord
  let info ← readWord
  let addralign ← readWord
  let entsize ← readWord
  return { name, type, flags, addr, offset, size, link, info, addralign, entsize }

def elfHeaderOf (file : List Byte) : Elf32Ehdr :=
  (readEhdr file).1

def readTable {α : Type} (read : ElfReader α) (offset size count : Nat) (file : List Byte) :
    List α :=
  (List.range count).map (fun i => (read (file.drop (offset + i * size))).1)

def programHeadersOf (file : List Byte) : List Elf32Phdr :=
  let header := elfHeaderOf file
  readTable readPhdr header.phoff.toNat header.phentsize.toNat header.phnum.toNat file

def sectionHeadersOf (file : List Byte) : List Elf32Shdr :=
  let header := elfHeaderOf file
  readTable readShdr header.shoff.toNat header.shentsize.toNat header.shnum.toNat file

/-- The name of a section: a null-terminated string of the section `e_shstrndx`. -/
def sectionName (file : List Byte) (header : Elf32Shdr) : Option (List Byte) :=
  (sectionHeadersOf file)[(elfHeaderOf file).shstrndx.toNat]?.map
    (fun strings => (file.drop (strings.offset.toNat + header.name.toNat)).takeWhile (· ≠ 0))

def ptLoad : Word := 1

/-- The file range of a program header at its address, and zeros up to `p_memsz`. -/
def loadSegment (file : List Byte) (memory : Rv32.Memory) (header : Elf32Phdr) : Rv32.Memory :=
  fun address =>
    let index := (address - header.vaddr).toNat
    if index < header.filesz.toNat then (file[header.offset.toNat + index]?).getD 0
    else if index < header.memsz.toNat then 0
    else memory address

def loadElf (file : List Byte) (memory : Rv32.Memory) : Rv32.Memory :=
  ((programHeadersOf file).filter (fun header => header.type = ptLoad)).foldl (loadSegment file)
    memory

theorem readBytes_append (bytes rest : List Byte) :
    readBytes bytes.length (bytes ++ rest) = (bytes, rest) := by
  simp [readBytes]

theorem readHalf_half (x : BitVec 16) (rest : List Byte) :
    readHalf (half x ++ rest) = (x, rest) := by
  have length : (half x).length = 2 := Bytes.littleEndian_length 2 x.toNat
  have value : BitVec.ofNat 16 (Bytes.ofLittleEndian (half x)) = x := by
    apply BitVec.eq_of_toNat_eq
    have bound := x.isLt
    rw [half, Bytes.ofLittleEndian_littleEndian, BitVec.toNat_ofNat]
    omega
  have read := readBytes_append (half x) rest
  rw [length] at read
  show (BitVec.ofNat 16 (Bytes.ofLittleEndian (readBytes 2 (half x ++ rest)).1),
    (readBytes 2 (half x ++ rest)).2) = (x, rest)
  rw [read, value]

theorem readWord_word (x : Word) (rest : List Byte) : readWord (word x ++ rest) = (x, rest) := by
  have length : (word x).length = 4 := Bytes.littleEndian_length 4 x.toNat
  have value : BitVec.ofNat 32 (Bytes.ofLittleEndian (word x)) = x := by
    apply BitVec.eq_of_toNat_eq
    have bound := x.isLt
    rw [word, Bytes.ofLittleEndian_littleEndian, BitVec.toNat_ofNat]
    omega
  have read := readBytes_append (word x) rest
  rw [length] at read
  show (BitVec.ofNat 32 (Bytes.ofLittleEndian (readBytes 4 (word x ++ rest)).1),
    (readBytes 4 (word x ++ rest)).2) = (x, rest)
  rw [read, value]

theorem elfReader_bind {α β : Type} {first : ElfReader α} {next : α → ElfReader β} {a : α}
    {file rest : List Byte} (read : first file = (a, rest)) :
    (first >>= next) file = next a rest := by
  show next (first file).1 (first file).2 = _
  rw [read]

theorem readEhdr_bytes (h : Elf32Ehdr) (ident : h.ident.length = 16) (rest : List Byte) :
    readEhdr (h.bytes ++ rest) = (h, rest) := by
  have first := readBytes_append h.ident
  rw [ident] at first
  simp only [readEhdr, Elf32Ehdr.bytes, List.append_assoc]
  rw [elfReader_bind (first _)]
  repeat
    first
      | rw [elfReader_bind (readHalf_half _ _)]
      | rw [elfReader_bind (readWord_word _ _)]
  rfl

theorem readPhdr_bytes (h : Elf32Phdr) (rest : List Byte) :
    readPhdr (h.bytes ++ rest) = (h, rest) := by
  simp only [readPhdr, Elf32Phdr.bytes, List.append_assoc]
  repeat rw [elfReader_bind (readWord_word _ _)]
  rfl

theorem readShdr_bytes (h : Elf32Shdr) (rest : List Byte) :
    readShdr (h.bytes ++ rest) = (h, rest) := by
  simp only [readShdr, Elf32Shdr.bytes, List.append_assoc]
  repeat rw [elfReader_bind (readWord_word _ _)]
  rfl

theorem readTable_flatMap {α : Type} {read : ElfReader α} {bytes : α → List Byte} {size : Nat}
    (length : ∀ entry, (bytes entry).length = size)
    (back : ∀ entry rest, read (bytes entry ++ rest) = (entry, rest)) (before : List Byte)
    (entries : List α) (rest : List Byte) :
    readTable read before.length size entries.length (before ++ (entries.flatMap bytes ++ rest)) =
      entries := by
  induction entries generalizing before with
  | nil => rfl
  | cons entry entries ih =>
      have later := ih (before ++ bytes entry)
      simp only [readTable, List.length_append, length, List.append_assoc] at later
      simp only [readTable, List.length_cons, List.range_succ_eq_map, List.map_cons, List.map_map,
        List.flatMap_cons, List.append_assoc]
      congr 1
      · rw [Nat.zero_mul, Nat.add_zero, List.drop_left, back]
      · refine Eq.trans (List.map_congr_left (fun i _ => ?_)) later
        rw [Function.comp_apply, Nat.succ_mul, Nat.add_comm (i * size), Nat.add_assoc]

end RiscvAs
