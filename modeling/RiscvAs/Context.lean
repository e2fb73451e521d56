/-
The assembler's state: segments, the symbol table of `src/symtable.c`, the
context that both passes share, and the addresses `src/writer.c` derives from
it.
-/

import RiscvAs.Instruction

namespace RiscvAs

open Stdio (CString)
open Bytes (Buffer)
open Rv32 (Word)

def labelLen : Nat := 64

def maxSymbols : Nat := 128

inductive SymType where
  | segmentText
  | segmentData
  deriving DecidableEq, Repr

structure Symbol where
  name : CString
  offset : Word
  type : SymType
  deriving DecidableEq, Repr

/-- The used entries of `symbols`, so that `count` is the length of the list. -/
structure Symtable where
  symbols : List Symbol
  deriving DecidableEq, Repr

def Symtable.count (table : Symtable) : Nat :=
  table.symbols.length

/-- The table is zeroed, so a new entry's type is `SYM_SEGMENT_TEXT` until the
caller sets it. -/
def symtableInsert (table : Symtable) (name : CString) (address : Word) : Option Symtable :=
  if table.count ≥ maxSymbols then none
  else if table.symbols.any (fun symbol => symbol.name = name) then none
  else
    some { symbols := table.symbols ++
      [{ name := name.take (labelLen - 1), offset := address, type := .segmentText }] }

def symtableLookup (table : Symtable) (name : CString) : Option Word :=
  (table.symbols.find? (fun symbol => symbol.name = name)).map Symbol.offset

/-- `table.symbols[table.count - 1].type = type` -/
def Symtable.setLastType (table : Symtable) (type : SymType) : Symtable :=
  { symbols := table.symbols.dropLast ++
      (table.symbols.getLast?.map (fun symbol => { symbol with type := type })).toList }

structure Segment where
  data : Buffer
  size : Nat
  capacity : Nat

structure AssemblerCtx where
  dataSegment : Segment
  textSegment : Segment
  bssSegment : Segment
  table : Symtable
  baseVaddr : Word

/-- A segment of the zeroed context of `main` after `init_segments`. -/
def initSegment : Segment :=
  { data := fun _ => 0, size := 0, capacity := dataSize }

/-- The context that `main` hands to `scan_labels`. -/
def initCtx (baseVaddr : Word) : AssemblerCtx :=
  { dataSegment := initSegment
    textSegment := initSegment
    bssSegment := initSegment
    table := { symbols := [] }
    baseVaddr := baseVaddr }

/-- `sizeof(Elf32_Ehdr)` -/
def ehdrSize : Nat := 52

/-- `sizeof(Elf32_Phdr)` -/
def phdrSize : Nat := 32

def getTextVaddr (baseVaddr : Word) : Word :=
  baseVaddr + BitVec.ofNat 32 (ehdrSize + phdrSize)

def getDataVaddr (ctx : AssemblerCtx) (baseVaddr : Word) : Word :=
  getTextVaddr baseVaddr + BitVec.ofNat 32 ctx.textSegment.size

end RiscvAs
