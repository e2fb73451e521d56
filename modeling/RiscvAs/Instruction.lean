/-
Instruction records, their table, and the packing of instruction words.

The table is `gperf/instructions.gperf`; `findInstruction` stands for the
lookup function that gperf generates from it, which returns the record of that
name.  The packers are the `ASSEMBLE_*_TYPE` macros of `include/instruction.h`.
-/

import RiscvAs.Stdio.Scanf
import RiscvAs.Rv32.Isa

namespace RiscvAs

open Stdio (CString)
open Rv32 (Word)

inductive Failure where
  | err
  | registerValue
  | jumpNotImplemented
  | unknownPseudo
  | invalidRegister
  | invalidImmediate
  | parseError
  | fileError
  | unknownInstruction
  | elfError
  | nullError
  | symNotFound
  deriving DecidableEq, Repr

/-- `assembler_error`: `ASSEMBLER_OK` or a failure. -/
inductive AssemblerError where
  | ok
  | fail (failure : Failure)
  deriving DecidableEq, Repr

section Results

variable {α β : Type}

@[simp] theorem ok_bind (a : α) (f : α → Except Failure β) : (Except.ok a >>= f) = f a := rfl

@[simp] theorem error_bind (e : Failure) (f : α → Except Failure β) :
    (Except.error e >>= f) = Except.error e := rfl

@[simp] theorem pure_eq_ok (a : α) : (pure a : Except Failure α) = .ok a := rfl

theorem bind_eq_ok_iff {first : Except Failure α} {second : α → Except Failure β} {b : β} :
    (first >>= second) = .ok b ↔ ∃ a, first = .ok a ∧ second a = .ok b := by
  cases first <;> simp

theorem map_eq_ok_iff {result : Except Failure α} {f : α → β} {b : β} :
    result.map f = .ok b ↔ ∃ a, result = .ok a ∧ f a = b := by
  cases result <;> simp [Except.map]

end Results

/-- The two builds of the program: the host one, and the RP2350 library. -/
inductive Build where
  | native
  | rp2350
  deriving DecidableEq, Repr

def Build.longBits : Build → Nat
  | .native => 64
  | .rp2350 => 32

def registerLen : Nat := 5

def nameLen : Nat := 64

def dataSize : Nat := 4 * 512

def lineBufLen : Nat := 512

def int12Max : Int := 2 ^ 11 - 1
def int12Min : Int := -2 ^ 11

def int13Max : Int := 2 ^ 12 - 1
def int13Min : Int := -2 ^ 12

def int20Max : Int := 2 ^ 20 - 1
def int20Min : Int := -2 ^ 19

def int21Max : Int := 2 ^ 20 - 1
def int21Min : Int := -2 ^ 20

def int32Max : Int := 2 ^ 31 - 1
def int32Min : Int := -2 ^ 31

inductive InstrType where
  | R | I | S | B | U | J | Z
  | P
  deriving DecidableEq, Repr

structure Instruction where
  name : String
  opcode : BitVec 8
  funct3 : BitVec 8
  funct7 : BitVec 8
  type : InstrType
  deriving DecidableEq, Repr

def instructions : List Instruction :=
  [ ⟨"add", 0x33, 0x0, 0x00, .R⟩,
    ⟨"sub", 0x33, 0x0, 0x20, .R⟩,
    ⟨"xor", 0x33, 0x4, 0x00, .R⟩,
    ⟨"or", 0x33, 0x6, 0x00, .R⟩,
    ⟨"and", 0x33, 0x7, 0x00, .R⟩,
    ⟨"sll", 0x33, 0x1, 0x00, .R⟩,
    ⟨"srl", 0x33, 0x5, 0x00, .R⟩,
    ⟨"sra", 0x33, 0x5, 0x20, .R⟩,
    ⟨"slt", 0x33, 0x2, 0x00, .R⟩,
    ⟨"sltu", 0x33, 0x3, 0x00, .R⟩,
    ⟨"addi", 0x13, 0x0, 0x00, .I⟩,
    ⟨"xori", 0x13, 0x4, 0x00, .I⟩,
    ⟨"ori", 0x13, 0x6, 0x00, .I⟩,
    ⟨"andi", 0x13, 0x7, 0x00, .I⟩,
    ⟨"slli", 0x13, 0x1, 0x00, .I⟩,
    ⟨"srli", 0x13, 0x5, 0x00, .I⟩,
    ⟨"srai", 0x13, 0x5, 0x20, .I⟩,
    ⟨"slti", 0x13, 0x2, 0x00, .I⟩,
    ⟨"sltiu", 0x13, 0x3, 0x00, .I⟩,
    ⟨"lb", 0x03, 0x0, 0x00, .I⟩,
    ⟨"lh", 0x03, 0x1, 0x00, .I⟩,
    ⟨"lw", 0x03, 0x2, 0x00, .I⟩,
    ⟨"lbu", 0x03, 0x4, 0x00, .I⟩,
    ⟨"lhu", 0x03, 0x5, 0x00, .I⟩,
    ⟨"ecall", 0x73, 0x0, 0x00, .Z⟩,
    ⟨"sb", 0x23, 0x0, 0x00, .S⟩,
    ⟨"sh", 0x23, 0x1, 0x00, .S⟩,
    ⟨"sw", 0x23, 0x2, 0x00, .S⟩,
    ⟨"auipc", 0x17, 0x0, 0x00, .U⟩,
    ⟨"lui", 0x37, 0x0, 0x00, .U⟩,
    ⟨"beq", 0x63, 0x0, 0x00, .B⟩,
    ⟨"bne", 0x63, 0x1, 0x00, .B⟩,
    ⟨"blt", 0x63, 0x4, 0x00, .B⟩,
    ⟨"bge", 0x63, 0x5, 0x00, .B⟩,
    ⟨"bltu", 0x63, 0x6, 0x00, .B⟩,
    ⟨"bgeu", 0x63, 0x7, 0x00, .B⟩,
    ⟨"li", 0x13, 0x0, 0x00, .P⟩,
    ⟨"la", 0x17, 0x0, 0x00, .P⟩,
    ⟨"mv", 0x13, 0x0, 0x00, .P⟩,
    ⟨"neg", 0x33, 0x0, 0x20, .P⟩,
    ⟨"nop", 0x13, 0x0, 0x00, .P⟩,
    ⟨"not", 0x13, 0x4, 0x00, .P⟩,
    ⟨"seqz", 0x13, 0x3, 0x00, .P⟩,
    ⟨"snez", 0x33, 0x3, 0x00, .P⟩ ]

def findInstruction (name : CString) : Option Instruction :=
  instructions.find? (fun instr => instr.name.toList = name)

def assembleRType (instr : Instruction) (rs2 rs1 rd : BitVec 8) : Word :=
  (instr.funct7.setWidth 32 <<< 25) ||| (rs2.setWidth 32 <<< 20) ||| (rs1.setWidth 32 <<< 15) |||
    (instr.funct3.setWidth 32 <<< 12) ||| (rd.setWidth 32 <<< 7) ||| instr.opcode.setWidth 32

def assembleIType (instr : Instruction) (rs1 : BitVec 8) (imm : Word) (rd : BitVec 8) : Word :=
  ((imm &&& 0xFFF#32) <<< 20) ||| (rs1.setWidth 32 <<< 15) ||| (instr.funct3.setWidth 32 <<< 12) |||
    (rd.setWidth 32 <<< 7) ||| instr.opcode.setWidth 32

def assembleSType (instr : Instruction) (rs1 rs2 : BitVec 8) (imm : Word) : Word :=
  (((imm >>> 5) &&& 0x7F#32) <<< 25) ||| (rs2.setWidth 32 <<< 20) ||| (rs1.setWidth 32 <<< 15) |||
    (instr.funct3.setWidth 32 <<< 12) ||| ((imm &&& 0x1F#32) <<< 7) ||| instr.opcode.setWidth 32

def assembleBType (instr : Instruction) (rs1 rs2 : BitVec 8) (imm : Word) : Word :=
  (((imm >>> 12) &&& 0x1#32) <<< 31) ||| (((imm >>> 5) &&& 0x3F#32) <<< 25) |||
    (rs2.setWidth 32 <<< 20) ||| (rs1.setWidth 32 <<< 15) ||| (instr.funct3.setWidth 32 <<< 12) |||
    (((imm >>> 1) &&& 0xF#32) <<< 8) ||| (((imm >>> 11) &&& 0x1#32) <<< 7) |||
    instr.opcode.setWidth 32

def assembleUType (instr : Instruction) (rd : BitVec 8) (imm : Word) : Word :=
  ((imm &&& 0xFFFFF#32) <<< 12) ||| (rd.setWidth 32 <<< 7) ||| instr.opcode.setWidth 32

def assembleJType (instr : Instruction) (rd : BitVec 8) (imm : Word) : Word :=
  (((imm >>> 20) &&& 0x1#32) <<< 31) ||| (((imm >>> 1) &&& 0x3FF#32) <<< 21) |||
    (((imm >>> 11) &&& 0x1#32) <<< 20) ||| (((imm >>> 12) &&& 0xFF#32) <<< 12) |||
    (rd.setWidth 32 <<< 7) ||| instr.opcode.setWidth 32

def assembleZType (instr : Instruction) : Word :=
  (instr.funct7.setWidth 32 <<< 25) ||| (instr.funct3.setWidth 32 <<< 12) |||
    instr.opcode.setWidth 32

end RiscvAs
