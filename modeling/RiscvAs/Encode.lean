/-
Encoding of one instruction line: `parse_register`, the `handle_*_type_instr`
functions and `encode` of `src/instruction.c`.

A source line is scanned with the `sscanf` pattern of its format; the pattern
is quoted at each format.  Logging is left out.
-/

import RiscvAs.Instruction

namespace RiscvAs

open Stdio
open Rv32 (Word)

def isLoadStore (op : CString) : Bool :=
  op = "lb".toList || op = "lh".toList || op = "lw".toList || op = "lbu".toList ||
    op = "lhu".toList || op = "sb".toList || op = "sh".toList || op = "sw".toList

/-- The numbered names: `sscanf(&reg[1], "%hhu%c", …)` must convert the number
and nothing after it, and the number may not exceed `limit`. -/
def parseNumbered (build : Build) (digits : CString) (limit : Nat) (number : Nat → Nat) :
    Except Failure (BitVec 8) :=
  match sscanf [.hhu build.longBits, .anyChar] digits with
  | [.int value] =>
      if value > limit then .error .invalidRegister
      else .ok (BitVec.ofNat 8 (number value.toNat))
  | _ => .error .invalidRegister

def parseNamed (reg name : CString) (number : BitVec 8) : Except Failure (BitVec 8) :=
  if reg = name then .ok number else .error .invalidRegister

/-- The token `parse_register` copies into `reg_buf`. -/
def registerToken (reg : CString) : CString :=
  (skipBlanks reg).takeWhile (fun c => c ∉ [' ', '\t', '\r', '\n'])

def parseRegister (build : Build) (reg : CString) : Except Failure (BitVec 8) :=
  let token := registerToken reg
  if token.length = 0 ∨ token.length ≥ registerLen then .error .invalidRegister
  else
    match token with
    | 'x' :: digits => parseNumbered build digits 31 (fun n => n)
    | 'a' :: digits => parseNumbered build digits 7 (fun n => n + 10)
    | 's' :: 'p' :: _ => parseNamed token "sp".toList 0x2
    | 's' :: digits => parseNumbered build digits 11 (fun n => if n < 2 then n + 8 else n + 16)
    | 't' :: 'p' :: _ => parseNamed token "tp".toList 0x4
    | 't' :: digits => parseNumbered build digits 6 (fun n => if n < 3 then n + 5 else n + 25)
    | 'r' :: _ => parseNamed token "ra".toList 0x1
    | 'g' :: _ => parseNamed token "gp".toList 0x3
    | 'z' :: _ => parseNamed token "zero".toList 0x0
    | _ => .error .invalidRegister

def handleRTypeInstr (build : Build) (instr : Instruction) (rs1 rs2 rd : CString) :
    Except Failure Word := do
  let rs2Val ← parseRegister build rs2
  let rs1Val ← parseRegister build rs1
  let rdVal ← parseRegister build rd
  pure (assembleRType instr rs2Val rs1Val rdVal)

def handleITypeInstr (build : Build) (instr : Instruction) (rs1 : CString) (imm : Word)
    (rd : CString) : Except Failure Word := do
  let rs1Val ← parseRegister build rs1
  let rdVal ← parseRegister build rd
  pure (assembleIType instr rs1Val imm rdVal)

def handleSTypeInstr (build : Build) (instr : Instruction) (rs1 rs2 : CString) (imm : Word) :
    Except Failure Word := do
  let rs2Val ← parseRegister build rs2
  let rs1Val ← parseRegister build rs1
  pure (assembleSType instr rs1Val rs2Val imm)

def handleBTypeInstr (build : Build) (instr : Instruction) (rs1 rs2 : CString) (imm : Word) :
    Except Failure Word := do
  let rs1Val ← parseRegister build rs1
  let rs2Val ← parseRegister build rs2
  pure (assembleBType instr rs1Val rs2Val imm)

def handleUTypeInstr (build : Build) (instr : Instruction) (rd : CString) (imm : Word) :
    Except Failure Word := do
  let rdVal ← parseRegister build rd
  pure (assembleUType instr rdVal imm)

def handleJTypeInstr (build : Build) (instr : Instruction) (rd : CString) (imm : Word) :
    Except Failure Word := do
  let rdVal ← parseRegister build rd
  pure (assembleJType instr rdVal imm)

/-- `CHECK_IMMEDIATE` -/
def checkImmediate (imm min max : Int) : Except Failure Unit :=
  if imm < min ∨ imm > max then .error .invalidImmediate else .ok ()

/-- `CHECK_IMM_AND_LAST_B` -/
def checkImmAndLastB (imm min max : Int) : Except Failure Unit :=
  if imm < min ∨ imm > max ∨ imm % 2 ≠ 0 then .error .invalidImmediate else .ok ()

/-- `%4[^,]` -/
def fieldDirective : Directive := .set (registerLen - 1) [',']

/-- `%4[^#\n]` -/
def lastFieldDirective : Directive := .set (registerLen - 1) ['#', '\n']

/-- `"%*s %4[^,], %4[^,], %4[^#\n]"` -/
def formatR : List Directive :=
  [.skipToken, .blank, fieldDirective, .char ',', .blank, fieldDirective, .char ',', .blank,
    lastFieldDirective]

/-- `"%*s %4[^,], %4[^,], %li"` -/
def formatI (build : Build) : List Directive :=
  [.skipToken, .blank, fieldDirective, .char ',', .blank, fieldDirective, .char ',', .blank,
    .int build.longBits]

/-- `"%*s %4[^,], %li(%4[^)])"` -/
def formatOffset (build : Build) : List Directive :=
  [.skipToken, .blank, fieldDirective, .char ',', .blank, .int build.longBits, .char '(',
    .set (registerLen - 1) [')'], .char ')']

/-- `"%*s %4[^,], %4[^#\n]"` -/
def formatPair : List Directive :=
  [.skipToken, .blank, fieldDirective, .char ',', .blank, lastFieldDirective]

/-- `"%*s %4[^,], %li"` -/
def formatU (build : Build) : List Directive :=
  [.skipToken, .blank, fieldDirective, .char ',', .blank, .int build.longBits]

/-- The operands of a load or a store: `offset(base)`, and when that pattern does
not give all three, a base alone with offset zero. -/
def scanOffsetOperands (build : Build) (line : CString) :
    Except Failure (CString × Int × CString) :=
  match sscanf (formatOffset build) line with
  | [.str reg, .int imm, .str base] => .ok (reg, imm, base)
  | _ =>
      match sscanf formatPair line with
      | [.str reg, .str base] => .ok (reg, 0, base)
      | _ => .error .parseError

def scanITypeOperands (build : Build) (line name : CString) :
    Except Failure (CString × Int × CString) :=
  if isLoadStore name then scanOffsetOperands build line
  else
    match sscanf (formatI build) line with
    | [.str rd, .str rs1, .int imm] => .ok (rd, imm, rs1)
    | _ => .error .parseError

def encode (build : Build) (instr : Instruction) (line name : CString) :
    Except Failure Word :=
  match instr.type with
  | .R =>
      match sscanf formatR line with
      | [.str rd, .str rs1, .str rs2] => handleRTypeInstr build instr rs1 rs2 rd
      | _ => .error .parseError
  | .I => do
      let (rd, imm, rs1) ← scanITypeOperands build line name
      checkImmediate imm int12Min int12Max
      handleITypeInstr build instr rs1 (BitVec.ofInt 32 imm) rd
  | .S => do
      let (rs2, imm, rs1) ← scanOffsetOperands build line
      checkImmediate imm int12Min int12Max
      handleSTypeInstr build instr rs1 rs2 (BitVec.ofInt 32 imm)
  | .B =>
      match sscanf (formatI build) line with
      | [.str rs1, .str rs2, .int imm] => do
          checkImmAndLastB imm int13Min int13Max
          handleBTypeInstr build instr rs1 rs2 (BitVec.ofInt 32 imm)
      | _ => .error .parseError
  | .U =>
      match sscanf (formatU build) line with
      | [.str rd, .int imm] => do
          checkImmediate imm int20Min int20Max
          handleUTypeInstr build instr rd (BitVec.ofInt 32 imm)
      | _ => .error .parseError
  | .J =>
      match sscanf (formatU build) line with
      | [.str rd, .int imm] => do
          checkImmAndLastB imm int21Min int21Max
          handleJTypeInstr build instr rd (BitVec.ofInt 32 imm)
      | _ => .error .parseError
  | .Z => .ok (assembleZType instr)
  | .P => .error .err

example : encode .native ⟨"sw", 0x23, 0x2, 0x00, .S⟩ "sw t3, -4(t4)".toList "sw".toList =
    .ok 0xffceae23#32 := by decide

end RiscvAs
