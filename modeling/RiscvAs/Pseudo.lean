/-
Pseudo-instructions: `expand_pseudo_instr` and the `expand_*_instr` functions
of `src/instruction.c`.

An expansion is source text: the operands are printed into a new line, which
`encode` scans again.
-/

import RiscvAs.Stdio.Literal
import RiscvAs.Encode
import RiscvAs.Context

namespace RiscvAs

open Stdio
open Rv32 (Word)

/-- The instructions of an expansion with their lines; `count` is the length. -/
structure PseudoExpansion where
  lines : List (Instruction × CString)
  deriving DecidableEq, Repr

def PseudoExpansion.count (expansion : PseudoExpansion) : Nat :=
  expansion.lines.length

def PseudoExpansion.reset : PseudoExpansion :=
  { lines := [] }

def pseudoExpansionAdd (expansion : PseudoExpansion) (instr : Instruction) (line : CString) :
    Except Failure PseudoExpansion :=
  if expansion.count ≥ 2 then .error .err
  else .ok { lines := expansion.lines ++ [(instr, snprintf lineBufLen line)] }

/-- Find `name`, print its line and add it. -/
def expandWith (expansion : PseudoExpansion) (name : String) (text : CString) :
    Except Failure PseudoExpansion :=
  match findInstruction name.toList with
  | none => .error .unknownInstruction
  | some instr => pseudoExpansionAdd expansion instr (snprintf lineBufLen text)

/-- `(x << 20) >> 20` on `int32_t`. -/
def lowPart (x : Word) : Word :=
  (x <<< 20).sshiftRight 20

/-- `(x - lo) >> 12` on `int32_t`. -/
def highPart (x : Word) : Word :=
  (x - lowPart x).sshiftRight 12

def expandLiInstr (rd : CString) (imm64 : Int) (expansion : PseudoExpansion) :
    Except Failure PseudoExpansion :=
  let imm32 := BitVec.ofInt 32 imm64
  if imm32.toInt ≥ int12Min ∧ imm32.toInt ≤ int12Max then
    expandWith expansion "addi"
      ("addi ".toList ++ rd ++ ", zero, ".toList ++ printInt imm32.toInt)
  else do
    let lo := lowPart imm32
    let expansion ← expandWith expansion "lui"
      ("lui ".toList ++ rd ++ ", ".toList ++ printInt (highPart imm32).toInt)
    if lo ≠ 0 then
      expandWith expansion "addi"
        ("addi ".toList ++ rd ++ ", ".toList ++ rd ++ ", ".toList ++ printInt lo.toInt)
    else pure expansion

/-- `symbol_addr` is an `int64_t` and `current_pc` an `int32_t`. -/
def expandLaInstr (rd : CString) (symbolAddr currentPc : Int) (expansion : PseudoExpansion) :
    Except Failure PseudoExpansion := do
  let offset := BitVec.ofInt 32 (symbolAddr - currentPc)
  let expansion ← expandWith expansion "auipc"
    ("auipc ".toList ++ rd ++ ", ".toList ++ printInt (highPart offset).toInt)
  expandWith expansion "addi"
    ("addi ".toList ++ rd ++ ", ".toList ++ rd ++ ", ".toList ++ printInt (lowPart offset).toInt)

def expandMvInstr (rs1 rd : CString) (expansion : PseudoExpansion) :
    Except Failure PseudoExpansion :=
  expandWith expansion "addi" ("addi ".toList ++ rd ++ ", ".toList ++ rs1 ++ ", 0".toList)

def expandNegInstr (rs1 rd : CString) (expansion : PseudoExpansion) :
    Except Failure PseudoExpansion :=
  expandWith expansion "sub" ("sub ".toList ++ rd ++ ", zero, ".toList ++ rs1)

def expandNopInstr (expansion : PseudoExpansion) : Except Failure PseudoExpansion :=
  expandWith expansion "addi" "addi zero, zero, 0".toList

def expandNotInstr (rs1 rd : CString) (expansion : PseudoExpansion) :
    Except Failure PseudoExpansion :=
  expandWith expansion "xori" ("xori ".toList ++ rd ++ ", ".toList ++ rs1 ++ ", -1".toList)

def expandSeqzInstr (rs1 rd : CString) (expansion : PseudoExpansion) :
    Except Failure PseudoExpansion :=
  expandWith expansion "sltiu" ("sltiu ".toList ++ rd ++ ", ".toList ++ rs1 ++ ", 1".toList)

def expandSnezInstr (rs2 rd : CString) (expansion : PseudoExpansion) :
    Except Failure PseudoExpansion :=
  expandWith expansion "sltu" ("sltu ".toList ++ rd ++ ", zero, ".toList ++ rs2)

/-- What `%li` leaves in a zeroed `int64_t`: `sizeof(long)` little-endian
bytes. -/
def storeLong (build : Build) (value : Int) : Int :=
  match build with
  | .native => value
  | .rp2350 => value % 2 ^ 32

/-- `"%*s %4[^,], %s"` -/
def formatLa : List Directive :=
  [.skipToken, .blank, fieldDirective, .char ',', .blank, .token none]

def expandLi (build : Build) (line : CString) : Except Failure PseudoExpansion :=
  match sscanf (formatU build) line with
  | [.str rd, .int value] => do
      let imm64 := storeLong build value
      checkImmediate imm64 int32Min int32Max
      expandLiInstr rd imm64 .reset
  | _ => .error .parseError

/-- `symbol_name` is read whole, as if its buffer were long enough. -/
def expandLa (ctx : AssemblerCtx) (line : CString) (currentPc : Word) :
    Except Failure PseudoExpansion :=
  match sscanf formatLa line with
  | [.str rd, .str symbolName] =>
      match symtableLookup ctx.table symbolName with
      | none => .error .symNotFound
      | some symbolOffset =>
          let symbolAddress := getDataVaddr ctx ctx.baseVaddr + symbolOffset
          expandLaInstr rd symbolAddress.toNat currentPc.toInt .reset
  | _ => .error .parseError

def expandPair (line : CString)
    (expand : CString → CString → PseudoExpansion → Except Failure PseudoExpansion) :
    Except Failure PseudoExpansion :=
  match sscanf formatPair line with
  | [.str rd, .str rs] => expand rs rd .reset
  | _ => .error .parseError

def expandPseudoInstr (build : Build) (ctx : AssemblerCtx) (instr : Instruction) (line : CString)
    (currentPc : Word) : Except Failure PseudoExpansion :=
  if instr.name = "li" then expandLi build line
  else if instr.name = "la" then expandLa ctx line currentPc
  else if instr.name = "mv" then expandPair line expandMvInstr
  else if instr.name = "neg" then expandPair line expandNegInstr
  else if instr.name = "nop" then expandNopInstr .reset
  else if instr.name = "not" then expandPair line expandNotInstr
  else if instr.name = "ret" then .error .jumpNotImplemented
  else if instr.name = "seqz" then expandPair line expandSeqzInstr
  else if instr.name = "snez" then expandPair line expandSnezInstr
  else .error .unknownPseudo

def encodePseudoInstr (build : Build) (expansion : PseudoExpansion) :
    Except Failure (List Word) :=
  expansion.lines.mapM (fun entry => encode build entry.1 entry.2 entry.1.name.toList)

end RiscvAs
