/-
The RV32I base integer instruction set: its instruction formats, their
decoding, and the execution of the instructions that compute in registers.

Fields and immediates are numbers, cut out of the instruction word by division,
so that arithmetic decides what a word decodes to.  Nothing here knows how the
words were produced.
-/

import RiscvAs.Bytes

namespace Rv32

open Bytes (Byte)

abbrev Word := BitVec 32

abbrev Reg := Fin 32

instance neZero_registers : NeZero 32 := ⟨by decide⟩

inductive ROp where
  | add | sub | xor | or | and | sll | srl | sra | slt | sltu
  deriving DecidableEq, Repr

inductive IOp where
  | addi | xori | ori | andi | slti | sltiu
  deriving DecidableEq, Repr

inductive ShiftOp where
  | slli | srli | srai
  deriving DecidableEq, Repr

inductive LoadOp where
  | lb | lh | lw | lbu | lhu
  deriving DecidableEq, Repr

inductive StoreOp where
  | sb | sh | sw
  deriving DecidableEq, Repr

inductive BranchOp where
  | beq | bne | blt | bge | bltu | bgeu
  deriving DecidableEq, Repr

inductive UOp where
  | lui | auipc
  deriving DecidableEq, Repr

/-- An instruction.  Signed immediates are integers, upper immediates and shift
amounts are the numbers in their fields. -/
inductive Instr where
  | reg (op : ROp) (rd rs1 rs2 : Reg)
  | imm (op : IOp) (rd rs1 : Reg) (imm : Int)
  | shift (op : ShiftOp) (rd rs1 : Reg) (shamt : Nat)
  | load (op : LoadOp) (rd rs1 : Reg) (imm : Int)
  | store (op : StoreOp) (rs1 rs2 : Reg) (imm : Int)
  | branch (op : BranchOp) (rs1 rs2 : Reg) (imm : Int)
  | upper (op : UOp) (rd : Reg) (imm : Nat)
  | jal (rd : Reg) (imm : Int)
  | jalr (rd rs1 : Reg) (imm : Int)
  | ecall
  | ebreak
  deriving DecidableEq, Repr

def field (w : Word) (low width : Nat) : Nat :=
  w.toNat / 2 ^ low % 2 ^ width

theorem field_lt (w : Word) (low width : Nat) : field w low width < 2 ^ width :=
  Nat.mod_lt _ (Nat.two_pow_pos width)

def regField (w : Word) (low : Nat) : Reg :=
  ⟨field w low 5, field_lt w low 5⟩

def signed (width value : Nat) : Int :=
  if value < 2 ^ (width - 1) then value else (value : Int) - 2 ^ width

def immI (w : Word) : Int := signed 12 (field w 20 12)

def immS (w : Word) : Int := signed 12 (field w 25 7 * 2 ^ 5 + field w 7 5)

def immB (w : Word) : Int :=
  signed 13 (field w 31 1 * 2 ^ 12 + field w 7 1 * 2 ^ 11 + field w 25 6 * 2 ^ 5 +
    field w 8 4 * 2)

def immU (w : Word) : Nat := field w 12 20

def immJ (w : Word) : Int :=
  signed 21 (field w 31 1 * 2 ^ 20 + field w 12 8 * 2 ^ 12 + field w 20 1 * 2 ^ 11 +
    field w 21 10 * 2)

def rOp (funct7 funct3 : Nat) : Option ROp :=
  match funct7, funct3 with
  | 0x00, 0x0 => some .add
  | 0x20, 0x0 => some .sub
  | 0x00, 0x1 => some .sll
  | 0x00, 0x2 => some .slt
  | 0x00, 0x3 => some .sltu
  | 0x00, 0x4 => some .xor
  | 0x00, 0x5 => some .srl
  | 0x20, 0x5 => some .sra
  | 0x00, 0x6 => some .or
  | 0x00, 0x7 => some .and
  | _, _ => none

/-- `funct3` 1 and 5 are the shifts, whose upper immediate bits select the
operation. -/
def opImm (funct7 funct3 : Nat) (rd rs1 : Reg) (shamt : Nat) (imm : Int) : Option Instr :=
  match funct3 with
  | 0x0 => some (.imm .addi rd rs1 imm)
  | 0x2 => some (.imm .slti rd rs1 imm)
  | 0x3 => some (.imm .sltiu rd rs1 imm)
  | 0x4 => some (.imm .xori rd rs1 imm)
  | 0x6 => some (.imm .ori rd rs1 imm)
  | 0x7 => some (.imm .andi rd rs1 imm)
  | 0x1 => if funct7 = 0x00 then some (.shift .slli rd rs1 shamt) else none
  | 0x5 =>
      if funct7 = 0x00 then some (.shift .srli rd rs1 shamt)
      else if funct7 = 0x20 then some (.shift .srai rd rs1 shamt)
      else none
  | _ => none

def loadOp : Nat → Option LoadOp
  | 0x0 => some .lb
  | 0x1 => some .lh
  | 0x2 => some .lw
  | 0x4 => some .lbu
  | 0x5 => some .lhu
  | _ => none

def storeOp : Nat → Option StoreOp
  | 0x0 => some .sb
  | 0x1 => some .sh
  | 0x2 => some .sw
  | _ => none

def branchOp : Nat → Option BranchOp
  | 0x0 => some .beq
  | 0x1 => some .bne
  | 0x4 => some .blt
  | 0x5 => some .bge
  | 0x6 => some .bltu
  | 0x7 => some .bgeu
  | _ => none

def system (w : Word) : Option Instr :=
  if w = 0x00000073#32 then some .ecall
  else if w = 0x00100073#32 then some .ebreak
  else none

/-- `fence` is left out: no field of it means anything to a single hart. -/
def decode (w : Word) : Option Instr :=
  let rd := regField w 7
  let funct3 := field w 12 3
  let rs1 := regField w 15
  let rs2 := regField w 20
  let funct7 := field w 25 7
  match field w 0 7 with
  | 0x33 => (rOp funct7 funct3).map (fun op => .reg op rd rs1 rs2)
  | 0x13 => opImm funct7 funct3 rd rs1 (field w 20 5) (immI w)
  | 0x03 => (loadOp funct3).map (fun op => .load op rd rs1 (immI w))
  | 0x23 => (storeOp funct3).map (fun op => .store op rs1 rs2 (immS w))
  | 0x63 => (branchOp funct3).map (fun op => .branch op rs1 rs2 (immB w))
  | 0x37 => some (.upper .lui rd (immU w))
  | 0x17 => some (.upper .auipc rd (immU w))
  | 0x6f => some (.jal rd (immJ w))
  | 0x67 => if funct3 = 0 then some (.jalr rd rs1 (immI w)) else none
  | 0x73 => system w
  | _ => none

example : decode 0xffc10093#32 = some (.imm .addi 1 2 (-4)) := by decide

/-! ### Execution in registers -/

structure State where
  regs : Reg → Word
  pc : Word

/-- `x0` reads as zero. -/
def State.get (s : State) (r : Reg) : Word :=
  if r = 0 then 0 else s.regs r

def State.set (s : State) (r : Reg) (value : Word) : State :=
  { s with regs := Function.update s.regs r value }

def State.next (s : State) : State :=
  { s with pc := s.pc + 4 }

@[simp] theorem State.get_zero (s : State) : s.get 0 = 0 := if_pos rfl

theorem State.get_set_self (s : State) {r : Reg} (notZero : r ≠ 0) (value : Word) :
    (s.set r value).get r = value := by
  simp [State.get, State.set, notZero]

theorem State.get_set_of_ne (s : State) {r r' : Reg} (different : r' ≠ r) (value : Word) :
    (s.set r value).get r' = s.get r' := by
  simp [State.get, State.set, Function.update_of_ne different]

@[simp] theorem State.get_next (s : State) (r : Reg) : s.next.get r = s.get r := rfl

@[simp] theorem State.pc_next (s : State) : s.next.pc = s.pc + 4 := rfl

@[simp] theorem State.pc_set (s : State) (r : Reg) (value : Word) :
    (s.set r value).pc = s.pc := rfl

def aluReg (op : ROp) (a b : Word) : Word :=
  match op with
  | .add => a + b
  | .sub => a - b
  | .xor => a ^^^ b
  | .or => a ||| b
  | .and => a &&& b
  | .sll => a <<< (b.toNat % 32)
  | .srl => a >>> (b.toNat % 32)
  | .sra => a.sshiftRight (b.toNat % 32)
  | .slt => if a.toInt < b.toInt then 1 else 0
  | .sltu => if a.toNat < b.toNat then 1 else 0

def aluImm (op : IOp) (a b : Word) : Word :=
  match op with
  | .addi => a + b
  | .xori => a ^^^ b
  | .ori => a ||| b
  | .andi => a &&& b
  | .slti => if a.toInt < b.toInt then 1 else 0
  | .sltiu => if a.toNat < b.toNat then 1 else 0

/-- One instruction that only computes in registers; the others need more than
the registers and have no result here. -/
def execute (s : State) : Instr → Option State
  | .reg op rd rs1 rs2 => some (s.set rd (aluReg op (s.get rs1) (s.get rs2))).next
  | .imm op rd rs1 imm => some (s.set rd (aluImm op (s.get rs1) (BitVec.ofInt 32 imm))).next
  | .shift .slli rd rs1 shamt => some (s.set rd (s.get rs1 <<< shamt)).next
  | .shift .srli rd rs1 shamt => some (s.set rd (s.get rs1 >>> shamt)).next
  | .shift .srai rd rs1 shamt => some (s.set rd ((s.get rs1).sshiftRight shamt)).next
  | .upper .lui rd imm => some (s.set rd (BitVec.ofNat 32 (imm * 2 ^ 12))).next
  | .upper .auipc rd imm => some (s.set rd (s.pc + BitVec.ofNat 32 (imm * 2 ^ 12))).next
  | _ => none

abbrev Memory := Word → Byte

def fetch (memory : Memory) (address : Word) : Word :=
  BitVec.ofNat 32 (Bytes.ofLittleEndian
    [memory address, memory (address + 1), memory (address + 2), memory (address + 3)])

def step (memory : Memory) (s : State) : Option State :=
  (decode (fetch memory s.pc)).bind (execute s)

def steps (memory : Memory) : Nat → State → Option State
  | 0, s => some s
  | count + 1, s => (step memory s).bind (steps memory count)

end Rv32
