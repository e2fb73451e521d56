/-
Running a sequence of instructions.

`runInstrs` executes instructions in order; when the memory holds words that
decode to them at the program counter, it is what the machine does.  `Writes`
says of a sequence that it sets one register, and the sequences that build a
constant out of an upper and a low part are instances.
-/

import RiscvAs.Rv32.Isa

namespace Rv32

def runInstrs : List Instr → State → Option State
  | [], s => some s
  | instr :: instrs, s => (execute s instr).bind (runInstrs instrs)

/-- The words decode to the instructions, one by one. -/
def Decodes (words : List Word) (instrs : List Instr) : Prop :=
  List.Forall₂ (fun w instr => decode w = some instr) words instrs

theorem Decodes.length_eq {words : List Word} {instrs : List Instr}
    (decodes : Decodes words instrs) : words.length = instrs.length :=
  List.Forall₂.length_eq decodes

theorem Decodes.snoc {words : List Word} {instrs : List Instr} (decodes : Decodes words instrs)
    {w : Word} {instr : Instr} (decoded : decode w = some instr) :
    Decodes (words ++ [w]) (instrs ++ [instr]) :=
  List.rel_append decodes (List.Forall₂.cons decoded List.Forall₂.nil)

def Fetches (memory : Memory) : Word → List Word → Prop
  | _, [] => True
  | address, w :: words => fetch memory address = w ∧ Fetches memory (address + 4) words

def Holds (memory : Memory) (address : Word) (bytes : List Bytes.Byte) : Prop :=
  ∀ i byte, bytes[i]? = some byte → memory (address + BitVec.ofNat 32 i) = byte

theorem Holds.append {memory : Memory} {address : Word} {first second : List Bytes.Byte}
    (holds : Holds memory address (first ++ second)) :
    Holds memory address first ∧ Holds memory (address + BitVec.ofNat 32 first.length) second := by
  constructor
  · intro i byte read
    have inside := (List.getElem?_eq_some_iff.mp read).1
    exact holds i byte (by rw [List.getElem?_append_left inside, read])
  · intro i byte read
    have stands := holds (first.length + i) byte
      (by rw [List.getElem?_append_right (Nat.le_add_right _ _), Nat.add_sub_cancel_left, read])
    rwa [BitVec.ofNat_add, ← BitVec.add_assoc] at stands

theorem Holds.of_isPrefix {memory : Memory} {address : Word} {part whole : List Bytes.Byte}
    (holds : Holds memory address whole) (prefixed : part <+: whole) :
    Holds memory address part := by
  obtain ⟨rest, rfl⟩ := prefixed
  exact holds.append.1

theorem fetch_of_holds {memory : Memory} {address w : Word}
    (holds : Holds memory address (Bytes.littleEndian 4 w.toNat)) : fetch memory address = w := by
  have bound := w.isLt
  have read : [memory address, memory (address + 1), memory (address + 2), memory (address + 3)] =
      Bytes.littleEndian 4 w.toNat := by
    have first : memory (address + 0) = _ := holds 0 _ rfl
    have second : memory (address + 1) = _ := holds 1 _ rfl
    have third : memory (address + 2) = _ := holds 2 _ rfl
    have fourth : memory (address + 3) = _ := holds 3 _ rfl
    rw [add_zero] at first
    rw [first, second, third, fourth]
    rfl
  rw [fetch, read, Bytes.ofLittleEndian_littleEndian]
  apply BitVec.eq_of_toNat_eq
  rw [BitVec.toNat_ofNat]
  omega

theorem fetches_of_holds {memory : Memory} {address : Word} {words : List Word}
    (holds : Holds memory address (words.flatMap (fun w => Bytes.littleEndian 4 w.toNat))) :
    Fetches memory address words := by
  induction words generalizing address with
  | nil => trivial
  | cons w words ih =>
      rw [List.flatMap_cons] at holds
      obtain ⟨first, rest⟩ := holds.append
      rw [Bytes.littleEndian_length] at rest
      exact ⟨fetch_of_holds first, ih rest⟩

theorem execute_pc {s s' : State} {instr : Instr} (executed : execute s instr = some s') :
    s'.pc = s.pc + 4 := by
  cases instr with
  | reg op rd rs1 rs2 | imm op rd rs1 imm =>
      cases executed
      rfl
  | shift op rd rs1 shamt | upper op rd imm =>
      cases op <;> cases executed <;> rfl
  | load | store | branch | jal | jalr | ecall | ebreak => cases executed

theorem steps_of_fetches {memory : Memory} {words : List Word} {instrs : List Instr} {s : State}
    (fetches : Fetches memory s.pc words) (decodes : Decodes words instrs) :
    steps memory words.length s = runInstrs instrs s := by
  induction decodes generalizing s with
  | nil => rfl
  | @cons w instr words instrs decoded decodes ih =>
      obtain ⟨fetched, rest⟩ := fetches
      simp only [List.length_cons, steps, step, fetched, decoded, Option.bind_some, runInstrs]
      cases executed : execute s instr with
      | none => rfl
      | some s' =>
          rw [Option.bind_some, Option.bind_some]
          exact ih (execute_pc executed ▸ rest)

/-- From every state the instructions run to the end and set `rd`, and no other
register changes. -/
def Writes (instrs : List Instr) (rd : Reg) (value : State → Word) : Prop :=
  ∀ s, ∃ s', runInstrs instrs s = some s' ∧ s'.get rd = value s ∧
    ∀ r, r ≠ rd → s'.get r = s.get r

def upperBase (op : UOp) (s : State) : Word :=
  match op with
  | .lui => 0
  | .auipc => s.pc

theorem execute_upper (s : State) (op : UOp) (rd : Reg) (imm : Nat) :
    execute s (.upper op rd imm) =
      some (s.set rd (upperBase op s + BitVec.ofNat 32 (imm * 2 ^ 12))).next := by
  cases op <;> simp [execute, upperBase]

section Constants

variable {rd : Reg} (notZero : rd ≠ 0)

include notZero

theorem writes_addi_zero (imm : Int) :
    Writes [.imm .addi rd 0 imm] rd (fun _ => BitVec.ofInt 32 imm) := by
  intro s
  refine ⟨_, rfl, ?_, fun r different => ?_⟩
  · simp [State.get_set_self _ notZero, aluImm]
  · simp [State.get_set_of_ne _ different]

theorem writes_upper (op : UOp) (high : Nat) :
    Writes [.upper op rd high] rd
      (fun s => upperBase op s + BitVec.ofNat 32 (high * 2 ^ 12)) := by
  intro s
  refine ⟨_, by rw [runInstrs, execute_upper]; rfl, ?_, fun r different => ?_⟩
  · simp [State.get_set_self _ notZero]
  · simp [State.get_set_of_ne _ different]

theorem writes_upper_addi (op : UOp) (high : Nat) (low : Int) :
    Writes [.upper op rd high, .imm .addi rd rd low] rd (fun s =>
      upperBase op s + BitVec.ofNat 32 (high * 2 ^ 12) + BitVec.ofInt 32 low) := by
  intro s
  refine ⟨_, by rw [runInstrs, execute_upper]; rfl, ?_, fun r different => ?_⟩
  · simp [State.get_set_self _ notZero, aluImm]
  · simp [State.get_set_of_ne _ different]

end Constants

end Rv32
