/-
The whole machine: a hart and the memory that it loads from and stores to.

`Machine.step` executes one instruction.  It has no result where the hart leaves
the program: at a call of the environment, at a word that is no instruction and at
a jump to an address between two words.  Two machines are `Same` when no
instruction can tell them apart.
-/

import RiscvAs.Rv32.Execution
import Mathlib.Computability.StateTransition

namespace Rv32

open Bytes (Byte)
open StateTransition

structure Machine where
  hart : State
  memory : Memory

def readBytes (memory : Memory) (address : Word) (count : Nat) : List Byte :=
  (List.range count).map (fun i => memory (address + BitVec.ofNat 32 i))

def writeBytes (memory : Memory) (address : Word) (bytes : List Byte) : Memory :=
  fun other => (bytes[(other - address).toNat]?).getD (memory other)

def loadWidth : LoadOp → Nat
  | .lb | .lbu => 1
  | .lh | .lhu => 2
  | .lw => 4

def loaded (op : LoadOp) (memory : Memory) (address : Word) : Word :=
  let value := Bytes.ofLittleEndian (readBytes memory address (loadWidth op))
  match op with
  | .lb | .lh => BitVec.ofInt 32 (signed (8 * loadWidth op) value)
  | .lw | .lbu | .lhu => BitVec.ofNat 32 value

def storeWidth : StoreOp → Nat
  | .sb => 1
  | .sh => 2
  | .sw => 4

def storedBytes (op : StoreOp) (value : Word) : List Byte :=
  Bytes.littleEndian (storeWidth op) value.toNat

def taken (op : BranchOp) (a b : Word) : Bool :=
  match op with
  | .beq => a = b
  | .bne => a ≠ b
  | .blt => a.toInt < b.toInt
  | .bge => b.toInt ≤ a.toInt
  | .bltu => a.toNat < b.toNat
  | .bgeu => b.toNat ≤ a.toNat

/-- Without compressed instructions a target is a multiple of four. -/
def State.jump (s : State) (target : Word) : Option State :=
  if target.toNat % 4 = 0 then some { s with pc := target } else none

def Machine.execute (m : Machine) : Instr → Option Machine
  | .load op rd rs1 imm =>
      let address := m.hart.get rs1 + BitVec.ofInt 32 imm
      some { m with hart := (m.hart.set rd (loaded op m.memory address)).next }
  | .store op rs1 rs2 imm =>
      let address := m.hart.get rs1 + BitVec.ofInt 32 imm
      some
        { hart := m.hart.next
          memory := writeBytes m.memory address (storedBytes op (m.hart.get rs2)) }
  | .branch op rs1 rs2 imm =>
      if taken op (m.hart.get rs1) (m.hart.get rs2) then
        (m.hart.jump (m.hart.pc + BitVec.ofInt 32 imm)).map (fun hart => { m with hart := hart })
      else some { m with hart := m.hart.next }
  | .jal rd imm =>
      ((m.hart.set rd (m.hart.pc + 4)).jump (m.hart.pc + BitVec.ofInt 32 imm)).map
        (fun hart => { m with hart := hart })
  | .jalr rd rs1 imm =>
      ((m.hart.set rd (m.hart.pc + 4)).jump
        ((m.hart.get rs1 + BitVec.ofInt 32 imm) &&& ~~~1)).map (fun hart => { m with hart := hart })
  | .ecall | .ebreak => none
  | instr => (Rv32.execute m.hart instr).map (fun hart => { m with hart := hart })

def Machine.fetched (m : Machine) : Option Instr :=
  decode (fetch m.memory m.hart.pc)

def Machine.step (m : Machine) : Option Machine :=
  m.fetched.bind m.execute

structure State.Agree (s t : State) : Prop where
  pc : s.pc = t.pc
  get : ∀ r, s.get r = t.get r

theorem State.Agree.refl (s : State) : s.Agree s := ⟨rfl, fun _ => rfl⟩

theorem State.Agree.symm {s t : State} (agree : s.Agree t) : t.Agree s :=
  ⟨agree.pc.symm, fun r => (agree.get r).symm⟩

theorem State.Agree.trans {s t u : State} (first : s.Agree t) (second : t.Agree u) : s.Agree u :=
  ⟨first.pc.trans second.pc, fun r => (first.get r).trans (second.get r)⟩

theorem State.agree_set_zero (s : State) (value : Word) : s.Agree (s.set 0 value) := by
  refine ⟨rfl, fun r => ?_⟩
  by_cases zero : r = 0
  · rw [zero, State.get_zero, State.get_zero]
  · rw [State.get_set_of_ne s zero]

section Agree

variable {s t : State} (agree : s.Agree t)

include agree

theorem State.Agree.set (rd : Reg) (value : Word) : (s.set rd value).Agree (t.set rd value) := by
  refine ⟨agree.pc, fun r => ?_⟩
  by_cases zero : r = 0
  · rw [zero, State.get_zero, State.get_zero]
  · by_cases same : r = rd
    · subst same
      rw [State.get_set_self s zero, State.get_set_self t zero]
    · rw [State.get_set_of_ne s same, State.get_set_of_ne t same, agree.get]

theorem State.Agree.next : s.next.Agree t.next :=
  ⟨by rw [State.pc_next, State.pc_next, agree.pc], agree.get⟩

theorem State.Agree.jump {target : Word} {s' : State} (jumped : s.jump target = some s') :
    ∃ t', t.jump target = some t' ∧ s'.Agree t' := by
  unfold State.jump at jumped ⊢
  by_cases aligned : target.toNat % 4 = 0
  · rw [if_pos aligned] at jumped ⊢
    cases jumped
    exact ⟨_, rfl, rfl, agree.get⟩
  · rw [if_neg aligned] at jumped
    cases jumped

theorem State.Agree.execute {instr : Instr} {s' : State}
    (executed : Rv32.execute s instr = some s') :
    ∃ t', Rv32.execute t instr = some t' ∧ s'.Agree t' := by
  cases instr with
  | reg op rd rs1 rs2 =>
      cases executed
      rw [agree.get rs1, agree.get rs2]
      exact ⟨_, rfl, (agree.set rd _).next⟩
  | imm op rd rs1 imm =>
      cases executed
      rw [agree.get rs1]
      exact ⟨_, rfl, (agree.set rd _).next⟩
  | shift op rd rs1 shamt =>
      cases op <;> cases executed <;> rw [agree.get rs1] <;>
        exact ⟨_, rfl, (agree.set rd _).next⟩
  | upper op rd imm =>
      cases op <;> cases executed
      · exact ⟨_, rfl, (agree.set rd _).next⟩
      · rw [agree.pc]
        exact ⟨_, rfl, (agree.set rd _).next⟩
  | load | store | branch | jal | jalr | ecall | ebreak => cases executed

end Agree

structure Machine.Same (m n : Machine) : Prop where
  hart : m.hart.Agree n.hart
  memory : m.memory = n.memory

theorem Machine.Same.refl (m : Machine) : m.Same m := ⟨.refl _, rfl⟩

theorem Machine.Same.symm {m n : Machine} (same : m.Same n) : n.Same m :=
  ⟨same.hart.symm, same.memory.symm⟩

theorem Machine.Same.trans {m n k : Machine} (first : m.Same n) (second : n.Same k) : m.Same k :=
  ⟨first.hart.trans second.hart, first.memory.trans second.memory⟩

theorem Machine.Same.withHart {m n m' : Machine} (same : m.Same n) (hart hart' : Option State)
    (moved : hart.map (fun hart => { m with hart := hart }) = some m')
    (follows : ∀ s', hart = some s' → ∃ t', hart' = some t' ∧ s'.Agree t') :
    ∃ n', hart'.map (fun hart => { n with hart := hart }) = some n' ∧ m'.Same n' := by
  obtain ⟨s', first, rfl⟩ := Option.map_eq_some_iff.mp moved
  obtain ⟨t', second, agree⟩ := follows s' first
  exact ⟨_, Option.map_eq_some_iff.mpr ⟨t', second, rfl⟩, agree, same.memory⟩

theorem Machine.Same.execute {m n m' : Machine} (same : m.Same n) {instr : Instr}
    (executed : m.execute instr = some m') : ∃ n', n.execute instr = some n' ∧ m'.Same n' := by
  have agree := same.hart
  cases instr with
  | reg op rd rs1 rs2 =>
      exact same.withHart (Rv32.execute m.hart (.reg op rd rs1 rs2)) _ executed
        fun _ => agree.execute
  | imm op rd rs1 imm =>
      exact same.withHart (Rv32.execute m.hart (.imm op rd rs1 imm)) _ executed
        fun _ => agree.execute
  | shift op rd rs1 shamt =>
      exact same.withHart (Rv32.execute m.hart (.shift op rd rs1 shamt)) _ executed
        fun _ => agree.execute
  | upper op rd imm =>
      exact same.withHart (Rv32.execute m.hart (.upper op rd imm)) _ executed fun _ => agree.execute
  | load op rd rs1 imm =>
      cases executed
      rw [agree.get rs1, same.memory]
      exact ⟨_, rfl, (agree.set rd _).next, rfl⟩
  | store op rs1 rs2 imm =>
      cases executed
      rw [agree.get rs1, agree.get rs2, same.memory]
      exact ⟨_, rfl, agree.next, rfl⟩
  | branch op rs1 rs2 imm =>
      simp only [Machine.execute] at executed ⊢
      rw [agree.get rs1, agree.get rs2, agree.pc] at executed
      split at executed
      · rename_i isTaken
        rw [if_pos isTaken]
        exact same.withHart _ _ executed fun _ => agree.jump
      · rename_i notTaken
        cases executed
        rw [if_neg notTaken]
        exact ⟨_, rfl, agree.next, same.memory⟩
  | jal rd imm =>
      simp only [Machine.execute] at executed ⊢
      rw [agree.pc] at executed
      exact same.withHart _ _ executed fun _ => (agree.set rd _).jump
  | jalr rd rs1 imm =>
      simp only [Machine.execute] at executed ⊢
      rw [agree.pc, agree.get rs1] at executed
      exact same.withHart _ _ executed fun _ => (agree.set rd _).jump
  | ecall | ebreak => cases executed

theorem Machine.Same.fetched {m n : Machine} (same : m.Same n) : m.fetched = n.fetched := by
  rw [Machine.fetched, Machine.fetched, same.memory, same.hart.pc]

/-! ### Assignments -/

def State.assign (s : State) (rd : Reg) (value : Word) (size : Nat) : State :=
  { s.set rd value with pc := s.pc + BitVec.ofNat 32 size }

theorem State.get_assign (s : State) (rd : Reg) (value : Word) (size : Nat) (r : Reg) :
    (s.assign rd value size).get r = (s.set rd value).get r := rfl

theorem State.next_set (s : State) (rd : Reg) (value : Word) :
    (s.set rd value).next = s.assign rd value 4 := rfl

theorem State.Agree.assign {s t : State} (agree : s.Agree t) (rd : Reg) (value : Word)
    (size : Nat) : (s.assign rd value size).Agree (t.assign rd value size) :=
  ⟨congrArg (· + BitVec.ofNat 32 size) agree.pc, (agree.set rd value).get⟩

/-- A state that only differs in one register, and has passed this much code. -/
theorem State.agree_assign {s s' : State} {rd : Reg} {value : Word} {size : Nat}
    (pc : s'.pc = s.pc + BitVec.ofNat 32 size) (written : rd ≠ 0 → s'.get rd = value)
    (others : ∀ r, r ≠ rd → s'.get r = s.get r) : s'.Agree (s.assign rd value size) := by
  refine ⟨pc, fun r => ?_⟩
  rw [State.get_assign]
  by_cases same : r = rd
  · subst same
    by_cases zero : r = 0
    · rw [zero, State.get_zero, State.get_zero]
    · rw [State.get_set_self s zero, written zero]
  · rw [State.get_set_of_ne s same, others r same]

def Instr.Sets (rd : Reg) : Instr → Prop
  | .reg _ r _ _ | .imm _ r _ _ | .shift _ r _ _ | .upper _ r _ => r = rd
  | .load .. | .store .. | .branch .. | .jal .. | .jalr .. | .ecall | .ebreak => False

theorem execute_of_sets {instr : Instr} {rd : Reg} (sets : instr.Sets rd) (s : State) :
    ∃ value, execute s instr = some (s.set rd value).next := by
  cases instr with
  | reg op r rs1 rs2 | imm op r rs1 imm =>
      obtain rfl : r = rd := sets
      exact ⟨_, rfl⟩
  | shift op r rs1 shamt | upper op r imm =>
      obtain rfl : r = rd := sets
      cases op <;> exact ⟨_, rfl⟩
  | load | store | branch | jal | jalr | ecall | ebreak => exact sets.elim

theorem runInstrs_of_sets {instrs : List Instr} {rd : Reg} (sets : ∀ instr ∈ instrs, instr.Sets rd)
    (s : State) : ∃ s', runInstrs instrs s = some s' ∧
      s'.pc = s.pc + BitVec.ofNat 32 (4 * instrs.length) ∧ ∀ r, r ≠ rd → s'.get r = s.get r := by
  induction instrs generalizing s with
  | nil => exact ⟨s, rfl, by simp, fun r _ => rfl⟩
  | cons instr instrs ih =>
      obtain ⟨value, executed⟩ := execute_of_sets (sets instr (List.mem_cons_self ..)) s
      obtain ⟨s', ran, pc, others⟩ :=
        ih (fun other member => sets other (List.mem_cons_of_mem instr member))
          (s.set rd value).next
      refine ⟨s', ?_, ?_, fun r different => ?_⟩
      · rw [runInstrs, executed, Option.bind_some, ran]
      · rw [pc, State.pc_next, State.pc_set, List.length_cons, Nat.mul_succ, Nat.add_comm,
          BitVec.ofNat_add, BitVec.add_assoc]
        rfl
      · rw [others r different, State.get_next, State.get_set_of_ne s different]

/-- Instructions that set one register are an assignment of what they leave there. -/
theorem runInstrs_assign {instrs : List Instr} {rd : Reg} {value : State → Word}
    (sets : ∀ instr ∈ instrs, instr.Sets rd) (writes : rd ≠ 0 → Writes instrs rd value)
    (s : State) : ∃ s', runInstrs instrs s = some s' ∧
      s'.Agree (s.assign rd (value s) (4 * instrs.length)) := by
  obtain ⟨s', ran, pc, others⟩ := runInstrs_of_sets sets s
  refine ⟨s', ran, State.agree_assign pc (fun notZero => ?_) others⟩
  obtain ⟨written, ranTo, value, -⟩ := writes notZero s
  rw [ran] at ranTo
  rw [Option.some.inj ranTo, value]

theorem Machine.execute_of_hart {m : Machine} {instr : Instr} {hart : State}
    (executed : Rv32.execute m.hart instr = some hart) :
    m.execute instr = some { m with hart := hart } := by
  cases instr with
  | reg | imm | shift | upper => rw [Machine.execute, executed, Option.map_some] <;> simp
  | load | store | branch | jal | jalr | ecall | ebreak => cases executed

theorem Machine.step_of_fetch {m : Machine} {w : Word} {instr : Instr}
    (fetched : fetch m.memory m.hart.pc = w) (decoded : decode w = some instr) :
    m.step = m.execute instr := by
  rw [Machine.step, Machine.fetched, fetched, decoded, Option.bind_some]

/-- Words that compute in registers are executed one after the other. -/
theorem Machine.reaches_of_fetches {m : Machine} {words : List Word} {instrs : List Instr}
    {hart : State} (fetches : Fetches m.memory m.hart.pc words) (decodes : Decodes words instrs)
    (nonempty : instrs ≠ []) (ran : runInstrs instrs m.hart = some hart) :
    Reaches₁ Machine.step m { m with hart := hart } := by
  induction decodes generalizing m with
  | nil => exact absurd rfl nonempty
  | @cons w instr words instrs decoded decodes ih =>
      obtain ⟨fetched, rest⟩ := fetches
      obtain ⟨middle, executed, ranRest⟩ := Option.bind_eq_some_iff.mp ran
      have first : { m with hart := middle } ∈ m.step := by
        rw [Option.mem_def, Machine.step_of_fetch fetched decoded]
        exact Machine.execute_of_hart executed
      by_cases last : instrs = []
      · subst last
        cases ranRest
        exact Relation.TransGen.single first
      · have later : Reaches₁ Machine.step { m with hart := middle } { m with hart := hart } :=
          ih (m := { m with hart := middle }) (by rw [execute_pc executed]; exact rest) last ranRest
        exact Relation.TransGen.head first later

end Rv32
