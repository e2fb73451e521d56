/-
What a statement does.

A statement is executed on the machine as its line is meant: `li` and `la` set a
register at once, and the code of the program is not to be written over.  Its
instructions do the same wherever they stand.
-/

import RiscvAs.Programs
import RiscvAs.Rv32.Machine

namespace RiscvAs

open Stdio (CString)
open Bytes (Byte)
open Rv32
open Relocation (Fragment)
open StateTransition

def PairOp.apply (op : PairOp) (x : Word) : Word :=
  match op with
  | .mv => x
  | .neg => -x
  | .not => ~~~x
  | .seqz => if x = 0 then 1 else 0
  | .snez => if x = 0 then 0 else 1

def Statement.execute (address : CString → Word) (m : Machine) (statement : Statement) :
    Option Machine :=
  match statement with
  | .plain line => m.execute line.instr
  | .shift line => m.execute line.instr
  | .li rd literal =>
      some { m with hart :=
        m.hart.assign rd.number (BitVec.ofInt 32 literal.value) statement.size }
  | .la rd symbol =>
      some { m with hart := m.hart.assign rd.number (address symbol.val) statement.size }
  | .pair op rd rs =>
      some { m with hart :=
        m.hart.assign rd.number (op.apply (m.hart.get rs.number)) statement.size }
  | .nop => some { m with hart := m.hart.next }

theorem Statement.execute_same {statement : Statement} {address : CString → Word}
    {m n m' : Machine} (same : m.Same n) (executed : statement.execute address m = some m') :
    ∃ n', statement.execute address n = some n' ∧ m'.Same n' := by
  have agree := same.hart
  cases statement with
  | plain line => exact @Machine.Same.execute _ _ _ same line.instr executed
  | shift line => exact @Machine.Same.execute _ _ _ same line.instr executed
  | li rd literal =>
      cases executed
      exact ⟨_, rfl, agree.assign _ _ _, same.memory⟩
  | la rd symbol =>
      cases executed
      exact ⟨_, rfl, agree.assign _ _ _, same.memory⟩
  | pair op rd rs =>
      cases executed
      simp only [Statement.execute, agree.get rs.number]
      exact ⟨_, rfl, agree.assign _ _ _, same.memory⟩
  | nop =>
      cases executed
      exact ⟨_, rfl, agree.next, same.memory⟩

theorem PairOp.execute_instr (op : PairOp) (rd rs : Reg) (s : State) :
    Rv32.execute s (op.instr rd rs) = some (s.assign rd (op.apply (s.get rs)) 4) := by
  rw [← State.next_set]
  cases op with
  | mv => simp [PairOp.instr, Rv32.execute, aluImm, PairOp.apply]
  | neg => simp [PairOp.instr, Rv32.execute, aluReg, PairOp.apply]
  | not =>
      have ones : BitVec.ofInt 32 (-1) = BitVec.allOnes 32 := by decide
      rw [PairOp.instr, Rv32.execute, aluImm, ones, BitVec.xor_allOnes, PairOp.apply]
  | seqz =>
      have zero : (s.get rs).toNat = 0 ↔ s.get rs = 0 := by
        rw [← BitVec.toNat_inj]
        simp
      simp [PairOp.instr, Rv32.execute, aluImm, PairOp.apply, zero]
  | snez =>
      have positive : 0 < (s.get rs).toNat ↔ ¬ s.get rs = 0 := by
        rw [← BitVec.toNat_inj]
        simp [Nat.pos_iff_ne_zero]
      simp [PairOp.instr, Rv32.execute, aluReg, PairOp.apply, positive]

theorem highPart_encodable (op : UOp) (rd : Reg) (x : Word) :
    (Instr.upper op rd ((highPart x).toInt % 2 ^ 20).toNat).Encodable := by
  have low := Int.emod_nonneg (highPart x).toInt (show (2 : Int) ^ 20 ≠ 0 by decide)
  have high := Int.emod_lt_of_pos (highPart x).toInt (show (0 : Int) < 2 ^ 20 by decide)
  simp only [Instr.Encodable]
  omega

theorem lowPart_encodable (rd : Reg) (x : Word) :
    (Instr.imm .addi rd rd (lowPart x).toInt).Encodable :=
  lowPart_range x

theorem encodable_laInstrs (rd : Reg) (distance : Word) :
    ∀ instr ∈ laInstrs rd distance, instr.Encodable := by
  intro instr member
  rcases List.mem_cons.mp member with rfl | later
  · exact highPart_encodable .auipc rd distance
  · rw [List.mem_singleton.mp later]
    exact lowPart_encodable rd distance

theorem encodable_liInstrs (rd : Reg) (value : Int) :
    ∀ instr ∈ liInstrs rd value, instr.Encodable := by
  intro instr member
  unfold liInstrs at member
  split at member
  · rename_i small
    rw [List.mem_singleton.mp member]
    simp only [IsInt12, int12Min, int12Max] at small
    simp only [Instr.Encodable]
    omega
  · split at member
    · rw [List.mem_singleton.mp member]
      exact highPart_encodable .lui rd _
    · rcases List.mem_cons.mp member with rfl | later
      · exact highPart_encodable .lui rd _
      · rw [List.mem_singleton.mp later]
        exact lowPart_encodable rd _

theorem sets_laInstrs (rd : Reg) (distance : Word) :
    ∀ instr ∈ laInstrs rd distance, instr.Sets rd := by
  simp [laInstrs, Instr.Sets]

theorem sets_liInstrs (rd : Reg) (value : Int) : ∀ instr ∈ liInstrs rd value, instr.Sets rd := by
  unfold liInstrs
  split
  · simp [Instr.Sets]
  · split <;> simp [liUpper, liLower, Instr.Sets]

theorem CanonicalLine.encodable {line : CanonicalLine} (inRange : line.InRange) :
    line.instr.Encodable := by
  cases line with
  | reg | ecall => trivial
  | imm | load | store | branch | upper =>
      simp only [CanonicalLine.InRange] at inRange
      simp only [CanonicalLine.instr, Instr.Encodable]
      omega
  | loadBase | storeBase => simp [CanonicalLine.instr, Instr.Encodable]

/-- Every instruction of a statement in range is the instruction of a word. -/
theorem Statement.encodable {statement : Statement} (meaningful : (Item.text statement).Meaningful)
    (inRange : statement.InRange) (distance : CString → Word) :
    ∀ instr ∈ statement.instrs distance, instr.Encodable := by
  cases statement with
  | plain line => exact List.forall_mem_singleton.mpr (CanonicalLine.encodable inRange)
  | shift line =>
      obtain ⟨-, low, high⟩ := meaningful
      refine List.forall_mem_singleton.mpr ?_
      simp only [ShiftLine.instr, Instr.Encodable]
      omega
  | li rd literal => exact encodable_liInstrs rd.number literal.value
  | la rd symbol => exact encodable_laInstrs rd.number (distance symbol.val)
  | pair op rd rs =>
      refine List.forall_mem_singleton.mpr ?_
      cases op <;> simp [PairOp.instr, Instr.Encodable]
  | nop => exact List.forall_mem_singleton.mpr (by simp [Instr.Encodable])

theorem Statement.size_eq (statement : Statement) (distance : CString → Word) :
    statement.size = 4 * (statement.instrs distance).length := by
  have length := statement.textSize_fragment
  cases statement with
  | plain | shift | la | pair | nop => rfl
  | li rd literal =>
      rw [← length, Statement.fragment, Fragment.textSize, instrsBytes_length]
      rfl

section Runs

variable {statement : Statement} {address distance : CString → Word} {m m' : Machine}

/-- Where the instructions of a statement stand, the machine does what the statement does. -/
theorem Statement.reaches (meaningful : (Item.text statement).Meaningful)
    (inRange : statement.InRange)
    (places : ∀ name, m.hart.pc + distance name = address name)
    (fetches : Fetches m.memory m.hart.pc ((statement.instrs distance).map wordOf))
    (executed : statement.execute address m = some m') :
    ∃ n, m'.Same n ∧ Reaches₁ Machine.step m n := by
  have decodes := decodes_map_wordOf (statement.encodable meaningful inRange distance)
  -- One instruction is executed at once, more of them are run.
  have single : ∀ instr n, statement.instrs distance = [instr] → m.execute instr = some n →
      m'.Same n → ∃ n, m'.Same n ∧ Reaches₁ Machine.step m n := by
    intro instr n only executedInstr same
    rw [only] at fetches decodes
    obtain ⟨decoded, -⟩ := List.forall₂_cons.mp decodes
    refine ⟨n, same, Relation.TransGen.single ?_⟩
    rw [Option.mem_def, Machine.step_of_fetch fetches.1 decoded, executedInstr]
  have assigns : ∀ rd value, statement.instrs distance ≠ [] →
      (∀ instr ∈ statement.instrs distance, instr.Sets rd) →
      (rd ≠ 0 → Writes (statement.instrs distance) rd value) →
      m' = { m with hart := m.hart.assign rd (value m.hart) statement.size } →
      ∃ n, m'.Same n ∧ Reaches₁ Machine.step m n := by
    rintro rd value nonempty sets writes rfl
    obtain ⟨hart, ran, agree⟩ := runInstrs_assign sets writes m.hart
    rw [← statement.size_eq distance] at agree
    exact ⟨{ m with hart := hart }, ⟨agree.symm, rfl⟩,
      Machine.reaches_of_fetches fetches decodes nonempty ran⟩
  cases statement with
  | plain line => exact single line.instr m' rfl executed (.refl m')
  | shift line => exact single line.instr m' rfl executed (.refl m')
  | li rd literal =>
      refine assigns rd.number (fun _ => BitVec.ofInt 32 literal.value) ?_
        (sets_liInstrs rd.number literal.value)
        (fun notZero => writes_liInstrs notZero literal.value) (Option.some.inj executed).symm
      intro none
      have length := liInstrs_length rd.number literal.value
      rw [show liInstrs rd.number literal.value = [] from none] at length
      split at length <;> cases length
  | la rd symbol =>
      refine assigns rd.number (fun s => s.pc + distance symbol.val) (List.cons_ne_nil _ _)
        (sets_laInstrs rd.number (distance symbol.val))
        (fun notZero => writes_laInstrs notZero (distance symbol.val)) ?_
      rw [places symbol.val]
      exact (Option.some.inj executed).symm
  | pair op rd rs =>
      have computed := Machine.execute_of_hart (op.execute_instr rd.number rs.number m.hart)
      exact single (op.instr rd.number rs.number) m' rfl (computed.trans executed) (.refl m')
  | nop =>
      have zero : m.execute (.imm .addi 0 0 0) = some { m with hart := (m.hart.set 0 0).next } := by
        simp [Machine.execute, Rv32.execute, aluImm]
      refine single (.imm .addi 0 0 0) _ rfl zero ?_
      cases executed
      exact ⟨(State.agree_set_zero m.hart 0).next, rfl⟩

end Runs

end RiscvAs
