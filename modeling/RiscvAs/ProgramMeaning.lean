/-
The image runs as the program is written.

A program is run statement by statement, with its data behind its code, until an
`ecall`.  The image that is written for it simulates this run: nothing that the
program does not do itself can be seen of how it was assembled.
-/

import RiscvAs.StatementMeaning
import RiscvAs.Simulation

namespace RiscvAs

open Stdio
open Bytes (Byte)
open Rv32
open Relocation (Fragment)
open StateTransition
open Simulation

def Program.statementAt : Program → Nat → Option Statement
  | [], _ => none
  | .data _ :: program, offset => Program.statementAt program offset
  | .text statement :: program, offset =>
      if offset = 0 then some statement
      else if statement.size ≤ offset then
        Program.statementAt program (offset - statement.size)
      else none

def Program.dataOffset : Program → CString → Option Nat
  | [], _ => none
  | .text _ :: program, name => Program.dataOffset program name
  | .data definition :: program, name =>
      if name = definition.label then some 0
      else (Program.dataOffset program name).map (definition.value.bytes.length + ·)

def Program.address (program : Program) (start : Word) (name : CString) : Word :=
  start + BitVec.ofNat 32 (program.codeSize + (program.dataOffset name).getD 0)

section Run

variable (program : Program) (start : Word)

def Program.current (m : Machine) : Option Statement :=
  program.statementAt (m.hart.pc - start).toNat

def Program.KeepsCode (m m' : Machine) : Prop :=
  ∀ i < program.codeSize,
    m'.memory (start + BitVec.ofNat 32 i) = m.memory (start + BitVec.ofNat 32 i)

instance Program.decidableKeepsCode (m m' : Machine) : Decidable (program.KeepsCode start m m') :=
  inferInstanceAs (Decidable (∀ i < program.codeSize, _ = _))

/-- One statement.  A program that writes over its code means nothing. -/
def Program.step (m : Machine) : Option Machine :=
  (program.current start m).bind fun statement =>
    (statement.execute (program.address start) m).bind fun m' =>
      if program.KeepsCode start m m' then some m' else none

def Program.Ended (m : Machine) : Prop :=
  program.current start m = some (.plain .ecall)

/-- The machine is in the state of the program, with the code in its memory. -/
structure Program.Runs (m n : Machine) : Prop where
  same : m.Same n
  code : Holds m.memory start (Relocation.linkedText program.fragments)

end Run

theorem Program.step_of_execute {program : Program} {start : Word} {statement : Statement}
    {m m' : Machine} (current : program.current start m = some statement)
    (executed : statement.execute (program.address start) m = some m')
    (memory : m'.memory = m.memory) : program.step start m = some m' := by
  rw [Program.step, current, Option.bind_some, executed, Option.bind_some]
  exact if_pos fun i _ => by rw [memory]

theorem Program.step_of_ended {program : Program} {start : Word} {m : Machine}
    (ended : program.Ended start m) : program.step start m = none := by
  rw [Program.step, show program.current start m = _ from ended]
  rfl

theorem Program.split_of_statementAt {program : Program} {offset : Nat} {statement : Statement}
    (found : program.statementAt offset = some statement) :
    ∃ before after, program = before ++ .text statement :: after ∧
      Program.codeSize before = offset := by
  induction program generalizing offset with
  | nil => cases found
  | cons item program ih =>
      cases item with
      | data definition =>
          obtain ⟨before, after, rfl, size⟩ := ih found
          exact ⟨.data definition :: before, after, rfl, by
            simpa [Program.codeSize, Item.codeSize] using size⟩
      | text first =>
          rw [Program.statementAt] at found
          split at found
          · rename_i atStart
            cases found
            exact ⟨[], program, rfl, atStart.symm⟩
          · split at found
            · rename_i later
              obtain ⟨before, after, rfl, size⟩ := ih found
              refine ⟨.text first :: before, after, rfl, ?_⟩
              rw [Program.codeSize, List.map_cons, List.sum_cons, ← Program.codeSize, size,
                Item.codeSize]
              omega
            · cases found

theorem Program.lookup_fragments (program : Program) (name : CString) :
    Relocation.lookup program.fragments name = program.dataOffset name := by
  induction program with
  | nil => rfl
  | cons item program ih =>
      have split : Program.fragments (item :: program) =
          [item.fragment] ++ Program.fragments program := rfl
      have first : Relocation.names [item.fragment] = item.labels := by
        rw [Relocation.names, List.flatMap_singleton, item.names_fragment]
      rw [split]
      cases item with
      | text statement =>
          rw [Relocation.lookup_append_of_not_mem (by rw [first]; exact List.not_mem_nil), ih,
            Relocation.dataBytes, List.flatMap_singleton, Item.dataBytes_fragment, Item.bytes,
            Program.dataOffset]
          simp
      | data definition =>
          rw [Program.dataOffset]
          by_cases here : name = definition.label
          · rw [if_pos here, here, Relocation.lookup_append_of_mem
              (by rw [first]; exact List.mem_singleton_self _)]
            simp [Relocation.lookup, Relocation.symbols, Item.fragment, Fragment.names]
          · rw [if_neg here, Relocation.lookup_append_of_not_mem
              (by rw [first]; exact fun member => here (List.mem_singleton.mp member)), ih,
              Relocation.dataBytes, List.flatMap_singleton, Item.dataBytes_fragment, Item.bytes]

theorem Program.place_fragments (program : Program) (name : CString) :
    Relocation.place program.fragments name =
      (program.codeSize + (program.dataOffset name).getD 0 : Nat) := by
  rw [Relocation.place, program.textSize_fragments, program.lookup_fragments, Nat.cast_add]

theorem Program.dataOffset_split {before after : Program} {definition : Definition}
    (fresh : definition.label ∉ Program.labels before) :
    Program.dataOffset (before ++ .data definition :: after) definition.label =
      some (Program.data before).length := by
  induction before with
  | nil => rw [List.nil_append, Program.dataOffset, if_pos rfl]; rfl
  | cons item before ih =>
      have split : Program.labels (item :: before) = item.labels ++ Program.labels before := rfl
      rw [split, List.mem_append, not_or] at fresh
      have rest := ih fresh.2
      rw [List.cons_append]
      cases item with
      | text statement => rw [Program.dataOffset, rest]; rfl
      | data first =>
          have other : definition.label ≠ first.label :=
            fun same => fresh.1 (List.mem_singleton.mpr same)
          rw [Program.dataOffset, if_neg other, rest, Option.map_some, ← List.length_append]
          rfl

section Simulation

variable {program : Program} {start : Word}

/-- The instructions of the statement at the program counter stand there. -/
theorem Program.Runs.fetches {m n : Machine} (runs : program.Runs start m n)
    {statement : Statement} (current : program.current start m = some statement) :
    ∃ distance : CString → Word,
      (∀ name, m.hart.pc + distance name = program.address start name) ∧
      Fetches m.memory m.hart.pc ((statement.instrs distance).map wordOf) := by
  obtain ⟨before, after, split, offset⟩ := Program.split_of_statementAt current
  let place := Relocation.place program.fragments
  have pc : start + BitVec.ofNat 32 (Program.codeSize before) = m.hart.pc := by
    rw [offset, BitVec.ofNat_toNat, BitVec.setWidth_eq, BitVec.add_comm, BitVec.sub_add_cancel]
  have text : Relocation.linkedText program.fragments =
      Relocation.text place 0 (Program.fragments before) ++
        (instrsBytes (statement.instrs
          (fun name => BitVec.ofInt 32 (place name - (Program.codeSize before : Nat)))) ++
        Relocation.text place (Program.codeSize before + statement.fragment.textSize)
          (Program.fragments after)) := by
    have fragments : program.fragments =
        Program.fragments before ++ statement.fragment :: Program.fragments after := by
      rw [split, Program.fragments, List.map_append, List.map_cons]
      rfl
    rw [Relocation.linkedText]
    show Relocation.text place 0 program.fragments = _
    rw [fragments, Relocation.text_append, Relocation.text, Nat.zero_add,
      Program.textSize_fragments, Statement.emit_fragment]
  have code := runs.code
  rw [text] at code
  have here := code.append.2.append.1
  rw [Relocation.text_length, Program.textSize_fragments, pc] at here
  refine ⟨fun name => BitVec.ofInt 32 (place name - (Program.codeSize before : Nat)),
    fun name => ?_, fetches_of_holds here⟩
  rw [← pc, Program.address, BitVec.add_assoc]
  congr 1
  show BitVec.ofNat 32 (Program.codeSize before) +
    BitVec.ofInt 32 (Relocation.place program.fragments name - _) = _
  rw [program.place_fragments, ← BitVec.ofInt_natCast, ← BitVec.ofInt_natCast, ← BitVec.ofInt_add]
  congr 1
  omega

theorem Program.Runs.keep {m m' n n' : Machine} (runs : program.Runs start m n)
    (same : m'.Same n') (keeps : program.KeepsCode start m m') : program.Runs start m' n' := by
  refine ⟨same, fun i byte read => ?_⟩
  have inside := (List.getElem?_eq_some_iff.mp read).1
  rw [Relocation.linkedText, Relocation.text_length, program.textSize_fragments] at inside
  rw [keeps i inside]
  exact runs.code i byte read

/-- The machine simulates a program of meaningful items in range. -/
theorem Program.simulates (meaningful : ∀ item ∈ program, item.Meaningful)
    (inRange : ∀ item ∈ program, item.InRange) :
    Simulates (program.step start) Machine.step (program.Ended start) (program.Runs start) where
  step := by
    intro m n m' runs stepped
    obtain ⟨statement, current, rest⟩ := Option.bind_eq_some_iff.mp stepped
    obtain ⟨m'', executed, kept⟩ := Option.bind_eq_some_iff.mp rest
    split at kept
    · rename_i keeps
      cases kept
      obtain ⟨before, after, split, -⟩ := Program.split_of_statementAt current
      have member : Item.text statement ∈ program := by
        rw [split]
        exact List.mem_append_right _ (List.mem_cons_self ..)
      obtain ⟨distance, places, fetches⟩ := runs.fetches current
      obtain ⟨n', executed', same'⟩ := statement.execute_same runs.same executed
      have pc := runs.same.hart.pc
      rw [runs.same.memory, pc] at fetches
      obtain ⟨n'', same'', reached⟩ := statement.reaches (meaningful _ member) (inRange _ member)
        (fun name => pc ▸ places name) fetches executed'
      exact ⟨n'', runs.keep (same'.trans same'') keeps, reached⟩
    · cases kept
  ends := by
    intro m n runs ended
    obtain ⟨distance, -, fetches⟩ := runs.fetches ended
    rw [runs.same.memory, runs.same.hart.pc] at fetches
    have decoded : decode (wordOf .ecall) = some .ecall := decode_wordOf trivial
    rw [Machine.step_of_fetch fetches.1 decoded]
    rfl

end Simulation

/-! ### Programs in memory -/

structure Program.Stands (program : Program) (start : Word) (memory : Memory) : Prop where
  code : Holds memory start (Relocation.linkedText program.fragments)
  data : Holds memory (start + BitVec.ofNat 32 program.codeSize) program.data

/-- What stands at `start` has the data of the program, and runs as the program does: as far
as the program gets, and to its results where it is safe. -/
structure Program.Implements (program : Program) (start : Word) (memory : Memory) : Prop where
  data : ∀ definition, Item.data definition ∈ program →
    Holds memory (program.address start definition.label) definition.value.bytes
  runs : ∀ hart m, StateTransition.Reaches (program.step start) ⟨hart, memory⟩ m →
    ∃ n, m.Same n ∧ StateTransition.Reaches Machine.step ⟨hart, memory⟩ n
  ends : ∀ hart, Safe (program.step start) (program.Ended start) ⟨hart, memory⟩ →
    ((eval Machine.step ⟨hart, memory⟩).Dom ↔ (eval (program.step start) ⟨hart, memory⟩).Dom)
  results : ∀ hart, Safe (program.step start) (program.Ended start) ⟨hart, memory⟩ →
    ∀ n ∈ eval Machine.step ⟨hart, memory⟩,
      ∃ m ∈ eval (program.step start) ⟨hart, memory⟩, program.Ended start m ∧ m.Same n

section Stands

variable {program : Program} {start : Word} {memory : Memory}

theorem Program.Stands.definition (stands : program.Stands start memory) (fits : program.Fits)
    {definition : Definition} (member : Item.data definition ∈ program) :
    Holds memory (program.address start definition.label) definition.value.bytes := by
  have data := stands.data
  obtain ⟨before, after, rfl⟩ := List.append_of_mem member
  have fresh : definition.label ∉ Program.labels before := by
    intro known
    have distinct := fits.distinct
    rw [Program.labels, List.flatMap_append, List.nodup_append] at distinct
    exact distinct.2.2 _ known _
      (List.mem_append_left _ (List.mem_singleton_self definition.label)) rfl
  have split : Program.data (before ++ .data definition :: after) =
      Program.data before ++ (definition.value.bytes ++ Program.data after) := by
    rw [Program.data, List.flatMap_append, List.flatMap_cons]
    rfl
  rw [split] at data
  rw [Program.address, Program.dataOffset_split fresh, Option.getD_some, BitVec.ofNat_add,
    ← BitVec.add_assoc]
  exact data.append.2.append.1

theorem Program.Stands.implements (meaningful : ∀ item ∈ program, item.Meaningful)
    (inRange : ∀ item ∈ program, item.InRange) (fits : program.Fits)
    (stands : program.Stands start memory) : program.Implements start memory := by
  have simulates := @Program.simulates _ start meaningful inRange
  have related : ∀ hart, program.Runs start ⟨hart, memory⟩ ⟨hart, memory⟩ :=
    fun _ => ⟨.refl _, stands.code⟩
  refine ⟨fun _ => stands.definition fits, fun hart m reached => ?_,
    fun hart safe => simulates.dom_iff (related hart) safe, fun hart safe n result => ?_⟩
  · obtain ⟨n, runs, ran⟩ := simulates.reaches (related hart) reached
    exact ⟨n, runs.same, ran⟩
  · obtain ⟨m, found, runs⟩ := simulates.eval_iff (related hart) safe result
    obtain ⟨reached, stuck⟩ := mem_eval.mp found
    exact ⟨m, found, safe m reached stuck, runs.same⟩

end Stands

section Loaded

variable {source : List Char} {program : Program} (meaningful : ∀ item ∈ program, item.Meaningful)
  (spelled : Spelled source program) {baseVaddr : Word} {ctx1 ctx2 : AssemblerCtx}
  (accepted : Accepted .native baseVaddr source ctx1 ctx2)

include meaningful spelled accepted

theorem Accepted.textSize : ctx2.textSegment.size = program.codeSize := by
  obtain ⟨-, -, links⟩ := accepted.linksProgram meaningful spelled
  rw [links.textSize, program.textSize_fragments]

theorem Accepted.stands {memory : Memory}
    (text : Holds memory (getTextVaddr baseVaddr) ctx2.textSegment.bytes)
    (data : Holds memory (getDataVaddr ctx2 baseVaddr) ctx2.dataSegment.bytes) :
    program.Stands (getTextVaddr baseVaddr) memory := by
  obtain ⟨-, -, links⟩ := accepted.linksProgram meaningful spelled
  rw [getDataVaddr, accepted.textSize meaningful spelled, links.data,
    program.dataBytes_fragments] at data
  rw [links.text] at text
  exact ⟨text, data⟩

variable {memory : Memory}
  (loaded : Loaded (programHeader ctx2 baseVaddr) (writer32 ctx2 baseVaddr) memory)

include loaded

theorem implements_of_loaded : program.Implements (getTextVaddr baseVaddr) memory := by
  obtain ⟨inRange, fits, -⟩ := accepted.linksProgram meaningful spelled
  obtain ⟨text, data⟩ := holds_of_loaded accepted.sizes.2.1 loaded
  exact (accepted.stands meaningful spelled text data).implements meaningful inRange fits

/-- The loaded image has the data of the program, and runs as the program does. -/
theorem loaded_program_runs :
    (∀ definition, Item.data definition ∈ program →
      Holds memory (program.address (getTextVaddr baseVaddr) definition.label)
        definition.value.bytes) ∧
    ∀ hart m, StateTransition.Reaches (program.step (getTextVaddr baseVaddr)) ⟨hart, memory⟩ m →
      ∃ n, m.Same n ∧ StateTransition.Reaches Machine.step ⟨hart, memory⟩ n := by
  have implements := implements_of_loaded meaningful spelled accepted loaded
  exact ⟨implements.data, implements.runs⟩

/-- From a state where the program is safe, the image ends exactly when the program does, at
its `ecall` and with its results. -/
theorem loaded_program_results {hart : State}
    (safe : Safe (program.step (getTextVaddr baseVaddr)) (program.Ended (getTextVaddr baseVaddr))
      ⟨hart, memory⟩) :
    ((eval Machine.step ⟨hart, memory⟩).Dom ↔
      (eval (program.step (getTextVaddr baseVaddr)) ⟨hart, memory⟩).Dom) ∧
    ∀ n ∈ eval Machine.step ⟨hart, memory⟩,
      ∃ m ∈ eval (program.step (getTextVaddr baseVaddr)) ⟨hart, memory⟩,
        program.Ended (getTextVaddr baseVaddr) m ∧ m.Same n := by
  have implements := implements_of_loaded meaningful spelled accepted loaded
  exact ⟨implements.ends hart safe, implements.results hart safe⟩

end Loaded

def wordMemory : Memory :=
  imageMemory (writer32 wordAssembled 0x80000000) 0x80000000

theorem loaded_program_runs_word : Holds wordMemory 0x80000064 [7, 0, 0, 0] := by
  have runs := loaded_program_runs wordProgram_meaningful wordSource_spelled wordSource_accepted
    (loaded_imageMemory wordAssembled 0x80000000 _)
  exact runs.1 wordName (List.mem_cons_self ..)

theorem loaded_program_results_word :
    ∃ n ∈ eval Machine.step ⟨⟨fun _ => 0, 0x80000054⟩, wordMemory⟩, n.hart.get 11 = 7 := by
  let step := wordProgram.step (getTextVaddr 0x80000000)
  let first : Machine := ⟨⟨fun _ => 0, 0x80000054⟩, wordMemory⟩
  let second : Machine := ⟨first.hart.assign 10 0x80000064 8, wordMemory⟩
  let third : Machine :=
    ⟨(second.hart.set 11 (loaded .lw wordMemory (second.hart.get 10 + 0))).next, wordMemory⟩
  have address : wordProgram.address (getTextVaddr 0x80000000) "x".toList = 0x80000064 := by
    decide
  have stepFirst : step first = some second := by
    have current : wordProgram.current (getTextVaddr 0x80000000) first =
        some (.la (.a 0) ⟨"x".toList, by simp [isspace]⟩) := by
      show wordProgram.statementAt (0x80000054 - getTextVaddr 0x80000000).toNat = _
      rfl
    refine Program.step_of_execute current ?_ rfl
    rw [Statement.execute, address]
    rfl
  have stepSecond : step second = some third := by
    have current : wordProgram.current (getTextVaddr 0x80000000) second =
        some (.plain (.load .lw (.a 1) ⟨.none, .octal [] (by simp)⟩ (.a 0))) := by
      show wordProgram.statementAt (0x80000054 + 8 - getTextVaddr 0x80000000).toNat = _
      rfl
    exact Program.step_of_execute current rfl rfl
  have ended : wordProgram.Ended (getTextVaddr 0x80000000) third := by
    show wordProgram.statementAt (0x80000054 + 8 + 4 - getTextVaddr 0x80000000).toNat = _
    rfl
  have stuck : step third = none := Program.step_of_ended ended
  have safe : Safe step (wordProgram.Ended (getTextVaddr 0x80000000)) first :=
    .head stepFirst (.head stepSecond (.of_ended ended stuck))
  have results := loaded_program_results wordProgram_meaningful wordSource_spelled
    wordSource_accepted (loaded_imageMemory wordAssembled 0x80000000 _) safe
  have ends : third ∈ eval step first :=
    mem_eval.mpr ⟨.head stepFirst (.head stepSecond .refl), stuck⟩
  obtain ⟨n, result⟩ := Part.dom_iff_mem.mp (results.1.mpr (Part.dom_iff_mem.mpr ⟨third, ends⟩))
  obtain ⟨m, found, -, same⟩ := results.2 n result
  obtain rfl := Part.mem_unique found ends
  refine ⟨n, result, ?_⟩
  rw [← same.hart.get 11]
  decide +kernel

end RiscvAs
