/-
Which programs are assembled.

The size of a program, its data and its labels are read off its items.  A program
whose items mean something is assembled exactly when its literals are in range, it
fits, and each symbol is defined once and before it is used.
-/

import RiscvAs.Statements

namespace RiscvAs

open Stdio
open Bytes (Byte)
open Rv32
open Relocation (Fragment Patch)

/-- The bytes of a statement's code: `la` and most constants take two instructions. -/
def Statement.size : Statement → Nat
  | .li _ literal =>
      if (-2 ^ 11 ≤ literal.value ∧ literal.value ≤ 2 ^ 11 - 1) ∨ literal.value % 2 ^ 12 = 0
      then 4 else 8
  | .la _ _ => 8
  | .plain _ | .shift _ | .pair _ _ _ | .nop => 4

def Item.codeSize : Item → Nat
  | .text statement => statement.size
  | .data _ => 0

def Item.bytes : Item → List Byte
  | .text _ => []
  | .data definition => definition.value.bytes

def Item.labels : Item → List CString
  | .text _ => []
  | .data definition => [definition.label]

def Program.codeSize (program : Program) : Nat :=
  (program.map Item.codeSize).sum

def Program.data (program : Program) : List Byte :=
  program.flatMap Item.bytes

def Program.labels (program : Program) : List CString :=
  program.flatMap Item.labels

structure Program.Fits (program : Program) : Prop where
  code : program.codeSize ≤ dataSize
  data : program.data.length ≤ dataSize
  distinct : program.labels.Nodup
  few : program.labels.length ≤ maxSymbols
  defined : ∀ before rd symbol after, program = before ++ .text (.la rd symbol) :: after →
    symbol.val ∈ Program.labels before

theorem Statement.textSize_fragment (statement : Statement) :
    statement.fragment.textSize = statement.size := by
  cases statement with
  | plain line => rfl
  | shift line => rfl
  | li rd literal =>
      rw [Statement.fragment, Fragment.textSize, instrsBytes_length, liInstrs_length,
        Statement.size]
      simp only [IsInt12, int12Min, int12Max]
      split <;> simp_all
  | la rd symbol => rfl
  | pair op rd rs => rfl
  | nop => rfl

theorem Statement.dataBytes_fragment (statement : Statement) :
    statement.fragment.dataBytes = [] := by
  cases statement <;> rfl

theorem Statement.names_fragment (statement : Statement) : statement.fragment.names = [] := by
  cases statement <;> rfl

section Fragments

variable (item : Item) (program : Program)

theorem Item.textSize_fragment : item.fragment.textSize = item.codeSize := by
  cases item with
  | text statement => exact statement.textSize_fragment
  | data definition => rfl

theorem Item.dataBytes_fragment : item.fragment.dataBytes = item.bytes := by
  cases item with
  | text statement => exact statement.dataBytes_fragment
  | data definition => rfl

theorem Item.names_fragment : item.fragment.names = item.labels := by
  cases item with
  | text statement => exact statement.names_fragment
  | data definition => rfl

theorem Program.textSize_fragments : Relocation.textSize program.fragments = program.codeSize := by
  rw [Relocation.textSize, Program.fragments, List.map_map, Program.codeSize]
  exact congrArg List.sum (List.map_congr_left fun item _ => item.textSize_fragment)

theorem Program.dataBytes_fragments : Relocation.dataBytes program.fragments = program.data := by
  rw [Relocation.dataBytes, Program.fragments, List.flatMap_map, Program.data]
  exact List.flatMap_congr fun item _ => item.dataBytes_fragment

theorem Program.names_fragments : Relocation.names program.fragments = program.labels := by
  rw [Relocation.names, Program.fragments, List.flatMap_map, Program.labels]
  exact List.flatMap_congr fun item _ => item.names_fragment

end Fragments

theorem Item.uses_fragment {item : Item} {name : CString} :
    name ∈ item.fragment.uses ↔ ∃ rd symbol, item = .text (.la rd symbol) ∧ name = symbol.val := by
  cases item with
  | text statement =>
      cases statement with
      | la rd symbol =>
          constructor
          · intro used
            exact ⟨rd, symbol, rfl, List.mem_singleton.mp used⟩
          · rintro ⟨rd', symbol', same, rfl⟩
            cases same
            exact List.mem_singleton_self _
      | plain | shift | li | pair | nop =>
          simp [Item.fragment, Statement.fragment, Fragment.uses]
  | data definition => simp [Item.fragment, Fragment.uses]

theorem Program.fits_fragments_iff {program : Program} :
    RiscvAs.Fits program.fragments ↔ program.Fits := by
  have size := program.textSize_fragments
  have bytes := program.dataBytes_fragments
  have names := program.names_fragments
  have uses : Relocation.Defined [] program.fragments ↔
      ∀ before rd symbol after, program = before ++ .text (.la rd symbol) :: after →
        symbol.val ∈ Program.labels before := by
    rw [Relocation.defined_iff]
    constructor
    · rintro defined before rd symbol after rfl
      have found := defined (Program.fragments before) (Item.text (.la rd symbol)).fragment
        (Program.fragments after) (by simp [Program.fragments]) symbol.val
        (Item.uses_fragment.mpr ⟨rd, symbol, rfl, rfl⟩)
      rwa [List.nil_append, Program.names_fragments] at found
    · intro defined before fragment after split name used
      obtain ⟨first, second, rfl, rfl, mapped⟩ := List.map_eq_append_iff.mp split
      obtain ⟨item, last, rfl, rfl, rfl⟩ := List.map_eq_cons_iff.mp mapped
      obtain ⟨rd, symbol, rfl, rfl⟩ := Item.uses_fragment.mp used
      rw [List.nil_append]
      exact (Program.names_fragments first).symm ▸ defined first rd symbol last rfl
  constructor
  · intro fits
    exact ⟨size ▸ fits.text, bytes ▸ fits.data, names ▸ fits.distinct, names ▸ fits.few,
      uses.mp fits.defined⟩
  · intro fits
    exact ⟨size.symm ▸ fits.code, bytes.symm ▸ fits.data, names.symm ▸ fits.distinct,
      names.symm ▸ fits.few, uses.mpr fits.defined⟩

/-! ### Acceptance -/

section Spelled

variable {source : List Char} {program : Program}
  (meaningful : ∀ item ∈ program, item.Meaningful) (spelled : Spelled source program)

include meaningful spelled

theorem Accepted.linksProgram {baseVaddr : Word} {ctx1 ctx2 : AssemblerCtx}
    (accepted : Accepted .native baseVaddr source ctx1 ctx2) :
    (∀ item ∈ program, item.InRange) ∧ program.Fits ∧ Links ctx1 ctx2 program.fragments := by
  obtain ⟨fragments, read, fits, links⟩ := accepted.readAs
  obtain ⟨inRange, rfl⟩ := (readAs_iff meaningful spelled fragments).mp read
  exact ⟨inRange, Program.fits_fragments_iff.mp fits, links⟩

theorem accepted_of_program (baseVaddr : Word) (inRange : ∀ item ∈ program, item.InRange)
    (fits : program.Fits) : ∃ ctx1 ctx2, Accepted .native baseVaddr source ctx1 ctx2 ∧
      Links ctx1 ctx2 program.fragments :=
  accepted_of_readAs baseVaddr ((readAs_iff meaningful spelled program.fragments).mpr
    ⟨inRange, rfl⟩) (Program.fits_fragments_iff.mpr fits)

/-- A program is assembled exactly when its literals are in range and it fits. -/
theorem program_accepted_iff (baseVaddr : Word) :
    (∃ ctx1 ctx2, Accepted .native baseVaddr source ctx1 ctx2) ↔
      (∀ item ∈ program, item.InRange) ∧ program.Fits := by
  constructor
  · rintro ⟨ctx1, ctx2, accepted⟩
    obtain ⟨inRange, fits, -⟩ := accepted.linksProgram meaningful spelled
    exact ⟨inRange, fits⟩
  · rintro ⟨inRange, fits⟩
    obtain ⟨ctx1, ctx2, accepted, -⟩ :=
      accepted_of_program meaningful spelled baseVaddr inRange fits
    exact ⟨ctx1, ctx2, accepted⟩

end Spelled

def wordSource : List Char :=
  ".data\nx: .word 7\n.text\nla a0, x\nlw a1, 0(a0)\necall\n".toList

theorem seven_nonzero : '7' ≠ '0' := by
  decide

theorem seven_isDigit : ∀ c ∈ ['7'], isDigitOf 10 c = true := by
  intro c member
  rw [List.mem_singleton.mp member]
  rfl

theorem isspace_of_mem_nil : ∀ c ∈ ([] : List Char), isspace c = true :=
  List.forall_mem_nil _

def seven : Literal :=
  ⟨.none, .decimal '7' [] seven_nonzero seven_isDigit⟩

theorem isLabelName_x : IsLabelName "x".toList := by
  decide

def wordName : Definition where
  label := "x".toList
  isName := isLabelName_x
  value := .numbers ".word".toList rfl ⟨[], seven, [], isspace_of_mem_nil, isspace_of_mem_nil⟩ []

def wordProgram : Program :=
  [ .data wordName,
    .text (.la (.a 0) ⟨"x".toList, by simp [isspace]⟩),
    .text (.plain (.load .lw (.a 1) ⟨.none, .octal [] (by simp)⟩ (.a 0))),
    .text (.plain .ecall) ]

def wordScanned : AssemblerCtx :=
  (scanLabels .native (some wordSource) (initCtx 0x80000000)).2

def wordAssembled : AssemblerCtx :=
  (assembleFile .native (some wordSource) wordScanned).2

theorem wordSource_accepted :
    Accepted .native 0x80000000 wordSource wordScanned wordAssembled :=
  accepted_of_codes (by decide +kernel) (by decide +kernel)

theorem wordProgram_meaningful : ∀ item ∈ wordProgram, item.Meaningful := by
  simp only [wordProgram, List.forall_mem_cons]
  refine ⟨?_, trivial, trivial, trivial, fun item member => absurd member List.not_mem_nil⟩
  intro operand member
  rw [List.mem_singleton.mp member]
  show InElement 4 7
  decide

theorem wordSource_spelled : Spelled wordSource wordProgram := by
  have contents : sourceContents wordSource =
      [ ⟨"data".toList, "x: .word 7".toList⟩, ⟨"text".toList, "la a0, x".toList⟩,
        ⟨"text".toList, "lw a1, 0(a0)".toList⟩, ⟨"text".toList, "ecall".toList⟩ ] := by
    decide +kernel
  rw [Spelled, contents]
  refine .cons ⟨rfl, ?_⟩ (.cons ⟨rfl, ?_⟩ (.cons ⟨rfl, ?_⟩ (.cons ⟨rfl, ?_⟩ .nil))) <;> decide

theorem program_accepted_iff_word :
    (∀ item ∈ wordProgram, item.InRange) ∧ wordProgram.Fits :=
  (program_accepted_iff wordProgram_meaningful wordSource_spelled 0x80000000).mp
    ⟨wordScanned, wordAssembled, wordSource_accepted⟩

end RiscvAs
