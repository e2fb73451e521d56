/-
What a rejected program is told.

The message of a run on a program is read off its items.  The first item that the
first pass cannot count is blamed, and where there is none, the first that the second
pass cannot encode or has no room for.
-/

import RiscvAs.Executable
import RiscvAs.Diagnostics

namespace RiscvAs

open Stdio
open Rv32

instance : DecidablePred CanonicalLine.InRange
  | .imm _ _ _ literal | .load _ _ literal _ | .store _ _ literal _ =>
      inferInstanceAs (Decidable (-2 ^ 11 ≤ literal.value ∧ literal.value ≤ 2 ^ 11 - 1))
  | .branch _ _ _ literal =>
      inferInstanceAs (Decidable
        ((-2 ^ 12 ≤ literal.value ∧ literal.value ≤ 2 ^ 12 - 1) ∧ literal.value % 2 = 0))
  | .upper _ _ literal =>
      inferInstanceAs (Decidable (-2 ^ 19 ≤ literal.value ∧ literal.value ≤ 2 ^ 20 - 1))
  | .reg _ _ _ _ | .loadBase _ _ _ | .storeBase _ _ _ | .ecall => isTrue trivial

instance : DecidablePred Statement.InRange
  | .plain line => inferInstanceAs (Decidable line.InRange)
  | .li _ literal =>
      inferInstanceAs (Decidable (int32Min ≤ literal.value ∧ literal.value ≤ int32Max))
  | .shift _ | .la _ _ | .pair _ _ _ | .nop => isTrue trivial

instance : DecidablePred Item.InRange
  | .text statement => inferInstanceAs (Decidable statement.InRange)
  | .data _ => isTrue trivial

def Definition.HasRoom (definition : Definition) (before : Program) : Prop :=
  (definition.label ∉ before.labels ∧ before.labels.length < maxSymbols) ∧
    before.data.length + definition.value.bytes.length ≤ dataSize

instance (definition : Definition) (before : Program) : Decidable (definition.HasRoom before) :=
  inferInstanceAs (Decidable ((_ ∧ _) ∧ _))

/-- Why the first pass stops at an item behind these.  It looks at no operand of a real
instruction, and text is counted without a bound. -/
def Item.scanDefect (before : Program) : Item → Option Failure
  | .text (.li _ literal) =>
      if int32Min ≤ literal.value ∧ literal.value ≤ int32Max then none
      else some .invalidImmediate
  | .text (.la _ symbol) => if symbol.val ∈ before.labels then none else some .symNotFound
  | .text _ => none
  | .data definition => if definition.HasRoom before then none else some .err

section Snoc

variable (before : Program) (item : Item)

end Snoc

theorem Item.known_of_scanDefect {before : Program} {item : Item}
    (accepted : item.scanDefect before = none) : ∀ name ∈ item.fragment.uses,
      name ∈ before.labels := by
  intro name used
  obtain ⟨rd, symbol, rfl, rfl⟩ := Item.uses_fragment.mp used
  by_contra unknown
  rw [Item.scanDefect, if_neg unknown] at accepted
  cases accepted

theorem Item.reading {item : Item} {content : Content} (meaningful : item.Meaningful)
    (isItem : content.IsItem item) (inRange : item.InRange) :
    Reading .native content item.fragment :=
  readFragment_eq_some_iff.mp ((Item.readFragment meaningful isItem).1 inRange)

/-! ### The first pass -/

section FirstPass

variable {segment p : CString} {scan : Scan} {f : Failure}

end FirstPass

section Counting

variable {content : Content} {before : Program} {scan : Scan}

theorem Statement.counted {statement : Statement} (meaningful : (Item.text statement).Meaningful)
    (isItem : content.IsItem (.text statement)) {ctx : AssemblerCtx}
    (names : ctx.table.symbols.map Symbol.name = before.labels)
    (accepted : Item.scanDefect before (.text statement) = none) (textOffset : Word) :
    leadingLabel content.line = none ∧
      ∃ count, lineCount .native ctx content.line textOffset = .ok count := by
  by_cases inRange : statement.InRange
  · have reading := Item.reading meaningful isItem inRange
    refine reading.counted isItem.1 (fun name used => ?_) textOffset
    rw [symtableLookup_isSome_iff, names]
    exact Item.known_of_scanDefect accepted name used
  · cases statement with
    | plain line =>
        obtain ⟨instr, encoded⟩ := line.exists_encoded .native
        have instruction : lineInstruction content.line = .ok instr := by
          rw [isItem.2]
          exact lineInstruction_of_found encoded.found line.stops_operands
        refine ⟨leadingLabel_of_instruction instruction, 1, ?_⟩
        simp only [lineCount, instruction, ok_bind, if_neg encoded.notPseudo, pure_eq_ok]
    | li rd literal =>
        rw [Item.scanDefect, if_neg (by exact inRange)] at accepted
        cases accepted
    | shift | la | pair | nop => exact absurd trivial inRange

end Counting

/-! ### The second pass -/

structure Output.Encodes (out : Output) (table : Symtable) (place : CString → Int)
    (before : Program) : Prop where
  bounded : out.Bounded
  stands : out.Stands place before.fragments
  table : out.ctx.table = table

theorem Output.Encodes.textOffset {out : Output} {table : Symtable} {place : CString → Int}
    {before : Program} (encodes : out.Encodes table place before) :
    out.textOffset = before.codeSize := by
  rw [encodes.stands.textOffset, Program.textSize_fragments]

section Encoding

variable {content : Content} {before : Program} {out : Output} {table : Symtable}
  {place : CString → Int} {item : Item} (line : IsContentLine content.line)
  (meaningful : item.Meaningful) (isItem : content.IsItem item)
  (encodes : out.Encodes table place before)
  (known : ∀ name ∈ item.fragment.uses, (symtableLookup table name).isSome)

include line meaningful isItem encodes known

end Encoding

section Programs

variable {source : List Char} {program : Program}
  (meaningful : ∀ item ∈ program, item.Meaningful) (spelled : Spelled source program)

include spelled in
theorem Spelled.lines : List.Forall₂
    (fun content item => IsContentLine content.line ∧ Content.IsItem content item)
    (sourceContents source) program :=
  (List.forall₂_and_left _ _).mpr ⟨fun _ => sourceContents_isContentLine, spelled⟩

include meaningful spelled

end Programs

end RiscvAs
