/-
What a text line does to the output.

A line that is accepted appends the bytes of its words to the text segment; a
line that is rejected leaves the emitted bytes and the offset as they were.
-/

import RiscvAs.Encoding
import RiscvAs.Segment

namespace RiscvAs

open Stdio
open Bytes (Byte)
open Rv32 (Word)

theorem wordBytes_length (w : Word) : (wordBytes w).length = 4 :=
  Bytes.littleEndian_length 4 w.toNat

theorem wordsBytes_length (words : List Word) :
    (words.flatMap wordBytes).length = 4 * words.length := by
  induction words with
  | nil => rfl
  | cons w words ih =>
      simp only [List.flatMap_cons, List.length_append, wordBytes_length, ih, List.length_cons]
      omega

/-- The little-endian bytes of a word give the word back. -/
theorem ofLittleEndian_wordBytes (w : Word) :
    BitVec.ofNat 32 (Bytes.ofLittleEndian (wordBytes w)) = w := by
  apply BitVec.eq_of_toNat_eq
  have bound := w.isLt
  rw [wordBytes, Bytes.ofLittleEndian_littleEndian, BitVec.toNat_ofNat]
  omega

theorem lineInstruction_of_found {name rest : CString} {instr : Instruction}
    (found : findInstruction name = some instr) (stops : Stops (fun c => !isspace c) rest) :
    lineInstruction (name ++ rest) = .ok instr := by
  have isToken := findInstruction_isToken found
  have front : Stops isspace (name ++ rest) :=
    (stops_append isToken.nonempty rest).mpr (stops_of_rejected isToken.noBlank)
  have read : sscanf formatName (name ++ rest) = [.str name] := by
    rw [formatName, sscanf_blank, skipBlanks_of_stops front,
      sscanf_token _ isToken.nonempty isToken.noBlank
        (fun w width => by cases width; exact isToken.short) stops, sscanf_blank]
    rfl
  simp only [lineInstruction, read, found]

theorem lineWords_of_real {build : Build} {ctx : AssemblerCtx} {line : CString} {textOffset : Nat}
    {instr : Instruction} (instruction : lineInstruction line = .ok instr)
    (notPseudo : instr.type ≠ .P) :
    lineWords build ctx line textOffset =
      (encode build instr line instr.name.toList).map (fun w => [w]) := by
  simp only [lineWords, instruction, ok_bind, if_neg notPseudo]
  cases encode build instr line instr.name.toList <;> rfl

theorem lineWords_of_pseudo {build : Build} {ctx : AssemblerCtx} {line : CString}
    {textOffset : Nat} {instr : Instruction} (instruction : lineInstruction line = .ok instr)
    (pseudo : instr.type = .P) :
    lineWords build ctx line textOffset =
      (expandPseudoInstr build ctx instr line
        (getTextVaddr ctx.baseVaddr + BitVec.ofNat 32 textOffset) >>=
          encodePseudoInstr build) := by
  simp only [lineWords, instruction, ok_bind, if_pos pseudo]

theorem copyText_of_fits (bytes : List Byte) (segment : Segment) (currentSize : Nat)
    (fits : currentSize + bytes.length ≤ segment.capacity) :
    copyText bytes segment currentSize =
      (.ok, { segment with data := Bytes.store segment.data currentSize bytes },
        currentSize + bytes.length) := by
  induction bytes generalizing segment currentSize with
  | nil => rfl
  | cons byte bytes ih =>
      simp only [List.length_cons] at fits
      rw [copyText, if_neg (by omega), ih _ _ (by simp only; omega)]
      simp only [Bytes.store, List.length_cons, Prod.mk.injEq, true_and]
      omega

theorem copyText_not_fits (bytes : List Byte) (segment : Segment) (currentSize : Nat)
    (nonempty : bytes ≠ []) (full : segment.capacity < currentSize + bytes.length) :
    (copyText bytes segment currentSize).1 = .fail .err := by
  induction bytes generalizing segment currentSize with
  | nil => exact absurd rfl nonempty
  | cons byte bytes ih =>
      simp only [List.length_cons] at full
      rw [copyText]
      split
      · rfl
      · refine ih _ _ ?_ (by simp only; omega)
        rintro rfl
        simp only [List.length_nil] at full
        omega

/-- The copy loop fills the segment from the offset on and leaves the bytes
below it, whatever it returns. -/
theorem copyText_below (bytes : List Byte) (segment : Segment) (currentSize : Nat) {i : Nat}
    (below : i < currentSize) :
    (copyText bytes segment currentSize).2.1.data i = segment.data i := by
  induction bytes generalizing segment currentSize with
  | nil => rfl
  | cons byte bytes ih =>
      rw [copyText]
      split
      · rfl
      · rw [ih _ _ (by omega)]
        exact Function.update_of_ne (by omega) _ _

theorem copyText_capacity (bytes : List Byte) (segment : Segment) (currentSize : Nat) :
    (copyText bytes segment currentSize).2.1.capacity = segment.capacity := by
  induction bytes generalizing segment currentSize with
  | nil => rfl
  | cons byte bytes ih =>
      rw [copyText]
      split
      · rfl
      · rw [ih]

def Output.appendWords (out : Output) (words : List Word) : Output :=
  { out with
    ctx := { out.ctx with textSegment := { out.ctx.textSegment with
      data := Bytes.store out.ctx.textSegment.data out.textOffset (words.flatMap wordBytes) } }
    textOffset := out.textOffset + 4 * words.length }

theorem processSegmentText_of_words {build : Build} {out : Output} {line : CString}
    {words : List Word} (encoded : lineWords build out.ctx line out.textOffset = .ok words)
    (room : out.textOffset + 4 * words.length ≤ out.ctx.textSegment.capacity) :
    processSegmentText build out line = (.ok, out.appendWords words) := by
  have copied := copyText_of_fits (words.flatMap wordBytes) out.ctx.textSegment out.textOffset
    (by rw [wordsBytes_length]; exact room)
  simp only [processSegmentText, encoded, copied, wordsBytes_length, Output.appendWords]

theorem processSegmentText_of_error {build : Build} {out : Output} {line : CString}
    {e : Failure} (failed : lineWords build out.ctx line out.textOffset = .error e) :
    processSegmentText build out line = (.fail e, out) := by
  simp only [processSegmentText, failed]

theorem processSegmentText_ok {build : Build} {out out' : Output} {line : CString}
    (accepted : processSegmentText build out line = (.ok, out')) :
    ∃ words, lineWords build out.ctx line out.textOffset = .ok words ∧
      (words ≠ [] → out.textOffset + 4 * words.length ≤ out.ctx.textSegment.capacity) ∧
      out' = out.appendWords words := by
  cases encoded : lineWords build out.ctx line out.textOffset with
  | error e =>
      rw [processSegmentText_of_error encoded] at accepted
      cases accepted
  | ok words =>
      refine ⟨words, rfl, ?_⟩
      by_cases empty : words = []
      · subst empty
        simp only [processSegmentText, encoded, List.flatMap_nil, copyText] at accepted
        exact ⟨fun nonempty => absurd rfl nonempty, (Prod.mk.inj accepted).2.symm⟩
      have room : out.textOffset + 4 * words.length ≤ out.ctx.textSegment.capacity := by
        by_contra full
        have bytes := wordsBytes_length words
        have positive := List.length_pos_iff.mpr empty
        have failed := copyText_not_fits (words.flatMap wordBytes) out.ctx.textSegment
          out.textOffset (List.ne_nil_of_length_pos (by omega)) (by omega)
        simp only [processSegmentText, encoded] at accepted
        split at accepted
        · rename_i segment currentSize copied
          rw [copied] at failed
          cases failed
        · rename_i e segment currentSize notOk copied
          rw [copied] at failed
          cases failed
          cases accepted
      rw [processSegmentText_of_words encoded room] at accepted
      exact ⟨fun _ => room, (Prod.mk.inj accepted).2.symm⟩

end RiscvAs
