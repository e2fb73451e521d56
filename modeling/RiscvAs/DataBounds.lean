/-
Where the handlers of data directives store.

The capacity is checked once for each turn of the string loop, but an unknown
escape stores two bytes, so the second of them can land one past the array.
Nothing else can: a call stays in its array exactly when no such escape begins
on the last free byte.
-/

import RiscvAs.Emission

namespace RiscvAs

open Stdio
open Bytes (Byte Buffer)
open Rv32 (Word)

/-- Every store was below the capacity, and the size never exceeded it. -/
structure DataCursor.InBounds (capacity : Nat) (cursor : DataCursor) : Prop where
  stores : ∀ i ∈ cursor.stores, i < capacity
  sizes : ∀ n ∈ cursor.sizes, n ≤ capacity

/-- A two-byte escape begins on the last free byte. -/
def CutsEscape (capacity start : Nat) (cut : List (List Byte)) : Prop :=
  ∃ before unit after, cut = before ++ unit :: after ∧ unit.length = 2 ∧
    start + before.flatten.length + 1 = capacity

def Overruns (directive args : CString) (currentSize capacity : Nat) : Prop :=
  isStringDirective directive = true ∧
    ∃ text, quotedText args = some text ∧ CutsEscape capacity currentSize (units text)

section Cursor

variable {capacity : Nat} {cursor : DataCursor}

theorem DataCursor.inBounds_start (data : Buffer) {currentSize : Nat}
    (starts : currentSize ≤ capacity) : (DataCursor.start data currentSize).InBounds capacity := by
  constructor
  · intro i member
    cases member
  · intro n member
    rw [List.mem_singleton.mp member]
    exact starts

theorem DataCursor.inBounds_put_iff (byte : Byte) :
    (cursor.put byte).InBounds capacity ↔
      cursor.InBounds capacity ∧ cursor.currentSize < capacity := by
  constructor
  · rintro ⟨stores, sizes⟩
    simp only [DataCursor.put_stores, DataCursor.put_sizes, List.mem_append] at stores sizes
    exact ⟨⟨fun i member => stores i (Or.inl member), fun n member => sizes n (Or.inl member)⟩,
      stores _ (Or.inr (List.mem_singleton_self _))⟩
  · rintro ⟨inBounds, room⟩
    constructor
    · intro i member
      rcases List.mem_append.mp member with earlier | last
      · exact inBounds.stores i earlier
      · rw [List.mem_singleton.mp last]
        exact room
    · intro n member
      rcases List.mem_append.mp member with earlier | last
      · exact inBounds.sizes n earlier
      · rw [List.mem_singleton.mp last]
        exact room

theorem DataCursor.inBounds_putAll_iff {bytes : List Byte} (nonempty : bytes ≠ []) :
    (putAll cursor bytes).InBounds capacity ↔
      cursor.InBounds capacity ∧ cursor.currentSize + bytes.length ≤ capacity := by
  induction bytes generalizing cursor with
  | nil => exact absurd rfl nonempty
  | cons byte bytes ih =>
      by_cases last : bytes = []
      · subst last
        exact DataCursor.inBounds_put_iff byte
      · have rest : (putAll (cursor.put byte) bytes).InBounds capacity ↔
            (cursor.put byte).InBounds capacity ∧
              (cursor.put byte).currentSize + bytes.length ≤ capacity := ih last
        have positive := List.length_pos_iff.mpr last
        rw [DataCursor.inBounds_put_iff, DataCursor.put_currentSize] at rest
        rw [putAll, List.foldl_cons, List.length_cons]
        refine rest.trans ⟨?_, ?_⟩
        · rintro ⟨⟨inBounds, -⟩, room⟩
          exact ⟨inBounds, by omega⟩
        · rintro ⟨inBounds, room⟩
          exact ⟨⟨inBounds, by omega⟩, by omega⟩

theorem DataCursor.InBounds.write (inBounds : cursor.InBounds capacity) {bytes : List Byte}
    (room : cursor.currentSize + bytes.length ≤ capacity) :
    (cursor.write bytes).InBounds capacity := by
  constructor
  · intro i member
    rcases List.mem_append.mp member with earlier | block
    · exact inBounds.stores i earlier
    · have inside := List.mem_range'_1.mp block
      omega
  · intro n member
    rcases List.mem_append.mp member with earlier | last
    · exact inBounds.sizes n earlier
    · rw [List.mem_singleton.mp last]
      exact room

end Cursor

theorem handleDataIntegerLoop_inBounds (step capacity : Nat) (tokens : List CString)
    (cursor : DataCursor) (inBounds : cursor.InBounds capacity) :
    (handleDataIntegerLoop step capacity tokens cursor).2.InBounds capacity := by
  induction tokens generalizing cursor with
  | nil => exact inBounds
  | cons token tokens ih =>
      rw [handleDataIntegerLoop_cons]
      cases tokenValue token with
      | none => exact inBounds
      | some value =>
          simp only
          split
          · exact inBounds
          · rename_i room
            apply ih
            apply inBounds.write
            rw [integerBytes_length]
            omega

theorem handleDataSpace_inBounds (build : Build) (args : CString) (cursor : DataCursor)
    (capacity : Nat) (starts : cursor.currentSize ≤ capacity)
    (inBounds : cursor.InBounds capacity) :
    (handleDataSpace build args cursor capacity).2.InBounds capacity := by
  unfold handleDataSpace
  split
  · exact inBounds
  · split
    · split
      · exact inBounds
      · split
        · exact inBounds
        · split
          · exact inBounds
          · apply inBounds.write
            rw [List.length_replicate]
            omega
    · exact inBounds

/-! ### Strings -/

theorem cutsEscape_cons (capacity start : Nat) (unit : List Byte) (cut : List (List Byte)) :
    CutsEscape capacity start (unit :: cut) ↔
      (unit.length = 2 ∧ start + 1 = capacity) ∨ CutsEscape capacity (start + unit.length) cut := by
  constructor
  · rintro ⟨before, found, after, same, two, last⟩
    cases before with
    | nil =>
        obtain ⟨rfl, -⟩ := List.cons.inj same
        exact Or.inl ⟨two, last⟩
    | cons first before =>
        obtain ⟨rfl, rest⟩ := List.cons.inj same
        rw [List.flatten_cons, List.length_append] at last
        exact Or.inr ⟨before, found, after, rest, two, by omega⟩
  · rintro (⟨two, last⟩ | ⟨before, found, after, rfl, two, last⟩)
    · exact ⟨[], unit, cut, rfl, two, last⟩
    · refine ⟨unit :: before, found, after, rfl, two, ?_⟩
      rw [List.flatten_cons, List.length_append]
      omega

/-- One turn stores one unit after one check, so only a unit of two bytes can
pass the capacity, and only from the last free byte. -/
theorem handleDataStringLoop_inBounds_iff (capacity : Nat) (text : CString) (cursor : DataCursor) :
    (handleDataStringLoop capacity text cursor).2.InBounds capacity ↔
      cursor.InBounds capacity ∧ ¬ CutsEscape capacity cursor.currentSize (units text) := by
  induction length : text.length using Nat.strong_induction_on generalizing text cursor with
  | _ n ih =>
      cases text with
      | nil =>
          refine (and_iff_left ?_).symm
          rintro ⟨before, unit, after, same, -⟩
          cases before <;> cases same
      | cons c rest =>
          obtain ⟨bytes, tail, unit, size, shorter, turn⟩ :=
            handleDataStringLoop_cons capacity c rest cursor
          have nonempty : bytes ≠ [] := by
            rintro rfl
            simp at size
          rw [turn, unit, cutsEscape_cons]
          by_cases full : cursor.currentSize ≥ capacity
          · rw [if_pos full]
            refine (and_iff_left ?_).symm
            rintro (⟨-, last⟩ | ⟨before, found, after, -, -, last⟩) <;> omega
          · rw [if_neg full, ih tail.length (by simp only [List.length_cons] at length; omega) tail
                (putAll cursor bytes) rfl,
              DataCursor.inBounds_putAll_iff nonempty, (putAll_eq cursor bytes).2, not_or]
            constructor
            · rintro ⟨⟨inBounds, room⟩, rest⟩
              exact ⟨inBounds, fun ⟨two, last⟩ => by omega, rest⟩
            · rintro ⟨inBounds, notLast, rest⟩
              exact ⟨⟨inBounds, by omega⟩, rest⟩

theorem handleDataString_inBounds_iff (args : CString) (cursor : DataCursor) (capacity : Nat)
    (inBounds : cursor.InBounds capacity) :
    (handleDataString args cursor capacity).2.InBounds capacity ↔
      ¬ ∃ text, quotedText args = some text ∧
        CutsEscape capacity cursor.currentSize (units text) := by
  unfold handleDataString
  cases quotedText args with
  | none => simp [inBounds]
  | some text =>
      have loop := handleDataStringLoop_inBounds_iff capacity text cursor
      rw [and_iff_right inBounds] at loop
      simp only [Option.some.injEq, exists_eq_left']
      rw [← loop]
      rcases handleDataStringLoop capacity text cursor with ⟨code, final⟩
      cases code with
      | fail failure => exact Iff.rfl
      | ok =>
          simp only
          split
          · exact Iff.rfl
          · rw [DataCursor.inBounds_put_iff]
            exact and_iff_left (by omega)

theorem not_isStringDirective {directive : CString}
    (other : isIntegerDirective directive = true ∨ directive = ".space".toList) :
    isStringDirective directive = false := by
  simp only [isIntegerDirective, Bool.or_eq_true, decide_eq_true_eq] at other
  rcases other with ((rfl | rfl) | rfl) | rfl <;> decide

theorem parseDataDirective_inBounds_iff (build : Build) (directive args : CString) (data : Buffer)
    {currentSize capacity : Nat} (starts : currentSize ≤ capacity) :
    (parseDataDirective build directive args (.start data currentSize) capacity).2.InBounds
        capacity ↔ ¬ Overruns directive args currentSize capacity := by
  have inBounds := DataCursor.inBounds_start data starts
  unfold parseDataDirective Overruns
  split
  · rename_i integer
    rw [not_isStringDirective (Or.inl integer)]
    simp only [Bool.false_eq_true, false_and, not_false_eq_true, iff_true]
    exact handleDataIntegerLoop_inBounds _ _ _ _ inBounds
  · split
    · rename_i string
      rw [handleDataString_inBounds_iff args _ capacity inBounds, string]
      simp [DataCursor.start]
    · rename_i notString
      split
      · simp only [notString, Bool.false_eq_true, false_and, not_false_eq_true, iff_true]
        exact handleDataSpace_inBounds build args _ capacity starts inBounds
      · simpa [notString] using inBounds

section Reached

variable {build : Build} {baseVaddr : Word} {source : List Char} {before after : List CString}
  (split : fgetsLines lineBufLen source = before ++ after) {segment : CString}

include split

theorem contents_prefix_isContentLine :
    ∀ content ∈ contents [] before, IsContentLine content.line := by
  intro content member
  refine isContentLine_of_mem (fun buffer mem => sourceLines_short source buffer ?_) member
  rw [split]
  exact List.mem_append_left after mem

theorem scanLines_bounded {scan : Scan}
    (reached : scanLines build (scanStart (initCtx baseVaddr)) before = (.ok, (segment, scan))) :
    scan.dataOffset.toNat ≤ dataSize :=
  (scanContents_invariant (fun _ => True) (contents_prefix_isContentLine split)
    (fun _ _ _ _ _ _ => trivial) (scanLines_ok_iff.mp reached).1 (Nat.zero_le _) trivial).1

theorem assembleLines_bounded {ctx : AssemblerCtx} {out : Output}
    (scanned : scanLabels build (some source) (initCtx baseVaddr) = (.ok, ctx))
    (reached : assembleLines build (assembleStart ctx) before = (.ok, (segment, out))) :
    out.Bounded :=
  (emitContents_invariant (fun _ => True) (contents_prefix_isContentLine split)
    (fun _ _ _ _ _ _ _ => trivial) (assembleLines_ok_iff.mp reached).1
    (bounded_of_scanLabels scanned) trivial).1

end Reached

/-- A call of `parse_data_directive` stays in its array exactly when no unknown
escape of its string begins on the last free byte, and so does every call that
either pass makes, at any line of any file. -/
theorem dataStores_inBounds_iff (build : Build) :
    (∀ directive args data currentSize capacity, currentSize ≤ capacity →
      ((parseDataDirective build directive args (.start data currentSize) capacity).2.InBounds
        capacity ↔ ¬ Overruns directive args currentSize capacity)) ∧
    ∀ baseVaddr source before after, fgetsLines lineBufLen source = before ++ after →
      (∀ segment scan,
        scanLines build (scanStart (initCtx baseVaddr)) before = (.ok, (segment, scan)) →
        ∀ p directive, sscanf formatScanName p = [.str directive] →
        ∃ parsed, scanDirective build scan.dataOffset.toNat p = some parsed ∧
          (parsed.2.InBounds dataSize ↔ ¬ Overruns directive
            (snprintf lineBufLen (directiveArgs p)) scan.dataOffset.toNat dataSize)) ∧
      (∀ ctx segment out, scanLabels build (some source) (initCtx baseVaddr) = (.ok, ctx) →
        assembleLines build (assembleStart ctx) before = (.ok, (segment, out)) →
        out.ctx.dataSegment.capacity = dataSize ∧
        ∀ p directive, sscanf formatDirective p = [.str directive] →
        ∃ parsed, segmentDirective build out.ctx.dataSegment out.dataOffset p = some parsed ∧
          (parsed.2.InBounds dataSize ↔
            ¬ Overruns directive (directiveArgs p) out.dataOffset dataSize)) := by
  refine ⟨fun directive args data _ _ starts =>
    parseDataDirective_inBounds_iff build directive args data starts, ?_⟩
  intro baseVaddr source before after split
  constructor
  · intro segment scan reached p directive scanned
    refine ⟨_, by rw [scanDirective, scanned], ?_⟩
    exact parseDataDirective_inBounds_iff build directive _ _ (scanLines_bounded split reached)
  · intro ctx segment out scanned reached
    have bounded := assembleLines_bounded split scanned reached
    refine ⟨bounded.dataCapacity, fun p directive read => ?_⟩
    refine ⟨_, by rw [segmentDirective, read], ?_⟩
    rw [bounded.dataCapacity]
    exact parseDataDirective_inBounds_iff build directive _ _ bounded.data

theorem dataStores_inBounds_escape :
    (parseDataDirective .native ".asciz".toList "\"\\q\"".toList (.start tempData 2046)
      dataSize).2.InBounds dataSize := by
  have starts : 2046 ≤ dataSize := by decide
  refine ((dataStores_inBounds_iff .native).1 _ _ _ _ _ starts).mpr ?_
  rintro ⟨-, text, quoted, before, unit, after, cut, -, last⟩
  obtain rfl := Option.some.inj quoted
  have whole := congrArg (fun cut => cut.flatten.length) cut
  simp only [List.flatten_append, List.flatten_cons, List.length_append] at whole
  cases before with
  | nil => simp [dataSize] at last
  | cons first before =>
      obtain ⟨-, rest⟩ := List.cons.inj cut
      cases before <;> cases rest

/-- With one byte left in the array, `\q` is stored past its end. -/
theorem dataStores_not_inBounds :
    ∃ source before buffer after p segment scan parsed,
      source = ".data\na: .space 2047\nb: .asciz \"\\q\"\n".toList ∧
      fgetsLines lineBufLen source = before ++ buffer :: after ∧
      scanLines .native (scanStart (initCtx 0x80000000)) before = (.ok, (segment, scan)) ∧
      leadingLabel (stringTrim buffer) = some ("b".toList, p) ∧
      scanDirective .native scan.dataOffset.toNat p = some parsed ∧
      ¬ parsed.2.InBounds dataSize := by
  let before := [".data\n".toList, "a: .space 2047\n".toList]
  let p := ".asciz \"\\q\"".toList
  have start : (scanLines .native (scanStart (initCtx 0x80000000)) before).1 = .ok := by
    decide +kernel
  refine ⟨_, before, "b: .asciz \"\\q\"\n".toList, [], p,
    (scanLines .native (scanStart (initCtx 0x80000000)) before).2.1,
    (scanLines .native (scanStart (initCtx 0x80000000)) before).2.2,
    (.fail .err, ((DataCursor.start tempData 2047).put 0x5c).put 0x71), rfl, ?_, ?_, ?_, ?_, ?_⟩
  · decide +kernel
  · exact Prod.ext start rfl
  · decide +kernel
  · have offset : (scanLines .native (scanStart (initCtx 0x80000000)) before).2.2.dataOffset.toNat
        = 2047 := by decide +kernel
    rw [offset]
    rfl
  · intro inBounds
    have stored := inBounds.stores 2048 (by simp [DataCursor.start])
    exact absurd stored (by decide)

end RiscvAs
