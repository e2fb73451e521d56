/-
The segments while lines are processed one after another.

Every handler stores at or above the offset it began with, and an offset moves
only when its whole line was accepted.  So the offsets stay within the
capacities, and what was emitted before a line is there after it, whatever the
line returns.
-/

import RiscvAs.Outcomes

namespace RiscvAs

open Stdio
open Bytes (Byte)
open Rv32 (Word)

/-- The cursor only moved forward, and what was below it is unchanged. -/
structure DataCursor.Keeps (cursor cursor' : DataCursor) : Prop where
  size : cursor.currentSize ≤ cursor'.currentSize
  below : ∀ i < cursor.currentSize, cursor'.data i = cursor.data i

section Handlers

variable {cursor cursor' cursor'' : DataCursor}

theorem DataCursor.Keeps.refl (cursor : DataCursor) : cursor.Keeps cursor :=
  ⟨Nat.le_refl _, fun _ _ => rfl⟩

theorem DataCursor.Keeps.trans (first : cursor.Keeps cursor') (second : cursor'.Keeps cursor'') :
    cursor.Keeps cursor'' where
  size := Nat.le_trans first.size second.size
  below i low := by
    rw [second.below i (Nat.lt_of_lt_of_le low first.size), first.below i low]

theorem DataCursor.Extends.keeps {bytes : List Byte} (extended : cursor.Extends cursor' bytes) :
    cursor.Keeps cursor' where
  size := by
    rw [extended.size]
    exact Nat.le_add_right _ _
  below i low := by
    rw [extended.data]
    exact Bytes.store_below _ _ _ low

theorem handleDataIntegerLoop_keeps (step capacity : Nat) (tokens : List CString)
    (cursor : DataCursor) :
    cursor.Keeps (handleDataIntegerLoop step capacity tokens cursor).2 := by
  induction tokens generalizing cursor with
  | nil => exact .refl cursor
  | cons token tokens ih =>
      rw [handleDataIntegerLoop_cons]
      split
      · exact .refl cursor
      · split
        · exact .refl cursor
        · exact (cursor.extends_write _).keeps.trans (ih _)

theorem handleDataStringLoop_keeps (capacity : Nat) (text : CString) (cursor : DataCursor) :
    cursor.Keeps (handleDataStringLoop capacity text cursor).2 := by
  induction length : text.length using Nat.strong_induction_on generalizing text cursor with
  | _ n ih =>
      cases text with
      | nil => exact .refl cursor
      | cons c rest =>
          obtain ⟨bytes, tail, -, -, shorter, turn⟩ :=
            handleDataStringLoop_cons capacity c rest cursor
          rw [turn]
          rw [List.length_cons] at length
          split
          · exact .refl cursor
          · exact (cursor.extends_putAll bytes).keeps.trans (ih _ (by omega) tail _ rfl)

theorem handleDataString_keeps (args : CString) (cursor : DataCursor) (capacity : Nat) :
    cursor.Keeps (handleDataString args cursor capacity).2 := by
  unfold handleDataString
  split
  · exact .refl cursor
  · rename_i text quoted
    have looped := handleDataStringLoop_keeps capacity text cursor
    split
    · rename_i final ok
      rw [ok] at looped
      split
      · exact looped
      · exact looped.trans (final.extends_put 0).keeps
    · exact looped

theorem handleDataSpace_keeps (build : Build) (args : CString) (cursor : DataCursor)
    (capacity : Nat) : cursor.Keeps (handleDataSpace build args cursor capacity).2 := by
  unfold handleDataSpace
  split
  · exact .refl cursor
  · split
    · split
      · exact .refl cursor
      · split
        · exact .refl cursor
        · split
          · exact .refl cursor
          · exact (cursor.extends_write _).keeps
    · exact .refl cursor

theorem parseDataDirective_keeps (build : Build) (directive args : CString) (cursor : DataCursor)
    (capacity : Nat) :
    cursor.Keeps (parseDataDirective build directive args cursor capacity).2 := by
  unfold parseDataDirective
  split
  · exact handleDataIntegerLoop_keeps _ capacity _ cursor
  · split
    · exact handleDataString_keeps args cursor capacity
    · split
      · exact handleDataSpace_keeps build args cursor capacity
      · exact .refl cursor

end Handlers

/-! ### What a line does -/

/-- The part of the state that no line of a segment may touch: the bytes below the
offsets, the symbol table and the capacities. -/
structure Output.Keeps (out out' : Output) : Prop where
  text : ∀ i < out.textOffset, out'.ctx.textSegment.data i = out.ctx.textSegment.data i
  data : ∀ i < out.dataOffset, out'.ctx.dataSegment.data i = out.ctx.dataSegment.data i
  table : out'.ctx.table = out.ctx.table
  textCapacity : out'.ctx.textSegment.capacity = out.ctx.textSegment.capacity
  dataCapacity : out'.ctx.dataSegment.capacity = out.ctx.dataSegment.capacity

theorem Output.Keeps.refl (out : Output) : out.Keeps out :=
  ⟨fun _ _ => rfl, fun _ _ => rfl, rfl, rfl, rfl⟩

/-- What `process_assembly_line` does to any line: the words of an instruction or
the bytes of a directive are appended as a whole, or no offset moves. -/
inductive LineEffect (build : Build) (out : Output) (segment line : CString) :
    AssemblerError → Output → Prop where
  | text {words : List Word} (inText : isText segment = true)
      (encoded : lineWords build out.ctx line out.textOffset = .ok words)
      (fits : words ≠ [] → out.textOffset + 4 * words.length ≤ out.ctx.textSegment.capacity) :
      LineEffect build out segment line .ok (out.appendWords words)
  | data {bytes : List Byte} (inData : segment = "data".toList)
      (denoted : dataLineBytes build (afterLabel (skipBlanks line)) = some bytes)
      (fits : out.dataOffset + bytes.length ≤ out.ctx.dataSegment.capacity) :
      LineEffect build out segment line .ok (out.appendData bytes)
  | bss (inBss : segment = "bss".toList) : LineEffect build out segment line .ok out
  | failed {failure : Failure} {out' : Output} (keeps : out.Keeps out')
      (text : out'.textOffset = out.textOffset) (data : out'.dataOffset = out.dataOffset) :
      LineEffect build out segment line (.fail failure) out'

theorem processSegmentText_failed (build : Build) (out : Output) (line : CString)
    (failed : (processSegmentText build out line).1 ≠ .ok) :
    out.Keeps (processSegmentText build out line).2 ∧
      (processSegmentText build out line).2.textOffset = out.textOffset ∧
      (processSegmentText build out line).2.dataOffset = out.dataOffset := by
  cases encoded : lineWords build out.ctx line out.textOffset with
  | error e =>
      rw [processSegmentText_of_error encoded]
      exact ⟨.refl out, rfl, rfl⟩
  | ok words =>
      have below := fun i (low : i < out.textOffset) =>
        copyText_below (words.flatMap wordBytes) out.ctx.textSegment out.textOffset low
      have capacity := copyText_capacity (words.flatMap wordBytes) out.ctx.textSegment
        out.textOffset
      simp only [processSegmentText, encoded] at failed ⊢
      generalize copyText (words.flatMap wordBytes) out.ctx.textSegment out.textOffset = copied
        at failed below capacity ⊢
      obtain ⟨code, segment, currentSize⟩ := copied
      cases code with
      | ok => exact absurd rfl failed
      | fail e => exact ⟨⟨below, fun _ _ => rfl, rfl, capacity, rfl⟩, rfl, rfl⟩

theorem processSegmentData_failed (build : Build) (out : Output) (line : CString)
    (failed : (processSegmentData build out line).1 ≠ .ok) :
    out.Keeps (processSegmentData build out line).2 ∧
      (processSegmentData build out line).2.textOffset = out.textOffset ∧
      (processSegmentData build out line).2.dataOffset = out.dataOffset := by
  unfold processSegmentData at failed ⊢
  split
  · exact ⟨.refl out, rfl, rfl⟩
  · rename_i parsed called
    have keeps : (DataCursor.start out.ctx.dataSegment.data out.dataOffset).Keeps parsed.2 := by
      unfold segmentDirective at called
      split at called
      · cases called
        exact parseDataDirective_keeps ..
      · cases called
    simp only [called] at failed
    split
    · rename_i ok
      rw [if_pos ok] at failed
      exact absurd rfl failed
    · exact ⟨⟨fun _ _ => rfl, keeps.below, rfl, rfl, rfl⟩, rfl, rfl⟩

structure Output.WithinCapacity (out : Output) : Prop where
  aligned : 4 ∣ out.textOffset
  text : out.textOffset ≤ out.ctx.textSegment.capacity
  data : out.dataOffset ≤ out.ctx.dataSegment.capacity

section Lines

variable {build : Build} {out out' : Output} {segment line : CString} {code : AssemblerError}

theorem lineEffect (build : Build) (segment line : CString) (within : out.WithinCapacity) :
    LineEffect build out segment line (processAssemblyLine build segment out line).1
      (processAssemblyLine build segment out line).2 := by
  unfold processAssemblyLine
  split
  · rename_i inText
    have failed := processSegmentText_failed build out line
    rcases processed : processSegmentText build out line with ⟨code, after⟩
    rw [processed] at failed
    cases code with
    | ok =>
        obtain ⟨words, encoded, fits, rfl⟩ := processSegmentText_ok processed
        exact .text inText encoded fits
    | fail failure =>
        obtain ⟨keeps, text, data⟩ := failed (by simp)
        exact .failed keeps text data
  · split
    · rename_i inData
      have failed := processSegmentData_failed build out line
      rcases processed : processSegmentData build out line with ⟨code, after⟩
      rw [processed] at failed
      cases code with
      | ok =>
          obtain ⟨bytes, denoted, fits, rfl⟩ :=
            (processSegmentData_ok_iff within.data).mp processed
          exact .data inData denoted fits
      | fail failure =>
          obtain ⟨keeps, text, data⟩ := failed (by simp)
          exact .failed keeps text data
    · split
      · rename_i inBss
        exact .bss inBss
      · exact .failed (.refl out) rfl rfl

theorem LineEffect.keeps (effect : LineEffect build out segment line code out') :
    out.Keeps out' := by
  cases effect with
  | text inText encoded fits =>
      exact ⟨fun i low => Bytes.store_below _ _ _ low, fun _ _ => rfl, rfl, rfl, rfl⟩
  | data inData denoted fits =>
      exact ⟨fun _ _ => rfl, fun i low => Bytes.store_below _ _ _ low, rfl, rfl, rfl⟩
  | bss inBss => exact .refl out
  | failed keeps text data => exact keeps

theorem LineEffect.withinCapacity (effect : LineEffect build out segment line code out')
    (within : out.WithinCapacity) : out'.WithinCapacity := by
  cases effect with
  | text inText encoded fits =>
      rename_i words
      refine ⟨Nat.dvd_add within.aligned (Nat.dvd_mul_right 4 _), ?_, within.data⟩
      by_cases empty : words = []
      · subst empty
        exact within.text
      · exact fits empty
  | data inData denoted fits => exact ⟨within.aligned, within.text, fits⟩
  | bss inBss => exact within
  | failed keeps text data =>
      refine ⟨?_, ?_, ?_⟩
      · rw [text]
        exact within.aligned
      · rw [text, keeps.textCapacity]
        exact within.text
      · rw [data, keeps.dataCapacity]
        exact within.data

end Lines

/-- Lines processed one after another, whatever they return. -/
def processLines (build : Build) : Output → List Content → Output
  | out, [] => out
  | out, content :: rest =>
      processLines build (processAssemblyLine build content.segment out content.line).2 rest

theorem processLines_withinCapacity (build : Build) {out : Output} (within : out.WithinCapacity)
    (lines : List Content) : (processLines build out lines).WithinCapacity := by
  induction lines generalizing out with
  | nil => exact within
  | cons content rest ih =>
      exact ih ((lineEffect build content.segment content.line within).withinCapacity within)

theorem withinCapacity_start (ctx : AssemblerCtx) : (Output.start ctx).WithinCapacity :=
  ⟨Nat.dvd_zero 4, Nat.zero_le _, Nat.zero_le _⟩

/-- The lines of a run of pass 2 up to the one that it stopped at. -/
theorem processLines_of_emitContents {build : Build} {out final : Output} {lines : List Content}
    (ran : emitContents build out lines = (.ok, final)) :
    processLines build out lines = final := by
  induction lines generalizing out with
  | nil => exact (Prod.mk.inj ran).2
  | cons content rest ih =>
      obtain ⟨middle, stepped, others⟩ := Loop.run_cons_iff.mp ran
      have same : (processAssemblyLine build content.segment out content.line).2 = middle :=
        congrArg Prod.snd stepped
      rw [processLines, same]
      exact ih others

/-- The sizes that `assemble_file` stores are the offsets after its accepted lines. -/
structure CountsWholeLines (build : Build) (source : List Char) (ctx : AssemblerCtx) : Prop where
  accepted : ∃ before after out, sourceContents source = before ++ after ∧
    emitContents build (.start ctx) before = (.ok, out) ∧
    processLines build (.start ctx) before = out ∧
    (assembleFile build (some source) ctx).2.textSegment.size = out.textOffset ∧
    (assembleFile build (some source) ctx).2.dataSegment.size = out.dataOffset ∧
    ((assembleFile build (some source) ctx).1 = .ok → after = [])

theorem countsWholeLines (build : Build) (source : List Char) (ctx : AssemblerCtx) :
    CountsWholeLines build source ctx := by
  obtain ⟨code, kept⟩ := assembleFile_ended build source ctx
  rcases Loop.run_cases .ok (contentStep (processAssemblyLine build)) (Output.start ctx)
    (sourceContents source) with ⟨final, ran⟩ |
      ⟨before, content, after, middle, split, ran, failed, ended⟩
  · have emitted : emitContents build (.start ctx) (sourceContents source) = (.ok, final) := ran
    rw [emitted] at kept
    refine ⟨sourceContents source, [], final, (List.append_nil _).symm, emitted,
      processLines_of_emitContents emitted, ?_, ?_, fun _ => rfl⟩ <;> rw [kept] <;> rfl
  · have emitted : emitContents build (.start ctx) (sourceContents source) =
        processAssemblyLine build content.segment middle content.line := ended
    have within : middle.WithinCapacity :=
      processLines_of_emitContents ran ▸
        processLines_withinCapacity build (withinCapacity_start ctx) before
    have effect := lineEffect build content.segment content.line within
    rw [emitted] at code kept
    refine ⟨before, content :: after, middle, split, ran, processLines_of_emitContents ran, ?_⟩
    have notOk : (processAssemblyLine build content.segment middle content.line).1 ≠ .ok := failed
    generalize processAssemblyLine build content.segment middle content.line = result
      at effect code kept notOk
    obtain ⟨resultCode, last⟩ := result
    cases effect with
    | text | data | bss => exact absurd rfl notOk
    | failed keeps text data =>
        refine ⟨?_, ?_, ?_⟩
        · rw [kept]
          exact text
        · rw [kept]
          exact data
        · intro ok
          rw [code] at ok
          cases ok

/-- From a context with empty segments on, whatever lines are processed in whatever
segments: the offsets stay within the capacities, a line appends a whole
expansion or a whole directive or moves no offset, and nothing that was emitted
before it changes.  What `assemble_file` stores counts whole lines. -/
theorem segments_appendOnly (build : Build) (ctx : AssemblerCtx) :
    (∀ lines, (processLines build (.start ctx) lines).WithinCapacity) ∧
    (∀ lines segment line, ∀ out code out', processLines build (.start ctx) lines = out →
      processAssemblyLine build segment out line = (code, out') →
      out.Keeps out' ∧ LineEffect build out segment line code out' ∧
      (code = .ok → out.textOffset ≤ out'.textOffset ∧ out.dataOffset ≤ out'.dataOffset ∧
        (isText segment = true → out'.dataOffset = out.dataOffset) ∧
        (isText segment = false → out'.textOffset = out.textOffset)) ∧
      (code ≠ .ok → out'.textOffset = out.textOffset ∧ out'.dataOffset = out.dataOffset)) ∧
    ∀ source, CountsWholeLines build source ctx := by
  have within := processLines_withinCapacity build (withinCapacity_start ctx)
  refine ⟨within, ?_, fun source => countsWholeLines build source ctx⟩
  rintro lines segment line out code out' rfl processed
  have effect := lineEffect build segment line (within lines)
  rw [processed] at effect
  refine ⟨effect.keeps, effect, ?_, ?_⟩
  · rintro rfl
    cases effect with
    | text inText encoded fits =>
        refine ⟨Nat.le_add_right _ _, Nat.le_refl _, fun _ => rfl, fun other => ?_⟩
        rw [inText] at other
        cases other
    | data inData denoted fits =>
        refine ⟨Nat.le_refl _, Nat.le_add_right _ _, fun inText => ?_, fun _ => rfl⟩
        rw [inData] at inText
        cases inText
    | bss inBss => exact ⟨Nat.le_refl _, Nat.le_refl _, fun _ => rfl, fun _ => rfl⟩
  · intro notOk
    cases effect with
    | text | data | bss => exact absurd rfl notOk
    | failed keeps text data => exact ⟨text, data⟩

theorem segments_appendOnly_cutList :
    ∃ out', processAssemblyLine .native "data".toList (.start (initCtx 0))
        "v: .byte 1, x".toList = (.fail .parseError, out') ∧ out'.dataOffset = 0 := by
  have code : (processAssemblyLine .native "data".toList (.start (initCtx 0))
      "v: .byte 1, x".toList).1 = .fail .parseError := by decide
  rcases processed : processAssemblyLine .native "data".toList (.start (initCtx 0))
    "v: .byte 1, x".toList with ⟨found, out'⟩
  rw [processed] at code
  subst code
  have law := (segments_appendOnly .native (initCtx 0)).2.1 [] _ _ _ _ _ rfl processed
  exact ⟨out', rfl, (law.2.2.2 AssemblerError.noConfusion).2⟩

end RiscvAs
