/-
What a data directive denotes, and that the handlers store it.

`directiveBytes` gives the bytes of a directive from its arguments alone; it
knows no array and no capacity.  A call of `parse_data_directive` succeeds
exactly when the directive denotes bytes and they fit, and then it has appended
them.
-/

import RiscvAs.Data

namespace RiscvAs

open Stdio
open Bytes (Byte Buffer)

def tokenValue (token : CString) : Option Int :=
  match sscanf formatInteger token with
  | [.int value] => some value
  | _ => none

theorem tokenValue_cases (token : CString) :
    (∃ value, sscanf formatInteger token = [.int value] ∧ tokenValue token = some value) ∨
      ((∀ value, sscanf formatInteger token ≠ [.int value]) ∧ tokenValue token = none) := by
  unfold tokenValue
  split
  · rename_i value scanned
    exact Or.inl ⟨value, scanned, rfl⟩
  · rename_i other
    exact Or.inr ⟨other, rfl⟩

def integersBytes (step : Nat) (tokens : List CString) : Option (List Byte) :=
  (tokens.mapM tokenValue).map (fun values => values.flatMap (integerBytes step))

/-- The text between the quotes, cut into escapes and characters, with the
bytes of each. -/
def units : CString → List (List Byte)
  | [] => []
  | '\\' :: c :: rest => escapeBytes c :: units rest
  | c :: rest => [charByte c] :: units rest

def stringBytes (args : CString) : Option (List Byte) :=
  (quotedText args).map (fun text => (units text).flatten ++ [0])

def fillValue (tokens : List CString) : Option Int :=
  match tokens with
  | [] => some 0
  | token :: _ => (tokenValue token).filter (fun fill => 0 ≤ fill ∧ fill ≤ 255)

def spaceBytes (build : Build) (args : CString) : Option (List Byte) :=
  match strtok ',' args with
  | [] => none
  | countToken :: rest =>
      (tokenValue countToken).bind (fun count =>
        if count < 0 then none
        else (fillValue rest).map (fun fill =>
          List.replicate (build.toSize count) (BitVec.ofInt 8 fill)))

def directiveBytes (build : Build) (directive args : CString) : Option (List Byte) :=
  if isIntegerDirective directive then integersBytes (integerStep directive) (strtok ',' args)
  else if isStringDirective directive then stringBytes args
  else if directive = ".space".toList then spaceBytes build args
  else none

example : directiveBytes .native ".asciz".toList "\"a\\n\\q\" # text".toList =
    some [0x61, 0x0a, 0x5c, 0x71, 0x00] := by decide

theorem putAll_eq (cursor : DataCursor) (bytes : List Byte) :
    (putAll cursor bytes).data = Bytes.store cursor.data cursor.currentSize bytes ∧
      (putAll cursor bytes).currentSize = cursor.currentSize + bytes.length := by
  induction bytes generalizing cursor with
  | nil => exact ⟨rfl, rfl⟩
  | cons byte bytes ih =>
      obtain ⟨data, size⟩ := ih (cursor.put byte)
      simp only [putAll, List.foldl_cons, List.length_cons, Bytes.store] at data size ⊢
      refine ⟨data, ?_⟩
      rw [size, DataCursor.put_currentSize]
      omega

structure DataCursor.Extends (cursor cursor' : DataCursor) (bytes : List Byte) : Prop where
  data : cursor'.data = Bytes.store cursor.data cursor.currentSize bytes
  size : cursor'.currentSize = cursor.currentSize + bytes.length

theorem DataCursor.extends_write (cursor : DataCursor) (bytes : List Byte) :
    cursor.Extends (cursor.write bytes) bytes :=
  ⟨rfl, rfl⟩

theorem DataCursor.extends_putAll (cursor : DataCursor) (bytes : List Byte) :
    cursor.Extends (putAll cursor bytes) bytes :=
  ⟨(putAll_eq cursor bytes).1, (putAll_eq cursor bytes).2⟩

theorem DataCursor.extends_put (cursor : DataCursor) (byte : Byte) :
    cursor.Extends (cursor.put byte) [byte] :=
  cursor.extends_putAll [byte]

theorem DataCursor.Extends.trans {first second third : DataCursor} {bytes bytes' : List Byte}
    (extended : first.Extends second bytes) (extended' : second.Extends third bytes') :
    first.Extends third (bytes ++ bytes') where
  data := by rw [Bytes.store_append, ← extended.data, ← extended.size, extended'.data]
  size := by rw [extended'.size, extended.size, List.length_append, Nat.add_assoc]

theorem DataCursor.Extends.refl (cursor : DataCursor) : cursor.Extends cursor [] :=
  ⟨rfl, rfl⟩

/-- The outcome of a handler: the denoted bytes, when there are any and they
fit, and else a failure. -/
structure DataCursor.Appends (cursor : DataCursor) (capacity : Nat)
    (denoted : Option (List Byte)) (outcome : AssemblerError × DataCursor) : Prop where
  ok_iff : outcome.1 = .ok ↔
    ∃ bytes, denoted = some bytes ∧ cursor.currentSize + bytes.length ≤ capacity
  extends_of_ok : ∀ bytes, denoted = some bytes → outcome.1 = .ok →
    cursor.Extends outcome.2 bytes

theorem DataCursor.appends_of_none {cursor : DataCursor} {capacity : Nat}
    {outcome : AssemblerError × DataCursor} (failed : outcome.1 ≠ .ok) :
    cursor.Appends capacity none outcome :=
  ⟨by simp [failed], by simp⟩

theorem integerBytes_length (count : Nat) (value : Int) :
    (integerBytes count value).length = count :=
  Bytes.littleEndian_length count _

theorem integersBytes_cons (step : Nat) (token : CString) (tokens : List CString) :
    integersBytes step (token :: tokens) =
      (tokenValue token).bind (fun value =>
        (integersBytes step tokens).map (fun bytes => integerBytes step value ++ bytes)) := by
  simp only [integersBytes, List.mapM_cons]
  cases tokenValue token with
  | none => rfl
  | some value => cases tokens.mapM tokenValue <;> rfl

theorem handleDataIntegerLoop_cons (step capacity : Nat) (token : CString)
    (tokens : List CString) (cursor : DataCursor) :
    handleDataIntegerLoop step capacity (token :: tokens) cursor =
      match tokenValue token with
      | none => (.fail .parseError, cursor)
      | some value =>
          if cursor.currentSize + step > capacity then (.fail .err, cursor)
          else handleDataIntegerLoop step capacity tokens
            (cursor.write (integerBytes step value)) := by
  rcases tokenValue_cases token with ⟨value, scanned, read⟩ | ⟨failed, read⟩
  · simp only [handleDataIntegerLoop, scanned, read]
  · rw [handleDataIntegerLoop, read]
    split
    · rename_i value scanned
      exact absurd scanned (failed value)
    · rfl

theorem handleDataIntegerLoop_appends (step capacity : Nat) (tokens : List CString)
    (cursor : DataCursor) (starts : cursor.currentSize ≤ capacity) :
    cursor.Appends capacity (integersBytes step tokens)
      (handleDataIntegerLoop step capacity tokens cursor) := by
  induction tokens generalizing cursor with
  | nil =>
      refine ⟨?_, ?_⟩
      · simpa [handleDataIntegerLoop, integersBytes] using starts
      · intro bytes denoted _
        cases denoted
        exact .refl cursor
  | cons token tokens ih =>
      rw [handleDataIntegerLoop_cons, integersBytes_cons]
      cases read : tokenValue token with
      | none => exact DataCursor.appends_of_none (by simp)
      | some value =>
          have length := integerBytes_length step value
          simp only [Option.bind_some]
          by_cases full : cursor.currentSize + step > capacity
          · rw [if_pos full]
            refine ⟨?_, by simp⟩
            simp only [reduceCtorEq, false_iff, not_exists, not_and, Option.map_eq_some_iff]
            rintro bytes ⟨others, -, rfl⟩
            rw [List.length_append, length]
            omega
          · rw [if_neg full]
            have rest := ih (cursor.write (integerBytes step value))
              (by rw [DataCursor.write_currentSize, length]; omega)
            refine ⟨rest.ok_iff.trans ?_, ?_⟩
            · simp only [DataCursor.write_currentSize, length, Option.map_eq_some_iff]
              constructor
              · rintro ⟨others, denoted, fits⟩
                refine ⟨_, ⟨others, denoted, rfl⟩, ?_⟩
                rw [List.length_append, length]
                omega
              · rintro ⟨bytes, ⟨others, denoted, rfl⟩, fits⟩
                rw [List.length_append, length] at fits
                exact ⟨others, denoted, by omega⟩
            · intro bytes denoted accepted
              obtain ⟨others, denotedRest, rfl⟩ := Option.map_eq_some_iff.mp denoted
              exact (cursor.extends_write _).trans
                (rest.extends_of_ok others denotedRest accepted)

/-! ### Strings -/

theorem escapeBytes_length (c : Char) :
    (escapeBytes c).length = 1 ∨ (escapeBytes c).length = 2 := by
  unfold escapeBytes
  split <;> simp

/-- One turn of the loop takes the first unit of the text. -/
theorem handleDataStringLoop_cons (capacity : Nat) (c : Char) (rest : CString)
    (cursor : DataCursor) :
    ∃ bytes tail, units (c :: rest) = bytes :: units tail ∧
      (bytes.length = 1 ∨ bytes.length = 2) ∧ tail.length ≤ rest.length ∧
      handleDataStringLoop capacity (c :: rest) cursor =
        if cursor.currentSize ≥ capacity then (.fail .err, cursor)
        else handleDataStringLoop capacity tail (putAll cursor bytes) := by
  by_cases escape : c = '\\' ∧ rest ≠ []
  · obtain ⟨rfl, nonempty⟩ := escape
    obtain ⟨d, tail, rfl⟩ := List.exists_cons_of_ne_nil nonempty
    exact ⟨escapeBytes d, tail, rfl, escapeBytes_length d, by simp, rfl⟩
  · refine ⟨[charByte c], rest, ?_, Or.inl rfl, le_refl _, ?_⟩
    · rw [units]
      rintro d tail rfl rfl
      exact escape ⟨rfl, by simp⟩
    · rw [handleDataStringLoop]
      · rfl
      · rintro d tail rfl rfl
        exact escape ⟨rfl, by simp⟩

/-- The loop succeeds on a text whose bytes fit, and then it has stored them. -/
theorem handleDataStringLoop_extends (capacity : Nat) (text : CString) (cursor : DataCursor) :
    (cursor.currentSize + (units text).flatten.length ≤ capacity →
      (handleDataStringLoop capacity text cursor).1 = .ok) ∧
    ((handleDataStringLoop capacity text cursor).1 = .ok →
      cursor.Extends (handleDataStringLoop capacity text cursor).2 (units text).flatten) := by
  induction length : text.length using Nat.strong_induction_on generalizing text cursor with
  | _ n ih =>
      cases text with
      | nil => exact ⟨fun _ => rfl, fun _ => .refl cursor⟩
      | cons c rest =>
          obtain ⟨bytes, tail, unit, size, shorter, turn⟩ :=
            handleDataStringLoop_cons capacity c rest cursor
          obtain ⟨stays, stored⟩ := ih tail.length
            (by simp only [List.length_cons] at length; omega) tail (putAll cursor bytes) rfl
          rw [(putAll_eq cursor bytes).2] at stays
          rw [turn, unit, List.flatten_cons, List.length_append]
          by_cases full : cursor.currentSize ≥ capacity
          · rw [if_pos full]
            exact ⟨fun fits => by omega, by simp⟩
          · rw [if_neg full]
            exact ⟨fun fits => stays (by omega),
              fun accepted => (cursor.extends_putAll bytes).trans (stored accepted)⟩

theorem handleDataString_appends (args : CString) (cursor : DataCursor) (capacity : Nat) :
    cursor.Appends capacity (stringBytes args) (handleDataString args cursor capacity) := by
  unfold handleDataString stringBytes
  cases quotedText args with
  | none => exact DataCursor.appends_of_none (by simp)
  | some text =>
      obtain ⟨stays, stored⟩ := handleDataStringLoop_extends capacity text cursor
      rcases looped : handleDataStringLoop capacity text cursor with ⟨code, final⟩
      simp only [looped] at stays stored ⊢
      cases code with
      | fail failure =>
          refine ⟨?_, by simp⟩
          simp only [Option.map_some, Option.some.injEq, reduceCtorEq, false_iff, not_exists,
            not_and]
          rintro bytes rfl fits
          rw [List.length_append] at fits
          exact absurd (stays (by omega)) (by simp)
      | ok =>
          have extended := stored rfl
          have size := extended.size
          by_cases full : final.currentSize ≥ capacity
          · simp only [if_pos full]
            refine ⟨?_, by simp⟩
            simp only [Option.map_some, Option.some.injEq, reduceCtorEq, false_iff, not_exists,
              not_and]
            rintro bytes rfl fits
            rw [List.length_append, List.length_singleton] at fits
            omega
          · simp only [if_neg full]
            refine ⟨?_, ?_⟩
            · simp only [Option.map_some, Option.some.injEq, true_iff]
              refine ⟨_, rfl, ?_⟩
              rw [List.length_append, List.length_singleton]
              omega
            · intro bytes denoted _
              cases denoted
              exact extended.trans (final.extends_put 0)

theorem spaceFill_eq (tokens : List CString) :
    spaceFill tokens = (fillValue tokens).elim (.error .parseError) .ok := by
  cases tokens with
  | nil => rfl
  | cons token tokens =>
      rcases tokenValue_cases token with ⟨fill, scanned, read⟩ | ⟨failed, read⟩
      · simp only [spaceFill, fillValue, scanned, read]
        by_cases range : 0 ≤ fill ∧ fill ≤ 255
        · have inside : ¬ (fill < 0 ∨ fill > 255) := by omega
          simp [Option.filter, range, inside]
        · have outside : fill < 0 ∨ fill > 255 := by omega
          simp [Option.filter, range, outside]
      · rw [spaceFill, fillValue, read]
        split
        · rename_i fill scanned
          exact absurd scanned (failed fill)
        · rfl

theorem handleDataSpace_appends (build : Build) (args : CString) (cursor : DataCursor)
    (capacity : Nat) (starts : cursor.currentSize ≤ capacity) :
    cursor.Appends capacity (spaceBytes build args)
      (handleDataSpace build args cursor capacity) := by
  unfold handleDataSpace spaceBytes
  cases strtok ',' args with
  | nil => exact DataCursor.appends_of_none (by simp)
  | cons countToken rest =>
      rcases tokenValue_cases countToken with ⟨count, scanned, read⟩ | ⟨failed, read⟩
      · simp only [scanned, read, Option.bind_some]
        by_cases negative : count < 0
        · simp only [if_pos negative]
          exact DataCursor.appends_of_none (by simp)
        · simp only [if_neg negative, spaceFill_eq]
          cases fillValue rest with
          | none => exact DataCursor.appends_of_none (by simp)
          | some fill =>
              simp only [Option.elim_some, Option.map_some]
              by_cases full : build.toSize count > capacity - cursor.currentSize
              · simp only [if_pos full]
                refine ⟨?_, by simp⟩
                simp only [Option.some.injEq, reduceCtorEq, false_iff, not_exists, not_and]
                rintro bytes rfl fits
                rw [List.length_replicate] at fits
                omega
              · simp only [if_neg full]
                refine ⟨?_, ?_⟩
                · simp only [Option.some.injEq, true_iff]
                  refine ⟨_, rfl, ?_⟩
                  rw [List.length_replicate]
                  omega
                · intro bytes denoted _
                  cases denoted
                  exact cursor.extends_write _
      · simp only [read, Option.bind_none]
        exact DataCursor.appends_of_none (by simp)

/-- A call succeeds exactly when the directive denotes bytes that fit, and then
it has appended them. -/
theorem parseDataDirective_appends (build : Build) (directive args : CString)
    (cursor : DataCursor) (capacity : Nat) (starts : cursor.currentSize ≤ capacity) :
    cursor.Appends capacity (directiveBytes build directive args)
      (parseDataDirective build directive args cursor capacity) := by
  unfold parseDataDirective directiveBytes
  split
  · exact handleDataIntegerLoop_appends _ capacity _ cursor starts
  · split
    · exact handleDataString_appends args cursor capacity
    · split
      · exact handleDataSpace_appends build args cursor capacity starts
      · exact DataCursor.appends_of_none (by simp)

end RiscvAs
