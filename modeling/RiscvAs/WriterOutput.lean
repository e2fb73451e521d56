/-
The output half of `writer32` in both builds, call by call.

The native build writes the file with `fopen`, `fwrite` and `fclose`; with
`PICO_BUILD` the segments go through the `pico_*` calls of the littlefs
library.  A run is the list of library calls it makes, and the result of a call
may depend on all the calls before it.
-/

import RiscvAs.Writer

namespace RiscvAs

open Bytes (Byte)
open Rv32 (Word)

abbrev Calling (Call : Type) := StateM (List Call)

/-- What a library returns for a call, after the calls made before it. -/
abbrev Library (Call : Type) := List Call → Call → Int

def perform {Call : Type} (library : Library Call) (call : Call) : Calling Call Int :=
  fun made => (library made call, made ++ [call])

inductive StdioCall where
  | fopen
  | fwrite (bytes : List Byte) (items : Nat)
  | fclose
  deriving DecidableEq

inductive PicoCall where
  | mount
  | open
  | write (bytes : List Byte)
  | close
  | unmount
  deriving DecidableEq

/-- `fwrite(…) != items`, closing the file on failure. -/
def nativeWrite (library : Library StdioCall) (bytes : List Byte) (items : Nat)
    (next : Calling StdioCall AssemblerError) : Calling StdioCall AssemblerError := do
  let written ← perform library (.fwrite bytes items)
  if written ≠ items then do
    let _ ← perform library .fclose
    return .fail .elfError
  else next

def nativeWriteSegment (library : Library StdioCall) (segment : Segment)
    (next : Calling StdioCall AssemblerError) : Calling StdioCall AssemblerError :=
  if segment.size > 0 then nativeWrite library segment.bytes 1 next else next

/-- `fopen` returns a null pointer as zero. -/
def nativeWriter32 (library : Library StdioCall) (ctx : AssemblerCtx) (baseVaddr : Word) :
    Calling StdioCall AssemblerError := do
  let fp ← perform library .fopen
  if fp = 0 then return .fail .elfError
  else
    nativeWrite library (elfHeader ctx baseVaddr).bytes 1 <|
    nativeWrite library (programHeader ctx baseVaddr).bytes 1 <|
    nativeWriteSegment library ctx.textSegment <|
    nativeWriteSegment library ctx.dataSegment <|
    nativeWrite library shstrtab 1 <|
    nativeWrite library ((sectionHeaders ctx baseVaddr).flatMap Elf32Shdr.bytes) shNumSections <| do
      let _ ← perform library .fclose
      return .ok

def lfsErrOk : Int := 0

/-- `pico_write(…) != 1`, closing the file on failure. -/
def picoWriteSegment (library : Library PicoCall) (segment : Segment)
    (next : Calling PicoCall AssemblerError) : Calling PicoCall AssemblerError :=
  if segment.size > 0 then do
    let written ← perform library (.write segment.bytes)
    if written ≠ 1 then do
      let _ ← perform library .close
      return .fail .elfError
    else next
  else next

def picoWriter32 (library : Library PicoCall) (ctx : AssemblerCtx) :
    Calling PicoCall AssemblerError := do
  let mounted ← perform library .mount
  if mounted ≠ lfsErrOk then return .fail .elfError
  else do
    let fp ← perform library .open
    if fp < 0 then return .fail .elfError
    else
      picoWriteSegment library ctx.textSegment <|
      picoWriteSegment library ctx.dataSegment <| do
        let _ ← perform library .close
        let _ ← perform library .unmount
        return .ok

def runCalls {Call : Type} (program : Calling Call AssemblerError) : AssemblerError × List Call :=
  program []

def StdioCall.bytes : StdioCall → List Byte
  | .fwrite bytes _ => bytes
  | _ => []

def PicoCall.bytes : PicoCall → List Byte
  | .write bytes => bytes
  | _ => []

/-- The file is opened, and every `fwrite` takes all its items; `fclose` may still fail to
store what was taken. -/
structure StdioStores (library : Library StdioCall) : Prop where
  opens : ∀ made, library made .fopen ≠ 0
  stores : ∀ made bytes items, library made (.fwrite bytes items) = items

/-- Mount and open succeed, and a write returns the number of bytes that it has stored,
which is all of them. -/
structure LittlefsStores (library : Library PicoCall) : Prop where
  mounts : ∀ made, library made .mount = lfsErrOk
  opens : ∀ made, 0 ≤ library made .open
  stores : ∀ made bytes, library made (.write bytes) = bytes.length

section Runs

variable {Call : Type} (library : Library Call)

theorem perform_bind {α : Type} (call : Call) (next : Int → Calling Call α) (made : List Call) :
    (perform library call >>= next) made = next (library made call) (made ++ [call]) := rfl

end Runs

section Native

variable {library : Library StdioCall} (stores : StdioStores library)

include stores

theorem nativeWrite_stored (bytes : List Byte) (items : Nat)
    (next : Calling StdioCall AssemblerError) (made : List StdioCall) :
    nativeWrite library bytes items next made = next (made ++ [.fwrite bytes items]) := by
  rw [nativeWrite, perform_bind, stores.stores, if_neg (not_not.mpr rfl)]

theorem nativeWriteSegment_stored (segment : Segment) (next : Calling StdioCall AssemblerError)
    (made : List StdioCall) :
    ∃ calls : List StdioCall, calls.flatMap StdioCall.bytes = segment.bytes ∧
      nativeWriteSegment library segment next made = next (made ++ calls) := by
  unfold nativeWriteSegment
  by_cases empty : segment.size > 0
  · refine ⟨[.fwrite segment.bytes 1], ?_, ?_⟩
    · simp [StdioCall.bytes]
    · rw [if_pos empty, nativeWrite_stored stores]
  · refine ⟨[], ?_, ?_⟩
    · have length := segment.bytes_length
      rw [Nat.eq_zero_of_not_pos empty, List.length_eq_zero_iff] at length
      rw [length, List.flatMap_nil]
    · rw [if_neg empty, List.append_nil]

/-- When every call succeeds, the native build writes the file of `writer32`. -/
theorem nativeWriter32_ok (ctx : AssemblerCtx) (baseVaddr : Word) :
    (runCalls (nativeWriter32 library ctx baseVaddr)).1 = .ok ∧
      (runCalls (nativeWriter32 library ctx baseVaddr)).2.flatMap StdioCall.bytes =
        writer32 ctx baseVaddr := by
  rw [runCalls, nativeWriter32, perform_bind, if_neg (stores.opens _), nativeWrite_stored stores,
    nativeWrite_stored stores]
  obtain ⟨text, textBytes, ran⟩ := nativeWriteSegment_stored stores ctx.textSegment _ _
  rw [ran]
  obtain ⟨data, dataBytes, ran⟩ := nativeWriteSegment_stored stores ctx.dataSegment _ _
  rw [ran, nativeWrite_stored stores, nativeWrite_stored stores]
  refine ⟨rfl, ?_⟩
  simp only [perform_bind, pure, StateT.pure, List.flatMap_append, textBytes, dataBytes,
    List.flatMap_cons, List.flatMap_nil, StdioCall.bytes, List.nil_append, List.append_nil,
    writer32, List.append_assoc]

end Native

/-- Whatever the calls return, a file that the native build has opened is closed. -/
theorem nativeWriter32_closes (library : Library StdioCall) (ctx : AssemblerCtx)
    (baseVaddr : Word) (opened : library [] .fopen ≠ 0) :
    .fclose ∈ (runCalls (nativeWriter32 library ctx baseVaddr)).2 := by
  have write : ∀ bytes items (next : Calling StdioCall AssemblerError),
      (∀ made, .fclose ∈ (next made).2) →
        ∀ made, .fclose ∈ (nativeWrite library bytes items next made).2 := by
    intro bytes items next closes made
    rw [nativeWrite, perform_bind]
    split
    · simp [perform_bind, pure, StateT.pure]
    · exact closes _
  have writeSegment : ∀ segment (next : Calling StdioCall AssemblerError),
      (∀ made, .fclose ∈ (next made).2) →
        ∀ made, .fclose ∈ (nativeWriteSegment library segment next made).2 := by
    intro segment next closes made
    rw [nativeWriteSegment]
    split
    · exact write _ _ next closes made
    · exact closes made
  rw [runCalls, nativeWriter32, perform_bind, if_neg opened]
  apply write
  apply write
  apply writeSegment
  apply writeSegment
  apply write
  apply write
  intro made
  simp [perform_bind, pure, StateT.pure]

/-! ### The RP2350 build against the native one -/

/-- After a successful mount, the file that was opened is closed and the file system is
unmounted. -/
structure Released (library : Library PicoCall) (calls : List PicoCall) : Prop where
  closed : 0 ≤ library [.mount] .open → .close ∈ calls
  unmounted : .unmount ∈ calls

/-- With the results of this library, the RP2350 build stores what the native build stores of
the segments, and gives back what it has acquired. -/
structure StoresLikeNative (ctx : AssemblerCtx) (baseVaddr : Word) (library : Library PicoCall) :
    Prop where
  succeeds : LittlefsStores library → ∀ native, StdioStores native →
    (runCalls (picoWriter32 library ctx)).1 = .ok ∧
      (runCalls (nativeWriter32 native ctx baseVaddr)).1 = .ok ∧
      (runCalls (picoWriter32 library ctx)).2.flatMap PicoCall.bytes =
        (((runCalls (nativeWriter32 native ctx baseVaddr)).2.flatMap StdioCall.bytes).drop
          fileTextOffset).take (ctx.textSegment.size + ctx.dataSegment.size)
  released : library [] .mount = lfsErrOk →
    Released library (runCalls (picoWriter32 library ctx)).2

def segmentCalls (segment : Segment) : List PicoCall :=
  if segment.size > 0 then [.write segment.bytes] else []

/-- Nothing is to be written, or the call that writes returns one. -/
def WritesOne (library : Library PicoCall) (made : List PicoCall) (segment : Segment) : Prop :=
  segment.size = 0 ∨ library made (.write segment.bytes) = 1

structure WritesThrough (library : Library PicoCall) (ctx : AssemblerCtx) : Prop where
  opens : 0 ≤ library [.mount] .open
  text : WritesOne library [.mount, .open] ctx.textSegment
  data : WritesOne library ([.mount, .open] ++ segmentCalls ctx.textSegment) ctx.dataSegment

theorem segmentCalls_bytes (segment : Segment) :
    (segmentCalls segment).flatMap PicoCall.bytes = segment.bytes := by
  unfold segmentCalls
  split
  · simp [PicoCall.bytes]
  · rename_i empty
    have length := segment.bytes_length
    rw [Nat.eq_zero_of_not_pos empty, List.length_eq_zero_iff] at length
    rw [length, List.flatMap_nil]

section Pico

variable {library : Library PicoCall} {ctx : AssemblerCtx} {segment : Segment}
  {made : List PicoCall}

theorem picoWriteSegment_of_one (written : WritesOne library made segment)
    (next : Calling PicoCall AssemblerError) :
    picoWriteSegment library segment next made = next (made ++ segmentCalls segment) := by
  unfold picoWriteSegment segmentCalls
  by_cases empty : segment.size > 0
  · have one := written.resolve_left (Nat.ne_of_gt empty)
    rw [if_pos empty, if_pos empty, perform_bind, one, if_neg (not_not.mpr rfl)]
  · rw [if_neg empty, if_neg empty, List.append_nil]

theorem picoWriteSegment_of_other (failed : ¬ WritesOne library made segment)
    (next : Calling PicoCall AssemblerError) :
    picoWriteSegment library segment next made =
      (.fail .elfError, made ++ [.write segment.bytes, .close]) := by
  rw [WritesOne, not_or] at failed
  rw [picoWriteSegment, if_pos (Nat.pos_of_ne_zero failed.1), perform_bind, if_pos failed.2,
    perform_bind, List.append_assoc]
  rfl

theorem picoWriter32_of_mount (mounted : library [] .mount = lfsErrOk)
    (opens : 0 ≤ library [.mount] .open) :
    runCalls (picoWriter32 library ctx) =
      picoWriteSegment library ctx.textSegment
        (picoWriteSegment library ctx.dataSegment (do
          let _ ← perform library .close
          let _ ← perform library .unmount
          return .ok)) [.mount, .open] := by
  rw [runCalls, picoWriter32, perform_bind, mounted, if_neg (not_not.mpr rfl), perform_bind,
    List.nil_append, if_neg (Int.not_lt.mpr opens)]
  rfl

theorem picoWriter32_of_writes (mounted : library [] .mount = lfsErrOk)
    (writes : WritesThrough library ctx) :
    runCalls (picoWriter32 library ctx) =
      (.ok, [.mount, .open] ++ segmentCalls ctx.textSegment ++ segmentCalls ctx.dataSegment ++
        [.close, .unmount]) := by
  rw [picoWriter32_of_mount mounted writes.opens, picoWriteSegment_of_one writes.text,
    picoWriteSegment_of_one writes.data, perform_bind, perform_bind]
  simp [pure, StateT.pure]

/-- A failure after the mount leaves the file system mounted. -/
theorem picoWriter32_of_failure (mounted : library [] .mount = lfsErrOk)
    (failed : ¬ WritesThrough library ctx) :
    (runCalls (picoWriter32 library ctx)).1 = .fail .elfError ∧
      .unmount ∉ (runCalls (picoWriter32 library ctx)).2 := by
  by_cases opens : 0 ≤ library [.mount] .open
  · rw [picoWriter32_of_mount mounted opens]
    by_cases text : WritesOne library [.mount, .open] ctx.textSegment
    · have data : ¬ WritesOne library ([.mount, .open] ++ segmentCalls ctx.textSegment)
          ctx.dataSegment := fun data => failed ⟨opens, text, data⟩
      rw [picoWriteSegment_of_one text, picoWriteSegment_of_other data]
      refine ⟨rfl, ?_⟩
      unfold segmentCalls
      split <;> simp
    · rw [picoWriteSegment_of_other text]
      exact ⟨rfl, by simp⟩
  · rw [runCalls, picoWriter32, perform_bind, mounted, if_neg (not_not.mpr rfl), perform_bind,
      List.nil_append, if_pos (Int.not_le.mp opens)]
    exact ⟨rfl, by simp [pure, StateT.pure]⟩

/-- The segments are stored in the file at `fileTextOffset`, one after the other. -/
theorem writer32_segments (ctx : AssemblerCtx) (baseVaddr : Word) :
    ((writer32 ctx baseVaddr).drop fileTextOffset).take
      (ctx.textSegment.size + ctx.dataSegment.size) =
        ctx.textSegment.bytes ++ ctx.dataSegment.bytes := by
  have headers : ((elfHeader ctx baseVaddr).bytes ++
      (programHeader ctx baseVaddr).bytes).length = fileTextOffset := by
    rw [List.length_append, elfHeader_bytes_length, programHeader_bytes_length]
    rfl
  have length : (ctx.textSegment.bytes ++ ctx.dataSegment.bytes).length =
      ctx.textSegment.size + ctx.dataSegment.size := by
    rw [List.length_append, Segment.bytes_length, Segment.bytes_length]
  rw [writer32, List.append_assoc, List.append_assoc, List.append_assoc, ← headers,
    List.drop_left, ← List.append_assoc ctx.textSegment.bytes, ← length, List.take_left]

end Pico

/-- The RP2350 build behaves as claimed exactly when the mount fails, or when the open
succeeds and every write that is made returns one. -/
theorem storesLikeNative_iff (ctx : AssemblerCtx) (baseVaddr : Word)
    (library : Library PicoCall) :
    StoresLikeNative ctx baseVaddr library ↔
      library [] .mount ≠ lfsErrOk ∨ WritesThrough library ctx := by
  constructor
  · intro stores
    by_cases mounted : library [] .mount = lfsErrOk
    · right
      by_contra failed
      exact (picoWriter32_of_failure mounted failed).2 (stores.released mounted).unmounted
    · exact Or.inl mounted
  · intro either
    constructor
    · intro littlefs native stdio
      have mounted := littlefs.mounts []
      have writes := either.resolve_left (not_not.mpr mounted)
      obtain ⟨nativeOk, file⟩ := nativeWriter32_ok stdio ctx baseVaddr
      rw [file, writer32_segments, picoWriter32_of_writes mounted writes]
      refine ⟨rfl, nativeOk, ?_⟩
      simp [segmentCalls_bytes, PicoCall.bytes]
    · intro mounted
      have writes := either.resolve_left (not_not.mpr mounted)
      rw [picoWriter32_of_writes mounted writes]
      exact ⟨fun _ => by simp, by simp⟩

/-- With a library that returns the number of bytes it has stored, that is a matter of the
sizes. -/
theorem picoWriter32_ok_iff {library : Library PicoCall} (littlefs : LittlefsStores library)
    (ctx : AssemblerCtx) :
    (runCalls (picoWriter32 library ctx)).1 = .ok ↔
      ctx.textSegment.size ≤ 1 ∧ ctx.dataSegment.size ≤ 1 := by
  have one : ∀ made segment, WritesOne library made segment ↔ segment.size ≤ 1 := by
    intro made segment
    rw [WritesOne, littlefs.stores, Segment.bytes_length]
    omega
  have through : WritesThrough library ctx ↔
      ctx.textSegment.size ≤ 1 ∧ ctx.dataSegment.size ≤ 1 := by
    constructor
    · intro writes
      exact ⟨(one _ _).mp writes.text, (one _ _).mp writes.data⟩
    · intro sizes
      exact ⟨littlefs.opens _, (one _ _).mpr sizes.1, (one _ _).mpr sizes.2⟩
  rw [← through]
  constructor
  · intro ok
    by_contra failed
    rw [(picoWriter32_of_failure (littlefs.mounts []) failed).1] at ok
    cases ok
  · intro writes
    rw [picoWriter32_of_writes (littlefs.mounts []) writes]

def exampleLittlefs : Library PicoCall
  | _, .write bytes => bytes.length
  | _, _ => 0

def oneWordCtx : AssemblerCtx :=
  { initCtx 0x80000000 with textSegment := { initSegment with size := 4 } }

theorem oneWord_not_storesLikeNative :
    (runCalls (picoWriter32 exampleLittlefs oneWordCtx)).1 = .fail .elfError ∧
      ¬ StoresLikeNative oneWordCtx 0x80000000 exampleLittlefs := by
  refine ⟨by decide, ?_⟩
  intro stores
  have unmounted := (stores.released rfl).unmounted
  revert unmounted
  decide

end RiscvAs
