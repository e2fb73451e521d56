/-
The program `main`: its arguments, the two passes, and the output file.

`argp_parse` calls `parse_opt` for one option after the other.  The output is
written with library calls that may fail; what they leave is then a front of the file
that was to be written.
-/

import RiscvAs.WriterOutput
import RiscvAs.Agreement

namespace RiscvAs

open Stdio (CString)
open Bytes (Byte)
open Rv32 (Word)

structure Message where
  error : AssemblerError
  message : String

def messages : List Message :=
  [ ⟨.ok, "OK"⟩,
    ⟨.fail .err, "ERR"⟩,
    ⟨.fail .registerValue, "32 bit registers can't hold such value"⟩,
    ⟨.fail .jumpNotImplemented, "jump is not implemented yet"⟩,
    ⟨.fail .unknownPseudo, "Unknown pseudo-instruction"⟩,
    ⟨.fail .invalidRegister, "Invalid register"⟩,
    ⟨.fail .invalidImmediate, "Invalid immediate value"⟩,
    ⟨.fail .parseError, "Failed to parse instruction"⟩,
    ⟨.fail .fileError, "Failed to open input file"⟩,
    ⟨.fail .unknownInstruction, "Unknown instruction"⟩,
    ⟨.fail .elfError, "Error while producing elf binary"⟩,
    ⟨.fail .nullError, "NULL pointer"⟩,
    ⟨.fail .symNotFound, "Symbol not found"⟩ ]

def assemblerErrorStr (err : AssemblerError) : String :=
  match messages.find? (fun message => message.error = err) with
  | some message => message.message
  | none => "No error message found!"

structure Arguments where
  infile : Option CString
  outfile : Option CString
  baseVaddr : Word

/-- The options of the table.  On any other argument, and on one of its own options,
`argp_parse` ends the process itself. -/
inductive GivenOption where
  | compile (file : CString)
  | output (file : CString)
  | pk

def GivenOption.key : GivenOption → Char
  | .compile _ => 'c'
  | .output _ => 'o'
  | .pk => 'p'

def GivenOption.arg : GivenOption → Option CString
  | .compile file => some file
  | .output file => some file
  | .pk => none

/-- `ARGP_ERR_UNKNOWN` is `none`. -/
def parseOpt (key : Char) (arg : Option CString) (args : Arguments) : Option Arguments :=
  match key with
  | 'c' => some { args with infile := arg }
  | 'o' => some { args with outfile := arg }
  | 'p' => some { args with baseVaddr := 0x00010000 }
  | _ => none

def defaultArguments : Arguments :=
  { infile := none, outfile := none, baseVaddr := 0x80000000 }

def argparse (given : List GivenOption) : Arguments :=
  given.foldl (fun args option => (parseOpt option.key option.arg args).getD args)
    defaultArguments

/-- What `main` runs on: files to read, the calls of `writer32`, and memory for the
arguments. -/
structure Host where
  files : CString → Option (List Char)
  stdio : Library StdioCall
  allocates : Bool

def exitSuccess : Nat := 0

def exitFailure : Nat := 1

/-- The exit code, the last message of `main`, and the calls for the file that was written. -/
structure Exit where
  code : Nat
  message : Option String
  output : Option (CString × List StdioCall)

def assembleInput (build : Build) (host : Host) (arguments : Arguments) :
    Except String AssemblerCtx :=
  match arguments.infile with
  | none => .ok (initCtx arguments.baseVaddr)
  | some infile =>
      let scanned := scanLabels build (host.files infile) (initCtx arguments.baseVaddr)
      if scanned.1 ≠ .ok then
        .error ("scan_labels() failed: " ++ assemblerErrorStr scanned.1)
      else
        let assembled := assembleFile build (host.files infile) scanned.2
        if assembled.1 ≠ .ok then
          .error ("assemble_file() failed: " ++ assemblerErrorStr assembled.1)
        else .ok assembled.2

/-- A file is written only where there is text. -/
def writeOutput (host : Host) (arguments : Arguments) (ctx : AssemblerCtx) : Exit :=
  if ctx.textSegment.size ≠ 0 then
    let filename := arguments.outfile.getD "a.out".toList
    let written := runCalls (nativeWriter32 host.stdio ctx arguments.baseVaddr)
    if written.1 ≠ .ok then
      { code := exitFailure
        message := some ("writer32() failed: " ++ assemblerErrorStr written.1)
        output := some (filename, written.2) }
    else { code := exitSuccess, message := none, output := some (filename, written.2) }
  else { code := exitSuccess, message := none, output := none }

/-- The RP2350 library is built without it; `build` is the width of the host's `long`. -/
def main (build : Build) (host : Host) (given : List GivenOption) : Exit :=
  if host.allocates then
    let arguments := argparse given
    match assembleInput build host arguments with
    | .error message => { code := exitFailure, message := some message, output := none }
    | .ok ctx => writeOutput host arguments ctx
  else { code := exitFailure, message := none, output := none }

def lastArgument (key : Char) (given : List GivenOption) : Option CString :=
  (given.filter (fun option => option.key = key)).getLast?.bind GivenOption.arg

def baseArgument (given : List GivenOption) : Word :=
  if given.any (fun option => option.key = 'p') then 0x00010000 else 0x80000000

theorem lastArgument_concat (key : Char) (given : List GivenOption) (option : GivenOption) :
    lastArgument key (given ++ [option]) =
      if option.key = key then option.arg else lastArgument key given := by
  rw [lastArgument, List.filter_append]
  by_cases same : option.key = key
  · rw [if_pos same, List.filter_singleton, decide_eq_true same]
    simp
  · rw [if_neg same, List.filter_singleton, decide_eq_false same]
    simp [lastArgument]

theorem baseArgument_concat (given : List GivenOption) (option : GivenOption) :
    baseArgument (given ++ [option]) =
      if option.key = 'p' then 0x00010000 else baseArgument given := by
  rw [baseArgument, List.any_append, List.any_cons, List.any_nil, Bool.or_false]
  by_cases same : option.key = 'p'
  · rw [if_pos same, decide_eq_true same, Bool.or_true, if_pos rfl]
  · rw [if_neg same, decide_eq_false same, Bool.or_false, baseArgument]

theorem argparse_eq (given : List GivenOption) :
    argparse given = ⟨lastArgument 'c' given, lastArgument 'o' given, baseArgument given⟩ := by
  induction given using List.reverseRecOn with
  | nil => rfl
  | append_singleton given option ih =>
      rw [argparse, List.foldl_append, ← argparse, ih, List.foldl_cons, List.foldl_nil,
        lastArgument_concat, lastArgument_concat, baseArgument_concat]
      cases option <;> rfl

/-! ### The output file -/

def writtenBytes (calls : List StdioCall) : List Byte :=
  calls.flatMap StdioCall.bytes

section Left

variable (library : Library StdioCall)

/-- Every `fwrite` returns the number of its items. -/
def TakesAll : List StdioCall → List StdioCall → Prop
  | _, [] => True
  | made, .fwrite bytes items :: calls =>
      library made (.fwrite bytes items) = items ∧
        TakesAll (made ++ [.fwrite bytes items]) calls
  | made, call :: calls => TakesAll (made ++ [call]) calls

/-- The stream is closed at the end, and `fclose` returns no error. -/
def Closes (calls : List StdioCall) : Prop :=
  ∃ before, calls = before ++ [.fclose] ∧ library before .fclose = 0

/-- What an output file that was opened can hold after the calls of `writer32`.  A stream
may keep what it was handed until it is closed, so the file has a front of it, and is only
known to have all of it when `fclose` returns no error.  An `fwrite` that returns fewer items
has lost some of its bytes. -/
structure Leaves (calls : List StdioCall) (file : List Byte) : Prop where
  front : file <+: writtenBytes calls
  whole : TakesAll library [] calls → Closes library calls → file = writtenBytes calls
  less : ¬ TakesAll library [] calls → file ≠ writtenBytes calls

/-- How a part of the program that has these bytes to write ends: with all of them handed to
the stream, or with a front of them and `ASSEMBLER_ELF_ERROR`. -/
inductive WriteResult (made calls : List StdioCall) (bytes : List Byte) :
    AssemblerError → Prop where
  | ok (taken : TakesAll library made calls) (written : writtenBytes calls = bytes)
      (closed : .fclose ∈ calls.getLast?) : WriteResult made calls bytes .ok
  | failed (front : writtenBytes calls <+: bytes) (lost : ¬ TakesAll library made calls) :
      WriteResult made calls bytes (.fail .elfError)

def Writes (program : Calling StdioCall AssemblerError) (bytes : List Byte) : Prop :=
  ∀ made, ∃ calls, (program made).2 = made ++ calls ∧
    WriteResult library made calls bytes (program made).1

variable {library}

theorem writes_close : Writes library (do
    let _ ← perform library .fclose
    return .ok) [] :=
  fun _ => ⟨[.fclose], rfl, .ok trivial rfl rfl⟩

variable {next : Calling StdioCall AssemblerError} {rest : List Byte}

theorem Writes.write (writes : Writes library next rest) (bytes : List Byte) (items : Nat) :
    Writes library (nativeWrite library bytes items next) (bytes ++ rest) := by
  intro made
  rw [nativeWrite, perform_bind]
  by_cases taken : library made (.fwrite bytes items) = items
  · obtain ⟨calls, ran, result⟩ := writes (made ++ [.fwrite bytes items])
    rw [if_neg (not_not.mpr taken)]
    refine ⟨.fwrite bytes items :: calls, by rw [ran, List.append_assoc]; rfl, ?_⟩
    generalize (next (made ++ [.fwrite bytes items])).1 = code at result ⊢
    have handed : writtenBytes (.fwrite bytes items :: calls) = bytes ++ writtenBytes calls :=
      List.flatMap_cons
    cases result with
    | ok takenRest written closed =>
        exact .ok ⟨taken, takenRest⟩ (by rw [handed, written])
          (List.mem_getLast?_cons closed)
    | failed front lost =>
        refine .failed ?_ (fun takesAll => lost takesAll.2)
        rw [handed]
        exact (List.prefix_append_right_inj bytes).mpr front
  · rw [if_pos taken]
    refine ⟨[.fwrite bytes items, .fclose], by simp [perform_bind, pure, StateT.pure], ?_⟩
    refine .failed ?_ (fun takesAll => taken takesAll.1)
    have handed : writtenBytes [.fwrite bytes items, .fclose] = bytes := by
      simp [writtenBytes, StdioCall.bytes]
    rw [handed]
    exact List.prefix_append bytes rest

theorem Writes.writeSegment (writes : Writes library next rest) (segment : Segment) :
    Writes library (nativeWriteSegment library segment next) (segment.bytes ++ rest) := by
  have length := segment.bytes_length
  unfold nativeWriteSegment
  by_cases empty : segment.size > 0
  · rw [if_pos empty]
    exact writes.write segment.bytes 1
  · rw [Nat.eq_zero_of_not_pos empty, List.length_eq_zero_iff] at length
    rw [if_neg empty, length, List.nil_append]
    exact writes

end Left

/-- How a run of `writer32` ends: it writes the file, or fails. -/
theorem nativeWriter32_result (library : Library StdioCall) (ctx : AssemblerCtx)
    (baseVaddr : Word) (opened : library [] .fopen ≠ 0) :
    WriteResult library [] (runCalls (nativeWriter32 library ctx baseVaddr)).2
      (writer32 ctx baseVaddr) (runCalls (nativeWriter32 library ctx baseVaddr)).1 := by
  have file := (((((@writes_close library).write ((sectionHeaders ctx baseVaddr).flatMap
    Elf32Shdr.bytes) shNumSections).write shstrtab 1).writeSegment ctx.dataSegment).writeSegment
      ctx.textSegment).write (programHeader ctx baseVaddr).bytes 1 |>.write
        (elfHeader ctx baseVaddr).bytes 1
  obtain ⟨calls, ran, result⟩ := file [.fopen]
  rw [runCalls, nativeWriter32, perform_bind, if_neg opened]
  rw [List.nil_append, ran]
  simp only [writer32, List.append_assoc, List.append_nil] at result ⊢
  generalize (nativeWrite library _ _ _ [StdioCall.fopen]).1 = code at result ⊢
  cases result with
  | ok taken written closed => exact .ok taken written (List.mem_getLast?_cons closed)
  | failed front lost => exact .failed front lost

theorem nativeWriter32_unopened {library : Library StdioCall} (ctx : AssemblerCtx)
    (baseVaddr : Word) (unopened : library [] .fopen = 0) :
    runCalls (nativeWriter32 library ctx baseVaddr) = (.fail .elfError, [.fopen]) := by
  rw [runCalls, nativeWriter32, perform_bind, if_pos unopened]
  rfl

section Result

variable (library : Library StdioCall) (ctx : AssemblerCtx) (baseVaddr : Word)

theorem nativeWriter32_code :
    (runCalls (nativeWriter32 library ctx baseVaddr)).1 = .ok ∨
      (runCalls (nativeWriter32 library ctx baseVaddr)).1 = .fail .elfError := by
  by_cases opened : library [] .fopen = 0
  · rw [nativeWriter32_unopened ctx baseVaddr opened]
    exact Or.inr rfl
  · have result := nativeWriter32_result library ctx baseVaddr opened
    generalize (runCalls (nativeWriter32 library ctx baseVaddr)).1 = code at result ⊢
    cases result with
    | ok => exact Or.inl rfl
    | failed => exact Or.inr rfl

theorem nativeWriter32_ok_iff :
    (runCalls (nativeWriter32 library ctx baseVaddr)).1 = .ok ↔
      library [] .fopen ≠ 0 ∧
        TakesAll library [] (runCalls (nativeWriter32 library ctx baseVaddr)).2 := by
  by_cases opened : library [] .fopen = 0
  · rw [nativeWriter32_unopened ctx baseVaddr opened]
    exact iff_of_false (fun ok => by cases ok) (fun both => both.1 opened)
  · have result := nativeWriter32_result library ctx baseVaddr opened
    generalize (runCalls (nativeWriter32 library ctx baseVaddr)).1 = code at result ⊢
    cases result with
    | ok taken => exact iff_of_true rfl ⟨opened, taken⟩
    | failed _ lost => exact iff_of_false (fun ok => by cases ok) (fun both => lost both.2)

/-- What a run of `writer32` leaves: a front of the file, less of it when the run fails, and
all of it when the run succeeds and `fclose` does too. -/
theorem nativeWriter32_leaves {file : List Byte}
    (leaves : Leaves library (runCalls (nativeWriter32 library ctx baseVaddr)).2 file) :
    file <+: writer32 ctx baseVaddr ∧
      (file = writer32 ctx baseVaddr →
        (runCalls (nativeWriter32 library ctx baseVaddr)).1 = .ok) ∧
      (Closes library (runCalls (nativeWriter32 library ctx baseVaddr)).2 →
        (runCalls (nativeWriter32 library ctx baseVaddr)).1 = .ok →
          file = writer32 ctx baseVaddr) := by
  by_cases opened : library [] .fopen = 0
  · rw [nativeWriter32_unopened ctx baseVaddr opened] at leaves ⊢
    obtain rfl : file = [] := List.prefix_nil.mp leaves.front
    refine ⟨List.nil_prefix, fun same => ?_, fun _ ok => by cases ok⟩
    have length := congrArg List.length same
    simp only [writer32, List.length_append, elfHeader_bytes_length, ehdrSize,
      List.length_nil] at length
    omega
  · have result := nativeWriter32_result library ctx baseVaddr opened
    generalize (runCalls (nativeWriter32 library ctx baseVaddr)).1 = code at result ⊢
    cases result with
    | ok taken written =>
        rw [← written]
        exact ⟨leaves.front, fun _ => rfl, fun closes _ => leaves.whole taken closes⟩
    | failed front lost =>
        refine ⟨leaves.front.trans front, fun same => ?_, fun _ ok => by cases ok⟩
        -- The calls have handed over no more than the file.
        rw [same] at leaves
        have whole := leaves.front.eq_of_length_le front.length_le
        exact absurd whole (leaves.less lost)

variable {library} in
theorem nativeWriter32_closed (succeeds : ∀ made, library made .fclose = 0)
    (ok : (runCalls (nativeWriter32 library ctx baseVaddr)).1 = .ok) :
    Closes library (runCalls (nativeWriter32 library ctx baseVaddr)).2 := by
  have opened := ((nativeWriter32_ok_iff library ctx baseVaddr).mp ok).1
  have result := nativeWriter32_result library ctx baseVaddr opened
  rw [ok] at result
  cases result with
  | ok _ _ closed =>
      obtain ⟨before, split⟩ := List.getLast?_eq_some_iff.mp closed
      exact ⟨before, split, succeeds before⟩

end Result

/-! ### What a run does -/

section Main

variable {build : Build} {host : Host} {given : List GivenOption}

theorem assembleInput_some {arguments : Arguments} {path : CString} {source : List Char}
    (infile : arguments.infile = some path) (read : host.files path = some source)
    (ctx : AssemblerCtx) :
    assembleInput build host arguments = .ok ctx ↔
      ∃ ctx1, Accepted build arguments.baseVaddr source ctx1 ctx := by
  unfold assembleInput
  rw [infile]
  simp only [read]
  constructor
  · intro assembled
    split at assembled
    · cases assembled
    · rename_i scanned
      split at assembled
      · cases assembled
      · rename_i ok
        cases assembled
        exact ⟨_, accepted_of_codes (not_not.mp scanned) (not_not.mp ok)⟩
  · rintro ⟨ctx1, accepted⟩
    rw [accepted.scanned]
    simp only [ne_eq, not_true_eq_false, if_false]
    rw [accepted.assembled]
    rfl

def InputAccepted (build : Build) (host : Host) (given : List GivenOption)
    (ctx : AssemblerCtx) : Prop :=
  ∃ path source ctx1, lastArgument 'c' given = some path ∧ host.files path = some source ∧
    Accepted build (baseArgument given) source ctx1 ctx

theorem assembleInput_ok_iff {ctx : AssemblerCtx} :
    assembleInput build host (argparse given) = .ok ctx ↔
      (lastArgument 'c' given = none ∧ ctx = initCtx (baseArgument given)) ∨
        InputAccepted build host given ctx := by
  rw [argparse_eq]
  cases infile : lastArgument 'c' given with
  | none =>
      constructor
      · intro assembled
        cases assembled
        exact Or.inl ⟨rfl, rfl⟩
      · rintro (⟨-, rfl⟩ | ⟨path, source, ctx1, named, -, -⟩)
        · rfl
        · rw [infile] at named
          cases named
  | some path =>
      cases read : host.files path with
      | none =>
          constructor
          · intro assembled
            simp [assembleInput, read, scanLabels] at assembled
          · rintro (⟨absent, -⟩ | ⟨path', source, ctx1, named, read', -⟩)
            · cases absent
            · rw [infile] at named
              cases named
              rw [read] at read'
              cases read'
      | some source =>
          rw [assembleInput_some rfl read]
          constructor
          · rintro ⟨ctx1, accepted⟩
            exact Or.inr ⟨path, source, ctx1, infile, read, accepted⟩
          · rintro (⟨absent, -⟩ | ⟨path', source', ctx1, named, read', accepted⟩)
            · cases absent
            · rw [infile] at named
              cases named
              rw [read] at read'
              cases read'
              exact ⟨ctx1, accepted⟩

theorem main_of_failure {message : String}
    (failed : assembleInput build host (argparse given) = .error message) :
    (main build host given).code = exitFailure ∧ (main build host given).output = none := by
  unfold main
  split
  · simp only [failed, and_self]
  · exact ⟨rfl, rfl⟩

theorem main_of_assembled (allocates : host.allocates = true) {ctx : AssemblerCtx}
    (assembled : assembleInput build host (argparse given) = .ok ctx) :
    main build host given = writeOutput host (argparse given) ctx := by
  simp only [main, allocates, if_true, assembled]

theorem writeOutput_of_empty {arguments : Arguments} {ctx : AssemblerCtx}
    (empty : ctx.textSegment.size = 0) :
    writeOutput host arguments ctx = ⟨exitSuccess, none, none⟩ :=
  if_neg (not_not.mpr empty)

theorem writeOutput_of_text {arguments : Arguments} {ctx : AssemblerCtx}
    (text : ctx.textSegment.size ≠ 0) :
    (writeOutput host arguments ctx).output = some (arguments.outfile.getD "a.out".toList,
        (runCalls (nativeWriter32 host.stdio ctx arguments.baseVaddr)).2) ∧
      ((writeOutput host arguments ctx).code = exitSuccess ↔
        (runCalls (nativeWriter32 host.stdio ctx arguments.baseVaddr)).1 = .ok) := by
  unfold writeOutput
  rw [if_pos text]
  by_cases ok : (runCalls (nativeWriter32 host.stdio ctx arguments.baseVaddr)).1 = .ok
  · simp only [ok, ne_eq, not_true_eq_false, if_false, and_self]
  · simp only [ok, ne_eq, not_false_eq_true, if_true, iff_false, true_and]
    decide

/-- The output of a run that succeeds is closed, if `fclose` never fails. -/
theorem main_closes {filename : CString} {calls : List StdioCall}
    (succeeds : ∀ made, host.stdio made .fclose = 0)
    (success : (main build host given).code = exitSuccess)
    (written : (main build host given).output = some (filename, calls)) :
    Closes host.stdio calls := by
  unfold main at success written
  split at success
  · rename_i allocates
    rw [if_pos allocates] at written
    simp only at success written
    cases assembled : assembleInput build host (argparse given) with
    | error message =>
        rw [assembled] at success
        cases success
    | ok ctx =>
        rw [assembled] at success written
        simp only at success written
        by_cases empty : ctx.textSegment.size = 0
        · rw [writeOutput_of_empty empty] at written
          cases written
        · obtain ⟨output, code⟩ := @writeOutput_of_text host (argparse given) ctx empty
          rw [output] at written
          cases written
          exact nativeWriter32_closed _ _ succeeds (code.mp success)
  · cases success

end Main

end RiscvAs
