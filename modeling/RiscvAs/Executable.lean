/-
From the options to the machine.

A program that is given to `main` as a file is written exactly when it is one that
can be assembled, and what a loader makes of the output runs as the program does.
-/

import RiscvAs.Driver
import RiscvAs.ElfLayout
import RiscvAs.ProgramMeaning

namespace RiscvAs

open Bytes (Byte)
open Rv32

theorem EmitStep.bss_eq {build : Build} {out out' : Output} {segment line : Stdio.CString}
    (step : EmitStep build out segment line out') : out'.ctx.bssSegment = out.ctx.bssSegment := by
  cases step <;> rfl

theorem emitContents_bss {build : Build} {out final : Output} {lines : List Content}
    (isContent : ∀ content ∈ lines, IsContentLine content.line)
    (ran : emitContents build out lines = (.ok, final)) (bounded : out.Bounded) :
    final.ctx.bssSegment = out.ctx.bssSegment :=
  (emitContents_invariant (fun current => current.ctx.bssSegment = out.ctx.bssSegment) isContent
    (fun _ _ _ _ _ same step => step.bss_eq.trans same) ran bounded rfl).2

section Accepted

variable {build : Build} {baseVaddr : Word} {source : List Char} {ctx1 ctx2 : AssemblerCtx}
  (accepted : Accepted build baseVaddr source ctx1 ctx2)

include accepted

theorem Accepted.bss_size : ctx2.bssSegment.size = 0 := by
  obtain ⟨scan, out, scanned, rfl, emitted, rfl, start⟩ := accepted.runs
  have isContent : ∀ content ∈ sourceContents source, IsContentLine content.line :=
    fun _ => sourceContents_isContentLine
  have kept := scanContents_ctx isContent (Nat.zero_le _) scanned
  have same := emitContents_bss isContent emitted start.bounded
  have none : scan.finish.bssSegment = initSegment := congrArg AssemblerCtx.bssSegment kept
  exact congrArg Segment.size (same.trans none)

theorem Accepted.shoff_small : fileShoff ctx2 < 2 ^ 32 := by
  obtain ⟨fragments, -, fits, links⟩ := accepted.readAs
  have textRoom := fits.text
  have dataRoom := fits.data
  have textSize := links.textSize
  have dataSize := links.dataSize
  have strings : shstrtab.length = 28 := rfl
  simp only [fileShoff, fileShstrtabOffset, fileDataOffset, fileTextOffset, ehdrSize, phdrSize,
    strings, RiscvAs.dataSize] at *
  omega

/-- What a loader reads in the file is what its program header describes. -/
theorem Accepted.loaded_loadElf (memory : Memory) :
    Loaded (programHeader ctx2 baseVaddr) (writer32 ctx2 baseVaddr)
      (loadElf (writer32 ctx2 baseVaddr) memory) := by
  have small := accepted.sizes.2.1
  have bss := accepted.bss_size
  have filesz : (programHeader ctx2 baseVaddr).filesz.toNat = fileShstrtabOffset ctx2 := by
    rw [programHeader, fillProgramHeader, BitVec.toNat_ofNat]
    exact Nat.mod_eq_of_lt small
  intro i inside byte read
  rw [filesz] at inside
  have offset : (programHeader ctx2 baseVaddr).offset.toNat = 0 := rfl
  rw [offset, Nat.zero_add] at read
  have vaddr : (programHeader ctx2 baseVaddr).vaddr = baseVaddr := rfl
  rw [vaddr, loadElf_writer32 (by omega) memory (by omega), if_pos inside, read]
  rfl

end Accepted

theorem writeOutput_written {host : Host} (stores : StdioStores host.stdio)
    (arguments : Arguments) {ctx : AssemblerCtx}
    (text : ctx.textSegment.size ≠ 0) :
    ∃ calls, writeOutput host arguments ctx =
        ⟨exitSuccess, none, some (arguments.outfile.getD "a.out".toList, calls)⟩ ∧
      writtenBytes calls = writer32 ctx arguments.baseVaddr := by
  obtain ⟨ok, written⟩ := nativeWriter32_ok stores ctx arguments.baseVaddr
  refine ⟨_, ?_, written⟩
  simp only [writeOutput, if_pos text, ok, ne_eq, not_true_eq_false, if_false]

section Main

variable {source : List Char} {program : Program} (meaningful : ∀ item ∈ program, item.Meaningful)
  (spelled : Spelled source program) (code : 0 < program.codeSize) {host : Host}
  {given : List GivenOption} {path : Stdio.CString} (named : lastArgument 'c' given = some path)
  (read : host.files path = some source)

include named read

theorem accepted_of_success {build : Build}
    (success : (main build host given).code = exitSuccess) : ∃ ctx1 ctx2,
      Accepted build (argparse given).baseVaddr source ctx1 ctx2 ∧
        main build host given = writeOutput host (argparse given) ctx2 := by
  have infile : (argparse given).infile = some path := by rw [argparse_eq, named]
  have allocates : host.allocates = true := by
    by_contra denied
    rw [main, if_neg denied] at success
    cases success
  cases assembled : assembleInput build host (argparse given) with
  | error message =>
      rw [(main_of_failure assembled).1] at success
      cases success
  | ok ctx =>
      obtain ⟨ctx1, accepted⟩ := (assembleInput_some infile read ctx).mp assembled
      exact ⟨ctx1, ctx, accepted, main_of_assembled allocates assembled⟩

include meaningful spelled code

/-- A run of `main` on a program succeeds exactly when its literals are in range and it fits,
if the library takes what it is given.  Whenever it succeeds and `fclose` does too, any memory
that the output is loaded into has the program at the entry point. -/
theorem main_implements :
    (host.allocates = true → StdioStores host.stdio →
      ((main .native host given).code = exitSuccess ↔
        (∀ item ∈ program, item.InRange) ∧ program.Fits)) ∧
    ((main .native host given).code = exitSuccess → ∃ calls,
      (main .native host given).output =
        some ((lastArgument 'o' given).getD "a.out".toList, calls) ∧
      (Closes host.stdio calls → ∀ file, Leaves host.stdio calls file → ∀ memory,
        program.Implements (elfHeaderOf file).entry (loadElf file memory))) := by
  have infile : (argparse given).infile = some path := by rw [argparse_eq, named]
  have outfile : (argparse given).outfile = lastArgument 'o' given := by rw [argparse_eq]
  have hasText : ∀ ctx1 ctx2, Accepted .native (argparse given).baseVaddr source ctx1 ctx2 →
      ctx2.textSegment.size ≠ 0 := by
    intro ctx1 ctx2 accepted
    have size := accepted.textSize meaningful spelled
    omega
  constructor
  · intro allocates stdio
    constructor
    · intro ok
      obtain ⟨ctx1, ctx2, accepted, -⟩ := accepted_of_success named read ok
      obtain ⟨inRange, fits, -⟩ := accepted.linksProgram meaningful spelled
      exact ⟨inRange, fits⟩
    · rintro ⟨inRange, fits⟩
      obtain ⟨ctx1, ctx2, accepted, -⟩ :=
        accepted_of_program meaningful spelled (argparse given).baseVaddr inRange fits
      have assembled := (assembleInput_some infile read ctx2).mpr ⟨ctx1, accepted⟩
      rw [main_of_assembled allocates assembled]
      exact (writeOutput_of_text (hasText ctx1 ctx2 accepted)).2.mpr
        (nativeWriter32_ok stdio ctx2 _).1
  · intro ok
    obtain ⟨ctx1, ctx2, accepted, ran⟩ := accepted_of_success named read ok
    obtain ⟨output, written⟩ := @writeOutput_of_text host (argparse given) ctx2
      (hasText ctx1 ctx2 accepted)
    rw [ran] at ok
    refine ⟨_, by rw [ran, output, outfile], fun closes file leaves memory => ?_⟩
    have whole := nativeWriter32_leaves host.stdio ctx2 (argparse given).baseVaddr leaves
    rw [whole.2.2 closes (written.mp ok), elfHeaderOf_writer32]
    exact implements_of_loaded meaningful spelled accepted (accepted.loaded_loadElf memory)

end Main

def wordHost : Host where
  files := fun _ => some wordSource
  stdio
    | _, .fopen => 1
    | _, .fwrite _ items => items
    | _, .fclose => 0
  allocates := true

theorem wordHost_stores : StdioStores wordHost.stdio :=
  ⟨fun _ => Int.one_ne_zero, fun _ _ _ => rfl⟩

theorem main_implements_word :
    ∃ calls, (main .native wordHost [.pk, .compile "word.s".toList]).output =
        some ("a.out".toList, calls) ∧
      ∀ file, Leaves wordHost.stdio calls file →
        ∀ memory, wordProgram.Implements (elfHeaderOf file).entry (loadElf file memory) := by
  obtain ⟨inRange, fits, -⟩ :=
    wordSource_accepted.linksProgram wordProgram_meaningful wordSource_spelled
  have runs := @main_implements _ _ wordProgram_meaningful wordSource_spelled (by decide) wordHost
    [.pk, .compile "word.s".toList] _ rfl rfl
  have success := (runs.1 rfl wordHost_stores).mpr ⟨inRange, fits⟩
  obtain ⟨calls, output, implements⟩ := runs.2 success
  exact ⟨calls, output, implements (main_closes (fun _ => rfl) success output)⟩

end RiscvAs
