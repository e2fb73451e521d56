/-
The option for another base address.

Two runs of `main` with the same input and the same output file do the same, up to the
address that their images are linked at.
-/

import RiscvAs.Executable
import RiscvAs.WrittenImage
import RiscvAs.PositionIndependence

namespace RiscvAs

open Rv32 (Word)

section Input

variable {build : Build} {host : Host} {arguments arguments' : Arguments}

theorem assembleInput_rebase (input : arguments'.infile = arguments.infile) :
    assembleInput build host arguments' =
      (assembleInput build host arguments).map (AssemblerCtx.rebase arguments'.baseVaddr) := by
  unfold assembleInput
  rw [input]
  cases arguments.infile with
  | none => rfl
  | some path =>
      have scanned : scanLabels build (host.files path) (initCtx arguments'.baseVaddr) =
          ((scanLabels build (host.files path) (initCtx arguments.baseVaddr)).1,
            (scanLabels build (host.files path) (initCtx arguments.baseVaddr)).2.rebase
              arguments'.baseVaddr) := by
        cases host.files path with
        | none => rfl
        | some source => exact scanLabels_rebase build source _ (initCtx arguments.baseVaddr)
      have assembled : ∀ ctx : AssemblerCtx,
          assembleFile build (host.files path) (ctx.rebase arguments'.baseVaddr) =
            ((assembleFile build (host.files path) ctx).1,
              (assembleFile build (host.files path) ctx).2.rebase arguments'.baseVaddr) := by
        intro ctx
        cases host.files path with
        | none => rfl
        | some source => exact assembleFile_rebase build source _ ctx
      simp only [scanned, assembled]
      split
      · rfl
      · split <;> rfl

end Input

section Runs

variable {build : Build} {host : Host} (stores : StdioStores host.stdio)

include stores

/-- Two runs for the same input and output files end alike, and their images differ in the base
address only. -/
theorem main_rebase {given given' : List GivenOption}
    (input : lastArgument 'c' given' = lastArgument 'c' given)
    (output : lastArgument 'o' given' = lastArgument 'o' given) :
    (main build host given').code = (main build host given).code ∧
      (main build host given').message = (main build host given).message ∧
      ((main build host given').output = none ↔ (main build host given).output = none) ∧
      ∀ filename calls, (main build host given).output = some (filename, calls) →
        ∃ calls' image, (main build host given').output = some (filename, calls') ∧
          readImage (writtenBytes calls) = some image ∧
          readImage (writtenBytes calls') =
            some { image with baseVaddr := baseArgument given' } := by
  have infile : (argparse given').infile = (argparse given).infile := by
    rw [argparse_eq, argparse_eq, input]
  have outfile : (argparse given').outfile = (argparse given).outfile := by
    rw [argparse_eq, argparse_eq, output]
  have base : (argparse given').baseVaddr = baseArgument given' := by rw [argparse_eq]
  have rebased := @assembleInput_rebase build host _ _ infile
  cases allocates : host.allocates with
  | false => simp [main, allocates]
  | true =>
      cases assembled : assembleInput build host (argparse given) with
      | error message =>
          rw [assembled] at rebased
          have failed : assembleInput build host (argparse given') = .error message := rebased
          simp [main, allocates, assembled, failed]
      | ok ctx =>
          rw [assembled] at rebased
          rw [main_of_assembled allocates assembled, main_of_assembled allocates rebased]
          by_cases text : ctx.textSegment.size = 0
          · rw [writeOutput_of_empty text, writeOutput_of_empty (by exact text)]
            simp
          · obtain ⟨calls, written, bytes⟩ := writeOutput_written stores (argparse given) text
            obtain ⟨calls', written', bytes'⟩ := writeOutput_written stores (argparse given')
              (show (ctx.rebase (argparse given').baseVaddr).textSegment.size ≠ 0 from text)
            have small : fileShoff ctx < 2 ^ 32 ∧ ctx.bssSegment.size < 2 ^ 32 := by
              rcases assembleInput_ok_iff.mp assembled with ⟨-, rfl⟩ | accepted
              · exact absurd rfl text
              · obtain ⟨path, source, ctx1, -, -, accepted⟩ := accepted
                exact ⟨accepted.shoff_small, by rw [accepted.bss_size]; decide⟩
            rw [written, written']
            refine ⟨rfl, rfl, by simp, fun filename made opened => ?_⟩
            cases opened
            refine ⟨calls', ctx.image (argparse given).baseVaddr, by rw [outfile], ?_, ?_⟩
            · rw [bytes, readImage_of_small small.1 small.2]
            · rw [bytes', readImage_of_small (by exact small.1) (by exact small.2), base]
              rfl

end Runs

theorem main_rebase_word :
    ∃ calls image calls',
      (main .native wordHost [.compile "word.s".toList]).output =
        some ("a.out".toList, calls) ∧
      readImage (writtenBytes calls) = some image ∧
      (main .native wordHost [.pk, .compile "word.s".toList]).output =
        some ("a.out".toList, calls') ∧
      readImage (writtenBytes calls') =
        some { image with baseVaddr := 0x00010000 } := by
  have assembled : assembleInput .native wordHost (argparse [.compile "word.s".toList]) =
      .ok wordAssembled :=
    (assembleInput_some rfl rfl wordAssembled).mpr ⟨_, wordSource_accepted⟩
  have text : wordAssembled.textSegment.size ≠ 0 := by decide +kernel
  obtain ⟨calls, written, -⟩ := writeOutput_written wordHost_stores
    (argparse [.compile "word.s".toList]) text
  have ran : (main .native wordHost [.compile "word.s".toList]).output =
      some ("a.out".toList, calls) := by
    rw [main_of_assembled rfl assembled, written]
    rfl
  obtain ⟨calls', image, ran', read, read'⟩ := (@main_rebase .native wordHost wordHost_stores
    [.compile "word.s".toList] [.pk, .compile "word.s".toList] rfl rfl).2.2.2 _ _ ran
  exact ⟨calls, image, calls', ran, read, ran', read'⟩

end RiscvAs
