/-
The two passes over a source file: `scan_labels` and `assemble_file` of
`src/instruction.c`, with the line helpers of `src/utils.c`.

Both passes read the file by `fgets`, trim each line, skip blank and comment
lines and let a line that begins with a dot name the current segment; what they
do with the other lines differs, so the walk is one definition with that step as
a parameter.  A file is its contents, or `none` when it cannot be opened.
-/

import RiscvAs.Loop
import RiscvAs.Segment

namespace RiscvAs

open Stdio
open Rv32 (Word)

def stringTrimLeft (s : CString) : CString :=
  skipBlanks s

def stringTrimRight (s : CString) : CString :=
  s.rdropWhile isspace

def stringTrim (s : CString) : CString :=
  if s = [] then s else stringTrimRight (stringTrimLeft s)

def isIgnorableLine (s : CString) : Bool :=
  match skipBlanks s with
  | [] => true
  | c :: _ => c = '#'

/-- One turn of the `fgets` loop of a pass: the state is the current segment
name and what the pass keeps. -/
def sourceLine {σ : Type} (process : CString → σ → CString → AssemblerError × σ)
    (state : CString × σ) (buffer : CString) : AssemblerError × (CString × σ) :=
  let line := stringTrim buffer
  if isIgnorableLine line then (.ok, state)
  else
    match line with
    | '.' :: name => (.ok, (snprintf lineBufLen name, state.2))
    | _ =>
        let processed := process state.1 state.2 line
        (processed.1, (state.1, processed.2))

def assembleLines (build : Build) (state : CString × Output) (lines : List CString) :
    AssemblerError × (CString × Output) :=
  Loop.run .ok (sourceLine (processAssemblyLine build)) state lines

def assembleStart (ctx : AssemblerCtx) : CString × Output :=
  ([], { ctx := ctx, textOffset := 0, dataOffset := 0 })

def assembleFile (build : Build) (file : Option (List Char)) (ctx : AssemblerCtx) :
    AssemblerError × AssemblerCtx :=
  match file with
  | none => (.fail .fileError, ctx)
  | some source =>
      let ended := assembleLines build (assembleStart ctx) (fgetsLines lineBufLen source)
      let out := ended.2.2
      (ended.1,
        { out.ctx with
          textSegment := { out.ctx.textSegment with size := out.textOffset }
          dataSegment := { out.ctx.dataSegment with size := out.dataOffset } })

/-- What the first pass works on: the context and two `uint32_t` offsets. -/
structure Scan where
  ctx : AssemblerCtx
  textOffset : Word
  dataOffset : Word

def scanLabel (segment : CString) (scan : Scan) (label : CString) :
    Except Failure Scan :=
  if isText segment then insertAt scan.textOffset .segmentText
  else if segment = "data".toList then insertAt scan.dataOffset .segmentData
  else .error .err
where
  insertAt (address : Word) (type : SymType) : Except Failure Scan :=
    match symtableInsert scan.ctx.table (label.take (labelLen - 1)) address with
    | none => .error .err
    | some table => .ok { scan with ctx := { scan.ctx with table := table.setLastType type } }

/-- `temp_data`, whose bytes are never read. -/
def tempData : Bytes.Buffer := fun _ => 0

/-- `" %63s"` -/
def formatScanName : List Directive :=
  [.blank, .token (some (nameLen - 1))]

def scanText (build : Build) (scan : Scan) (p : CString) : AssemblerError × Scan :=
  match sscanf formatScanName p with
  | [.str name] =>
      match findInstruction name with
      | none => (.fail .unknownInstruction, scan)
      | some instr =>
          if instr.type = .P then
            let currentPc := getTextVaddr scan.ctx.baseVaddr + scan.textOffset
            match expandPseudoInstr build scan.ctx instr p currentPc with
            | .error e => (.fail e, scan)
            | .ok expansion =>
                (.ok, { scan with
                  textOffset := scan.textOffset + BitVec.ofNat 32 (expansion.count * 4) })
          else (.ok, { scan with textOffset := scan.textOffset + 4 })
  | _ => (.ok, scan)

/-- The call of `parse_data_directive` on `temp_data`, on a copy of the
arguments. -/
def scanDirective (build : Build) (dataOffset : Nat) (p : CString) :
    Option (AssemblerError × DataCursor) :=
  match sscanf formatScanName p with
  | [.str directive] =>
      some (parseDataDirective build directive (snprintf lineBufLen (directiveArgs p))
        (.start tempData dataOffset) dataSize)
  | _ => none

def scanData (build : Build) (scan : Scan) (p : CString) : AssemblerError × Scan :=
  match scanDirective build scan.dataOffset.toNat p with
  | none => (.fail .parseError, scan)
  | some parsed =>
      if parsed.1 = .ok then
        (.ok, { scan with dataOffset := BitVec.ofNat 32 parsed.2.currentSize })
      else (parsed.1, scan)

def scanBody (build : Build) (segment : CString) (scan : Scan) (p : CString) :
    AssemblerError × Scan :=
  if isText segment then scanText build scan p
  else if segment = "data".toList ∨ segment = "bss".toList then scanData build scan p
  else (.fail .err, scan)

def scanLine (build : Build) (segment : CString) (scan : Scan) (line : CString) :
    AssemblerError × Scan :=
  let p := skipBlanks line
  match leadingLabel p with
  | none => scanBody build segment scan p
  | some (label, rest) =>
      match scanLabel segment scan label with
      | .error e => (.fail e, scan)
      | .ok scan => if rest = [] then (.ok, scan) else scanBody build segment scan rest

def scanLines (build : Build) (state : CString × Scan) (lines : List CString) :
    AssemblerError × (CString × Scan) :=
  Loop.run .ok (sourceLine (scanLine build)) state lines

def scanStart (ctx : AssemblerCtx) : CString × Scan :=
  ([], { ctx := ctx, textOffset := 0, dataOffset := 0 })

/-- The sizes are stored only when the whole file was scanned. -/
def scanLabels (build : Build) (file : Option (List Char)) (ctx : AssemblerCtx) :
    AssemblerError × AssemblerCtx :=
  match file with
  | none => (.fail .fileError, ctx)
  | some source =>
      let ended := scanLines build (scanStart ctx) (fgetsLines lineBufLen source)
      let scan := ended.2.2
      if ended.1 = .ok then
        (.ok,
          { scan.ctx with
            textSegment := { scan.ctx.textSegment with size := scan.textOffset.toNat }
            dataSegment := { scan.ctx.dataSegment with size := scan.dataOffset.toNat } })
      else (ended.1, scan.ctx)

end RiscvAs
