/-
One source line in its segment: `process_segment_text`,
`process_segment_data`, `process_segment_bss` and `process_assembly_line` of
`src/instruction.c`.
-/

import RiscvAs.Pseudo
import RiscvAs.Data

namespace RiscvAs

open Stdio
open Bytes (Byte)
open Rv32 (Word)

/-- What the second pass works on: the context and the two running offsets. -/
structure Output where
  ctx : AssemblerCtx
  textOffset : Nat
  dataOffset : Nat

/-- `" %63s "` -/
def formatName : List Directive :=
  [.blank, .token (some (nameLen - 1)), .blank]

def lineInstruction (line : CString) : Except Failure Instruction :=
  match sscanf formatName line with
  | [.str name] =>
      match findInstruction name with
      | none => .error .unknownInstruction
      | some instr => .ok instr
  | _ => .error .parseError

/-- The words of a line, before they are copied to the segment. -/
def lineWords (build : Build) (ctx : AssemblerCtx) (line : CString) (textOffset : Nat) :
    Except Failure (List Word) := do
  let instr ← lineInstruction line
  if instr.type = .P then do
    let currentPc := getTextVaddr ctx.baseVaddr + BitVec.ofNat 32 textOffset
    let expansion ← expandPseudoInstr build ctx instr line currentPc
    encodePseudoInstr build expansion
  else do
    let word ← encode build instr line instr.name.toList
    pure [word]

def wordBytes (w : Word) : List Byte :=
  Bytes.littleEndian 4 w.toNat

/-- The byte-copy loop of `process_segment_text`. -/
def copyText : List Byte → Segment → Nat → AssemblerError × Segment × Nat
  | [], segment, currentSize => (.ok, segment, currentSize)
  | byte :: bytes, segment, currentSize =>
      if currentSize ≥ segment.capacity then (.fail .err, segment, currentSize)
      else
        copyText bytes { segment with data := Function.update segment.data currentSize byte }
          (currentSize + 1)

def processSegmentText (build : Build) (out : Output) (line : CString) :
    AssemblerError × Output :=
  match lineWords build out.ctx line out.textOffset with
  | .error e => (.fail e, out)
  | .ok words =>
      match copyText (words.flatMap wordBytes) out.ctx.textSegment out.textOffset with
      | (.ok, segment, currentSize) =>
          (.ok, { out with
            ctx := { out.ctx with textSegment := segment }
            textOffset := currentSize })
      | (e, segment, _) => (e, { out with ctx := { out.ctx with textSegment := segment } })

/-- A label at the front of a line: its name and the text after its colon and
the blanks that follow.  The first token is cut at 255 characters. -/
def leadingLabel (p : CString) : Option (CString × CString) :=
  match sscanf [.token (some 255)] p with
  | [.str firstToken] =>
      if firstToken.getLast? = some ':' then
        some (firstToken.dropLast, skipBlanks (p.drop firstToken.length))
      else none
  | _ => none

def afterLabel (p : CString) : CString :=
  match leadingLabel p with
  | some (_, rest) => rest
  | none => p

/-- `"%63s"` -/
def formatDirective : List Directive :=
  [.token (some (nameLen - 1))]

def directiveArgs (p : CString) : CString :=
  skipBlanks (afterSpan [' ', '\t'] p)

def segmentDirective (build : Build) (segment : Segment) (dataOffset : Nat) (p : CString) :
    Option (AssemblerError × DataCursor) :=
  match sscanf formatDirective p with
  | [.str directive] =>
      some (parseDataDirective build directive (directiveArgs p) (.start segment.data dataOffset)
        segment.capacity)
  | _ => none

def processSegmentData (build : Build) (out : Output) (line : CString) :
    AssemblerError × Output :=
  match segmentDirective build out.ctx.dataSegment out.dataOffset
      (afterLabel (skipBlanks line)) with
  | none => (.fail .parseError, out)
  | some parsed =>
      let ctx :=
        { out.ctx with dataSegment := { out.ctx.dataSegment with data := parsed.2.data } }
      if parsed.1 = .ok then
        (.ok, { out with ctx := ctx, dataOffset := parsed.2.currentSize })
      else (parsed.1, { out with ctx := ctx })

/-- Nothing is emitted for a line of the bss segment. -/
def processSegmentBss (out : Output) (_line : CString) : AssemblerError × Output :=
  (.ok, out)

/-- The segment is not provided, or it is the text segment. -/
def isText (segment : CString) : Bool :=
  segment = [] || segment = "text".toList

def processAssemblyLine (build : Build) (segment : CString) (out : Output) (line : CString) :
    AssemblerError × Output :=
  if isText segment then processSegmentText build out line
  else if segment = "data".toList then processSegmentData build out line
  else if segment = "bss".toList then processSegmentBss out line
  else (.fail .err, out)

end RiscvAs
