/-
The bytes that pass 2 has emitted.

A step appends to one of the two segments; what was emitted before stays, and so
does the part of the context that `la` looks at.
-/

import RiscvAs.Agreement
import RiscvAs.Writer

namespace RiscvAs

open Stdio
open Bytes (Byte)
open Rv32 (Word)

def Output.textBytes (out : Output) : List Byte :=
  Bytes.window out.ctx.textSegment.data out.textOffset

def Output.dataBytes (out : Output) : List Byte :=
  Bytes.window out.ctx.dataSegment.data out.dataOffset

section Appending

variable (out : Output) (words : List Word) (bytes : List Byte)

@[simp] theorem Output.textBytes_start (ctx : AssemblerCtx) : (Output.start ctx).textBytes = [] :=
  rfl

@[simp] theorem Output.dataBytes_start (ctx : AssemblerCtx) : (Output.start ctx).dataBytes = [] :=
  rfl

@[simp] theorem Output.appendWords_textBytes :
    (out.appendWords words).textBytes = out.textBytes ++ words.flatMap wordBytes := by
  have stored := Bytes.window_store out.ctx.textSegment.data out.textOffset
    (words.flatMap wordBytes)
  rw [wordsBytes_length] at stored
  exact stored

@[simp] theorem Output.appendWords_dataBytes :
    (out.appendWords words).dataBytes = out.dataBytes := rfl

@[simp] theorem Output.appendData_textBytes :
    (out.appendData bytes).textBytes = out.textBytes := rfl

@[simp] theorem Output.appendData_dataBytes :
    (out.appendData bytes).dataBytes = out.dataBytes ++ bytes :=
  Bytes.window_store _ _ _

theorem Output.textBytes_length : out.textBytes.length = out.textOffset :=
  Bytes.window_length _ _

theorem Output.dataBytes_length : out.dataBytes.length = out.dataOffset :=
  Bytes.window_length _ _

end Appending

structure Output.Extends (out out' : Output) : Prop where
  text : out.textBytes <+: out'.textBytes
  data : out.dataBytes <+: out'.dataBytes
  table : out'.ctx.table = out.ctx.table
  baseVaddr : out'.ctx.baseVaddr = out.ctx.baseVaddr
  textSize : out'.ctx.textSegment.size = out.ctx.textSegment.size

theorem Output.Extends.refl (out : Output) : out.Extends out :=
  ⟨List.prefix_refl _, List.prefix_refl _, rfl, rfl, rfl⟩

theorem Output.Extends.trans {first second third : Output} (extended : first.Extends second)
    (extended' : second.Extends third) : first.Extends third :=
  ⟨extended.text.trans extended'.text, extended.data.trans extended'.data,
    extended'.table.trans extended.table, extended'.baseVaddr.trans extended.baseVaddr,
    extended'.textSize.trans extended.textSize⟩

theorem EmitStep.extends {build : Build} {segment line : CString} {out out' : Output}
    (step : EmitStep build out segment line out') : out.Extends out' := by
  cases step with
  | text inText encoded fits =>
      refine ⟨?_, List.prefix_refl _, rfl, rfl, rfl⟩
      rw [Output.appendWords_textBytes]
      exact List.prefix_append _ _
  | data inData denoted fits =>
      refine ⟨List.prefix_refl _, ?_, rfl, rfl, rfl⟩
      rw [Output.appendData_dataBytes]
      exact List.prefix_append _ _
  | bss inBss => exact .refl out

theorem emitContents_extends {build : Build} {out final : Output} {lines : List Content}
    (isContent : ∀ content ∈ lines, IsContentLine content.line)
    (ran : emitContents build out lines = (.ok, final)) (bounded : out.Bounded) :
    out.Extends final :=
  (emitContents_invariant out.Extends isContent
    (fun _ _ _ _ _ extended step => extended.trans step.extends) ran bounded (.refl out)).2

end RiscvAs
