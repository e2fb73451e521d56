/-
Data directives: `handle_data_integer`, `handle_data_string`,
`handle_data_space` and `parse_data_directive` of `src/instruction.c`.

The handlers store into an array and advance `*current_size`.  A `DataCursor`
is that state, and it also records every index stored to and every value of
`*current_size`; no branch reads the record.
-/

import RiscvAs.Context

namespace RiscvAs

open Stdio
open Bytes (Byte Buffer)

structure DataCursor where
  data : Buffer
  currentSize : Nat
  /-- Every index stored to so far. -/
  stores : List Nat
  /-- Every value that `*current_size` has had. -/
  sizes : List Nat

def DataCursor.start (data : Buffer) (currentSize : Nat) : DataCursor :=
  { data := data, currentSize := currentSize, stores := [], sizes := [currentSize] }

/-- `data[(*current_size)++] = byte` -/
def DataCursor.put (cursor : DataCursor) (byte : Byte) : DataCursor :=
  { data := Function.update cursor.data cursor.currentSize byte
    currentSize := cursor.currentSize + 1
    stores := cursor.stores ++ [cursor.currentSize]
    sizes := cursor.sizes ++ [cursor.currentSize + 1] }

/-- Store a block at `&data[*current_size]`, then advance by its length. -/
def DataCursor.write (cursor : DataCursor) (bytes : List Byte) : DataCursor :=
  { data := Bytes.store cursor.data cursor.currentSize bytes
    currentSize := cursor.currentSize + bytes.length
    stores := cursor.stores ++ List.range' cursor.currentSize bytes.length
    sizes := cursor.sizes ++ [cursor.currentSize + bytes.length] }

section Fields

variable (cursor : DataCursor) (byte : Byte) (bytes : List Byte)

@[simp] theorem DataCursor.put_data :
    (cursor.put byte).data = Function.update cursor.data cursor.currentSize byte := rfl

@[simp] theorem DataCursor.put_currentSize :
    (cursor.put byte).currentSize = cursor.currentSize + 1 := rfl

@[simp] theorem DataCursor.put_stores :
    (cursor.put byte).stores = cursor.stores ++ [cursor.currentSize] := rfl

@[simp] theorem DataCursor.put_sizes :
    (cursor.put byte).sizes = cursor.sizes ++ [cursor.currentSize + 1] := rfl

@[simp] theorem DataCursor.write_currentSize :
    (cursor.write bytes).currentSize = cursor.currentSize + bytes.length := rfl

@[simp] theorem DataCursor.write_stores :
    (cursor.write bytes).stores =
      cursor.stores ++ List.range' cursor.currentSize bytes.length := rfl

@[simp] theorem DataCursor.write_sizes :
    (cursor.write bytes).sizes = cursor.sizes ++ [cursor.currentSize + bytes.length] := rfl

end Fields

def charByte (c : Char) : Byte :=
  BitVec.ofNat 8 c.toNat

/-- The first `count` bytes of a `long long` in memory. -/
def integerBytes (count : Nat) (value : Int) : List Byte :=
  Bytes.littleEndian count (BitVec.ofInt 64 value).toNat

/-- `" %lli"` -/
def formatInteger : List Directive :=
  [.blank, .int 64]

def handleDataIntegerLoop (step capacity : Nat) :
    List CString → DataCursor → AssemblerError × DataCursor
  | [], cursor => (.ok, cursor)
  | token :: tokens, cursor =>
      match sscanf formatInteger token with
      | [.int val] =>
          if cursor.currentSize + step > capacity then (.fail .err, cursor)
          else handleDataIntegerLoop step capacity tokens (cursor.write (integerBytes step val))
      | _ => (.fail .parseError, cursor)

def integerStep (directive : CString) : Nat :=
  if directive = ".byte".toList then 1
  else if directive = ".half".toList then 2
  else 4

def handleDataInteger (directive args : CString) (cursor : DataCursor) (capacity : Nat) :
    AssemblerError × DataCursor :=
  handleDataIntegerLoop (integerStep directive) capacity (strtok ',' args) cursor

def escapeBytes (c : Char) : List Byte :=
  match c with
  | 'n' => [charByte '\n']
  | 't' => [charByte '\t']
  | 'r' => [charByte '\r']
  | '\\' => [charByte '\\']
  | '\"' => [charByte '\"']
  | _ => [charByte '\\', charByte c]

def putAll (cursor : DataCursor) (bytes : List Byte) : DataCursor :=
  bytes.foldl DataCursor.put cursor

def handleDataStringLoop (capacity : Nat) : CString → DataCursor → AssemblerError × DataCursor
  | [], cursor => (.ok, cursor)
  | '\\' :: c :: rest, cursor =>
      if cursor.currentSize ≥ capacity then (.fail .err, cursor)
      else handleDataStringLoop capacity rest (putAll cursor (escapeBytes c))
  | c :: rest, cursor =>
      if cursor.currentSize ≥ capacity then (.fail .err, cursor)
      else handleDataStringLoop capacity rest (cursor.put (charByte c))

def quotedText (args : CString) : Option CString :=
  (afterFirst '"' args).bind (beforeLast '"')

def handleDataString (args : CString) (cursor : DataCursor) (capacity : Nat) :
    AssemblerError × DataCursor :=
  match quotedText args with
  | none => (.fail .parseError, cursor)
  | some text =>
      match handleDataStringLoop capacity text cursor with
      | (.ok, cursor) =>
          if cursor.currentSize ≥ capacity then (.fail .err, cursor) else (.ok, cursor.put 0)
      | failed => failed

def Build.toSize (build : Build) (value : Int) : Nat :=
  (value % 2 ^ build.longBits).toNat

/-- The second token of `.space`, zero when there is none. -/
def spaceFill (tokens : List CString) : Except Failure Int :=
  match tokens with
  | [] => .ok 0
  | token :: _ =>
      match sscanf formatInteger token with
      | [.int fill] => if fill < 0 ∨ fill > 255 then .error .parseError else .ok fill
      | _ => .error .parseError

/-- `capacity - *current_size` is of type `size_t`; it does not wrap around,
since no caller is past the capacity. -/
def handleDataSpace (build : Build) (args : CString) (cursor : DataCursor) (capacity : Nat) :
    AssemblerError × DataCursor :=
  match strtok ',' args with
  | [] => (.fail .parseError, cursor)
  | countToken :: rest =>
      match sscanf formatInteger countToken with
      | [.int count] =>
          if count < 0 then (.fail .parseError, cursor)
          else
            match spaceFill rest with
            | .error e => (.fail e, cursor)
            | .ok fill =>
                if build.toSize count > capacity - cursor.currentSize then (.fail .err, cursor)
                else
                  (.ok, cursor.write (List.replicate (build.toSize count) (BitVec.ofInt 8 fill)))
      | _ => (.fail .parseError, cursor)

def isIntegerDirective (directive : CString) : Bool :=
  directive = ".byte".toList || directive = ".half".toList || directive = ".word".toList

def isStringDirective (directive : CString) : Bool :=
  directive = ".string".toList || directive = ".asciz".toList || directive = ".asciiz".toList

def parseDataDirective (build : Build) (directive args : CString) (cursor : DataCursor)
    (capacity : Nat) : AssemblerError × DataCursor :=
  if isIntegerDirective directive then handleDataInteger directive args cursor capacity
  else if isStringDirective directive then handleDataString args cursor capacity
  else if directive = ".space".toList then handleDataSpace build args cursor capacity
  else (.fail .unknownPseudo, cursor)

end RiscvAs
