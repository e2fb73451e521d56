/-
A data line in the two passes.

Pass 1 parses the directive into a scratch array and keeps the new offset, pass 2
parses it into the segment.  Both accept a line exactly when it denotes bytes
that still fit, and advance their offset by the number of these bytes.
-/

import RiscvAs.DataBytes
import RiscvAs.Passes

namespace RiscvAs

open Stdio
open Bytes (Byte)
open Rv32 (Word)

/-- The bytes that a data line denotes, once its label is taken off. -/
def dataLineBytes (build : Build) (p : CString) : Option (List Byte) :=
  match sscanf formatDirective p with
  | [.str directive] => directiveBytes build directive (directiveArgs p)
  | _ => none

theorem directive_cases (build : Build) (p : CString) :
    (∃ directive, sscanf formatDirective p = [.str directive] ∧
        dataLineBytes build p = directiveBytes build directive (directiveArgs p)) ∨
      (sscanf formatDirective p = [] ∧ dataLineBytes build p = none) := by
  unfold dataLineBytes
  rcases scanned : sscanf formatDirective p with _ | ⟨v, vs⟩
  · exact Or.inr ⟨rfl, rfl⟩
  · obtain ⟨run, rest, -, -, -, -, -, rfl, others⟩ := sscanf_token_inv scanned
    subst others
    exact Or.inl ⟨run, rfl, rfl⟩

theorem sscanf_formatScanName (p : CString) :
    sscanf formatScanName p = sscanf formatDirective p := by
  rw [formatScanName, sscanf_blank]
  simp only [formatDirective, sscanf, convert, skipBlanks_skipBlanks]

theorem directiveArgs_length_le (p : CString) : (directiveArgs p).length ≤ p.length := by
  have blanks := (List.dropWhile_suffix (l := afterSpan [' ', '\t'] p) isspace).length_le
  have span := (List.dropWhile_suffix (l := p) (fun c => decide (c ∉ [' ', '\t']))).length_le
  exact Nat.le_trans blanks span

def Output.appendData (out : Output) (bytes : List Byte) : Output :=
  { out with
    ctx := { out.ctx with dataSegment := { out.ctx.dataSegment with
      data := Bytes.store out.ctx.dataSegment.data out.dataOffset bytes } }
    dataOffset := out.dataOffset + bytes.length }

theorem processSegmentData_ok_iff_of_appends {build : Build} {out out' : Output} {line : CString}
    (stores : ∀ directive args,
      sscanf formatDirective (afterLabel (skipBlanks line)) = [.str directive] →
      (DataCursor.start out.ctx.dataSegment.data out.dataOffset).Appends
        out.ctx.dataSegment.capacity (directiveBytes build directive args)
        (parseDataDirective build directive args
          (.start out.ctx.dataSegment.data out.dataOffset) out.ctx.dataSegment.capacity)) :
    processSegmentData build out line = (.ok, out') ↔
      ∃ bytes, dataLineBytes build (afterLabel (skipBlanks line)) = some bytes ∧
        out.dataOffset + bytes.length ≤ out.ctx.dataSegment.capacity ∧
        out' = out.appendData bytes := by
  unfold processSegmentData segmentDirective
  generalize afterLabel (skipBlanks line) = p at stores ⊢
  rcases directive_cases build p with ⟨directive, scanned, denoted⟩ | ⟨scanned, denoted⟩
  · have appends := stores directive (directiveArgs p) scanned
    simp only [scanned, denoted]
    generalize parseDataDirective build directive (directiveArgs p)
      (.start out.ctx.dataSegment.data out.dataOffset) out.ctx.dataSegment.capacity =
        parsed at appends ⊢
    constructor
    · intro accepted
      split at accepted
      · rename_i ok
        obtain ⟨bytes, some, fits⟩ := appends.ok_iff.mp ok
        have extended := appends.extends_of_ok bytes some ok
        refine ⟨bytes, some, fits, ?_⟩
        rw [← (Prod.mk.inj accepted).2, extended.data, extended.size]
        rfl
      · rename_i failed
        exact absurd (Prod.mk.inj accepted).1 failed
    · rintro ⟨bytes, some, fits, rfl⟩
      have ok := appends.ok_iff.mpr ⟨bytes, some, fits⟩
      have extended := appends.extends_of_ok bytes some ok
      rw [if_pos ok, extended.data, extended.size]
      rfl
  · simp [scanned, denoted]

theorem processSegmentData_ok_iff {build : Build} {out out' : Output} {line : CString}
    (bounded : out.dataOffset ≤ out.ctx.dataSegment.capacity) :
    processSegmentData build out line = (.ok, out') ↔
      ∃ bytes, dataLineBytes build (afterLabel (skipBlanks line)) = some bytes ∧
        out.dataOffset + bytes.length ≤ out.ctx.dataSegment.capacity ∧
        out' = out.appendData bytes :=
  processSegmentData_ok_iff_of_appends fun directive args _ =>
    parseDataDirective_appends build directive args _ _ bounded

def Scan.advanceData (scan : Scan) (bytes : List Byte) : Scan :=
  { scan with dataOffset := BitVec.ofNat 32 (scan.dataOffset.toNat + bytes.length) }

theorem scanData_ok_iff {build : Build} {scan scan' : Scan} {p : CString}
    (bounded : scan.dataOffset.toNat ≤ dataSize) (short : p.length < lineBufLen) :
    scanData build scan p = (.ok, scan') ↔
      ∃ bytes, dataLineBytes build p = some bytes ∧
        scan.dataOffset.toNat + bytes.length ≤ dataSize ∧ scan' = scan.advanceData bytes := by
  unfold scanData scanDirective
  have copied : snprintf lineBufLen (directiveArgs p) = directiveArgs p :=
    List.take_of_length_le (by have shorter := directiveArgs_length_le p; omega)
  rw [sscanf_formatScanName, copied]
  rcases directive_cases build p with ⟨directive, scanned, denoted⟩ | ⟨scanned, denoted⟩
  · have appends := parseDataDirective_appends build directive (directiveArgs p)
      (.start tempData scan.dataOffset.toNat) dataSize bounded
    simp only [scanned, denoted]
    generalize parseDataDirective build directive (directiveArgs p)
      (.start tempData scan.dataOffset.toNat) dataSize = parsed at appends ⊢
    constructor
    · intro accepted
      split at accepted
      · rename_i ok
        obtain ⟨bytes, some, fits⟩ := appends.ok_iff.mp ok
        have extended := appends.extends_of_ok bytes some ok
        refine ⟨bytes, some, fits, ?_⟩
        rw [← (Prod.mk.inj accepted).2, extended.size]
        rfl
      · rename_i failed
        exact absurd (Prod.mk.inj accepted).1 failed
    · rintro ⟨bytes, some, fits, rfl⟩
      have ok := appends.ok_iff.mpr ⟨bytes, some, fits⟩
      have extended := appends.extends_of_ok bytes some ok
      rw [if_pos ok, extended.size]
      rfl
  · simp [scanned, denoted]

theorem Scan.advanceData_dataOffset {scan : Scan} {bytes : List Byte}
    (fits : scan.dataOffset.toNat + bytes.length ≤ dataSize) :
    (scan.advanceData bytes).dataOffset.toNat = scan.dataOffset.toNat + bytes.length := by
  have size : dataSize = 2048 := rfl
  rw [advanceData, BitVec.toNat_ofNat]
  omega

end RiscvAs
