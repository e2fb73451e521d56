/-
One file behind another.

A file that can be assembled can be cut behind any of its lines.  Two files that can
be assembled can be put one behind the other, where their labels differ and there is
room for both: the code and the data of the second go behind those of the first.
-/

import RiscvAs.Linking

namespace RiscvAs

open Stdio
open Bytes (Byte)
open Rv32
open Relocation (Fragment)

def opensSegment : List CString → Bool
  | [] => true
  | buffer :: buffers =>
      match turnOf buffer with
      | .ignored => opensSegment buffers
      | .segment _ => true
      | .content _ => false

theorem contents_of_opens {buffers : List CString} (opens : opensSegment buffers = true)
    (segment : CString) : contents segment buffers = contents [] buffers := by
  induction buffers with
  | nil => rfl
  | cons buffer buffers ih =>
      rw [opensSegment] at opens
      rw [contents, contents]
      cases turn : turnOf buffer with
      | ignored =>
          rw [turn] at opens
          exact ih opens
      | segment name => rfl
      | content line =>
          rw [turn] at opens
          cases opens

/-- The file ends with a newline, if it has a line. -/
def IsEnded (source : List Char) : Prop :=
  source = [] ∨ source.getLast? = some '\n'

instance (source : List Char) : Decidable (IsEnded source) :=
  inferInstanceAs (Decidable (_ ∨ _))

theorem sourceContents_append {first : List Char} (ended : IsEnded first) (second : List Char) :
    ∃ segment, sourceContents (first ++ second) =
      sourceContents first ++ contents segment (fgetsLines lineBufLen second) := by
  rw [sourceContents, fgetsLines_append (by decide) ended, contents_append]
  exact ⟨_, rfl⟩

theorem sourceContents_join {first second : List Char} (ended : IsEnded first)
    (opens : opensSegment (fgetsLines lineBufLen second) = true) :
    sourceContents (first ++ second) = sourceContents first ++ sourceContents second := by
  obtain ⟨segment, split⟩ := sourceContents_append ended second
  rw [split, contents_of_opens opens, sourceContents, sourceContents]

theorem ReadAs.unique {build : Build} {lines : List Content}
    {fragments fragments' : List (Fragment CString Byte)} (read : ReadAs build lines fragments)
    (read' : ReadAs build lines fragments') : fragments = fragments' := by
  induction read generalizing fragments' with
  | nil =>
      cases read'
      rfl
  | cons first rest ih =>
      cases read' with
      | cons first' rest' => rw [ih rest', Option.some.inj (first.symm.trans first')]

theorem ReadAs.of_append {build : Build} {lines lines' : List Content}
    {fragments : List (Fragment CString Byte)} (read : ReadAs build (lines ++ lines') fragments) :
    ∃ before after, fragments = before ++ after ∧ ReadAs build lines before := by
  refine ⟨fragments.take lines.length, fragments.drop lines.length,
    (List.take_append_drop ..).symm, ?_⟩
  have flipped := List.Forall₂.flip read
  exact (List.forall₂_take_append fragments lines lines' flipped).flip

section Fragments

variable {first second : List (Fragment CString Byte)}

theorem Fits.of_append (fits : Fits (first ++ second)) : Fits first := by
  obtain ⟨text, data, distinct, few, defined⟩ := fits
  rw [Relocation.textSize_append] at text
  rw [Relocation.dataBytes_append, List.length_append] at data
  rw [Relocation.names_append] at distinct few
  rw [List.length_append] at few
  exact ⟨by omega, by omega, distinct.of_append_left, by omega,
    (Relocation.defined_append.mp defined).1⟩

theorem fits_join_iff (fits : Fits first) (fits' : Fits second) :
    Fits (first ++ second) ↔
      Relocation.textSize first + Relocation.textSize second ≤ dataSize ∧
      (Relocation.dataBytes first).length + (Relocation.dataBytes second).length ≤ dataSize ∧
      (Relocation.names first).Disjoint (Relocation.names second) ∧
      (Relocation.names first).length + (Relocation.names second).length ≤ maxSymbols := by
  rw [← Relocation.textSize_append, ← List.length_append, ← Relocation.dataBytes_append,
    ← List.length_append, ← Relocation.names_append]
  constructor
  · rintro ⟨text, data, distinct, few, -⟩
    rw [Relocation.names_append] at distinct
    exact ⟨text, data, List.disjoint_of_nodup_append distinct, few⟩
  · rintro ⟨text, data, disjoint, few⟩
    refine ⟨text, data, ?_, few, Relocation.defined_append.mpr ⟨fits.defined, ?_⟩⟩
    · rw [Relocation.names_append]
      exact fits.distinct.append fits'.distinct disjoint
    · exact fits'.defined.mono (List.nil_subset _)

def Symbol.shift (count : Nat) (symbol : Symbol) : Symbol :=
  { symbol with offset := BitVec.ofNat 32 count + symbol.offset }

theorem tableOf_append :
    (tableOf (first ++ second)).symbols = (tableOf first).symbols ++
      (tableOf second).symbols.map (Symbol.shift (Relocation.dataBytes first).length) := by
  have shifted := Relocation.symbols_shift (Relocation.dataBytes first).length 0 second
  rw [Nat.add_zero] at shifted
  simp only [tableOf, Relocation.symbols_append, Nat.zero_add, shifted, List.map_append,
    List.map_map]
  congr 1
  refine List.map_congr_left fun symbol _ => ?_
  simp only [Function.comp_apply, dataEntry, Symbol.shift, BitVec.ofNat_add]

/-- The first file uses no symbol, or the second has no code; the second uses no symbol, or
the first has no data. -/
theorem linkedText_append (fits : Fits first) (fits' : Fits second)
    (disjoint : (Relocation.names first).Disjoint (Relocation.names second))
    (front : Relocation.names first = [] ∨ Relocation.textSize second = 0)
    (back : Relocation.names second = [] ∨ (Relocation.dataBytes first).length = 0) :
    Relocation.linkedText (first ++ second) =
      Relocation.linkedText first ++ Relocation.linkedText second := by
  rw [Relocation.linkedText, Relocation.text_append]
  congr 1
  · refine Relocation.text_congr fun name used => ?_
    have known := fits.defined.mem used
    rw [List.nil_append] at known
    rcases front with none | none
    · rw [none] at known
      cases known
    · rw [Relocation.place, Relocation.place, Relocation.lookup_append_of_mem known,
        Relocation.textSize_append, none, Nat.add_zero]
  · refine Relocation.text_congr fun name used => ?_
    have known := fits'.defined.mem used
    rw [List.nil_append] at known
    rcases back with none | none
    · rw [none] at known
      cases known
    · have unknown : name ∉ Relocation.names first := fun member => disjoint member known
      rw [Relocation.place, Relocation.place, Relocation.lookup_append_of_not_mem unknown,
        Relocation.textSize_append, none]
      obtain ⟨offset, found⟩ :=
        Option.isSome_iff_exists.mp (Relocation.lookup_isSome_iff.mpr known)
      rw [found, Option.map_some, Option.getD_some, Option.getD_some]
      push_cast
      omega

end Fragments

section Links

variable {ctx1 ctx2 ctx1' ctx2' : AssemblerCtx}
  {fragments fragments' : List (Fragment CString Byte)}
  (links : Links ctx1 ctx2 fragments)

include links

theorem Links.count : ctx1.table.count = (Relocation.names fragments).length := by
  rw [← links.names, List.length_map, Symtable.count]

theorem Links.table_eq_nil_iff :
    ctx1.table.symbols = [] ↔ Relocation.names fragments = [] := by
  rw [← links.names, List.map_eq_nil_iff]

theorem Links.disjoint_iff (links' : Links ctx1' ctx2' fragments') :
    (∀ symbol ∈ ctx1.table.symbols, ∀ symbol' ∈ ctx1'.table.symbols,
        symbol.name ≠ symbol'.name) ↔
      (Relocation.names fragments).Disjoint (Relocation.names fragments') := by
  rw [← links.names, ← links'.names]
  constructor
  · intro distinct name member member'
    obtain ⟨symbol, found, rfl⟩ := List.mem_map.mp member
    obtain ⟨symbol', found', same⟩ := List.mem_map.mp member'
    exact distinct symbol found symbol' found' same.symm
  · intro disjoint symbol found symbol' found' same
    exact disjoint (List.mem_map_of_mem found) (same ▸ List.mem_map_of_mem found')

end Links

/-! ### Cutting a file -/

section Prefix

variable {build : Build} {baseVaddr : Word} {first second : List Char} {ctx1 ctx2 : AssemblerCtx}
  (accepted : Accepted build baseVaddr (first ++ second) ctx1 ctx2) (ended : IsEnded first)

include accepted ended

/-- The first lines of a file that can be assembled can be assembled, to the front of its
data and of its table. -/
theorem accepted_front :
    ∃ ctx1' ctx2', Accepted build baseVaddr first ctx1' ctx2' ∧
      ctx2'.dataSegment.bytes <+: ctx2.dataSegment.bytes ∧
      ctx1'.table.symbols <+: ctx1.table.symbols ∧
      ctx2'.textSegment.size ≤ ctx2.textSegment.size := by
  obtain ⟨fragments, read, fits, links⟩ := accepted.readAs
  obtain ⟨segment, split⟩ := sourceContents_append ended second
  rw [split] at read
  obtain ⟨before, after, rfl, readBefore⟩ := read.of_append
  obtain ⟨ctx1', ctx2', accepted', links'⟩ :=
    accepted_of_readAs baseVaddr readBefore fits.of_append
  refine ⟨ctx1', ctx2', accepted', ?_, ?_, ?_⟩
  · rw [links.data, links'.data, Relocation.dataBytes_append]
    exact List.prefix_append _ _
  · rw [links.table, links'.table, tableOf_append]
    exact List.prefix_append _ _
  · rw [links.textSize, links'.textSize, Relocation.textSize_append]
    exact Nat.le_add_right _ _

end Prefix

theorem accepted_front_example :
    ∃ ctx1 ctx2, Accepted .native 0x80000000 ".data\nfirst: .word 1\n".toList ctx1 ctx2 ∧
      ctx2.dataSegment.bytes <+: exampleAssembled.dataSegment.bytes ∧
      ctx1.table.symbols <+: exampleScanned.table.symbols ∧
      ctx2.textSegment.size ≤ exampleAssembled.textSegment.size :=
  @accepted_front _ _ ".data\nfirst: .word 1\n".toList
    "second: .word 2 # here\n.text\nla a0, second\n".toList _ _ exampleSource_accepted (by decide)

section Join

variable {build : Build} {baseVaddr : Word} {first second : List Char}
  {ctx1 ctx2 ctx1' ctx2' : AssemblerCtx} (accepted : Accepted build baseVaddr first ctx1 ctx2)
  (accepted' : Accepted build baseVaddr second ctx1' ctx2') (ended : IsEnded first)
  (opens : opensSegment (fgetsLines lineBufLen second) = true)

/-- The second file has room behind the first, and its labels are new. -/
structure Joinable (ctx1 ctx2 ctx1' ctx2' : AssemblerCtx) : Prop where
  text : ctx2.textSegment.size + ctx2'.textSegment.size ≤ dataSize
  data : ctx2.dataSegment.size + ctx2'.dataSegment.size ≤ dataSize
  distinct : ∀ symbol ∈ ctx1.table.symbols, ∀ symbol' ∈ ctx1'.table.symbols,
    symbol.name ≠ symbol'.name
  few : ctx1.table.count + ctx1'.table.count ≤ maxSymbols

/-- The image of both files.  The code of a file is kept where no distance to its data has
changed. -/
structure Joined (ctx1 ctx2 ctx1' ctx2' joined1 joined2 : AssemblerCtx) : Prop where
  data : joined2.dataSegment.bytes = ctx2.dataSegment.bytes ++ ctx2'.dataSegment.bytes
  table : joined1.table.symbols = ctx1.table.symbols ++
    ctx1'.table.symbols.map (Symbol.shift ctx2.dataSegment.size)
  textSize : joined2.textSegment.size = ctx2.textSegment.size + ctx2'.textSegment.size
  text : ctx1.table.symbols = [] ∨ ctx2'.textSegment.size = 0 →
    ctx1'.table.symbols = [] ∨ ctx2.dataSegment.size = 0 →
      joined2.textSegment.bytes = ctx2.textSegment.bytes ++ ctx2'.textSegment.bytes

include accepted accepted' ended opens

theorem accepted_append_iff :
    ((∃ joined1 joined2, Accepted build baseVaddr (first ++ second) joined1 joined2) ↔
      Joinable ctx1 ctx2 ctx1' ctx2') ∧
    ∀ joined1 joined2, Accepted build baseVaddr (first ++ second) joined1 joined2 →
      Joined ctx1 ctx2 ctx1' ctx2' joined1 joined2 := by
  obtain ⟨fragments, read, fits, links⟩ := accepted.readAs
  obtain ⟨fragments', read', fits', links'⟩ := accepted'.readAs
  have whole : ReadAs build (sourceContents (first ++ second)) (fragments ++ fragments') := by
    rw [sourceContents_join ended opens]
    exact List.rel_append read read'
  have joinable : Fits (fragments ++ fragments') ↔ Joinable ctx1 ctx2 ctx1' ctx2' := by
    rw [fits_join_iff fits fits', ← links.textSize, ← links'.textSize, ← links.dataSize,
      ← links'.dataSize, ← links.count, ← links'.count, ← links.disjoint_iff links']
    exact ⟨fun ⟨text, data, distinct, few⟩ => ⟨text, data, distinct, few⟩,
      fun ⟨text, data, distinct, few⟩ => ⟨text, data, distinct, few⟩⟩
  constructor
  · rw [← joinable]
    constructor
    · rintro ⟨joined1, joined2, both⟩
      obtain ⟨all, readAll, fitsAll, -⟩ := both.readAs
      rwa [readAll.unique whole] at fitsAll
    · intro fitsBoth
      obtain ⟨joined1, joined2, both, -⟩ := accepted_of_readAs baseVaddr whole fitsBoth
      exact ⟨joined1, joined2, both⟩
  · intro joined1 joined2 both
    obtain ⟨all, readAll, fitsAll, linksAll⟩ := both.readAs
    obtain rfl := readAll.unique whole
    have disjoint := ((fits_join_iff fits fits').mp fitsAll).2.2.1
    refine ⟨?_, ?_, ?_, ?_⟩
    · rw [linksAll.data, links.data, links'.data, Relocation.dataBytes_append]
    · rw [linksAll.table, links.table, links'.table, tableOf_append, links.dataSize]
    · rw [linksAll.textSize, links.textSize, links'.textSize, Relocation.textSize_append]
    · intro front back
      rw [linksAll.text, links.text, links'.text]
      refine linkedText_append fits fits' disjoint ?_ ?_
      · rwa [← links'.textSize, ← links.table_eq_nil_iff]
      · rwa [← links.dataSize, ← links'.table_eq_nil_iff]

end Join

def secondSource : List Char :=
  ".text\nnop\n.data\nb: .byte 1, 2\n.text\nla a1, b\n".toList

theorem accepted_append_iff_example :
    ∃ joined1 joined2,
      Accepted .native 0x80000000 (exampleSource ++ secondSource) joined1 joined2 := by
  have accepted' := @accepted_of_codes .native 0x80000000 secondSource (by decide +kernel)
    (by decide +kernel)
  refine (accepted_append_iff exampleSource_accepted accepted' (by decide)
    (by decide +kernel)).1.mpr ⟨?_, ?_, ?_, ?_⟩ <;> decide +kernel

end RiscvAs
