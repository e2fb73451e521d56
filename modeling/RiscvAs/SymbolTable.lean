/-
The symbol table as a bounded partial map.

A call of `symtable_insert` or `symtable_lookup` answers as the same call on a
finite map with room for 128 names, as long as the inserted names fit their
entries, which is what pass 1 sees to.
-/

import RiscvAs.BoundedMap
import RiscvAs.LabelResolution

namespace RiscvAs

open Stdio
open Rv32 (Word)
open BoundedMap (Call Reply Machine Map)

abbrev SymtableCall := Call CString Word

def emptySymtable : Symtable :=
  { symbols := [] }

/-- One call: `symtable_insert` returns whether it has inserted, `symtable_lookup` whether
it has found the name, with the offset through its pointer. -/
def symtableCall : Machine Symtable CString Word
  | table, .insert name address =>
      match symtableInsert table name address with
      | some table' => (.inserted true, table')
      | none => (.inserted false, table)
  | table, .lookup name => (.found (symtableLookup table name), table)

def Symtable.names (table : Symtable) : List CString :=
  table.symbols.map Symbol.name

def ShortName : SymtableCall → Prop
  | .insert name _ => name.length ≤ labelLen - 1
  | .lookup _ => True

def tableAfter (calls : List SymtableCall) : Symtable :=
  Machine.after symtableCall emptySymtable calls

/-- After these calls, what the next ones answer, and how that depends on the
successful insertions among them. -/
structure IsBoundedMap (calls : List SymtableCall) : Prop where
  distinct : (tableAfter calls).names.Nodup
  few : (tableAfter calls).count ≤ maxSymbols
  insertFails : ∀ name address,
    (symtableCall (tableAfter calls) (.insert name address)).1 = .inserted false ↔
      name ∈ (tableAfter calls).names ∨ (tableAfter calls).count = maxSymbols
  unchanged : ∀ name address,
    (symtableCall (tableAfter calls) (.insert name address)).1 = .inserted false →
      (symtableCall (tableAfter calls) (.insert name address)).2 = tableAfter calls
  lookup : ∀ name address,
    (symtableCall (tableAfter calls) (.lookup name)).1 = .found (some address) ↔
      ∃ before, Machine.InsertedAt symtableCall emptySymtable calls before name address
  once : ∀ name before before' address address',
    Machine.InsertedAt symtableCall emptySymtable calls before name address →
      Machine.InsertedAt symtableCall emptySymtable calls before' name address' →
        before = before' ∧ address = address'
  stable : ∀ later, (∀ call ∈ later, ShortName call) → ∀ name address,
    (symtableCall (tableAfter calls) (.lookup name)).1 = .found (some address) →
      (symtableCall (tableAfter (calls ++ later)) (.lookup name)).1 = .found (some address)

structure Represents (table : Symtable) (map : Map CString Word) : Prop where
  distinct : table.names.Nodup
  count : table.count = map.keys.card
  lookup : ∀ name, symtableLookup table name = map.lookup name

theorem represents_empty : Represents emptySymtable ∅ :=
  { distinct := List.nodup_nil
    count := rfl
    lookup := fun _ => rfl }

theorem symtableLookup_push (table : Symtable) (symbol : Symbol) (name : CString) :
    symtableLookup (table.push symbol) name =
      (symtableLookup table name).or (if symbol.name = name then some symbol.offset else none) := by
  simp only [symtableLookup, Symtable.push, List.find?_append, Option.map_or]
  congr 1
  by_cases same : symbol.name = name
  · simp [same]
  · simp [same]

section Represents

variable {table : Symtable} {map : Map CString Word} (represents : Represents table map)

include represents

theorem Represents.mem_names_iff (name : CString) : name ∈ table.names ↔ name ∈ map := by
  rw [Symtable.names, ← symtableLookup_isSome_iff, represents.lookup, Finmap.lookup_isSome]

theorem Represents.admits_iff (name : CString) :
    table.Admits name ↔ name ∉ map ∧ map.keys.card < maxSymbols := by
  rw [← represents.mem_names_iff, ← represents.count, and_comm]
  unfold Symtable.Admits Symtable.names
  refine and_congr_right (fun _ => ?_)
  rw [List.mem_map, not_exists]
  exact forall_congr' (fun symbol => not_and.symm)

theorem Represents.push {symbol : Symbol} (admits : table.Admits symbol.name) :
    Represents (table.push symbol) (map.insert symbol.name symbol.offset) := by
  have fresh := ((represents.admits_iff symbol.name).mp admits).1
  have names : (table.push symbol).names = table.names ++ [symbol.name] := by
    simp [Symtable.names, Symtable.push]
  constructor
  · rw [names, List.nodup_append_comm, List.singleton_append, List.nodup_cons,
      represents.mem_names_iff]
    exact ⟨fresh, represents.distinct⟩
  · rw [BoundedMap.keys_insert, Finset.card_insert_of_notMem (by rwa [Finmap.mem_keys]),
      ← represents.count]
    simp [Symtable.count, Symtable.push]
  · intro name
    rw [symtableLookup_push, represents.lookup]
    by_cases same : symbol.name = name
    · subst same
      rw [Finmap.lookup_eq_none.mpr fresh, Finmap.lookup_insert, if_pos rfl, Option.none_or]
    · rw [Finmap.lookup_insert_of_ne _ (Ne.symm same), if_neg same, Option.or_none]

end Represents

theorem symtableCall_of_admits {table : Symtable} {name : CString} (admits : table.Admits name)
    (address : Word) :
    symtableCall table (.insert name address) =
      (.inserted true, table.push ⟨name.take (labelLen - 1), address, .segmentText⟩) := by
  simp only [symtableCall, symtableInsert_of_admits address admits]

theorem symtableCall_of_refused {table : Symtable} {name : CString}
    (refused : ¬ table.Admits name) (address : Word) :
    symtableCall table (.insert name address) = (.inserted false, table) := by
  cases inserted : symtableInsert table name address with
  | none => simp only [symtableCall, inserted]
  | some table' => exact absurd (symtableInsert_some inserted) refused

/-- The bounded map answers each call as the table does. -/
theorem symtable_simulates :
    BoundedMap.Simulates maxSymbols symtableCall Represents ShortName := by
  have refuses : ∀ {table map}, Represents table map → ∀ {name}, ¬ table.Admits name →
      name ∈ map ∨ maxSymbols ≤ map.keys.card := by
    intro table map represents name refused
    rw [represents.admits_iff, not_and, Nat.not_lt] at refused
    exact Decidable.or_iff_not_imp_left.mpr refused
  constructor
  · intro table map represents call
    cases call with
    | insert name address =>
        by_cases admits : table.Admits name
        · obtain ⟨fresh, room⟩ := (represents.admits_iff name).mp admits
          rw [symtableCall_of_admits admits, BoundedMap.step_of_room fresh room]
        · rw [symtableCall_of_refused admits,
            BoundedMap.step_of_refused (refuses represents admits)]
    | lookup name => simp only [symtableCall, BoundedMap.step, represents.lookup]
  · intro table map represents call short
    cases call with
    | insert name address =>
        by_cases admits : table.Admits name
        · obtain ⟨fresh, room⟩ := (represents.admits_iff name).mp admits
          rw [symtableCall_of_admits admits, BoundedMap.step_of_room fresh room,
            List.take_of_length_le short]
          exact represents.push admits
        · rw [symtableCall_of_refused admits,
            BoundedMap.step_of_refused (refuses represents admits)]
          exact represents
    | lookup name => exact represents

/-! ### Any sequence of calls -/

section Calls

variable {calls : List SymtableCall} (short : ∀ call ∈ calls, ShortName call)

include short

theorem represents_tableAfter :
    Represents (tableAfter calls) ((BoundedMap.step maxSymbols).after ∅ calls) :=
  symtable_simulates.after represents_empty short

theorem lookup_tableAfter_iff (name : CString) (address : Word) :
    symtableLookup (tableAfter calls) name = some address ↔
      ∃ before, Machine.InsertedAt symtableCall emptySymtable calls before name address := by
  rw [(represents_tableAfter short).lookup, BoundedMap.after_lookup_iff]
  exact exists_congr
    (fun before => (symtable_simulates.insertedAt_iff represents_empty short).symm)

theorem lookup_tableAfter_append {later : List SymtableCall}
    (shortLater : ∀ call ∈ later, ShortName call) {name : CString} {address : Word}
    (found : symtableLookup (tableAfter calls) name = some address) :
    symtableLookup (tableAfter (calls ++ later)) name = some address := by
  have shortAll : ∀ call ∈ calls ++ later, ShortName call := by
    intro call member
    exact (List.mem_append.mp member).elim (short call) (shortLater call)
  rw [(represents_tableAfter short).lookup] at found
  rw [(represents_tableAfter shortAll).lookup, Machine.after_append]
  exact BoundedMap.after_lookup_some found later

end Calls

theorem symtable_isBoundedMap (calls : List SymtableCall)
    (short : ∀ call ∈ calls, ShortName call) : IsBoundedMap calls := by
  have represents := represents_tableAfter short
  have few : (tableAfter calls).count ≤ maxSymbols := by
    rw [represents.count]
    exact BoundedMap.after_card calls
  constructor
  · exact represents.distinct
  · exact few
  · intro name address
    rw [symtable_simulates.reply represents, BoundedMap.step_insert_fails,
      represents.mem_names_iff, ← represents.count]
    exact or_congr_right ⟨fun full => Nat.le_antisymm few full, fun full => full.ge⟩
  · intro name address refused
    by_cases admits : (tableAfter calls).Admits name
    · rw [symtableCall_of_admits admits] at refused
      cases refused
    · rw [symtableCall_of_refused admits]
  · intro name address
    simp only [symtableCall, Reply.found.injEq]
    exact lookup_tableAfter_iff short name address
  · intro name before before' address address' first second
    rw [symtable_simulates.insertedAt_iff represents_empty short] at first second
    exact BoundedMap.insertedAt_unique calls first second
  · intro later shortLater name address found
    simp only [symtableCall, Reply.found.injEq] at found ⊢
    exact lookup_tableAfter_append short shortLater found

def exampleCalls : List SymtableCall :=
  [.insert "msg".toList 0, .insert "msg".toList 4, .lookup "msg".toList]

theorem symtable_isBoundedMap_example : IsBoundedMap exampleCalls :=
  symtable_isBoundedMap exampleCalls (by
    intro call member
    simp only [exampleCalls, List.mem_cons, List.not_mem_nil, or_false] at member
    rcases member with rfl | rfl | rfl <;> simp [ShortName, labelLen])

section Passes

variable {build : Build} {map : Map CString Word}

/-- A label that pass 1 accepts is one insertion, of a name that fits. -/
theorem represents_enterLabel {scan entered : Scan} {content : Content}
    (represents : Represents scan.ctx.table map)
    (accepted : enterLabel scan content = .ok entered) :
    ∃ calls : List SymtableCall, (∀ call ∈ calls, ShortName call) ∧
      Represents entered.ctx.table ((BoundedMap.step maxSymbols).after map calls) := by
  rcases enterLabel_ok accepted with ⟨-, rfl⟩ | ⟨name, rest, symbol, -, isEntered, admits, rfl⟩
  · exact ⟨[], by simp, represents⟩
  · obtain ⟨fresh, room⟩ := (represents.admits_iff symbol.name).mp admits
    have stored := (Scan.symbol_name isEntered).1
    refine ⟨[.insert symbol.name symbol.offset], ?_, ?_⟩
    · intro call member
      rw [List.mem_singleton] at member
      subst member
      rw [ShortName, stored, storedName]
      exact List.length_take_le _ _
    · have stepped := BoundedMap.step_of_room fresh room symbol.offset
      simp only [Machine.after, List.foldl_cons, List.foldl_nil, stepped]
      exact represents.push admits

/-- The table that pass 1 builds is one that such calls build. -/
theorem represents_scanContents {lines : List Content}
    (isContent : ∀ content ∈ lines, IsContentLine content.line) {scan final : Scan}
    (bounded : scan.dataOffset.toNat ≤ dataSize) (represents : Represents scan.ctx.table map)
    (ran : scanContents build scan lines = (.ok, final)) :
    ∃ calls : List SymtableCall, (∀ call ∈ calls, ShortName call) ∧
      Represents final.ctx.table ((BoundedMap.step maxSymbols).after map calls) := by
  refine (scanContents_invariant
    (fun current : Scan => ∃ calls : List SymtableCall, (∀ call ∈ calls, ShortName call) ∧
      Represents current.ctx.table ((BoundedMap.step maxSymbols).after map calls))
    isContent ?_ ran bounded ⟨[], by simp, represents⟩).2
  intro current next content member kept step
  obtain ⟨calls, short, represented⟩ := kept
  obtain ⟨entered, accepted, table⟩ := step.enterLabel
  obtain ⟨call, shortCall, extended⟩ := represents_enterLabel represented accepted
  refine ⟨calls ++ call, ?_, ?_⟩
  · intro other among
    exact (List.mem_append.mp among).elim (short other) (shortCall other)
  · rw [table, Machine.after_append]
    exact extended

end Passes

end RiscvAs
