/-
Finite maps with room for a bounded number of keys, under calls that insert a
new key or look one up.

A machine answers calls from a state.  The reference machine keeps a finite
map; a machine that is simulated by it gives the same replies, and so has the
laws of the map.
-/

import Mathlib.Data.Finmap

namespace BoundedMap

inductive Call (Key Value : Type) where
  | insert (key : Key) (value : Value)
  | lookup (key : Key)
  deriving DecidableEq, Repr

inductive Reply (Value : Type) where
  | inserted (done : Bool)
  | found (value : Option Value)
  deriving DecidableEq, Repr

abbrev Machine (State Key Value : Type) := State → Call Key Value → Reply Value × State

def Machine.after {State Key Value : Type} (machine : Machine State Key Value) (start : State)
    (calls : List (Call Key Value)) : State :=
  calls.foldl (fun state call => (machine state call).2) start

/-- After the calls `before`, the next of the calls is an insertion of the pair, which
succeeds. -/
def Machine.InsertedAt {State Key Value : Type} (machine : Machine State Key Value)
    (start : State) (calls before : List (Call Key Value)) (key : Key) (value : Value) : Prop :=
  (∃ rest, calls = before ++ .insert key value :: rest) ∧
    (machine (machine.after start before) (.insert key value)).1 = .inserted true

section Machine

variable {State Key Value : Type} (machine : Machine State Key Value) (start : State)

theorem Machine.after_append (first second : List (Call Key Value)) :
    machine.after start (first ++ second) = machine.after (machine.after start first) second :=
  List.foldl_append

theorem Machine.after_snoc (calls : List (Call Key Value)) (call : Call Key Value) :
    machine.after start (calls ++ [call]) = (machine (machine.after start calls) call).2 :=
  machine.after_append start calls [call]

theorem Machine.insertedAt_snoc {calls before : List (Call Key Value)} {call : Call Key Value}
    {key : Key} {value : Value} :
    machine.InsertedAt start (calls ++ [call]) before key value ↔
      machine.InsertedAt start calls before key value ∨
        before = calls ∧ call = .insert key value ∧
          (machine (machine.after start calls) call).1 = .inserted true := by
  constructor
  · intro inserted
    obtain ⟨⟨rest, split⟩, done⟩ := inserted
    rcases List.eq_nil_or_concat rest with rfl | ⟨front, last, rfl⟩
    · obtain ⟨rfl, same⟩ := List.append_inj' split rfl
      obtain rfl : call = .insert key value := List.head_eq_of_cons_eq same
      exact Or.inr ⟨rfl, rfl, done⟩
    · have regrouped : calls ++ [call] = (before ++ .insert key value :: front) ++ [last] := by
        rw [split]
        simp
      exact Or.inl ⟨⟨front, (List.append_inj' regrouped rfl).1⟩, done⟩
  · intro either
    rcases either with ⟨⟨rest, rfl⟩, done⟩ | ⟨rfl, rfl, done⟩
    · exact ⟨⟨rest ++ [call], by simp⟩, done⟩
    · exact ⟨⟨[], rfl⟩, done⟩

end Machine

/-! ### The reference machine -/

abbrev Map (Key Value : Type) := Finmap (fun _ : Key => Value)

section Reference

variable {Key Value : Type} [DecidableEq Key] (bound : Nat)

def step : Machine (Map Key Value) Key Value
  | map, .insert key value =>
      if key ∈ map ∨ bound ≤ map.keys.card then (.inserted false, map)
      else (.inserted true, map.insert key value)
  | map, .lookup key => (.found (map.lookup key), map)

variable {bound}

theorem step_of_room {map : Map Key Value} {key : Key} (fresh : key ∉ map)
    (room : map.keys.card < bound) (value : Value) :
    step bound map (.insert key value) = (.inserted true, map.insert key value) := by
  have admitted : ¬ (key ∈ map ∨ bound ≤ map.keys.card) := by
    rw [not_or]
    exact ⟨fresh, Nat.not_le.mpr room⟩
  simp only [step, if_neg admitted]

theorem step_of_refused {map : Map Key Value} {key : Key}
    (refused : key ∈ map ∨ bound ≤ map.keys.card) (value : Value) :
    step bound map (.insert key value) = (.inserted false, map) := by
  simp only [step, if_pos refused]

theorem step_insert_fails {map : Map Key Value} {key : Key} {value : Value} :
    (step bound map (.insert key value)).1 = .inserted false ↔
      key ∈ map ∨ bound ≤ map.keys.card := by
  by_cases refused : key ∈ map ∨ bound ≤ map.keys.card
  · simp [step, refused]
  · simp [step, refused]

theorem step_insert_succeeds {map : Map Key Value} {key : Key} {value : Value} :
    (step bound map (.insert key value)).1 = .inserted true ↔
      key ∉ map ∧ map.keys.card < bound := by
  by_cases refused : key ∈ map ∨ bound ≤ map.keys.card
  · simp only [step, if_pos refused, Reply.inserted.injEq, Bool.false_eq_true, false_iff, not_and]
    intro fresh
    exact Nat.not_lt.mpr (refused.resolve_left fresh)
  · rw [not_or] at refused
    simp only [step, not_or.mpr refused, if_false, true_iff]
    exact ⟨refused.1, Nat.lt_of_not_le refused.2⟩

theorem keys_insert {map : Map Key Value} (key : Key) (value : Value) :
    (map.insert key value).keys = insert key map.keys := by
  ext other
  simp [Finmap.mem_keys, Finmap.mem_insert]

theorem step_card {map : Map Key Value} (few : map.keys.card ≤ bound) (call : Call Key Value) :
    (step bound map call).2.keys.card ≤ bound := by
  cases call with
  | insert key value =>
      by_cases refused : key ∈ map ∨ bound ≤ map.keys.card
      · simpa [step, refused] using few
      · simp only [step, if_neg refused, keys_insert]
        have room := Finset.card_insert_le key map.keys
        omega
  | lookup key => exact few

theorem step_lookup_some {map : Map Key Value} {key : Key} {value : Value}
    (present : map.lookup key = some value) (call : Call Key Value) :
    (step bound map call).2.lookup key = some value := by
  cases call with
  | insert other value' =>
      by_cases refused : other ∈ map ∨ bound ≤ map.keys.card
      · simpa [step, refused] using present
      · have different : key ≠ other := by
          intro same
          subst same
          exact refused (Or.inl (Finmap.mem_of_lookup_eq_some present))
        simpa [step, refused, Finmap.lookup_insert_of_ne _ different] using present
  | lookup other => exact present

theorem step_lookup_iff {map : Map Key Value} {key : Key} {value : Value} (call : Call Key Value) :
    (step bound map call).2.lookup key = some value ↔
      map.lookup key = some value ∨
        call = .insert key value ∧ (step bound map call).1 = .inserted true := by
  cases call with
  | insert other value' =>
      by_cases refused : other ∈ map ∨ bound ≤ map.keys.card
      · simp [step, refused]
      · simp only [step, if_neg refused, and_true, Call.insert.injEq]
        by_cases same : key = other
        · subst same
          have absent : map.lookup key = none :=
            Finmap.lookup_eq_none.mpr (fun member => refused (Or.inl member))
          simp [absent]
        · simp [Finmap.lookup_insert_of_ne _ same, Ne.symm same]
  | lookup other => simp [step]

theorem after_card (calls : List (Call Key Value)) :
    ((step bound).after ∅ calls).keys.card ≤ bound := by
  induction calls using List.reverseRecOn with
  | nil => simp [Machine.after]
  | append_singleton calls call ih =>
      rw [Machine.after_snoc]
      exact step_card ih call

theorem after_lookup_some {map : Map Key Value} {key : Key} {value : Value}
    (present : map.lookup key = some value) (calls : List (Call Key Value)) :
    ((step bound).after map calls).lookup key = some value := by
  induction calls using List.reverseRecOn with
  | nil => exact present
  | append_singleton calls call ih =>
      rw [Machine.after_snoc]
      exact step_lookup_some ih call

/-- The pairs of the map are those that were inserted. -/
theorem after_lookup_iff (calls : List (Call Key Value)) {key : Key} {value : Value} :
    ((step bound).after ∅ calls).lookup key = some value ↔
      ∃ before, (step bound).InsertedAt ∅ calls before key value := by
  induction calls using List.reverseRecOn with
  | nil => simp [Machine.after, Machine.InsertedAt]
  | append_singleton calls call ih =>
      rw [Machine.after_snoc, step_lookup_iff, ih]
      constructor
      · intro either
        rcases either with ⟨before, inserted⟩ | ⟨last, done⟩
        · exact ⟨before, (Machine.insertedAt_snoc _ _).mpr (Or.inl inserted)⟩
        · exact ⟨calls, (Machine.insertedAt_snoc _ _).mpr (Or.inr ⟨rfl, last, done⟩)⟩
      · intro ⟨before, inserted⟩
        rcases (Machine.insertedAt_snoc _ _).mp inserted with earlier | ⟨-, last, done⟩
        · exact Or.inl ⟨before, earlier⟩
        · exact Or.inr ⟨last, done⟩

theorem mem_after_of_insertedAt {calls before : List (Call Key Value)} {key : Key} {value : Value}
    (inserted : (step bound).InsertedAt ∅ calls before key value) :
    key ∈ (step bound).after ∅ calls :=
  Finmap.mem_of_lookup_eq_some ((after_lookup_iff calls).mpr ⟨before, inserted⟩)

theorem insertedAt_unique (calls : List (Call Key Value)) {before before' : List (Call Key Value)}
    {key : Key} {value value' : Value} (first : (step bound).InsertedAt ∅ calls before key value)
    (second : (step bound).InsertedAt ∅ calls before' key value') :
    before = before' ∧ value = value' := by
  induction calls using List.reverseRecOn with
  | nil => simp [Machine.InsertedAt] at first
  | append_singleton calls call ih =>
      rcases (Machine.insertedAt_snoc _ _).mp first with earlier | ⟨rfl, rfl, done⟩
      · rcases (Machine.insertedAt_snoc _ _).mp second with earlier' | ⟨rfl, rfl, done⟩
        · exact ih earlier earlier'
        · exact absurd (mem_after_of_insertedAt earlier) (step_insert_succeeds.mp done).1
      · rcases (Machine.insertedAt_snoc _ _).mp second with earlier' | ⟨rfl, same, -⟩
        · exact absurd (mem_after_of_insertedAt earlier') (step_insert_succeeds.mp done).1
        · exact ⟨rfl, (Call.insert.inj same).2⟩

end Reference

section Simulation

variable {State Key Value : Type} [DecidableEq Key]

/-- Related states give the same reply, and an allowed call keeps them related. -/
structure Simulates (bound : Nat) (machine : Machine State Key Value)
    (related : State → Map Key Value → Prop) (allowed : Call Key Value → Prop) : Prop where
  reply : ∀ {state map}, related state map → ∀ call,
    (machine state call).1 = (step bound map call).1
  next : ∀ {state map}, related state map → ∀ call, allowed call →
    related (machine state call).2 (step bound map call).2

variable {bound : Nat} {machine : Machine State Key Value}
  {related : State → Map Key Value → Prop} {allowed : Call Key Value → Prop}
  (simulates : Simulates bound machine related allowed) {start : State} (initial : related start ∅)

include simulates initial

theorem Simulates.after {calls : List (Call Key Value)} (all : ∀ call ∈ calls, allowed call) :
    related (machine.after start calls) ((step bound).after ∅ calls) := by
  induction calls using List.reverseRecOn with
  | nil => exact initial
  | append_singleton calls call ih =>
      rw [Machine.after_snoc, Machine.after_snoc]
      exact simulates.next (ih (fun other member => all other (by simp [member]))) call
        (all call (by simp))

theorem Simulates.insertedAt_iff {calls before : List (Call Key Value)} {key : Key} {value : Value}
    (all : ∀ call ∈ calls, allowed call) :
    machine.InsertedAt start calls before key value ↔
      (step bound).InsertedAt ∅ calls before key value := by
  unfold Machine.InsertedAt
  refine and_congr_right (fun split => ?_)
  obtain ⟨rest, rfl⟩ := split
  rw [simulates.reply (simulates.after initial (fun call member => all call (by simp [member])))]

end Simulation

end BoundedMap
