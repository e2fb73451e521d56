/-
Linking in one image.

A fragment is fixed code, code that depends on the distance to a name, or named
data.  The code of an image stands in front of its data, so once all fragments are
known every distance is, wherever the image is loaded.
-/

import Mathlib.Algebra.BigOperators.Group.List.Basic
import Mathlib.Algebra.GroupWithZero.Nat
import Mathlib.Data.List.Lookmap
import Mathlib.Data.List.Nodup

namespace Relocation

/-- Code of a fixed size that a distance is put into. -/
structure Patch (β : Type*) where
  size : Nat
  emit : Int → List β
  emit_length : ∀ distance, (emit distance).length = size

inductive Fragment (ι β : Type*) where
  | code (bytes : List β)
  | reference (name : ι) (patch : Patch β)
  | data (name : ι) (bytes : List β)

section Fragments

variable {ι β : Type*}

def Fragment.textSize : Fragment ι β → Nat
  | .code bytes => bytes.length
  | .reference _ patch => patch.size
  | .data _ _ => 0

def Fragment.dataBytes : Fragment ι β → List β
  | .data _ bytes => bytes
  | .code _ | .reference _ _ => []

def Fragment.names : Fragment ι β → List ι
  | .data name _ => [name]
  | .code _ | .reference _ _ => []

def Fragment.uses : Fragment ι β → List ι
  | .reference name _ => [name]
  | .code _ | .data _ _ => []

/-- The code of a fragment at an offset, once the place of each name is known. -/
def Fragment.emit (place : ι → Int) (offset : Nat) : Fragment ι β → List β
  | .code bytes => bytes
  | .reference name patch => patch.emit (place name - offset)
  | .data _ _ => []

theorem Fragment.emit_length (place : ι → Int) (offset : Nat) (fragment : Fragment ι β) :
    (fragment.emit place offset).length = fragment.textSize := by
  cases fragment with
  | code bytes => rfl
  | reference name patch => exact patch.emit_length _
  | data name bytes => rfl

def textSize (fragments : List (Fragment ι β)) : Nat :=
  (fragments.map Fragment.textSize).sum

def dataBytes (fragments : List (Fragment ι β)) : List β :=
  fragments.flatMap Fragment.dataBytes

def names (fragments : List (Fragment ι β)) : List ι :=
  fragments.flatMap Fragment.names

def uses (fragments : List (Fragment ι β)) : List ι :=
  fragments.flatMap Fragment.uses

def symbols : Nat → List (Fragment ι β) → List (ι × Nat)
  | _, [] => []
  | offset, fragment :: fragments =>
      fragment.names.map (fun name => (name, offset)) ++
        symbols (offset + fragment.dataBytes.length) fragments

def text (place : ι → Int) : Nat → List (Fragment ι β) → List β
  | _, [] => []
  | offset, fragment :: fragments =>
      fragment.emit place offset ++ text place (offset + fragment.textSize) fragments

def Defined : List ι → List (Fragment ι β) → Prop
  | _, [] => True
  | known, fragment :: fragments =>
      (∀ name ∈ fragment.uses, name ∈ known) ∧ Defined (known ++ fragment.names) fragments

theorem textSize_cons (fragment : Fragment ι β) (fragments : List (Fragment ι β)) :
    textSize (fragment :: fragments) = fragment.textSize + textSize fragments := by
  simp [textSize]

theorem textSize_append (first second : List (Fragment ι β)) :
    textSize (first ++ second) = textSize first + textSize second := by
  simp [textSize]

theorem dataBytes_cons (fragment : Fragment ι β) (fragments : List (Fragment ι β)) :
    dataBytes (fragment :: fragments) = fragment.dataBytes ++ dataBytes fragments :=
  List.flatMap_cons

theorem dataBytes_append (first second : List (Fragment ι β)) :
    dataBytes (first ++ second) = dataBytes first ++ dataBytes second :=
  List.flatMap_append

theorem names_cons (fragment : Fragment ι β) (fragments : List (Fragment ι β)) :
    names (fragment :: fragments) = fragment.names ++ names fragments :=
  List.flatMap_cons

theorem names_append (first second : List (Fragment ι β)) :
    names (first ++ second) = names first ++ names second :=
  List.flatMap_append

theorem text_append (place : ι → Int) (offset : Nat) (first second : List (Fragment ι β)) :
    text place offset (first ++ second) =
      text place offset first ++ text place (offset + textSize first) second := by
  induction first generalizing offset with
  | nil => rfl
  | cons fragment first ih =>
      rw [List.cons_append, text, text, ih, textSize_cons, List.append_assoc, Nat.add_assoc]

theorem text_length (place : ι → Int) (offset : Nat) (fragments : List (Fragment ι β)) :
    (text place offset fragments).length = textSize fragments := by
  induction fragments generalizing offset with
  | nil => rfl
  | cons fragment fragments ih =>
      rw [text, List.length_append, ih, fragment.emit_length, textSize_cons]

theorem symbols_append (offset : Nat) (first second : List (Fragment ι β)) :
    symbols offset (first ++ second) =
      symbols offset first ++ symbols (offset + (dataBytes first).length) second := by
  induction first generalizing offset with
  | nil => rfl
  | cons fragment first ih =>
      rw [List.cons_append, symbols, symbols, ih, dataBytes_cons, List.length_append,
        List.append_assoc, Nat.add_assoc]

theorem symbols_names (offset : Nat) (fragments : List (Fragment ι β)) :
    (symbols offset fragments).map Prod.fst = names fragments := by
  induction fragments generalizing offset with
  | nil => rfl
  | cons fragment fragments ih =>
      rw [symbols, List.map_append, ih, names_cons, List.map_map]
      exact congrArg (· ++ names fragments) (List.map_id' fragment.names)

theorem symbols_shift (shift offset : Nat) (fragments : List (Fragment ι β)) :
    symbols (shift + offset) fragments =
      (symbols offset fragments).map (fun symbol => (symbol.1, shift + symbol.2)) := by
  induction fragments generalizing offset with
  | nil => rfl
  | cons fragment fragments ih =>
      rw [symbols, symbols, Nat.add_assoc, ih, List.map_append, List.map_map]
      rfl

theorem defined_append {known : List ι} {first second : List (Fragment ι β)} :
    Defined known (first ++ second) ↔
      Defined known first ∧ Defined (known ++ names first) second := by
  induction first generalizing known with
  | nil => simp [Defined, names]
  | cons fragment first ih =>
      rw [List.cons_append, Defined, Defined, ih, names_cons, List.append_assoc, and_assoc]

theorem symbols_le {offset : Nat} {fragments : List (Fragment ι β)} {symbol : ι × Nat}
    (member : symbol ∈ symbols offset fragments) :
    symbol.2 ≤ offset + (dataBytes fragments).length := by
  induction fragments generalizing offset with
  | nil => cases member
  | cons fragment fragments ih =>
      rw [dataBytes_cons, List.length_append]
      rcases List.mem_append.mp member with here | later
      · obtain ⟨name, -, rfl⟩ := List.mem_map.mp here
        exact Nat.le_add_right _ _
      · have bound := ih later
        omega

theorem Fragment.names_nodup (fragment : Fragment ι β) : fragment.names.Nodup := by
  cases fragment with
  | code bytes => exact List.nodup_nil
  | reference name patch => exact List.nodup_nil
  | data name bytes => exact List.nodup_singleton name

section Snoc

variable (fragments : List (Fragment ι β)) (fragment : Fragment ι β)

theorem textSize_snoc :
    textSize (fragments ++ [fragment]) = textSize fragments + fragment.textSize := by
  simp [textSize]

theorem dataBytes_snoc :
    dataBytes (fragments ++ [fragment]) = dataBytes fragments ++ fragment.dataBytes := by
  simp [dataBytes]

theorem names_snoc : names (fragments ++ [fragment]) = names fragments ++ fragment.names := by
  simp [names]

theorem text_snoc (place : ι → Int) (offset : Nat) :
    text place offset (fragments ++ [fragment]) =
      text place offset fragments ++ fragment.emit place (offset + textSize fragments) := by
  rw [text_append, text, text, List.append_nil]

end Snoc

theorem Defined.mem {known : List ι} {fragments : List (Fragment ι β)}
    (defined : Defined known fragments) {name : ι} (used : name ∈ uses fragments) :
    name ∈ known ++ names fragments := by
  induction fragments generalizing known with
  | nil => cases used
  | cons fragment fragments ih =>
      obtain ⟨first, rest⟩ := defined
      rcases List.mem_append.mp used with now | later
      · exact List.mem_append_left _ (first name now)
      · rw [names_cons, ← List.append_assoc]
        exact ih rest later

theorem Defined.mono {known known' : List ι} {fragments : List (Fragment ι β)}
    (defined : Defined known fragments) (more : known ⊆ known') : Defined known' fragments := by
  induction fragments generalizing known known' with
  | nil => trivial
  | cons fragment fragments ih =>
      obtain ⟨first, rest⟩ := defined
      exact ⟨fun name used => more (first name used),
        ih rest (List.append_subset.mpr
          ⟨List.subset_append_of_subset_left _ more, List.subset_append_right _ _⟩)⟩

theorem defined_iff {known : List ι} {fragments : List (Fragment ι β)} :
    Defined known fragments ↔ ∀ before fragment after,
      fragments = before ++ fragment :: after →
        ∀ name ∈ fragment.uses, name ∈ known ++ names before := by
  constructor
  · rintro defined before fragment after rfl
    exact (defined_append.mp defined).2.1
  · intro every
    induction fragments generalizing known with
    | nil => trivial
    | cons fragment fragments ih =>
        have first := every [] fragment fragments rfl
        rw [names, List.flatMap_nil, List.append_nil] at first
        refine ⟨first, ih ?_⟩
        rintro before other after rfl name used
        have later := every (fragment :: before) other after rfl name used
        rwa [names_cons, ← List.append_assoc] at later

/-- Code depends on the distances of the names that it uses only. -/
theorem text_congr {place place' : ι → Int} {offset offset' : Nat}
    {fragments : List (Fragment ι β)}
    (same : ∀ name ∈ uses fragments, place name - offset = place' name - offset') :
    text place offset fragments = text place' offset' fragments := by
  induction fragments generalizing offset offset' with
  | nil => rfl
  | cons fragment fragments ih =>
      have first : fragment.emit place offset = fragment.emit place' offset' := by
        cases fragment with
        | code bytes => rfl
        | data name bytes => rfl
        | reference name patch =>
            rw [Fragment.emit, Fragment.emit,
              same name (List.mem_append_left _ (List.mem_singleton_self name))]
      have rest := @ih (offset + fragment.textSize) (offset' + fragment.textSize)
        (fun name used => by
          have known := same name (List.mem_append_right _ used)
          push_cast
          omega)
      rw [text, text, first, rest]

end Fragments

section Code

variable {ι β : Type*} (codes : List (List β))

theorem text_code (place : ι → Int) (offset : Nat) :
    text place offset (codes.map .code) = codes.flatten := by
  induction codes generalizing offset with
  | nil => rfl
  | cons code codes ih =>
      rw [List.map_cons, text, ih, List.flatten_cons]
      rfl

theorem names_code : names (codes.map (.code : List β → Fragment ι β)) = [] := by
  simp [names, Fragment.names]

theorem dataBytes_code : dataBytes (codes.map (.code : List β → Fragment ι β)) = [] := by
  simp [dataBytes, Fragment.dataBytes]

theorem defined_code (known : List ι) :
    Defined known (codes.map (.code : List β → Fragment ι β)) := by
  induction codes generalizing known with
  | nil => trivial
  | cons code codes ih => exact ⟨fun name used => absurd used List.not_mem_nil, ih _⟩

end Code

section Data

variable {ι β : Type*} (entries : List (ι × List β))

def dataFragments : List (Fragment ι β) :=
  entries.map (fun entry => .data entry.1 entry.2)

theorem textSize_data : textSize (dataFragments entries) = 0 := by
  simp [textSize, dataFragments, Function.comp_def, Fragment.textSize]

theorem text_data (place : ι → Int) (offset : Nat) :
    text place offset (dataFragments entries) = [] := by
  rw [← List.length_eq_zero_iff, text_length, textSize_data]

theorem dataBytes_data : dataBytes (dataFragments entries) = entries.flatMap Prod.snd := by
  rw [dataBytes, dataFragments, List.flatMap_map]
  rfl

theorem names_data : names (dataFragments entries) = entries.map Prod.fst := by
  rw [names, dataFragments, List.flatMap_map]
  exact List.flatMap_pure_eq_map Prod.fst entries

theorem defined_data (known : List ι) : Defined known (dataFragments entries) := by
  induction entries generalizing known with
  | nil => trivial
  | cons entry entries ih => exact ⟨fun name used => absurd used List.not_mem_nil, ih _⟩

end Data

/-! ### Linked images -/

section Linking

variable {ι β : Type*} [DecidableEq ι]

def lookup (fragments : List (Fragment ι β)) (name : ι) : Option Nat :=
  ((symbols 0 fragments).find? (fun symbol => symbol.1 = name)).map Prod.snd

/-- Where a name stands in the image: its data is behind all of the code. -/
def place (fragments : List (Fragment ι β)) (name : ι) : Int :=
  textSize fragments + ((lookup fragments name).getD 0 : Nat)

def linkedText (fragments : List (Fragment ι β)) : List β :=
  text (place fragments) 0 fragments

theorem lookup_isSome_iff {fragments : List (Fragment ι β)} {name : ι} :
    (lookup fragments name).isSome ↔ name ∈ names fragments := by
  rw [lookup, Option.isSome_map, List.find?_isSome, ← symbols_names 0 fragments, List.mem_map]
  simp

theorem lookup_le {fragments : List (Fragment ι β)} {name : ι} {offset : Nat}
    (found : lookup fragments name = some offset) : offset ≤ (dataBytes fragments).length := by
  obtain ⟨symbol, entry, rfl⟩ := Option.map_eq_some_iff.mp found
  have bound := symbols_le (List.mem_of_find?_eq_some entry)
  omega

theorem lookup_append_of_mem {first : List (Fragment ι β)} {name : ι}
    (known : name ∈ names first) (second : List (Fragment ι β)) :
    lookup (first ++ second) name = lookup first name := by
  obtain ⟨offset, found⟩ := Option.isSome_iff_exists.mp (lookup_isSome_iff.mpr known)
  obtain ⟨symbol, entry, rfl⟩ := Option.map_eq_some_iff.mp found
  rw [lookup, lookup, symbols_append, List.find?_append, entry, Option.some_or]

theorem lookup_append_of_not_mem {first : List (Fragment ι β)} {name : ι}
    (unknown : name ∉ names first) (second : List (Fragment ι β)) :
    lookup (first ++ second) name =
      (lookup second name).map (fun offset => (dataBytes first).length + offset) := by
  have absent : (symbols 0 first).find? (fun symbol => symbol.1 = name) = none := by
    rw [List.find?_eq_none]
    intro symbol member same
    refine unknown ?_
    rw [← symbols_names 0 first, ← of_decide_eq_true same]
    exact List.mem_map_of_mem member
  have shifted := symbols_shift (dataBytes first).length 0 second
  rw [Nat.add_zero] at shifted
  rw [lookup, lookup, symbols_append, List.find?_append, absent, Option.none_or, Nat.zero_add,
    shifted, List.find?_map, Option.map_map, Option.map_map]
  rfl

end Linking

end Relocation
