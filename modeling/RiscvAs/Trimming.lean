/-
Trimmed lines: `string_trim` drops the blanks on both sides, in either order.
-/

import RiscvAs.Stdio.Appended
import RiscvAs.SourceLines

namespace RiscvAs

open Stdio

theorem rdropWhile_append_cons {p : Char → Bool} (front : List Char) {c : Char}
    (kept : p c = false) (rest : List Char) :
    (front ++ c :: rest).rdropWhile p = front ++ c :: rest.rdropWhile p := by
  have stops : ((c :: front.reverse).dropWhile p) = c :: front.reverse := by
    simp [kept]
  simp only [List.rdropWhile, List.reverse_append, List.reverse_cons, List.append_assoc,
    List.singleton_append]
  rw [List.dropWhile_append]
  split
  · rename_i empty
    rw [stops, List.isEmpty_iff.mp empty]
    simp
  · simp

theorem dropWhile_rdropWhile (p : Char → Bool) (s : List Char) :
    (s.rdropWhile p).dropWhile p = (s.dropWhile p).rdropWhile p := by
  obtain ⟨blanks, after, rfl, accepted, stops⟩ := takeWhile_decompose p s
  have dropped : (blanks ++ after).dropWhile p = after := dropWhile_append_stops accepted stops
  rw [dropped]
  cases after with
  | nil =>
      have all : (blanks ++ []).rdropWhile p = [] := by
        rw [List.append_nil, List.rdropWhile_eq_nil_iff]
        exact accepted
      rw [all]
      rfl
  | cons c after =>
      have kept := (stops_cons p c after).mp stops
      rw [rdropWhile_append_cons blanks kept, dropWhile_append_stops accepted (by simpa using kept),
        ← List.nil_append (c :: after), rdropWhile_append_cons [] kept, List.nil_append]

theorem stringTrim_eq (s : CString) : stringTrim s = (skipBlanks s).rdropWhile isspace := by
  unfold stringTrim
  split
  · rename_i empty
    subst empty
    rfl
  · rfl

theorem rdropWhile_append_blanks (text : List Char) {blanks : List Char}
    (allBlank : ∀ c ∈ blanks, isspace c = true) :
    (text ++ blanks).rdropWhile isspace = text.rdropWhile isspace := by
  have front : ∀ c ∈ blanks.reverse, isspace c = true :=
    fun c member => allBlank c (List.mem_reverse.mp member)
  rw [List.rdropWhile, List.reverse_append, List.dropWhile_append_of_pos front]
  rfl

/-- Blanks at the end of a text are trimmed, also when there is nothing else. -/
theorem stringTrim_append_blanks (text : CString) {blanks : CString}
    (allBlank : ∀ c ∈ blanks, isspace c = true) :
    stringTrim (text ++ blanks) = stringTrim text := by
  rw [stringTrim_eq, stringTrim_eq]
  by_cases given : skipBlanks text = []
  · rw [given, skipBlanks, dropWhile_append_of_all given, List.dropWhile_eq_nil_iff.mpr allBlank]
  · rw [skipBlanks_append given, rdropWhile_append_blanks _ allBlank]

theorem cstring_append {front : List Char} (noNul : ∀ c ∈ front, c ≠ '\x00') (rest : List Char) :
    cstring (front ++ rest) = front ++ cstring rest :=
  List.takeWhile_append_of_pos (fun c member => by simpa using noNul c member)

theorem stringTrim_space (s : CString) : stringTrim (' ' :: s) = stringTrim s := by
  rw [stringTrim_eq, stringTrim_eq, skipBlanks_space]

/-- A line that begins with `#` after its blanks is no source line. -/
theorem turnOf_comment {buffer : CString} (marked : (skipBlanks buffer).head? = some '#') :
    turnOf buffer = .ignored := by
  obtain ⟨tail, text⟩ := List.head?_eq_some_iff.mp marked
  have trimmed : stringTrim buffer = '#' :: tail.rdropWhile isspace := by
    rw [stringTrim_eq, text, ← List.nil_append ('#' :: tail),
      rdropWhile_append_cons [] (by decide), List.nil_append]
  rw [turnOf, trimmed]
  rfl

end RiscvAs
