/-
Character strings of the C library.

A C string is the list of its characters before the terminating NUL, and a
`char` is the character with its code.  Only the functions a line-oriented
program calls are here: blanks, delimiters, field splitting, bounded copies and
the buffered reading of lines.
-/

import Mathlib

namespace Stdio

abbrev CString := List Char

/-- `isspace` in the C locale: the space and the codes 9 to 13. -/
def isspace (c : Char) : Bool :=
  c == ' ' || (9 ≤ c.toNat && c.toNat ≤ 13)

def skipBlanks (s : CString) : CString :=
  s.dropWhile isspace

/-- `p + strcspn(p, stop)`: the tail that begins at the first character of
`stop`. -/
def afterSpan (stop : List Char) (s : CString) : CString :=
  s.dropWhile (fun c => c ∉ stop)

/-- What `snprintf(buf, size, "%s", s)` leaves in a buffer of `size` bytes. -/
def snprintf (size : Nat) (s : CString) : CString :=
  s.take (size - 1)

/-- The tokens that a first `strtok(s, delim)` and then repeated
`strtok(NULL, delim)` return: empty fields are skipped. -/
def strtok (delim : Char) (s : CString) : List CString :=
  (s.splitOn delim).filter (fun field => field ≠ [])

/-- `strchr(s, c)`, as the text after the first `c`. -/
def afterFirst (c : Char) : CString → Option CString
  | [] => none
  | d :: s => if d = c then some s else afterFirst c s

/-- `strrchr(s, c)`, as the text before the last `c`. -/
def beforeLast (c : Char) : CString → Option CString
  | [] => none
  | d :: s =>
      match beforeLast c s with
      | some init => some (d :: init)
      | none => if d = c then some [] else none

/-- `fgets` on a buffer with room for `room` characters: the characters stored
and the rest of the stream. -/
def fgets : Nat → List Char → List Char × List Char
  | 0, stream => ([], stream)
  | _ + 1, [] => ([], [])
  | room + 1, c :: stream =>
      if c = '\n' then ([c], stream)
      else (c :: (fgets room stream).1, (fgets room stream).2)

/-- `while (fgets(buf, size, fp))`, at most `fuel` times. -/
def fgetsLoop (size : Nat) : Nat → List Char → List (List Char)
  | 0, _ => []
  | _ + 1, [] => []
  | fuel + 1, c :: stream =>
      let read := fgets (size - 1) (c :: stream)
      read.1 :: fgetsLoop size fuel read.2

def cstring (buffer : List Char) : CString :=
  buffer.takeWhile (fun c => c ≠ '\x00')

/-- Every buffer of a `while (fgets(buf, size, fp))` loop, as a string.  Each
call takes a character, so the length of the stream is enough fuel. -/
def fgetsLines (size : Nat) (stream : List Char) : List CString :=
  (fgetsLoop size stream.length stream).map cstring

theorem fgets_append (room : Nat) (stream : List Char) :
    (fgets room stream).1 ++ (fgets room stream).2 = stream := by
  induction room generalizing stream with
  | zero => rfl
  | succ room ih =>
      cases stream with
      | nil => rfl
      | cons c stream =>
          by_cases newline : c = '\n'
          · simp [fgets, newline]
          · simp [fgets, newline, ih stream]

theorem fgets_length_le (room : Nat) (stream : List Char) :
    (fgets room stream).1.length ≤ room := by
  induction room generalizing stream with
  | zero => simp [fgets]
  | succ room ih =>
      cases stream with
      | nil => simp [fgets]
      | cons c stream =>
          by_cases newline : c = '\n'
          · simp [fgets, newline]
          · have bound := ih stream
            simp [fgets, newline]
            exact bound

theorem fgets_rest_length (room : Nat) (c : Char) (stream : List Char) :
    (fgets (room + 1) (c :: stream)).2.length ≤ stream.length := by
  have joined := congrArg List.length (fgets_append (room + 1) (c :: stream))
  have taken : 1 ≤ (fgets (room + 1) (c :: stream)).1.length := by
    by_cases newline : c = '\n' <;> simp [fgets, newline]
  simp only [List.length_append, List.length_cons] at joined
  omega

/-- Any fuel from the length of the stream on reads the same lines. -/
theorem fgetsLoop_fuel (size : Nat) (hsize : 2 ≤ size) (fuel : Nat)
    (stream : List Char) (enough : stream.length ≤ fuel) :
    fgetsLoop size fuel stream = fgetsLoop size stream.length stream := by
  induction fuel using Nat.strong_induction_on generalizing stream with
  | _ fuel ih =>
      cases stream with
      | nil => cases fuel <;> rfl
      | cons c stream =>
          obtain ⟨fuel, rfl⟩ : ∃ smaller, fuel = smaller + 1 :=
            ⟨fuel - 1, by simp only [List.length_cons] at enough; omega⟩
          obtain ⟨room, hroom⟩ : ∃ room, size - 1 = room + 1 := ⟨size - 2, by omega⟩
          have rest := fgets_rest_length room c stream
          simp only [List.length_cons] at enough
          simp only [fgetsLoop, List.length_cons, hroom]
          congr 1
          rw [ih fuel (Nat.lt_succ_self fuel) _ (by omega)]
          by_cases last : stream.length = fuel
          · rw [last] at rest ⊢
            exact (ih fuel (Nat.lt_succ_self fuel) _ (by omega)).symm
          · exact (ih stream.length (by omega) _ (by omega)).symm

theorem fgetsLines_nil (size : Nat) : fgetsLines size [] = [] := rfl

theorem fgetsLines_cons (size : Nat) (hsize : 2 ≤ size) (c : Char) (stream : List Char) :
    fgetsLines size (c :: stream) =
      cstring (fgets (size - 1) (c :: stream)).1 ::
        fgetsLines size (fgets (size - 1) (c :: stream)).2 := by
  obtain ⟨room, hroom⟩ : ∃ room, size - 1 = room + 1 := ⟨size - 2, by omega⟩
  have rest := fgets_rest_length room c stream
  simp only [fgetsLines, List.length_cons, fgetsLoop, hroom, List.map_cons]
  rw [fgetsLoop_fuel size hsize stream.length _ (by simpa using rest)]

/-! ### Joined streams -/

/-- A stream that ends with a newline is read to its end before what follows. -/
theorem fgets_of_ended (room : Nat) {first : List Char} (ended : first.getLast? = some '\n')
    (second : List Char) :
    fgets room (first ++ second) = ((fgets room first).1, (fgets room first).2 ++ second) ∧
      ((fgets room first).2 = [] ∨ (fgets room first).2.getLast? = some '\n') := by
  induction room generalizing first with
  | zero => exact ⟨rfl, Or.inr ended⟩
  | succ room ih =>
      cases first with
      | nil => cases ended
      | cons c rest =>
          have last : rest = [] ∨ rest.getLast? = some '\n' := by
            cases rest with
            | nil => exact Or.inl rfl
            | cons d rest => exact Or.inr (by rwa [List.getLast?_cons_cons] at ended)
          by_cases newline : c = '\n'
          · simp only [fgets, List.cons_append, if_pos newline]
            exact ⟨trivial, last⟩
          · have more : rest.getLast? = some '\n' := by
              apply last.resolve_left
              rintro rfl
              exact newline (Option.some.inj ended)
            obtain ⟨same, left⟩ := ih more
            simp only [fgets, List.cons_append, if_neg newline, same]
            exact ⟨trivial, left⟩

theorem fgetsLines_append {size : Nat} (hsize : 2 ≤ size) {first : List Char}
    (ended : first = [] ∨ first.getLast? = some '\n') (second : List Char) :
    fgetsLines size (first ++ second) = fgetsLines size first ++ fgetsLines size second := by
  induction length : first.length using Nat.strong_induction_on generalizing first with
  | _ n ih =>
      cases first with
      | nil => rfl
      | cons c rest =>
          obtain ⟨room, hroom⟩ : ∃ room, size - 1 = room + 1 := ⟨size - 2, by omega⟩
          obtain ⟨same, left⟩ := fgets_of_ended (size - 1) (ended.resolve_left (by simp)) second
          have shorter := fgets_rest_length room c rest
          rw [← hroom] at shorter
          rw [List.length_cons] at length
          rw [fgetsLines_cons size hsize, List.cons_append, fgetsLines_cons size hsize,
            ← List.cons_append, same, List.cons_append, ih _ (by omega) left rfl]

theorem fgetsLines_flatten {size : Nat} (hsize : 2 ≤ size) {parts : List (List Char)}
    (ended : ∀ part ∈ parts.dropLast, part = [] ∨ part.getLast? = some '\n') :
    fgetsLines size parts.flatten = (parts.map (fgetsLines size)).flatten := by
  induction parts with
  | nil => rfl
  | cons part parts ih =>
      cases parts with
      | nil => simp
      | cons next parts =>
          have first := ended part (by simp)
          have rest := ih (fun other member => ended other (by simp [member]))
          rw [List.flatten_cons, fgetsLines_append hsize first, rest]
          rfl

/-- A line that fits is read whole. -/
theorem fgets_line {room : Nat} {line : List Char} (fits : line.length ≤ room)
    (single : '\n' ∉ line.dropLast) : fgets room line = (line, []) := by
  induction line generalizing room with
  | nil => cases room <;> rfl
  | cons c line ih =>
      rw [List.length_cons] at fits
      obtain ⟨room, rfl⟩ : ∃ smaller, room = smaller + 1 := ⟨room - 1, by omega⟩
      cases line with
      | nil => cases room <;> simp [fgets]
      | cons d line =>
          rw [List.dropLast_cons_of_ne_nil (List.cons_ne_nil d line), List.mem_cons,
            not_or] at single
          rw [fgets, if_neg (Ne.symm single.1), ih (by omega) single.2]

theorem fgetsLines_line {size : Nat} (hsize : 2 ≤ size) {line : List Char} (nonempty : line ≠ [])
    (fits : line.length < size) (single : '\n' ∉ line.dropLast) :
    fgetsLines size line = [cstring line] := by
  obtain ⟨c, rest, rfl⟩ := List.exists_cons_of_ne_nil nonempty
  rw [fgetsLines_cons size hsize, fgets_line (by omega) single, fgetsLines_nil]

/-- One more newline at the end of a stream lengthens its last buffer or makes a
buffer of its own. -/
theorem fgets_newline (room : Nat) (stream : List Char) :
    fgets room (stream ++ ['\n']) =
        ((fgets room stream).1, (fgets room stream).2 ++ ['\n']) ∨
      (fgets room stream = (stream, []) ∧
        fgets room (stream ++ ['\n']) = (stream ++ ['\n'], [])) := by
  induction room generalizing stream with
  | zero => exact Or.inl rfl
  | succ room ih =>
      cases stream with
      | nil => exact Or.inr ⟨rfl, rfl⟩
      | cons c stream =>
          by_cases newline : c = '\n'
          · left
            simp only [fgets, List.cons_append, if_pos newline]
          · simp only [fgets, List.cons_append, if_neg newline]
            rcases ih stream with split | ⟨whole, longer⟩
            · left
              rw [split]
            · right
              rw [whole, longer]
              exact ⟨rfl, rfl⟩

theorem cstring_length_le (buffer : List Char) : (cstring buffer).length ≤ buffer.length := by
  have cut := List.takeWhile_append_dropWhile (p := fun c => decide (c ≠ '\x00')) (l := buffer)
  have lengths := congrArg List.length cut
  rw [List.length_append] at lengths
  rw [cstring]
  omega

/-- A line has room for the terminating NUL in its buffer. -/
theorem fgetsLines_length_lt {size : Nat} (hsize : 2 ≤ size) {stream : List Char} {line : CString}
    (member : line ∈ fgetsLines size stream) : line.length < size := by
  induction length : stream.length using Nat.strong_induction_on generalizing stream with
  | _ n ih =>
      cases stream with
      | nil =>
          rw [fgetsLines_nil] at member
          cases member
      | cons c stream =>
          obtain ⟨room, hroom⟩ : ∃ room, size - 1 = room + 1 := ⟨size - 2, by omega⟩
          rw [fgetsLines_cons size hsize] at member
          rcases List.mem_cons.mp member with rfl | later
          · have read := fgets_length_le (size - 1) (c :: stream)
            have cut := cstring_length_le (fgets (size - 1) (c :: stream)).1
            omega
          · have rest := fgets_rest_length room c stream
            rw [← hroom] at rest
            rw [List.length_cons] at length
            exact ih _ (by omega) later rfl

end Stdio
