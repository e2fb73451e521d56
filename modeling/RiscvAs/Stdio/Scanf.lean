/-
`sscanf` of the C library, one conversion at a time.

A format is a list of directives.  A conversion either fails, which ends the
scan, or stores its values and leaves the unread text; `sscanf` returns the
values stored so far, so its return value in C is the length of that list (or
EOF, which no caller compares with a positive count).  The integer conversions
follow glibc: `0x` with no digit after it reads as zero, and a value that does
not fit saturates as in `strtol` and `strtoul`.
-/

import RiscvAs.Stdio.Text

namespace Stdio

inductive Directive where
  | blank
  | char (c : Char)
  /-- `%*s` -/
  | skipToken
  /-- `%s`, or `%ns` with a width. -/
  | token (width : Option Nat)
  /-- `%n[^stop]` -/
  | set (width : Nat) (stop : List Char)
  /-- `%li` or `%lli`, for a signed type of `bits` bits. -/
  | int (bits : Nat)
  /-- `%hhu`, through an `unsigned long` of `bits` bits. -/
  | hhu (bits : Nat)
  | anyChar
  deriving DecidableEq, Repr

inductive Value where
  | str (text : CString)
  | int (value : Int)
  | char (c : Char)
  deriving DecidableEq, Repr

def digitValue (c : Char) : Option Nat :=
  if '0' ≤ c ∧ c ≤ '9' then some (c.toNat - '0'.toNat)
  else if 'a' ≤ c ∧ c ≤ 'f' then some (c.toNat - 'a'.toNat + 10)
  else if 'A' ≤ c ∧ c ≤ 'F' then some (c.toNat - 'A'.toNat + 10)
  else none

def isDigitOf (base : Nat) (c : Char) : Bool :=
  match digitValue c with
  | some value => value < base
  | none => false

/-- Value of a digit string after the digits already read as `initial`. -/
def digitsValue (base initial : Nat) (digits : List Char) : Nat :=
  digits.foldl (fun value c => base * value + (digitValue c).getD 0) initial

def scanDigits (base : Nat) (s : CString) : Nat × CString :=
  (digitsValue base 0 (s.takeWhile (isDigitOf base)), s.dropWhile (isDigitOf base))

def scanSign : CString → Bool × CString
  | '-' :: s => (true, s)
  | '+' :: s => (false, s)
  | s => (false, s)

/-- The digits of a number.  Base 0 takes the base from the prefix: `0x` or
`0X` for 16, `0` for 8, and 10 otherwise. -/
def scanMagnitude (base : Nat) : CString → Option (Nat × CString)
  | [] => none
  | '0' :: s =>
      if base = 0 then
        match s with
        | [] => some (0, [])
        | x :: rest =>
            if x = 'x' ∨ x = 'X' then some (scanDigits 16 rest)
            else some (scanDigits 8 (x :: rest))
      else some (scanDigits base s)
  | c :: s =>
      let base := if base = 0 then 10 else base
      if isDigitOf base c then some (scanDigits base (c :: s)) else none

/-- `strtol` for a type of `bits` bits: the value saturates at its limits. -/
def saturate (bits : Nat) (value : Int) : Int :=
  max (-(2 ^ (bits - 1) : Int)) (min (2 ^ (bits - 1) - 1 : Int) value)

/-- `strtoul` for a type of `bits` bits, then the conversion to `unsigned
char`. -/
def toUnsignedChar (bits : Nat) (negative : Bool) (magnitude : Nat) : Nat :=
  (if 2 ^ bits ≤ magnitude then 2 ^ bits - 1
   else if negative then (2 ^ bits - magnitude) % 2 ^ bits
   else magnitude) % 256

def limit : Option Nat → CString → CString
  | none, s => s
  | some width, s => s.take width

/-- A nonempty run of the text, cut at the width, and the text after it. -/
def scanRun (width : Option Nat) (accept : Char → Bool) (s : CString) :
    Option (CString × CString) :=
  let run := limit width (s.takeWhile accept)
  if run = [] then none else some (run, s.drop run.length)

def scanNumber (base : Nat) (s : CString) : Option (Bool × Nat × CString) :=
  let signed := scanSign (skipBlanks s)
  (scanMagnitude base signed.2).map (fun read => (signed.1, read.1, read.2))

def signedValue (negative : Bool) (magnitude : Nat) : Int :=
  if negative then -(magnitude : Int) else magnitude

def convert : Directive → CString → Option (List Value × CString)
  | .blank, s => some ([], skipBlanks s)
  | .char _, [] => none
  | .char c, d :: s => if d = c then some ([], s) else none
  | .skipToken, s =>
      (scanRun none (fun c => !isspace c) (skipBlanks s)).map (fun read => ([], read.2))
  | .token width, s =>
      (scanRun width (fun c => !isspace c) (skipBlanks s)).map
        (fun read => ([.str read.1], read.2))
  | .set width stop, s =>
      (scanRun (some width) (fun c => c ∉ stop) s).map (fun read => ([.str read.1], read.2))
  | .int bits, s =>
      (scanNumber 0 s).map
        (fun read => ([.int (saturate bits (signedValue read.1 read.2.1))], read.2.2))
  | .hhu bits, s =>
      (scanNumber 10 s).map
        (fun read => ([.int (toUnsignedChar bits read.1 read.2.1)], read.2.2))
  | .anyChar, [] => none
  | .anyChar, c :: s => some ([.char c], s)

def sscanf : List Directive → CString → List Value
  | [], _ => []
  | directive :: format, s =>
      match convert directive s with
      | none => []
      | some (values, rest) => values ++ sscanf format rest

example : sscanf [.skipToken, .blank, .set 4 [','], .char ',', .blank, .int 64]
    "li  a0, -0x10 # sixteen".toList = [.str ['a', '0'], .int (-16)] := by decide

theorem sscanf_convert {directive : Directive} {s rest : CString} {values : List Value}
    (read : convert directive s = some (values, rest)) (format : List Directive) :
    sscanf (directive :: format) s = values ++ sscanf format rest := by
  simp only [sscanf, read]

theorem sscanf_fail {directive : Directive} {s : CString}
    (failed : convert directive s = none) (format : List Directive) :
    sscanf (directive :: format) s = [] := by
  simp only [sscanf, failed]

/-! ### What a conversion reads -/

def Stops (accept : Char → Bool) (s : CString) : Prop :=
  ∀ c ∈ s.head?, accept c = false

@[simp] theorem stops_nil (accept : Char → Bool) : Stops accept [] := by
  intro c member
  cases member

@[simp] theorem stops_cons (accept : Char → Bool) (c : Char) (s : CString) :
    Stops accept (c :: s) ↔ accept c = false := by
  simp [Stops]

/-- What follows the first character of a text plays no part. -/
theorem stops_append {accept : Char → Bool} {run : CString} (nonempty : run ≠ [])
    (rest : CString) : Stops accept (run ++ rest) ↔ Stops accept run := by
  cases run with
  | nil => exact absurd rfl nonempty
  | cons c run => rw [List.cons_append, stops_cons, stops_cons]

theorem stops_of_rejected {accept : Char → Bool} {s : CString}
    (rejected : ∀ c ∈ s, accept c = false) : Stops accept s := by
  intro c first
  exact rejected c (List.mem_of_mem_head? first)

theorem takeWhile_append_stops {accept : Char → Bool} {run rest : CString}
    (accepted : ∀ c ∈ run, accept c = true) (stops : Stops accept rest) :
    (run ++ rest).takeWhile accept = run := by
  rw [List.takeWhile_append_of_pos accepted]
  cases rest with
  | nil => simp
  | cons c rest => simp [(stops_cons accept c rest).mp stops]

theorem dropWhile_append_stops {accept : Char → Bool} {run rest : CString}
    (accepted : ∀ c ∈ run, accept c = true) (stops : Stops accept rest) :
    (run ++ rest).dropWhile accept = rest := by
  rw [List.dropWhile_append_of_pos accepted]
  cases rest with
  | nil => rfl
  | cons c rest => simp [(stops_cons accept c rest).mp stops]

theorem stops_dropWhile (accept : Char → Bool) (s : CString) :
    Stops accept (s.dropWhile accept) := by
  intro c member
  have first := List.head?_dropWhile_not accept s
  rw [Option.mem_def.mp member] at first
  simpa using first

theorem skipBlanks_of_stops {s : CString} (stops : Stops isspace s) : skipBlanks s = s := by
  cases s with
  | nil => rfl
  | cons c s => simp [skipBlanks, (stops_cons isspace c s).mp stops]

theorem stops_skipBlanks (s : CString) : Stops isspace (skipBlanks s) :=
  stops_dropWhile isspace s

theorem skipBlanks_skipBlanks (s : CString) : skipBlanks (skipBlanks s) = skipBlanks s :=
  skipBlanks_of_stops (stops_skipBlanks s)

@[simp] theorem skipBlanks_space (s : CString) : skipBlanks (' ' :: s) = skipBlanks s := by
  simp [skipBlanks, isspace]

theorem scanRun_append {width : Option Nat} {accept : Char → Bool} {run rest : CString}
    (nonempty : run ≠ []) (accepted : ∀ c ∈ run, accept c = true)
    (fits : ∀ w ∈ width, run.length ≤ w) (stops : Stops accept rest) :
    scanRun width accept (run ++ rest) = some (run, rest) := by
  have limited : limit width run = run := by
    cases width with
    | none => rfl
    | some w => exact List.take_of_length_le (fits w rfl)
  simp only [scanRun, takeWhile_append_stops accepted stops, limited, if_neg nonempty,
    List.drop_left]

theorem takeWhile_decompose (accept : Char → Bool) (s : CString) :
    ∃ run rest, s = run ++ rest ∧ (∀ c ∈ run, accept c = true) ∧ Stops accept rest :=
  ⟨s.takeWhile accept, s.dropWhile accept, List.takeWhile_append_dropWhile.symm,
    fun _ member => List.mem_takeWhile_imp member, stops_dropWhile accept s⟩

theorem scanRun_some {width : Option Nat} {accept : Char → Bool} {s run rest : CString}
    (read : scanRun width accept s = some (run, rest)) :
    s = run ++ rest ∧ run ≠ [] ∧ (∀ c ∈ run, accept c = true) ∧
      (∀ w ∈ width, run.length ≤ w) ∧ (Stops accept rest ∨ width = some run.length) := by
  obtain ⟨whole, after, rfl, accepted, stops⟩ := takeWhile_decompose accept s
  simp only [scanRun, takeWhile_append_stops accepted stops] at read
  split at read
  · cases read
  · rename_i nonempty
    obtain ⟨rfl, rfl⟩ := Prod.mk.inj (Option.some.inj read)
    cases width with
    | none =>
        refine ⟨by simp [limit], nonempty, accepted, by simp, Or.inl ?_⟩
        simpa [limit] using stops
    | some w =>
        refine ⟨?_, nonempty, fun c member => accepted c (List.mem_of_mem_take member), ?_, ?_⟩
        · by_cases short : whole.length ≤ w
          · simp [limit, List.take_of_length_le short]
          · have long : w ≤ whole.length := Nat.le_of_not_le short
            simp [limit, Nat.min_eq_left long, List.drop_append_of_le_length long,
              ← List.append_assoc]
        · intro w' member
          cases member
          simp [limit]
        · by_cases short : whole.length ≤ w
          · left
            simpa [limit, List.take_of_length_le short] using stops
          · right
            simp [limit, Nat.min_eq_left (Nat.le_of_not_le short)]

section Reading

variable (format : List Directive)

theorem sscanf_blank (s : CString) : sscanf (.blank :: format) s = sscanf format (skipBlanks s) :=
  sscanf_convert (show convert .blank s = some ([], skipBlanks s) from rfl) format

theorem sscanf_char (c : Char) (s : CString) :
    sscanf (.char c :: format) (c :: s) = sscanf format s :=
  sscanf_convert (show convert (.char c) (c :: s) = some ([], s) by simp [convert]) format

theorem sscanf_char_ne {c d : Char} (different : d ≠ c) (s : CString) :
    sscanf (.char c :: format) (d :: s) = [] :=
  sscanf_fail (by simp [convert, different]) format

variable {run rest : CString} (nonempty : run ≠ [])

include nonempty

theorem sscanf_skipToken (noBlank : ∀ c ∈ run, isspace c = false)
    (stops : Stops (fun c => !isspace c) rest) :
    sscanf (.skipToken :: format) (run ++ rest) = sscanf format rest := by
  have front : Stops isspace (run ++ rest) :=
    (stops_append nonempty rest).mpr (stops_of_rejected noBlank)
  have read : scanRun none (fun c => !isspace c) (run ++ rest) = some (run, rest) :=
    scanRun_append nonempty (fun c member => by simp [noBlank c member]) (by simp) stops
  have converted : convert .skipToken (run ++ rest) = some ([], rest) := by
    simp only [convert, skipBlanks_of_stops front, read, Option.map_some]
  exact sscanf_convert converted format

theorem sscanf_token {width : Option Nat} (noBlank : ∀ c ∈ run, isspace c = false)
    (fits : ∀ w ∈ width, run.length ≤ w) (stops : Stops (fun c => !isspace c) rest) :
    sscanf (.token width :: format) (run ++ rest) = .str run :: sscanf format rest := by
  have front : Stops isspace (run ++ rest) :=
    (stops_append nonempty rest).mpr (stops_of_rejected noBlank)
  have read : scanRun width (fun c => !isspace c) (run ++ rest) = some (run, rest) :=
    scanRun_append nonempty (fun c member => by simp [noBlank c member]) fits stops
  have converted : convert (.token width) (run ++ rest) = some ([.str run], rest) := by
    simp only [convert, skipBlanks_of_stops front, read, Option.map_some]
  exact sscanf_convert converted format

theorem sscanf_set {width : Nat} {stop : List Char} (accepted : ∀ c ∈ run, c ∉ stop)
    (fits : run.length ≤ width) (stops : Stops (fun c => c ∉ stop) rest) :
    sscanf (.set width stop :: format) (run ++ rest) = .str run :: sscanf format rest := by
  have read : scanRun (some width) (fun c => decide (c ∉ stop)) (run ++ rest) =
      some (run, rest) :=
    scanRun_append nonempty (fun c member => by simpa using accepted c member)
      (by intro w member; cases member; exact fits) stops
  have converted : convert (.set width stop) (run ++ rest) = some ([.str run], rest) := by
    simp only [convert, read, Option.map_some]
  exact sscanf_convert converted format

end Reading

section Scanned

variable {format : List Directive} {s : CString} {v : Value} {vs : List Value}

theorem sscanf_eq_cons {directive : Directive}
    (scanned : sscanf (directive :: format) s = v :: vs) :
    ∃ values rest, convert directive s = some (values, rest) ∧
      values ++ sscanf format rest = v :: vs := by
  cases read : convert directive s with
  | none =>
      rw [sscanf_fail read] at scanned
      cases scanned
  | some result =>
      obtain ⟨values, rest⟩ := result
      rw [sscanf_convert read] at scanned
      exact ⟨values, rest, rfl, scanned⟩

theorem sscanf_char_inv {c : Char} (scanned : sscanf (.char c :: format) s = v :: vs) :
    ∃ rest, s = c :: rest ∧ sscanf format rest = v :: vs := by
  obtain ⟨values, rest, read, joined⟩ := sscanf_eq_cons scanned
  cases s with
  | nil => cases read
  | cons d s =>
      simp only [convert] at read
      split at read
      · rename_i same
        obtain ⟨rfl, rfl⟩ := Prod.mk.inj (Option.some.inj read)
        exact ⟨s, by rw [same], joined⟩
      · cases read

theorem sscanf_skipToken_inv (scanned : sscanf (.skipToken :: format) s = v :: vs) :
    ∃ run rest, skipBlanks s = run ++ rest ∧ run ≠ [] ∧ (∀ c ∈ run, isspace c = false) ∧
      Stops (fun c => !isspace c) rest ∧ sscanf format rest = v :: vs := by
  obtain ⟨values, rest, read, joined⟩ := sscanf_eq_cons scanned
  obtain ⟨⟨run, after⟩, ran, same⟩ := Option.map_eq_some_iff.mp read
  obtain ⟨rfl, rfl⟩ := Prod.mk.inj same
  obtain ⟨split, nonempty, accepted, -, stops⟩ := scanRun_some ran
  refine ⟨run, after, split, nonempty, fun c member => by simpa using accepted c member, ?_, joined⟩
  simpa using stops

theorem sscanf_token_inv {width : Option Nat}
    (scanned : sscanf (.token width :: format) s = v :: vs) :
    ∃ run rest, skipBlanks s = run ++ rest ∧ run ≠ [] ∧ (∀ c ∈ run, isspace c = false) ∧
      (∀ w ∈ width, run.length ≤ w) ∧
      (Stops (fun c => !isspace c) rest ∨ width = some run.length) ∧
      v = .str run ∧ sscanf format rest = vs := by
  obtain ⟨values, rest, read, joined⟩ := sscanf_eq_cons scanned
  obtain ⟨⟨run, after⟩, ran, same⟩ := Option.map_eq_some_iff.mp read
  obtain ⟨rfl, rfl⟩ := Prod.mk.inj same
  obtain ⟨split, nonempty, accepted, fits, stops⟩ := scanRun_some ran
  obtain ⟨rfl, tail⟩ := List.cons.inj joined
  exact ⟨run, after, split, nonempty, fun c member => by simpa using accepted c member, fits,
    stops, rfl, tail⟩

theorem sscanf_set_inv {width : Nat} {stop : List Char}
    (scanned : sscanf (.set width stop :: format) s = v :: vs) :
    ∃ run rest, s = run ++ rest ∧ run ≠ [] ∧ (∀ c ∈ run, c ∉ stop) ∧ run.length ≤ width ∧
      (Stops (fun c => c ∉ stop) rest ∨ run.length = width) ∧
      v = .str run ∧ sscanf format rest = vs := by
  obtain ⟨values, rest, read, joined⟩ := sscanf_eq_cons scanned
  obtain ⟨⟨run, after⟩, ran, same⟩ := Option.map_eq_some_iff.mp read
  obtain ⟨rfl, rfl⟩ := Prod.mk.inj same
  obtain ⟨split, nonempty, accepted, fits, stops⟩ := scanRun_some ran
  obtain ⟨rfl, tail⟩ := List.cons.inj joined
  refine ⟨run, after, split, nonempty, fun c member => by simpa using accepted c member,
    fits width rfl, ?_, rfl, tail⟩
  exact stops.imp id (fun full => (Option.some.inj full).symm)

end Scanned

end Stdio
