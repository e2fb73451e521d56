/-
Text with more text after it.

What a scan reads of a text stays as it was when more is appended, where the scan
stopped inside of the text, or where a blank comes first and the scan stops at it.
-/

import RiscvAs.Stdio.Literal

namespace Stdio

section Runs

variable {accept : Char → Bool} {s : List Char}

theorem dropWhile_append_of_rest (rest : s.dropWhile accept ≠ []) (tail : List Char) :
    (s ++ tail).dropWhile accept = s.dropWhile accept ++ tail := by
  rw [List.dropWhile_append, if_neg (by simpa using rest)]

theorem dropWhile_append_of_all (all : s.dropWhile accept = []) (tail : List Char) :
    (s ++ tail).dropWhile accept = tail.dropWhile accept := by
  rw [List.dropWhile_append, if_pos (by simp [all])]

theorem takeWhile_append_of_rest (rest : s.dropWhile accept ≠ []) (tail : List Char) :
    (s ++ tail).takeWhile accept = s.takeWhile accept := by
  obtain ⟨run, after, rfl, accepted, stops⟩ := takeWhile_decompose accept s
  rw [dropWhile_append_stops accepted stops] at rest
  obtain ⟨c, after, rfl⟩ := List.exists_cons_of_ne_nil rest
  rw [List.append_assoc, takeWhile_append_stops accepted stops,
    takeWhile_append_stops accepted (by simpa using stops)]

theorem takeWhile_append_of_stops {tail : List Char} (stops : Stops accept tail) :
    (s ++ tail).takeWhile accept = s.takeWhile accept := by
  by_cases rest : s.dropWhile accept = []
  · have accepted := List.dropWhile_eq_nil_iff.mp rest
    rw [takeWhile_append_stops accepted stops, List.takeWhile_eq_self_iff.mpr accepted]
  · exact takeWhile_append_of_rest rest tail

theorem dropWhile_append_of_stops {tail : List Char} (stops : Stops accept tail) :
    (s ++ tail).dropWhile accept = s.dropWhile accept ++ tail := by
  by_cases rest : s.dropWhile accept = []
  · rw [dropWhile_append_of_all rest, rest, List.nil_append]
    cases tail with
    | nil => rfl
    | cons c tail => simp [(stops_cons accept c tail).mp stops]
  · exact dropWhile_append_of_rest rest tail

end Runs

theorem skipBlanks_append {s : CString} (some : skipBlanks s ≠ []) (tail : CString) :
    skipBlanks (s ++ tail) = skipBlanks s ++ tail :=
  dropWhile_append_of_rest some tail

def BlankFront (s : CString) : Prop :=
  ∃ c ∈ s.head?, isspace c = true

theorem BlankFront.stops {s : CString} (front : BlankFront s) {accept : Char → Bool}
    (rejected : ∀ c, isspace c = true → accept c = false) : Stops accept s := by
  obtain ⟨first, member, blank⟩ := front
  intro c isFirst
  obtain rfl : first = c := Option.some.inj (member.symm.trans isFirst)
  exact rejected first blank

theorem isDigitOf_blank {base : Nat} {c : Char} (blank : isspace c = true) :
    isDigitOf base c = false := by
  have none : digitValue c = none := by
    simp only [isspace, Bool.or_eq_true, beq_iff_eq, decide_eq_true_eq, Bool.and_eq_true] at blank
    unfold digitValue
    rcases blank with rfl | ⟨low, high⟩
    · rfl
    · have small : ∀ d : Char, 14 ≤ d.toNat → ¬ d ≤ c := by
        intro d large le
        have bound : d.toNat ≤ c.toNat := le
        omega
      rw [if_neg (fun range => small '0' (by decide) range.1),
        if_neg (fun range => small 'a' (by decide) range.1),
        if_neg (fun range => small 'A' (by decide) range.1)]
  rw [isDigitOf, none]

section Numbers

variable {s tail : CString} (front : BlankFront tail)

include front

theorem scanDigits_blank (base : Nat) :
    scanDigits base (s ++ tail) = ((scanDigits base s).1, (scanDigits base s).2 ++ tail) := by
  have stops : Stops (isDigitOf base) tail := front.stops fun c => isDigitOf_blank
  rw [scanDigits, takeWhile_append_of_stops stops, dropWhile_append_of_stops stops]
  rfl

theorem scanMagnitude_append {base : Nat} {read : Nat × CString}
    (scanned : scanMagnitude base s = some read) :
    scanMagnitude base (s ++ tail) = some (read.1, read.2 ++ tail) := by
  cases s with
  | nil => cases scanned
  | cons c s =>
      by_cases zero : c = '0'
      · subst zero
        rw [List.cons_append]
        by_cases detect : base = 0
        · simp only [scanMagnitude, if_pos detect] at scanned ⊢
          cases s with
          | nil =>
              obtain rfl := Option.some.inj scanned
              obtain ⟨first, isFirst, blank⟩ := front
              obtain ⟨rest, rfl⟩ := List.head?_eq_some_iff.mp isFirst
              have notMarker : ¬ (first = 'x' ∨ first = 'X') := by
                rintro (rfl | rfl) <;> cases blank
              have none := (stops_cons (isDigitOf 8) first rest).mpr (isDigitOf_blank blank)
              simp only [List.nil_append, if_neg notMarker, scanDigits]
              rw [← List.nil_append (first :: rest), takeWhile_append_stops (by simp) none,
                dropWhile_append_stops (by simp) none]
              rfl
          | cons x s =>
              simp only [List.cons_append] at scanned ⊢
              split at scanned
              · rename_i marker
                obtain rfl := Option.some.inj scanned
                rw [if_pos marker, scanDigits_blank front]
              · rename_i notMarker
                obtain rfl := Option.some.inj scanned
                rw [if_neg notMarker, ← List.cons_append, scanDigits_blank front]
        · simp only [scanMagnitude, if_neg detect] at scanned ⊢
          obtain rfl := Option.some.inj scanned
          rw [scanDigits_blank front]
      · have plain : ∀ t, scanMagnitude base (c :: t) =
            if isDigitOf (if base = 0 then 10 else base) c then
              some (scanDigits (if base = 0 then 10 else base) (c :: t)) else none := by
          intro t
          rw [scanMagnitude]
          exact fun isZero => absurd isZero zero
        rw [plain] at scanned
        rw [List.cons_append, plain]
        by_cases digit : isDigitOf (if base = 0 then 10 else base) c = true
        · rw [if_pos digit] at scanned ⊢
          obtain rfl := Option.some.inj scanned
          rw [← List.cons_append, scanDigits_blank front]
        · rw [if_neg digit] at scanned
          cases scanned

theorem scanNumber_append {base : Nat} {negative : Bool} {magnitude : Nat} {rest : CString}
    (scanned : scanNumber base s = some (negative, magnitude, rest)) :
    scanNumber base (s ++ tail) = some (negative, magnitude, rest ++ tail) := by
  obtain ⟨⟨value, after⟩, digits, same⟩ := Option.map_eq_some_iff.mp scanned
  obtain ⟨rfl, rfl, rfl⟩ : (scanSign (skipBlanks s)).1 = negative ∧ value = magnitude ∧
      after = rest := by simpa using same
  have some : skipBlanks s ≠ [] := by
    intro empty
    rw [empty] at digits
    cases digits
  have signed : scanSign (skipBlanks s ++ tail) =
      ((scanSign (skipBlanks s)).1, (scanSign (skipBlanks s)).2 ++ tail) := by
    obtain ⟨c, rest, shape⟩ := List.exists_cons_of_ne_nil some
    rw [shape]
    unfold scanSign
    simp only [List.cons_append]
    split <;> simp_all
  rw [scanNumber, skipBlanks_append some, signed]
  simp only [scanMagnitude_append front digits, Option.map_some]

end Numbers

theorem endsLiteral_of_blank {after : CString} (blank : ∀ c ∈ after, isspace c = true) :
    EndsLiteral after := by
  cases after with
  | nil => exact endsLiteral_nil
  | cons c rest =>
      have isBlank := blank c (List.mem_cons_self ..)
      rw [endsLiteral_cons]
      refine ⟨isDigitOf_blank isBlank, ?_, ?_⟩
      · rintro rfl
        cases isBlank
      · rintro rfl
        cases isBlank

theorem Literal.not_bare (literal : Literal) {sign : Sign} {x : Char} {after rest : CString}
    (ends : EndsLiteral after) (marker : x = 'x' ∨ x = 'X')
    (same : literal.text ++ after = sign.text ++ '0' :: x :: rest) :
    ¬ Stops (isDigitOf 16) rest := by
  have signed := scanSign_text literal after
  have bare : scanSign (sign.text ++ '0' :: x :: rest) = (sign.negative, '0' :: x :: rest) := by
    cases sign <;> rfl
  rw [same, bare] at signed
  have digits := (Prod.mk.inj signed).2
  intro stops
  cases shape : literal.magnitude with
  | decimal first more nonzero decimalDigits =>
      rw [shape] at digits
      exact nonzero (List.cons.inj digits).1.symm
  | hex x' more marker' nonempty hexDigits =>
      rw [shape] at digits
      obtain ⟨c, more, rfl⟩ := List.exists_cons_of_ne_nil nonempty
      have tail : rest = c :: (more ++ after) := (List.cons.inj (List.cons.inj digits).2).2
      rw [tail, stops_cons, hexDigits c (List.mem_cons_self ..)] at stops
      cases stops
  | octal more octalDigits =>
      rw [shape] at digits
      cases more with
      | nil =>
          have tail : x :: rest = after := (List.cons.inj digits).2
          rw [← tail, endsLiteral_cons] at ends
          exact marker.elim ends.2.1 ends.2.2
      | cons c more =>
          obtain rfl : x = c := (List.cons.inj (List.cons.inj digits).2).1
          have digit := octalDigits x (List.mem_cons_self ..)
          rcases marker with rfl | rfl <;> cases digit

theorem scanRun_nil (width : Option Nat) (accept : Char → Bool) :
    scanRun width accept [] = none := by
  cases width <;> simp [scanRun, limit]

@[simp] theorem sscanf_nil (format : List Directive) : sscanf format [] = [] := by
  induction format with
  | nil => rfl
  | cons directive format ih =>
      cases directive with
      | blank => exact ih
      | token width => exact sscanf_fail (by simp [convert, skipBlanks, scanRun_nil]) format
      | set width stop => exact sscanf_fail (by simp [convert, scanRun_nil]) format
      | char => rfl
      | skipToken => rfl
      | int => rfl
      | hhu => rfl
      | anyChar => rfl

/-! ### Fields -/

theorem strtok_append_cons (delim : Char) (s rest : CString) :
    strtok delim (s ++ delim :: rest) = strtok delim s ++ strtok delim rest := by
  rw [strtok, List.splitOn_append_cons_self, List.filter_append]
  rfl

theorem strtok_field {delim : Char} {field : CString} (nonempty : field ≠ [])
    (plain : delim ∉ field) : strtok delim field = [field] := by
  rw [strtok, List.splitOn_eq_singleton plain, List.filter_cons_of_pos (by simpa using nonempty)]
  rfl

theorem strtok_eq_nil_iff {delim : Char} {s : CString} :
    strtok delim s = [] ↔ ∀ c ∈ s, c = delim := by
  induction s with
  | nil => simp [strtok]
  | cons c s ih =>
      by_cases isDelim : c = delim
      · subst isDelim
        have split := strtok_append_cons c [] s
        rw [List.nil_append] at split
        rw [split, List.append_eq_nil_iff, ih]
        simp [strtok]
      · obtain ⟨run, rest, shape, accepted, stops⟩ := takeWhile_decompose (fun d => d ≠ delim) s
        have plain : delim ∉ c :: run := by
          intro member
          rcases List.mem_cons.mp member with same | later
          · exact isDelim same.symm
          · simpa using accepted delim later
        have some : strtok delim (c :: s) ≠ [] := by
          rw [shape, ← List.cons_append]
          cases rest with
          | nil =>
              rw [List.append_nil, strtok_field (List.cons_ne_nil c run) plain]
              simp
          | cons d rest =>
              obtain rfl : d = delim := by simpa using stops
              rw [strtok_append_cons, strtok_field (List.cons_ne_nil c run) plain]
              simp
        simp [some, isDelim]

/-- A field at the front, up to the first delimiter. -/
theorem strtok_front {delim : Char} {field : CString} (nonempty : field ≠ [])
    (plain : delim ∉ field) (tail : CString) :
    strtok delim (field ++ tail) =
      (field ++ tail.takeWhile (fun c => c ≠ delim)) ::
        strtok delim (tail.dropWhile (fun c => c ≠ delim)) := by
  obtain ⟨run, rest, rfl, accepted, stops⟩ := takeWhile_decompose (fun c => c ≠ delim) tail
  rw [takeWhile_append_stops accepted stops, dropWhile_append_stops accepted stops,
    ← List.append_assoc]
  have whole : delim ∉ field ++ run := by
    intro member
    rcases List.mem_append.mp member with first | later
    · exact plain first
    · simpa using accepted delim later
  have some : field ++ run ≠ [] := List.append_ne_nil_of_left_ne_nil nonempty run
  cases rest with
  | nil =>
      rw [List.append_nil, strtok_field some whole]
      rfl
  | cons d rest =>
      obtain rfl : d = delim := by simpa using stops
      have skipped := strtok_append_cons d [] rest
      rw [List.nil_append] at skipped
      rw [strtok_append_cons, strtok_field some whole, skipped]
      rfl

theorem strtok_append_of_delim {delim : Char} {s : CString} (last : s.getLast? = some delim)
    (tail : CString) : strtok delim (s ++ tail) = strtok delim s ++ strtok delim tail := by
  obtain ⟨front, rfl⟩ := List.getLast?_eq_some_iff.mp last
  have ended := strtok_append_cons delim front []
  rw [List.append_assoc, List.singleton_append, strtok_append_cons, ended]
  simp [strtok]

/-- The last field of a text that does not end in a delimiter goes on. -/
theorem strtok_append {delim : Char} {s : CString} (nonempty : s ≠ [])
    (last : s.getLast? ≠ some delim) :
    ∃ tokens token, strtok delim s = tokens ++ [token] ∧ ∀ tail,
      strtok delim (s ++ tail) = tokens ++ (token ++ tail.takeWhile (fun c => c ≠ delim)) ::
        strtok delim (tail.dropWhile (fun c => c ≠ delim)) := by
  obtain ⟨before, field, split, plain, ends⟩ : ∃ before field, s = before ++ field ∧
      delim ∉ field ∧ (before = [] ∨ before.getLast? = some delim) := by
    refine ⟨s.rdropWhile (fun c => c ≠ delim), s.rtakeWhile (fun c => c ≠ delim),
      (List.rdropWhile_append_rtakeWhile ..).symm, ?_, ?_⟩
    · intro member
      simpa using List.mem_rtakeWhile_imp member
    · by_cases empty : s.rdropWhile (fun c => c ≠ delim) = []
      · exact Or.inl empty
      · have stop := List.rdropWhile_last_not _ s empty
        right
        rw [List.getLast?_eq_some_getLast empty]
        exact congrArg some (by simpa using stop)
  have some : field ≠ [] := by
    rintro rfl
    rw [List.append_nil] at split
    subst split
    exact ends.elim nonempty last
  refine ⟨strtok delim before, field, ?_, fun tail => ?_⟩
  · rw [split, ← strtok_field some plain]
    rcases ends with rfl | ended
    · rfl
    · exact strtok_append_of_delim ended field
  · rw [split, List.append_assoc, ← strtok_front some plain tail]
    rcases ends with rfl | ended
    · rfl
    · exact strtok_append_of_delim ended (field ++ tail)

theorem afterFirst_append {c : Char} {s rest : CString} (found : afterFirst c s = some rest)
    (tail : CString) : afterFirst c (s ++ tail) = some (rest ++ tail) := by
  induction s with
  | nil => cases found
  | cons d s ih =>
      rw [afterFirst] at found
      rw [List.cons_append, afterFirst]
      split at found
      · rename_i same
        obtain rfl := Option.some.inj found
        rw [if_pos same]
      · rename_i other
        rw [if_neg other]
        exact ih found

theorem beforeLast_of_not_mem {c : Char} {s : CString} (absent : c ∉ s) :
    beforeLast c s = none := by
  induction s with
  | nil => rfl
  | cons d s ih =>
      rw [List.mem_cons, not_or] at absent
      rw [beforeLast, ih absent.2, if_neg (Ne.symm absent.1)]

theorem beforeLast_append {c : Char} {tail : CString} (absent : c ∉ tail) (s : CString) :
    beforeLast c (s ++ tail) = beforeLast c s := by
  induction s with
  | nil => exact beforeLast_of_not_mem absent
  | cons d s ih => rw [List.cons_append, beforeLast, beforeLast, ih]

theorem beforeLast_last {c : Char} {tail : CString} (absent : c ∉ tail) (s : CString) :
    beforeLast c (s ++ c :: tail) = some s := by
  induction s with
  | nil => rw [List.nil_append, beforeLast, beforeLast_of_not_mem absent, if_pos rfl]
  | cons d s ih => rw [List.cons_append, beforeLast, ih]

theorem beforeLast_none {c : Char} {s : CString} (missing : beforeLast c s = none) : c ∉ s := by
  induction s with
  | nil => simp
  | cons d s ih =>
      rw [beforeLast] at missing
      split at missing
      · cases missing
      · rename_i rest
        split at missing
        · cases missing
        · rename_i other
          rw [List.mem_cons, not_or]
          exact ⟨Ne.symm other, ih rest⟩

theorem beforeLast_some {c : Char} {s init : CString} (found : beforeLast c s = some init) :
    ∃ rest, s = init ++ c :: rest ∧ c ∉ rest := by
  induction s generalizing init with
  | nil => cases found
  | cons d s ih =>
      rw [beforeLast] at found
      split at found
      · rename_i before later
        obtain rfl := Option.some.inj found
        obtain ⟨rest, rfl, absent⟩ := ih later
        exact ⟨rest, rfl, absent⟩
      · rename_i missing
        split at found
        · rename_i same
          obtain rfl := Option.some.inj found
          rw [same]
          exact ⟨s, rfl, beforeLast_none missing⟩
        · cases found

end Stdio
