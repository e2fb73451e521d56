/-
Loops over a list of inputs that stop at the first failing step.

A step returns a code and a state, and the loop goes on while the code is
`ok`.  The rules give a run the shape of its input list: cons, append and
split, an invariant, a simulation between two loops, the exchange of two
blocks of inputs whose steps commute, and the first input that is refused.
-/

import Mathlib

namespace Loop

variable {ε σ α : Type*} [DecidableEq ε]

def run (ok : ε) (step : σ → α → ε × σ) : σ → List α → ε × σ
  | state, [] => (ok, state)
  | state, input :: inputs =>
      if (step state input).1 = ok then run ok step (step state input).2 inputs
      else step state input

variable {ok : ε} {step : σ → α → ε × σ}

theorem run_cons_of_ok {state middle : σ} {input : α}
    (stepped : step state input = (ok, middle)) (inputs : List α) :
    run ok step state (input :: inputs) = run ok step middle inputs := by
  simp [run, stepped]

theorem run_cons_of_fail {state : σ} {input : α} (failed : (step state input).1 ≠ ok)
    (inputs : List α) : run ok step state (input :: inputs) = step state input := by
  simp [run, failed]

theorem run_cons_iff {state final : σ} {input : α} {inputs : List α} :
    run ok step state (input :: inputs) = (ok, final) ↔
      ∃ middle, step state input = (ok, middle) ∧
        run ok step middle inputs = (ok, final) := by
  constructor
  · intro ran
    simp only [run] at ran
    split at ran
    · rename_i stepOk
      exact ⟨(step state input).2, Prod.ext stepOk rfl, ran⟩
    · rename_i stepFail
      exact absurd (congrArg Prod.fst ran) stepFail
  · rintro ⟨middle, stepped, ran⟩
    rw [run_cons_of_ok stepped, ran]

theorem run_append_of_ok {state middle : σ} {first : List α}
    (ran : run ok step state first = (ok, middle)) (second : List α) :
    run ok step state (first ++ second) = run ok step middle second := by
  induction first generalizing state with
  | nil =>
      obtain rfl := (Prod.mk.inj ran).2
      rfl
  | cons input inputs ih =>
      obtain ⟨next, stepped, rest⟩ := run_cons_iff.mp ran
      rw [List.cons_append, run_cons_of_ok stepped, ih rest]

theorem run_append_iff {state final : σ} {first second : List α} :
    run ok step state (first ++ second) = (ok, final) ↔
      ∃ middle, run ok step state first = (ok, middle) ∧
        run ok step middle second = (ok, final) := by
  constructor
  · intro ran
    induction first generalizing state with
    | nil => exact ⟨state, rfl, ran⟩
    | cons input inputs ih =>
        obtain ⟨next, stepped, rest⟩ := run_cons_iff.mp ran
        obtain ⟨middle, left, right⟩ := ih rest
        exact ⟨middle, run_cons_iff.mpr ⟨next, stepped, left⟩, right⟩
  · rintro ⟨middle, left, right⟩
    rw [run_append_of_ok left, right]

/-- A successful run passes through a successful step at each of its inputs. -/
theorem run_split {state final : σ} {before after : List α} {input : α}
    (ran : run ok step state (before ++ input :: after) = (ok, final)) :
    ∃ middle next, run ok step state before = (ok, middle) ∧
      step middle input = (ok, next) ∧ run ok step next after = (ok, final) := by
  obtain ⟨middle, left, right⟩ := run_append_iff.mp ran
  obtain ⟨next, stepped, rest⟩ := run_cons_iff.mp right
  exact ⟨middle, next, left, stepped, rest⟩

/-- A run ends with its inputs, or at the first step that fails. -/
theorem run_cases (ok : ε) (step : σ → α → ε × σ) (state : σ) (inputs : List α) :
    (∃ final, run ok step state inputs = (ok, final)) ∨
      ∃ before input after middle, inputs = before ++ input :: after ∧
        run ok step state before = (ok, middle) ∧ (step middle input).1 ≠ ok ∧
        run ok step state inputs = step middle input := by
  induction inputs generalizing state with
  | nil => exact Or.inl ⟨state, rfl⟩
  | cons input inputs ih =>
      by_cases stepOk : (step state input).1 = ok
      · have stepped : step state input = (ok, (step state input).2) := Prod.ext stepOk rfl
        rw [run_cons_of_ok stepped]
        rcases ih (step state input).2 with done |
          ⟨before, other, after, middle, rfl, ran, failed, ended⟩
        · exact Or.inl done
        · refine Or.inr ⟨input :: before, other, after, middle, rfl, ?_, failed, ended⟩
          rw [run_cons_of_ok stepped, ran]
      · exact Or.inr ⟨[], input, inputs, state, rfl, rfl, stepOk, run_cons_of_fail stepOk inputs⟩

/-- A run fails at its first step that fails, with the code of this step. -/
theorem run_fail_iff {state : σ} {inputs : List α} {code : ε} (failure : code ≠ ok) :
    (run ok step state inputs).1 = code ↔
      ∃ before input after middle, inputs = before ++ input :: after ∧
        run ok step state before = (ok, middle) ∧ (step middle input).1 = code := by
  constructor
  · intro ended
    rcases run_cases ok step state inputs with ⟨final, done⟩ |
      ⟨before, input, after, middle, split, ran, -, last⟩
    · rw [done] at ended
      exact absurd ended.symm failure
    · rw [last] at ended
      exact ⟨before, input, after, middle, split, ran, ended⟩
  · rintro ⟨before, input, after, middle, rfl, ran, rfl⟩
    rw [run_append_of_ok ran, run_cons_of_fail failure]

theorem run_invariant (invariant : σ → Prop) {state final : σ} {inputs : List α}
    (preserved : ∀ current input next, input ∈ inputs → invariant current →
      step current input = (ok, next) → invariant next)
    (ran : run ok step state inputs = (ok, final)) (initial : invariant state) :
    invariant final := by
  induction inputs generalizing state with
  | nil =>
      obtain rfl := (Prod.mk.inj ran).2
      exact initial
  | cons input inputs ih =>
      obtain ⟨next, stepped, rest⟩ := run_cons_iff.mp ran
      exact ih (fun current other after member => preserved current other after
          (List.mem_cons_of_mem input member)) rest
        (preserved state input next (List.mem_cons_self ..) initial stepped)

/-- What holds at the start and is carried along by each step holds of the whole
run; the step may use the run up to it. -/
theorem run_prefix_induction (holds : List α → σ → Prop) {state final : σ} {inputs : List α}
    (extend : ∀ before current input next, before ++ [input] <+: inputs →
      run ok step state before = (ok, current) → holds before current →
      step current input = (ok, next) → holds (before ++ [input]) next)
    (ran : run ok step state inputs = (ok, final)) (initial : holds [] state) :
    holds inputs final := by
  have prefixes : ∀ part last, part <+: inputs → run ok step state part = (ok, last) →
      holds part last := by
    intro part
    induction part using List.reverseRecOn with
    | nil =>
        intro last _ done
        obtain rfl := (Prod.mk.inj done).2
        exact initial
    | append_singleton before input ih =>
        intro last prefixed ran
        obtain ⟨current, next, left, stepped, done⟩ := run_split ran
        obtain rfl := (Prod.mk.inj done).2
        have earlier := (List.prefix_append before [input]).trans prefixed
        exact extend before current input next prefixed left (ih current earlier left) stepped
  exact prefixes inputs final (List.prefix_refl inputs) ran

/-- Two loops over the same inputs stay related while both succeed. -/
theorem run_simulation {ε' σ' : Type*} [DecidableEq ε'] {ok' : ε'}
    {step' : σ' → α → ε' × σ'} (related : σ → σ' → Prop)
    {state final : σ} {state' final' : σ'} {inputs : List α}
    (preserved : ∀ current current' input next next', input ∈ inputs →
      related current current' → step current input = (ok, next) →
      step' current' input = (ok', next') → related next next')
    (ran : run ok step state inputs = (ok, final))
    (ran' : run ok' step' state' inputs = (ok', final'))
    (initial : related state state') : related final final' := by
  induction inputs generalizing state state' with
  | nil =>
      obtain rfl := (Prod.mk.inj ran).2
      obtain rfl := (Prod.mk.inj ran').2
      exact initial
  | cons input inputs ih =>
      obtain ⟨next, stepped, rest⟩ := run_cons_iff.mp ran
      obtain ⟨next', stepped', rest'⟩ := run_cons_iff.mp ran'
      exact ih (fun current current' other after after' member =>
          preserved current current' other after after' (List.mem_cons_of_mem input member))
        rest rest' (preserved state state' input next next' (List.mem_cons_self ..)
          initial stepped stepped')

/-- A map of states that commutes with the step commutes with the loop. -/
theorem run_map {σ' : Type*} {step' : σ' → α → ε × σ'} (f : σ → σ')
    (commutes : ∀ state input, step' (f state) input =
      ((step state input).1, f (step state input).2)) (state : σ) (inputs : List α) :
    run ok step' (f state) inputs =
      ((run ok step state inputs).1, f (run ok step state inputs).2) := by
  induction inputs generalizing state with
  | nil => rfl
  | cons input inputs ih =>
      rw [run, run, commutes]
      simp only
      split
      · exact ih (step state input).2
      · rfl

theorem run_map_inputs {f : α → α} {inputs : List α}
    (same : ∀ input ∈ inputs, ∀ state, step state (f input) = step state input) (state : σ) :
    run ok step state (inputs.map f) = run ok step state inputs := by
  induction inputs generalizing state with
  | nil => rfl
  | cons input inputs ih =>
      rw [List.map_cons, run, run, same input (List.mem_cons_self ..)]
      rw [ih (fun other member => same other (List.mem_cons_of_mem input member))]

/-! ### Exchanging commuting steps -/

/-- Whenever `first` and then `second` succeed from a state of the invariant, they
succeed in the other order with the same result. -/
def Commutes (ok : ε) (step : σ → α → ε × σ) (invariant : σ → Prop) (first second : α) : Prop :=
  ∀ state middle final, invariant state → step state first = (ok, middle) →
    step middle second = (ok, final) →
    ∃ other, step state second = (ok, other) ∧ step other first = (ok, final)

section Exchange

variable {invariant : σ → Prop}

theorem run_exchange_one {state final : σ} {input : α} {inputs : List α}
    (preserved : ∀ current other next, other ∈ inputs → invariant current →
      step current other = (ok, next) → invariant next)
    (commutes : ∀ other ∈ inputs, Commutes ok step invariant input other)
    (initial : invariant state) (ran : run ok step state (input :: inputs) = (ok, final)) :
    run ok step state (inputs ++ [input]) = (ok, final) := by
  induction inputs generalizing state with
  | nil => exact ran
  | cons other inputs ih =>
      obtain ⟨middle, stepped, rest⟩ := run_cons_iff.mp ran
      obtain ⟨next, steppedOther, rest'⟩ := run_cons_iff.mp rest
      have head := List.mem_cons_self (a := other) (l := inputs)
      obtain ⟨swapped, first, second⟩ :=
        commutes other head state middle next initial stepped steppedOther
      have tail := ih
        (fun current later after member =>
          preserved current later after (List.mem_cons_of_mem other member))
        (fun later member => commutes later (List.mem_cons_of_mem other member))
        (preserved state other swapped head initial first)
        (run_cons_iff.mpr ⟨next, second, rest'⟩)
      exact run_cons_iff.mpr ⟨swapped, first, tail⟩

/-- Two blocks whose steps commute can change places. -/
theorem run_exchange {state final : σ} {first second : List α}
    (preserved : ∀ current input next, input ∈ first ∨ input ∈ second → invariant current →
      step current input = (ok, next) → invariant next)
    (commutes : ∀ a ∈ first, ∀ b ∈ second, Commutes ok step invariant a b)
    (initial : invariant state) (ran : run ok step state (first ++ second) = (ok, final)) :
    run ok step state (second ++ first) = (ok, final) := by
  induction first generalizing state with
  | nil =>
      rw [List.append_nil]
      exact ran
  | cons input inputs ih =>
      obtain ⟨middle, stepped, rest⟩ := run_cons_iff.mp ran
      have head := List.mem_cons_self (a := input) (l := inputs)
      have tail := ih
        (fun current other next member =>
          preserved current other next (member.imp (List.mem_cons_of_mem input) id))
        (fun a member => commutes a (List.mem_cons_of_mem input member))
        (preserved state input middle (Or.inl head) initial stepped) rest
      obtain ⟨between, left, right⟩ := run_append_iff.mp tail
      have moved := run_exchange_one
        (fun current other next member => preserved current other next (Or.inr member))
        (fun b member => commutes input head b member) initial
        (run_cons_iff.mpr ⟨middle, stepped, left⟩)
      obtain ⟨last, before, after⟩ := run_append_iff.mp moved
      exact run_append_iff.mpr ⟨last, before, run_append_iff.mpr ⟨between, after, right⟩⟩

/-- Inputs of one kind that can move in front of the others are moved there. -/
theorem run_partition (invariant : σ → Prop) (front : α → Bool) {state final : σ} {inputs : List α}
    (preserved : ∀ current input next, input ∈ inputs → invariant current →
      step current input = (ok, next) → invariant next)
    (commutes : ∀ a ∈ inputs, front a = false → ∀ b ∈ inputs, front b = true →
      Commutes ok step invariant a b)
    (initial : invariant state) (ran : run ok step state inputs = (ok, final)) :
    run ok step state (inputs.filter front ++ inputs.filter (fun a => !front a)) =
      (ok, final) := by
  induction inputs generalizing state with
  | nil => exact ran
  | cons input inputs ih =>
      obtain ⟨middle, stepped, rest⟩ := run_cons_iff.mp ran
      have head := List.mem_cons_self (a := input) (l := inputs)
      have tail := ih
        (fun current other next member =>
          preserved current other next (List.mem_cons_of_mem input member))
        (fun a inside notFront b inside' =>
          commutes a (List.mem_cons_of_mem input inside) notFront b
            (List.mem_cons_of_mem input inside'))
        (preserved state input middle head initial stepped) rest
      cases kind : front input with
      | true =>
          rw [List.filter_cons_of_pos kind, List.filter_cons_of_neg (by simp [kind]),
            List.cons_append]
          exact run_cons_iff.mpr ⟨middle, stepped, tail⟩
      | false =>
          rw [List.filter_cons_of_neg (by simp [kind]), List.filter_cons_of_pos (by simp [kind])]
          obtain ⟨between, left, right⟩ := run_append_iff.mp tail
          have moved := run_exchange_one
            (fun current other next member => preserved current other next
              (List.mem_cons_of_mem input (List.mem_of_mem_filter member)))
            (fun other member => commutes input head kind other
              (List.mem_cons_of_mem input (List.mem_of_mem_filter member))
              (List.mem_filter.mp member).2)
            initial (run_cons_iff.mpr ⟨middle, stepped, left⟩)
          obtain ⟨last, final', before, stepped', done⟩ := run_split moved
          obtain rfl := (Prod.mk.inj done).2
          exact run_append_iff.mpr ⟨last, before, run_cons_iff.mpr ⟨final', stepped', right⟩⟩

end Exchange

section Refusal

variable {β φ : Type*}

variable {refuses : List β → β → Option φ}

end Refusal

end Loop
