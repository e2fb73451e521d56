/-
Forward simulation between two deterministic systems.

Each step of the first system is matched by one step or more of the second.  The
first system may get stuck where it means nothing; from a state where it never does,
both systems end together.
-/

import Mathlib.Computability.StateTransition

namespace Simulation

open StateTransition

section Systems

variable {σ₁ σ₂ : Type*}

/-- `related` is kept by every step, and where the first system has ended, so has the
second. -/
structure Simulates (step₁ : σ₁ → Option σ₁) (step₂ : σ₂ → Option σ₂) (ended : σ₁ → Prop)
    (related : σ₁ → σ₂ → Prop) : Prop where
  step : ∀ {s₁ s₂ t₁}, related s₁ s₂ → step₁ s₁ = some t₁ →
    ∃ t₂, related t₁ t₂ ∧ Reaches₁ step₂ s₂ t₂
  ends : ∀ {s₁ s₂}, related s₁ s₂ → ended s₁ → step₂ s₂ = none

/-- A run from the state is only stuck where it has ended. -/
def Safe (step₁ : σ₁ → Option σ₁) (ended : σ₁ → Prop) (s : σ₁) : Prop :=
  ∀ t, Reaches step₁ s t → step₁ t = none → ended t

theorem Safe.of_step {step₁ : σ₁ → Option σ₁} {ended : σ₁ → Prop} {s t : σ₁}
    (safe : Safe step₁ ended s) (stepped : step₁ s = some t) : Safe step₁ ended t :=
  fun u reached => safe u (Relation.ReflTransGen.head stepped reached)

theorem Safe.head {step₁ : σ₁ → Option σ₁} {ended : σ₁ → Prop} {s t : σ₁}
    (stepped : step₁ s = some t) (safe : Safe step₁ ended t) : Safe step₁ ended s := by
  intro u reached stuck
  rcases Relation.ReflTransGen.cases_head reached with rfl | ⟨v, first, rest⟩
  · rw [stepped] at stuck
    cases stuck
  · rw [Option.mem_def, stepped] at first
    cases first
    exact safe u rest stuck

theorem Safe.of_ended {step₁ : σ₁ → Option σ₁} {ended : σ₁ → Prop} {s : σ₁} (isEnd : ended s)
    (stuck : step₁ s = none) : Safe step₁ ended s := by
  intro u reached _
  rcases Relation.ReflTransGen.cases_head reached with rfl | ⟨v, first, -⟩
  · exact isEnd
  · rw [Option.mem_def, stuck] at first
    cases first

section Simulates

variable {step₁ : σ₁ → Option σ₁} {step₂ : σ₂ → Option σ₂} {ended : σ₁ → Prop}
  {related : σ₁ → σ₂ → Prop} (simulates : Simulates step₁ step₂ ended related)

include simulates

/-- A run of the first system is a run of the second. -/
theorem Simulates.reaches {s₁ t₁ : σ₁} {s₂ : σ₂} (start : related s₁ s₂)
    (reached : Reaches step₁ s₁ t₁) : ∃ t₂, related t₁ t₂ ∧ Reaches step₂ s₂ t₂ := by
  induction reached with
  | refl => exact ⟨s₂, start, Relation.ReflTransGen.refl⟩
  | tail _ stepped ih =>
      obtain ⟨middle, relatedMiddle, ran⟩ := ih
      obtain ⟨t₂, relatedEnd, more⟩ := simulates.step relatedMiddle stepped
      exact ⟨t₂, relatedEnd, ran.trans more.to_reflTransGen⟩

/-- On the states where the first system is safe, the simulation goes both ways. -/
theorem Simulates.respects :
    Respects step₁ step₂ (fun s₁ s₂ => related s₁ s₂ ∧ Safe step₁ ended s₁) := by
  rintro s₁ s₂ ⟨start, safe⟩
  cases stepped : step₁ s₁ with
  | none => exact simulates.ends start (safe s₁ Relation.ReflTransGen.refl stepped)
  | some t₁ =>
      obtain ⟨t₂, relatedEnd, ran⟩ := simulates.step start stepped
      exact ⟨t₂, ⟨relatedEnd, safe.of_step stepped⟩, ran⟩

theorem Simulates.dom_iff {s₁ : σ₁} {s₂ : σ₂} (start : related s₁ s₂)
    (safe : Safe step₁ ended s₁) : (eval step₂ s₂).Dom ↔ (eval step₁ s₁).Dom :=
  tr_eval_dom simulates.respects ⟨start, safe⟩

/-- From a safe state the second system ends where the first one does. -/
theorem Simulates.eval_iff {s₁ : σ₁} {s₂ t₂ : σ₂} (start : related s₁ s₂)
    (safe : Safe step₁ ended s₁) (result : t₂ ∈ eval step₂ s₂) :
    ∃ t₁ ∈ eval step₁ s₁, related t₁ t₂ := by
  obtain ⟨t₁, ⟨relatedEnd, -⟩, found⟩ := tr_eval_rev simulates.respects ⟨start, safe⟩ result
  exact ⟨t₁, found, relatedEnd⟩

end Simulates

end Systems

end Simulation
