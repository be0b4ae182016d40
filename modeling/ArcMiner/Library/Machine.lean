import Mathlib.Algebra.Group.Nat.Defs
import Mathlib.Data.List.Induction
import Mathlib.Data.Option.Basic

/-! Runs of a machine.

A machine takes a state and an event to the next state, or refuses the event. A run
is a list of events, none of which is refused.
-/

namespace ArcMiner.Library.Machine

variable {σ ε : Type} (step : σ → ε → Option σ)

def run (start : σ) (events : List ε) : Option σ := events.foldlM step start

def Along (allowed : σ → ε → Prop) : σ → List ε → Prop
  | _, [] => True
  | state, event :: rest => allowed state event ∧ ∀ next ∈ step state event, Along allowed next rest

instance decidableAlong (allowed : σ → ε → Prop) [∀ state event, Decidable (allowed state event)] :
    ∀ start events, Decidable (Along step allowed start events)
  | _, [] => inferInstanceAs (Decidable True)
  | start, event :: rest =>
    have := fun next => decidableAlong allowed next rest
    inferInstanceAs (Decidable (allowed start event ∧ ∀ next ∈ step start event, Along step allowed next rest))

variable {step}

theorem run_cons {start final : σ} {event : ε} {rest : List ε} :
    run step start (event :: rest) = some final ↔ ∃ next, step start event = some next ∧ run step next rest = some final := by
  rw [run, List.foldlM_cons]
  exact Option.bind_eq_some_iff

theorem run_append {start final : σ} {before after : List ε} : run step start (before ++ after) = some final ↔
      ∃ middle, run step start before = some middle ∧ run step middle after = some final := by
  rw [run, List.foldlM_append]
  exact Option.bind_eq_some_iff

theorem run_concat {start final : σ} {before : List ε} {event : ε} : run step start (before ++ [event]) = some final ↔
      ∃ middle, run step start before = some middle ∧ step middle event = some final := by
  simp only [run_append, run_cons]
  constructor
  · rintro ⟨middle, ran, next, stepped, ⟨⟩⟩
    exact ⟨middle, ran, stepped⟩
  · rintro ⟨middle, ran, stepped⟩
    exact ⟨middle, ran, final, stepped, rfl⟩

/-- What holds at the start and is kept by every event that comes where it may, holds at the end. -/
theorem run_invariant {allowed : σ → ε → Prop} (inv : σ → Prop)
    (kept : ∀ {state event next}, allowed state event → inv state → step state event = some next → inv next)
    {start final : σ} {events : List ε} (along : Along step allowed start events) (holds : inv start)
    (ran : run step start events = some final) : inv final := by
  induction events generalizing start with
  | nil =>
    cases ran
    exact holds
  | cons event rest ih =>
    obtain ⟨next, stepped, ran⟩ := run_cons.mp ran
    exact ih (along.2 next stepped) (kept along.1 holds stepped) ran

/-- Induction over the events that have happened so far. -/
theorem run_history {motive : List ε → σ → Prop} {start final : σ} {events : List ε} (nil : motive [] start)
    (concat : ∀ {before event middle next}, motive before middle → step middle event = some next →
      motive (before ++ [event]) next) (ran : run step start events = some final) : motive events final := by
  induction events using List.reverseRecOn generalizing final with
  | nil =>
    cases ran
    exact nil
  | append_singleton before event ih =>
    obtain ⟨middle, ran, stepped⟩ := run_concat.mp ran
    exact concat (ih ran) stepped

theorem update_eq_some {ι τ : Type} [DecidableEq ι] {table : ι → Option τ} {index i : ι} {entry : Option τ} {found : τ}
    (now : Function.update table index entry i = some found) :
    i = index ∧ entry = some found ∨ i ≠ index ∧ table i = some found := by
  by_cases same : i = index
  · subst same
    exact .inl ⟨rfl, by rwa [Function.update_self] at now⟩
  · exact .inr ⟨same, by rwa [Function.update_of_ne same] at now⟩

end ArcMiner.Library.Machine
