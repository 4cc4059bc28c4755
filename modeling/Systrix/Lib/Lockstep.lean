import Mathlib.Order.Basic
import Systrix.Lib.Fallible

/-!
# Runs with less room

A program that has less of some resource than it needs follows the run that has
enough until the resource is used up, and then stops.  Rules for programs in
`Except`, over any kind of state, resource and error.
-/

namespace Lockstep

open Fallible

variable {ε α β γ τ : Type} [Preorder τ]

/-- What is known about the resource of a run: the states that are within it,
how a run stops that needs more to get from one state to another, and the errors a
run may end with whatever it needs. -/
structure Limit (τ ε : Type) [Preorder τ] where
  within : τ → Prop
  stops : ε → τ → τ → Prop
  spent : ε → Prop
  within_of_le {a b : τ} (le : a ≤ b) (holds : within b) : within a
  stops_of_le {a a' b b' : τ} {reason : ε} (le : a ≤ a') (le' : b' ≤ b) (holds : stops reason a' b') :
    stops reason a b

/-- How the run with less room ends when the other gets from `start` to `reached` and
delivers `result`. -/
inductive Outcome (limit : Limit τ ε) (start reached : τ) (result : α) : Except ε α → Prop
  | done (within : limit.within reached) : Outcome limit start reached result (.ok result)
  | stopped {reason : ε} (beyond : ¬limit.within reached) (stops : limit.stops reason start reached) :
      Outcome limit start reached result (.error reason)
  | spent {reason : ε} (spent : limit.spent reason) : Outcome limit start reached result (.error reason)

theorem Outcome.of_le {limit : Limit τ ε} {start start' reached reached' : τ} {result : α} {reason : ε}
    (le : start ≤ start') (le' : reached ≤ reached') {result' : β}
    (outcome : Outcome limit start' reached result (.error reason)) :
    Outcome limit start reached' result' (.error reason) := by
  cases outcome with
  | stopped beyond stops =>
      exact .stopped (fun within => beyond (limit.within_of_le le' within)) (limit.stops_of_le le le' stops)
  | spent spent => exact .spent spent

theorem Outcome.of_ok {limit : Limit τ ε} {start reached : τ} {result result' : α}
    (outcome : Outcome limit start reached result (.ok result')) : limit.within reached ∧ result' = result := by
  cases outcome with
  | done within => exact ⟨within, rfl⟩

/-- `run'` follows `run` from the state `start`, where `view` is the state of a result
and `lower` what the run with less room has instead of it. -/
structure Follows (limit : Limit τ ε) (start : τ) (view : α → τ) (lower : α → α)
    (run run' : Except ε α) : Prop where
  grows : ∀ result, run = .ok result → start ≤ view result
  outcome : limit.within start → ∀ result, run = .ok result →
    Outcome limit start (view result) (lower result) run'

section rules

variable {limit : Limit τ ε} {start start' : τ} {view : α → τ} {lower : α → α} {run run' : Except ε α}
  {view' : β → τ} {lower' : β → β} {next next' : α → Except ε β}

/-- Nothing is known about what the run with less room does when the other stops. -/
theorem Follows.error {reason : ε} : Follows limit start view lower (.error reason) run' where
  grows _ impossible := by cases impossible
  outcome _ _ impossible := by cases impossible

theorem Follows.ok (result : α) (same : view result = start) :
    Follows limit start view lower (.ok result) (.ok (lower result)) where
  grows result' found := by
    cases found
    exact le_of_eq same.symm
  outcome within result' found := by
    cases found
    exact .done (same ▸ within)

/-- One run after the other. -/
theorem Follows.bind (first : Follows limit start view lower run run')
    (second : ∀ result, run = .ok result →
      Follows limit (view result) view' lower' (next result) (next' (lower result))) :
    Follows limit start view' lower' (run >>= next) (run' >>= next') where
  grows last found := by
    cases run with
    | error reason => cases found
    | ok result => exact (first.grows result rfl).trans ((second result rfl).grows last found)
  outcome within last found := by
    cases run with
    | error reason => cases found
    | ok result =>
        have later := second result rfl
        have le := first.grows result rfl
        have le' := later.grows last found
        cases first.outcome within result rfl with
        | done within' =>
            have outcome := later.outcome within' last found
            cases ended : next' (lower result) with
            | error reason =>
                rw [ended] at outcome
                rw [ok_bind, ended]
                exact outcome.of_le le (le_refl _)
            | ok result' =>
                rw [ended] at outcome
                rw [ok_bind, ended]
                cases outcome with
                | done within'' => exact .done within''
        | @stopped reason beyond stops =>
            have outcome : Outcome limit start (view result) (lower result) (.error reason) := .stopped beyond stops
            exact outcome.of_le (le_refl _) le'
        | spent spent => exact .spent spent

/-- A computation that does not use the resource. -/
theorem Follows.bind_same {first first' : Except ε γ} {later later' : γ → Except ε β}
    (same : limit.within start → ∀ result, first = .ok result → first' = .ok result)
    (second : ∀ result, first = .ok result → Follows limit start view' lower' (later result) (later' result)) :
    Follows limit start view' lower' (first >>= later) (first' >>= later') where
  grows last found := by
    cases run : first with
    | error reason =>
        rw [run] at found
        cases found
    | ok result =>
        rw [run] at found
        exact (second result run).grows last found
  outcome within last found := by
    cases run : first with
    | error reason =>
        rw [run] at found
        cases found
    | ok result =>
        rw [run] at found
        rw [same within result run]
        exact (second result run).outcome within last found

/-- The state may have changed in a way that uses no resource. -/
theorem Follows.advance (le : start ≤ start') (within : limit.within start → limit.within start')
    (later : Follows limit start' view lower run run') : Follows limit start view lower run run' where
  grows result found := le.trans (later.grows result found)
  outcome holds result found := by
    have outcome := later.outcome (within holds) result found
    cases outcome with
    | done within => exact .done within
    | stopped beyond stops => exact .stopped beyond (limit.stops_of_le le (le_refl _) stops)
    | spent spent => exact .spent spent

/-- Another view of the results that can occur. -/
theorem Follows.congr_view {view₂ : α → τ} (same : ∀ result, run = .ok result → view result = view₂ result)
    (follows : Follows limit start view lower run run') : Follows limit start view₂ lower run run' where
  grows result found := same result found ▸ follows.grows result found
  outcome within result found := same result found ▸ follows.outcome within result found

/-- The run with less room stops at once. -/
theorem Follows.stop {reason : ε} (grows : ∀ result, run = .ok result → start ≤ view result)
    (stops : limit.within start → ∀ result, run = .ok result →
      ¬limit.within (view result) ∧ limit.stops reason start (view result)) :
    Follows limit start view lower run (.error reason) where
  grows := grows
  outcome within result found := .stopped (stops within result found).1 (stops within result found).2

theorem Follows.spend {reason : ε} (grows : ∀ result, run = .ok result → start ≤ view result)
    (spent : limit.spent reason) : Follows limit start view lower run (.error reason) where
  grows := grows
  outcome _ _ _ := .spent spent

end rules

end Lockstep
