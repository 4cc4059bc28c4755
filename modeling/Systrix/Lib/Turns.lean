import Mathlib.Data.List.Rotate
import Systrix.Lib.Run

/-!
# Taking turns

Of those who wait in a queue, the first one gets the turn at each step and goes to the end.  A system whose steps do
this gives each of them one turn in any stretch of steps as long as the queue, in the order of the queue.
-/

namespace Run

variable {State Op α : Type} (step : State → Op → State) (turn : State → Option α)

/-- Who has the turn after each step. -/
def turns : State → List Op → List (Option α)
  | _, [] => []
  | s, op :: ops => turn (step s op) :: turns (step s op) ops

variable {step turn}

/-- Those who wait get their turns in the order of the queue. -/
theorem turns_eq {queue : State → List α} {I : State → Prop} (keeps : ∀ s op, I s → I (step s op))
    (first : ∀ s op, I s → turn (step s op) = (queue s).head?)
    (moves : ∀ s op, I s → queue (step s op) = (queue s).rotate 1) {s : State} (holds : I s) {ops : List Op}
    (short : ops.length ≤ (queue s).length) : turns step turn s ops = ((queue s).take ops.length).map some := by
  induction ops generalizing s with
  | nil => rfl
  | cons op ops ih =>
    obtain ⟨front, rest, waiting⟩ : ∃ front rest, queue s = front :: rest := by
      refine List.exists_cons_of_ne_nil fun none => ?_
      rw [none] at short
      exact absurd short (Nat.not_succ_le_zero _)
    have moved : queue (step s op) = rest ++ [front] := by
      rw [moves s op holds, waiting, List.rotate_cons_succ, List.rotate_zero]
    have enough : ops.length ≤ rest.length := by
      rw [waiting] at short
      exact Nat.le_of_succ_le_succ short
    have later := ih (keeps s op holds) (by rw [moved, List.length_append]; omega)
    rw [turns, first s op holds, later, moved, waiting, List.take_append_of_le_length enough]
    rfl

/-- A stretch as long as the queue gives everyone a turn. -/
theorem turns_round {queue : State → List α} {I : State → Prop} (keeps : ∀ s op, I s → I (step s op))
    (first : ∀ s op, I s → turn (step s op) = (queue s).head?)
    (moves : ∀ s op, I s → queue (step s op) = (queue s).rotate 1) {s : State} (holds : I s) {ops : List Op}
    (round : ops.length = (queue s).length) : turns step turn s ops = (queue s).map some := by
  rw [turns_eq keeps first moves holds (Nat.le_of_eq round), round, List.take_length]

end Run
