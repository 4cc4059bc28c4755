import Mathlib.Algebra.BigOperators.Ring.Finset
import Mathlib.Tactic.Common

/-!
# Counting the arguments with a value

How often a function takes a value, when it is changed at one argument.
-/

namespace Counting

open Finset

variable {α β : Type} [DecidableEq α] [DecidableEq β]

/-- Changing a function at one argument changes how often it has a value by one. -/
theorem card_update (s : Finset α) {f g : α → β} {a : α} (member : a ∈ s)
    (same : ∀ x, x ≠ a → g x = f x) (b : β) :
    (s.filter fun x => g x = b).card + (if f a = b then 1 else 0) =
      (s.filter fun x => f x = b).card + if g a = b then 1 else 0 := by
  have split : ∀ h : α → β, (s.filter fun x => h x = b).card =
      (if h a = b then 1 else 0) + ∑ x ∈ s.erase a, if h x = b then 1 else 0 := fun h => by
    rw [card_filter]
    exact (add_sum_erase _ _ member).symm
  have others : (∑ x ∈ s.erase a, if g x = b then 1 else 0) = ∑ x ∈ s.erase a, if f x = b then 1 else 0 := by
    refine sum_congr rfl fun x member => ?_
    rw [same x (mem_erase.mp member).1]
  rw [split f, split g, others]
  omega

end Counting
