import Mathlib.Data.List.Induction
import Mathlib.Tactic.Common

/-!
# The longest of some candidates

A loop over candidates that keeps the first one that is longer than all before it.
-/

namespace Longest

variable {ι α : Type} (accepts : ι → Prop) [DecidablePred accepts] (length : ι → Nat) (item : ι → α)

/-- One candidate: what is kept is replaced when the candidate is accepted and longer. -/
def keep (best : Option α × Nat) (i : ι) : Option α × Nat :=
  if accepts i ∧ best.2 < length i then (some (item i), length i) else best

variable {accepts length item}

/-- What the loop keeps: an accepted candidate that no other one outdoes, or nothing if all of them are empty. -/
inductive Kept (accepts : ι → Prop) (length : ι → Nat) (item : ι → α) (candidates : List ι) : Option α × Nat → Prop
  | none (empty : ∀ i ∈ candidates, accepts i → length i = 0) : Kept accepts length item candidates (.none, 0)
  | some {i : ι} (member : i ∈ candidates) (accepted : accepts i) (positive : 0 < length i)
      (longest : ∀ j ∈ candidates, accepts j → length j ≤ length i) :
      Kept accepts length item candidates (.some (item i), length i)

theorem Kept.snoc {candidates : List ι} {best : Option α × Nat} (kept : Kept accepts length item candidates best)
    (i : ι) : Kept accepts length item (candidates ++ [i]) (keep accepts length item best i) := by
  have split : ∀ {p : ι → Prop}, (∀ j ∈ candidates, p j) → p i → ∀ j ∈ candidates ++ [i], p j := by
    intro p old new j member
    rcases List.mem_append.mp member with early | last
    · exact old j early
    · exact List.mem_singleton.mp last ▸ new
  rw [keep]
  cases kept with
  | none empty =>
      by_cases better : accepts i ∧ 0 < length i
      · rw [if_pos better]
        refine .some (List.mem_append_right _ List.mem_cons_self) better.1 better.2 ?_
        exact split (fun j member accepted => empty j member accepted ▸ Nat.zero_le _) fun _ => Nat.le_refl _
      · rw [if_neg better]
        exact .none (split empty fun accepted => Nat.eq_zero_of_not_pos fun positive => better ⟨accepted, positive⟩)
  | @some k member accepted positive longest =>
      by_cases better : accepts i ∧ length k < length i
      · rw [if_pos better]
        refine .some (List.mem_append_right _ List.mem_cons_self) better.1 (Nat.zero_lt_of_lt better.2) ?_
        exact split (fun j member accepted => Nat.le_trans (longest j member accepted) (Nat.le_of_lt better.2))
          fun _ => Nat.le_refl _
      · rw [if_neg better]
        exact .some (List.mem_append_left _ member) accepted positive
          (split longest fun accepted => Nat.not_lt.mp fun longer => better ⟨accepted, longer⟩)

theorem kept_foldl (candidates : List ι) :
    Kept accepts length item candidates (candidates.foldl (keep accepts length item) (none, 0)) := by
  induction candidates using List.reverseRecOn with
  | nil => exact .none fun i none => absurd none List.not_mem_nil
  | append_singleton candidates i ih =>
      rw [List.foldl_append]
      exact ih.snoc i

end Longest
