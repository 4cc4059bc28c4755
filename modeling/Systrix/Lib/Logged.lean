import Mathlib.Logic.Relation
import Mathlib.Tactic.Common

/-!
# Logged computations

Computations that keep a log of the places they touch, the rules for a log that stays within bounds, and
walks in which one position leads to the next.
-/

/-- A value with the places touched on the way to it. -/
structure Logged (Place α : Type) where
  value : α
  log : List Place

namespace Logged

variable {Place α β : Type}

instance : Monad (Logged Place) where
  pure a := ⟨a, []⟩
  bind x next := ⟨(next x.value).value, x.log ++ (next x.value).log⟩

/-- Every place that is touched is allowed. -/
def Within (allowed : Place → Prop) (x : Logged Place α) : Prop := ∀ place ∈ x.log, allowed place

variable {allowed : Place → Prop}

@[simp] theorem value_pure (a : α) : (pure a : Logged Place α).value = a := rfl

@[simp] theorem value_bind (x : Logged Place α) (next : α → Logged Place β) :
    (x >>= next).value = (next x.value).value := rfl

@[simp] theorem value_ite {condition : Prop} [Decidable condition] (x y : Logged Place α) :
    (if condition then x else y).value = if condition then x.value else y.value := by
  split <;> rfl

@[simp] theorem value_map (g : α → β) (x : Logged Place α) : (g <$> x).value = g x.value := rfl

@[simp] theorem within_pure (a : α) : (pure a : Logged Place α).Within allowed :=
  fun _ member => absurd member List.not_mem_nil

@[simp] theorem within_bind (x : Logged Place α) (next : α → Logged Place β) :
    (x >>= next).Within allowed ↔ x.Within allowed ∧ (next x.value).Within allowed :=
  List.forall_mem_append

@[simp] theorem within_mk (a : α) (log : List Place) :
    (Logged.mk a log).Within allowed ↔ ∀ place ∈ log, allowed place := Iff.rfl

@[simp] theorem within_map (g : α → β) (x : Logged Place α) :
    (g <$> x).Within allowed ↔ x.Within allowed :=
  (within_bind x fun a => pure (g a)).trans (and_iff_left (within_pure (g x.value)))

theorem within_ite {condition : Prop} [Decidable condition] (x y : Logged Place α) :
    (if condition then x else y).Within allowed ↔
      (condition → x.Within allowed) ∧ (¬condition → y.Within allowed) := by
  by_cases holds : condition
  · simp [holds]
  · simp [holds]

end Logged

/-- What holds wherever a walk leads holds where it begins and wherever it leads from the next position. -/
theorem forall_walk_iff {α : Type} {next : α → Option α} {P : α → Prop} (a : α) :
    (∀ b, Relation.ReflTransGen (fun i k => next i = some k) a b → P b) ↔
      P a ∧ ∀ c, next a = some c → ∀ b, Relation.ReflTransGen (fun i k => next i = some k) c b → P b := by
  constructor
  · intro every
    exact ⟨every a .refl, fun c step b walk => every b (.head step walk)⟩
  · rintro ⟨here, later⟩ b walk
    rcases Relation.ReflTransGen.cases_head walk with rfl | ⟨c, step, rest⟩
    · exact here
    · exact later c step b rest

/-- A walk that cannot go on from two positions ends at one of them only. -/
theorem walk_end_unique {α : Type} {next : α → Option α} {a b c : α}
    (first : Relation.ReflTransGen (fun i k => next i = some k) a b) (ended : next b = none)
    (second : Relation.ReflTransGen (fun i k => next i = some k) a c) (ended' : next c = none) : b = c := by
  induction first using Relation.ReflTransGen.head_induction_on with
  | refl =>
      rcases Relation.ReflTransGen.cases_head second with rfl | ⟨d, step, -⟩
      · rfl
      · rw [ended] at step
        cases step
  | head step rest ih =>
      rcases Relation.ReflTransGen.cases_head second with rfl | ⟨d, step', rest'⟩
      · rw [ended'] at step
        cases step
      · rw [step] at step'
        cases step'
        exact ih rest'
