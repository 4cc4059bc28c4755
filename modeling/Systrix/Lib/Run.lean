import Mathlib.Tactic.Common

/-!
# Runs

A system that takes one step after another, with a condition on each step that may
depend on the state before it, and the invariant rule for its runs.
-/

namespace Run

variable {State Op : Type} (step : State → Op → State) (condition : State → Op → Prop)

/-- The state after some steps. -/
def final (s : State) (ops : List Op) : State := ops.foldl step s

/-- Every step of the run meets the condition in the state before it. -/
def Meets : State → List Op → Prop
  | _, [] => True
  | s, op :: ops => condition s op ∧ Meets (step s op) ops

instance [∀ s op, Decidable (condition s op)] : (s : State) → (ops : List Op) → Decidable (Meets step condition s ops)
  | _, [] => .isTrue trivial
  | s, op :: ops => @instDecidableAnd _ _ _ (instDecidableMeets (step s op) ops)

variable {step condition}

theorem final_cons (s : State) (op : Op) (ops : List Op) :
    final step s (op :: ops) = final step (step s op) ops := rfl

theorem Meets.and {other : State → Op → Prop} {s : State} {ops : List Op}
    (meets : Meets step condition s ops) (meets' : Meets step other s ops) :
    Meets step (fun s op => condition s op ∧ other s op) s ops := by
  induction ops generalizing s with
  | nil => trivial
  | cons op ops ih => exact ⟨⟨meets.1, meets'.1⟩, ih meets.2 meets'.2⟩

/-- What a step that meets the condition preserves, a run of such steps preserves. -/
theorem Meets.invariant {I : State → Prop}
    (keeps : ∀ s op, I s → condition s op → I (step s op)) {s : State} {ops : List Op}
    (meets : Meets step condition s ops) (holds : I s) : I (final step s ops) := by
  induction ops generalizing s with
  | nil => exact holds
  | cons op ops ih => exact ih meets.2 (keeps s op holds meets.1)

/-- A condition that steps meet where an invariant holds. -/
theorem Meets.imp {other : State → Op → Prop} {I : State → Prop}
    (keeps : ∀ s op, I s → condition s op → I (step s op))
    (implies : ∀ s op, I s → condition s op → other s op) {s : State} {ops : List Op}
    (meets : Meets step condition s ops) (holds : I s) : Meets step other s ops := by
  induction ops generalizing s with
  | nil => trivial
  | cons op ops ih => exact ⟨implies s op holds meets.1, ih meets.2 (keeps s op holds meets.1)⟩

theorem meets_of_forall {allowed : Op → Prop} {ops : List Op} (every : ∀ op ∈ ops, allowed op) (s : State) :
    Meets step (fun _ op => allowed op) s ops := by
  induction ops generalizing s with
  | nil => trivial
  | cons op ops ih =>
      exact ⟨every op List.mem_cons_self, ih (fun later mem => every later (List.mem_cons_of_mem op mem)) (step s op)⟩

/-- Conditions that say the same where an invariant holds are met by the same runs. -/
theorem meets_congr {other : State → Op → Prop} {I : State → Prop}
    (keeps : ∀ s op, I s → I (step s op)) (same : ∀ s op, I s → (condition s op ↔ other s op))
    {s : State} (holds : I s) (ops : List Op) :
    Meets step condition s ops ↔ Meets step other s ops := by
  induction ops generalizing s with
  | nil => exact Iff.rfl
  | cons op ops ih => exact and_congr (same s op holds) (ih (keeps s op holds))

/-- Under an assumption on the steps, two conditions say the same of a run when they say the
same of each step and the invariant survives the steps that meet them. -/
theorem meets_iff {assumption other : State → Op → Prop} {I : State → Prop}
    (same : ∀ s op, I s → assumption s op → (condition s op ↔ other s op))
    (keeps : ∀ s op, I s → assumption s op → other s op → I (step s op)) {s : State} (holds : I s)
    {ops : List Op} (assumed : Meets step assumption s ops) :
    Meets step condition s ops ↔ Meets step other s ops := by
  induction ops generalizing s with
  | nil => exact Iff.rfl
  | cons op ops ih =>
    have first := same s op holds assumed.1
    have later := fun meets => ih (keeps s op holds assumed.1 meets) assumed.2
    constructor
    · rintro ⟨meets, rest⟩
      exact ⟨first.mp meets, (later (first.mp meets)).mp rest⟩
    · rintro ⟨meets, rest⟩
      exact ⟨first.mpr meets, (later meets).mpr rest⟩

/-- What every step preserves, every run preserves. -/
theorem invariant {I : State → Prop} (keeps : ∀ s op, I s → I (step s op)) {s : State}
    (holds : I s) (ops : List Op) : I (final step s ops) := by
  induction ops generalizing s with
  | nil => exact holds
  | cons op ops ih => exact ih (keeps s op holds)

/-- Two systems that take the same steps side by side. -/
theorem final_rel {State' : Type} {step' : State' → Op → State'} {R : State → State' → Prop} {allowed : Op → Prop}
    (keeps : ∀ s s' op, allowed op → R s s' → R (step s op) (step' s' op)) {s : State} {s' : State'}
    (related : R s s') {ops : List Op} (every : ∀ op ∈ ops, allowed op) :
    R (final step s ops) (final step' s' ops) := by
  induction ops generalizing s s' with
  | nil => exact related
  | cons op ops ih =>
      exact ih (keeps s s' op (every op List.mem_cons_self) related)
        fun later member => every later (List.mem_cons_of_mem op member)

end Run
