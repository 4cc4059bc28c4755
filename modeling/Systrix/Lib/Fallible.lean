import Mathlib.Tactic.Common

/-!
# Programs that may stop

Rules for what holds when an `Except` program ends: which errors it may stop
with, and what its result satisfies otherwise.
-/

namespace Fallible

variable {ε α β σ : Type} {allowed : ε → Prop}

/-- The program stops with an allowed error or its result satisfies `post`. -/
inductive Ends (allowed : ε → Prop) (post : α → Prop) : Except ε α → Prop
  | ok {result : α} (holds : post result) : Ends allowed post (.ok result)
  | error {reason : ε} (isAllowed : allowed reason) : Ends allowed post (.error reason)

@[simp] theorem ends_ok {post : α → Prop} {result : α} :
    Ends allowed post (.ok result) ↔ post result :=
  ⟨fun | .ok holds => holds, .ok⟩

@[simp] theorem ends_pure {post : α → Prop} {result : α} :
    Ends allowed post (pure result) ↔ post result := ends_ok

@[simp] theorem ends_error {post : α → Prop} {reason : ε} :
    Ends allowed post (.error reason) ↔ allowed reason :=
  ⟨fun | .error isAllowed => isAllowed, .error⟩

theorem Ends.imp {allowed' : ε → Prop} {post post' : α → Prop} {run : Except ε α}
    (ends : Ends allowed post run) (allow : ∀ reason, allowed reason → allowed' reason)
    (weaker : ∀ result, post result → post' result) : Ends allowed' post' run := by
  cases ends with
  | ok holds => exact .ok (weaker _ holds)
  | error isAllowed => exact .error (allow _ isAllowed)

theorem Ends.mono {post post' : α → Prop} {run : Except ε α} (ends : Ends allowed post run)
    (weaker : ∀ result, post result → post' result) : Ends allowed post' run :=
  ends.imp (fun _ isAllowed => isAllowed) weaker

theorem Ends.bind {middle : α → Prop} {post : β → Prop} {run : Except ε α}
    {next : α → Except ε β} (first : Ends allowed middle run)
    (second : ∀ result, middle result → Ends allowed post (next result)) :
    Ends allowed post (run >>= next) := by
  cases first with
  | ok holds => exact second _ holds
  | error isAllowed => exact .error isAllowed

theorem ends_any (run : Except ε α) : Ends (fun _ => True) (fun _ => True) run := by
  cases run with
  | ok result => exact .ok trivial
  | error reason => exact .error trivial

/-- A program that may stop with no error delivers its result. -/
theorem Ends.exists_ok {post : α → Prop} {run : Except ε α}
    (ends : Ends (fun _ => False) post run) : ∃ result, run = .ok result ∧ post result := by
  cases ends with
  | ok holds => exact ⟨_, rfl, holds⟩
  | error never => exact never.elim

@[simp] theorem ok_bind {result : α} {next : α → Except ε β} :
    ((Except.ok result : Except ε α) >>= next) = next result := rfl

@[simp] theorem error_bind {reason : ε} {next : α → Except ε β} :
    ((Except.error reason : Except ε α) >>= next) = .error reason := rfl

/-- Loop rule: an invariant over the number of steps taken. -/
theorem Ends.foldRange (invariant : Nat → σ → Prop) {body : σ → Nat → Except ε σ} {start : σ}
    {count : Nat} (initial : invariant 0 start)
    (step : ∀ index < count, ∀ state, invariant index state →
      Ends allowed (invariant (index + 1)) (body state index)) :
    Ends allowed (invariant count) ((List.range count).foldlM body start) := by
  induction count with
  | zero => exact .ok initial
  | succ count ih =>
      rw [List.range_succ, List.foldlM_append]
      refine Ends.bind (ih fun index below => step index (Nat.lt_succ_of_lt below)) ?_
      intro state holds
      rw [List.foldlM_cons]
      exact Ends.bind (step count (Nat.lt_succ_self count) state holds) fun _ last => .ok last

/-- Loop rule for a loop that starts at any index and keeps an invariant. -/
theorem Ends.foldRange' {invariant : σ → Prop} {body : σ → Nat → Except ε σ} {start : σ} {first count : Nat}
    (initial : invariant start) (step : ∀ index, first ≤ index → index < first + count → ∀ state, invariant state →
      Ends allowed invariant (body state index)) :
    Ends allowed invariant ((List.range' first count).foldlM body start) := by
  induction count generalizing first start with
  | zero => exact .ok initial
  | succ count ih =>
      rw [List.range'_succ, List.foldlM_cons]
      refine Ends.bind (step first (Nat.le_refl first) (by omega) start initial) fun state holds => ?_
      exact ih holds fun index above below => step index (Nat.le_of_succ_le above) (by omega)

/-- Loop rule for a loop whose states are known. -/
theorem foldRange'_eq (body : σ → Nat → Except ε σ) (state : Nat → σ) (first count : Nat)
    (step : ∀ index, first ≤ index → index < first + count → body (state index) index = .ok (state (index + 1))) :
    (List.range' first count).foldlM body (state first) = .ok (state (first + count)) := by
  induction count generalizing first with
  | zero => rfl
  | succ count ih =>
      rw [List.range'_succ, List.foldlM_cons, step first (Nat.le_refl first) (Nat.lt_add_of_pos_right (Nat.succ_pos count))]
      refine (ih (first + 1) fun index above below => ?_).trans ?_
      · exact step index (Nat.le_of_succ_le above) (by omega)
      · rw [Nat.add_assoc, Nat.add_comm 1]

/-- Loops with the same rounds are the same. -/
theorem foldRange_congr {body body' : σ → Nat → Except ε σ} {start : σ} {count : Nat}
    (same : ∀ index < count, ∀ state, body state index = body' state index) :
    (List.range count).foldlM body start = (List.range count).foldlM body' start := by
  induction count with
  | zero => rfl
  | succ count ih =>
      rw [List.range_succ, List.foldlM_append, List.foldlM_append,
        ih fun index below => same index (Nat.lt_succ_of_lt below)]
      refine congrArg _ (funext fun state => ?_)
      rw [List.foldlM_cons, List.foldlM_cons, same count (Nat.lt_succ_self count)]
      rfl

end Fallible
