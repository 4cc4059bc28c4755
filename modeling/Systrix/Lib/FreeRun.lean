import Mathlib.Tactic.Common

/-!
# The first free run of a table

A scan of a table of flags for the first run of free places that is long enough.
-/

namespace FreeRun

variable (used : Nat → Bool)

/-- Some places that follow each other, all of them free. -/
def IsFree (start count : Nat) : Prop := ∀ k, start ≤ k → k < start + count → used k = false

/-- The scan: `places` places are left from `i` on, and the `len` places before `i` are the
free run that begins at `start`. -/
def scan (count : Nat) : Nat → Nat → Nat → Nat → Option Nat
  | 0, _, _, _ => none
  | places + 1, i, start, len =>
      if used i then scan count places (i + 1) start 0
      else
        let first := if len = 0 then i else start
        if count ≤ len + 1 then some first else scan count places (i + 1) first (len + 1)

variable {used}

theorem IsFree.snoc {start count i : Nat} (free : IsFree used start count) (next : i = start + count)
    (unused : used i = false) : IsFree used start (count + 1) := by
  intro k above below
  rcases Nat.lt_or_ge k i with before | after
  · exact free k above (next ▸ before)
  · have at_end : k = i := by omega
    rw [at_end, unused]

/-- Where the scan stands: the run before `i` is free, and no long enough run ends earlier. -/
structure Scanned (used : Nat → Bool) (count i start len : Nat) : Prop where
  free : IsFree used (i - len) len
  inside : len ≤ i
  short : len < count
  begins : len ≠ 0 → start = i - len
  left : ∀ first, first < i - len → first + count ≤ i → ¬ IsFree used first count
  stopped : len < i → used (i - len - 1) = true

variable {count i start len : Nat}

theorem scanned_start (positive : 0 < count) : Scanned used count 0 start 0 :=
  ⟨fun _ _ _ => by omega, Nat.le_refl 0, positive, fun nonzero => absurd rfl nonzero, fun _ _ _ => by omega,
    fun _ => by omega⟩

/-- A run that has a used place among its places is not free. -/
theorem not_isFree {first k : Nat} (taken : used k = true) (above : first ≤ k) (below : k < first + count) :
    ¬ IsFree used first count := fun free => by simp [free k above below] at taken

theorem Scanned.skip (scanned : Scanned used count i start len) (taken : used i = true) :
    Scanned used count (i + 1) start 0 where
  free := fun _ _ _ => by omega
  inside := Nat.zero_le _
  short := Nat.lt_of_le_of_lt (Nat.zero_le len) scanned.short
  begins := fun nonzero => absurd rfl nonzero
  left := by
    intro first before ends
    rcases Nat.lt_or_ge i (first + count) with covers | earlier
    · exact not_isFree taken (Nat.lt_succ_iff.mp before) covers
    · rcases Nat.lt_or_ge first (i - len) with outside | within
      · exact scanned.left first outside earlier
      · have short := scanned.short
        omega
  stopped := fun _ => by simpa using taken

/-- The start of the run once the place at `i` has joined it. -/
theorem Scanned.first_eq (scanned : Scanned used count i start len) :
    (if len = 0 then i else start) = i - len := by
  by_cases empty : len = 0
  · simp [empty]
  · rw [if_neg empty, scanned.begins empty]

theorem Scanned.extend (scanned : Scanned used count i start len) (unused : used i = false) :
    IsFree used (i - len) (len + 1) :=
  scanned.free.snoc (Nat.sub_add_cancel scanned.inside).symm unused

theorem Scanned.grow (scanned : Scanned used count i start len) (unused : used i = false) (short : len + 1 < count) :
    Scanned used count (i + 1) (if len = 0 then i else start) (len + 1) := by
  have begins : i + 1 - (len + 1) = i - len := Nat.add_sub_add_right i 1 len
  refine ⟨?_, Nat.succ_le_succ scanned.inside, short, fun _ => ?_, ?_, ?_⟩
  · rw [begins]
    exact scanned.extend unused
  · rw [begins, scanned.first_eq]
  · intro first before ends
    rw [begins] at before
    rcases Nat.lt_or_ge i (first + count) with covers | earlier
    · have stopped := scanned.stopped (by omega)
      exact not_isFree stopped (by omega) (by omega)
    · exact scanned.left first before earlier
  · intro inside
    rw [begins]
    exact scanned.stopped (Nat.lt_of_succ_lt_succ inside)

/-- The scan finds the first run that is free and long enough, if there is one. -/
theorem Scanned.scan (scanned : Scanned used count i start len) (places : Nat) :
    match scan used count places i start len with
    | some first => IsFree used first count ∧ first + count ≤ i + places ∧
        ∀ other, IsFree used other count → first ≤ other
    | none => ∀ other, other + count ≤ i + places → ¬ IsFree used other count := by
  induction places generalizing i start len with
  | zero =>
      intro other ends free
      rcases Nat.lt_or_ge other (i - len) with outside | within
      · exact scanned.left other outside ends free
      · have short := scanned.short
        omega
  | succ places ih =>
      have next : i + (places + 1) = i + 1 + places := by omega
      rw [FreeRun.scan, next]
      cases taken : used i with
      | true =>
          simp only [if_pos]
          exact ih (scanned.skip taken)
      | false =>
          by_cases long : count ≤ len + 1
          · simp only [Bool.false_eq_true, if_false, if_pos long, scanned.first_eq]
            have exact_length : count = len + 1 := Nat.le_antisymm long scanned.short
            refine ⟨exact_length ▸ scanned.extend taken, ?_, ?_⟩
            · have inside := scanned.inside
              omega
            · intro other free
              by_contra before
              have stopped := scanned.stopped (by omega)
              rcases Nat.lt_or_ge i (other + count) with covers | earlier
              · exact not_isFree stopped (by omega) (by omega) free
              · exact scanned.left other (by omega) earlier free
          · simp only [Bool.false_eq_true, if_false, if_neg long]
            exact ih (scanned.grow taken (by omega))

end FreeRun
