import Mathlib.Data.List.TakeWhile
import Mathlib.Tactic.Common

/-!
# Listings into a buffer

A scan over a table that puts its entries into a buffer, one after the other, as long as there is room for one more.
-/

namespace BoundedListing

variable {σ ε : Type}

/-- The entries in use: what is before the end marker, apart from what is skipped. -/
def live (stop skip : ε → Prop) [DecidablePred stop] [DecidablePred skip] (entries : List ε) : List ε :=
  (entries.takeWhile fun e => !decide (stop e)).filter fun e => !decide (skip e)

/-- What a loop leaves behind, whether it was left early or not. -/
def outcome : Except σ σ → σ
  | .ok s => s
  | .error s => s

/-- How a scan treats an entry.  It may go on or be left when the buffer is full. -/
structure Visits (stop skip : ε → Prop) (full : σ → Prop) (put : σ → ε → σ) (visit : σ → ε → Except σ σ) : Prop where
  at_full : ∀ s e, full s → visit s e = .ok s ∨ visit s e = .error s
  at_stop : ∀ s e, ¬full s → stop e → visit s e = .error s
  at_skip : ∀ s e, ¬full s → ¬stop e → skip e → visit s e = .ok s
  at_use : ∀ s e, ¬full s → ¬stop e → ¬skip e → visit s e = .ok (put s e)

section Live

variable {stop skip : ε → Prop} [DecidablePred stop] [DecidablePred skip] {e : ε} {es : List ε}

@[simp] theorem live_nil : live stop skip ([] : List ε) = [] := rfl

theorem live_cons_of_stop (isEnd : stop e) : live stop skip (e :: es) = [] := by
  rw [live, List.takeWhile_cons_of_neg (by simp only [isEnd, decide_true, Bool.not_true, Bool.false_eq_true, not_false_iff])]
  rfl

theorem live_cons_of_skip (inside : ¬stop e) (skipped : skip e) : live stop skip (e :: es) = live stop skip es := by
  rw [live, List.takeWhile_cons_of_pos (by simp only [inside, decide_false, Bool.not_false]),
    List.filter_cons_of_neg (by simp only [skipped, decide_true, Bool.not_true, Bool.false_eq_true, not_false_iff])]
  rfl

theorem live_cons_of_live (inside : ¬stop e) (used : ¬skip e) :
    live stop skip (e :: es) = e :: live stop skip es := by
  rw [live, List.takeWhile_cons_of_pos (by simp only [inside, decide_false, Bool.not_false]),
    List.filter_cons_of_pos (by simp only [used, decide_false, Bool.not_false])]
  rfl

/-- A table without an end marker. -/
theorem live_eq_filter (inside : ∀ e ∈ es, ¬stop e) : live stop skip es = es.filter fun e => !decide (skip e) := by
  rw [live, List.takeWhile_eq_self_iff.mpr fun e member => by simp only [inside e member, decide_false, Bool.not_false]]

/-- A scan that skips more finds nothing where there is nothing to find. -/
theorem live_eq_nil_of_imp {skip' : ε → Prop} [DecidablePred skip'] (weaker : ∀ e, skip e → skip' e)
    (nothing : live stop skip es = []) : live stop skip' es = [] := by
  refine List.filter_eq_nil_iff.mpr fun e member used => ?_
  have skipped := List.filter_eq_nil_iff.mp nothing e member
  simp only [Bool.not_eq_true', decide_eq_false_iff_not, not_not] at used skipped
  exact used (weaker e skipped)

end Live

section Scan

variable {stop skip : ε → Prop} {full : σ → Prop} {put : σ → ε → σ}
  {visit : σ → ε → Except σ σ}

theorem Visits.outcome_of_full (visits : Visits stop skip full put visit) {s : σ} (isFull : full s) (es : List ε) :
    outcome (es.foldlM visit s) = s := by
  induction es with
  | nil => rfl
  | cons e es ih =>
      rw [List.foldlM_cons]
      rcases visits.at_full s e isFull with goes | ends
      · rw [goes]
        exact ih
      · rw [ends]
        rfl

variable [DecidablePred stop] [DecidablePred skip]

/-- The scan puts the first entries in use into the buffer, as many as there is room for. -/
theorem Visits.outcome_eq (visits : Visits stop skip full put visit) (written : σ → Nat) {width count : Nat}
    (positive : 0 < width) (full_iff : ∀ s, full s ↔ count < written s + width)
    (es : List ε) (written_put : ∀ e ∈ es, ∀ s, written (put s e) = written s + width) (s : σ) :
    outcome (es.foldlM visit s) = ((live stop skip es).take ((count - written s) / width)).foldl put s := by
  induction es generalizing s with
  | nil =>
      rw [live_nil, List.take_nil]
      rfl
  | cons e es ih =>
      by_cases isFull : full s
      · have noRoom : (count - written s) / width = 0 := by
          have tight := (full_iff s).mp isFull
          exact Nat.div_eq_of_lt (by omega)
        rw [visits.outcome_of_full isFull, noRoom]
        rfl
      · have rest := fun s => ih (fun e member => written_put e (List.mem_cons_of_mem _ member)) s
        rw [List.foldlM_cons]
        by_cases isEnd : stop e
        · rw [visits.at_stop s e isFull isEnd, live_cons_of_stop isEnd, List.take_nil]
          rfl
        · by_cases skipped : skip e
          · rw [visits.at_skip s e isFull isEnd skipped, live_cons_of_skip isEnd skipped]
            exact rest s
          · have room : written s + width ≤ count := Nat.not_lt.mp fun tight => isFull ((full_iff s).mpr tight)
            have one : (count - written s) / width = (count - written (put s e)) / width + 1 := by
              rw [written_put e List.mem_cons_self, Nat.div_eq_sub_div positive (by omega), Nat.sub_sub]
            rw [visits.at_use s e isFull isEnd skipped, live_cons_of_live isEnd skipped, one, List.take_succ_cons,
              List.foldl_cons]
            exact rest (put s e)

end Scan

end BoundedListing
