import Mathlib.Logic.Function.Basic
import Mathlib.Tactic.Common

/-!
# Text in rows

Text that is written row after row, a screen that shows the newest rows of it or rows further back, and a
ring of slots that keeps the newest rows.
-/

namespace LineHistory

variable {α : Type} {blank : α} {width : Nat}

/-- Text in rows, the newest of which is being written at `col`. -/
structure Text (blank : α) (width : Nat) where
  row : Int → Fin width → α
  newest : Nat
  col : Fin width
  outside : ∀ i : Int, i < 0 ∨ newest < i → row i = fun _ => blank

namespace Text

/-- No text yet. -/
def empty (blank : α) (some : 0 < width) : Text blank width := ⟨fun _ _ => blank, 0, ⟨0, some⟩, fun _ _ => rfl⟩

/-- Put a character at the cursor. -/
def put (t : Text blank width) (x : α) : Text blank width :=
  { t with
    row := Function.update t.row t.newest (Function.update (t.row t.newest) t.col x)
    outside := by
      intro i out
      rw [Function.update_of_ne (by omega)]
      exact t.outside i out }

/-- Move the cursor inside the row. -/
def moveTo (t : Text blank width) (col : Fin width) : Text blank width := { t with col := col }

/-- Begin a new row. -/
def endRow (t : Text blank width) : Text blank width where
  row := t.row
  newest := t.newest + 1
  col := ⟨0, t.col.pos⟩
  outside := fun i out => t.outside i (by omega)

/-- Write a character, and begin a new row behind the last column. -/
def write (t : Text blank width) (x : α) : Text blank width :=
  if inside : t.col + 1 < width then (t.put x).moveTo ⟨t.col + 1, inside⟩ else (t.put x).endRow

/-- Take back the character before the cursor, if the row has one. -/
def takeBack (t : Text blank width) : Text blank width :=
  if t.col.val = 0 then t else (t.moveTo ⟨t.col - 1, Nat.lt_of_le_of_lt (Nat.sub_le _ _) t.col.isLt⟩).put blank

/-- The row at a line of a screen that shows the newest row last, or all rows while they are few. -/
def live (height : Nat) (t : Text blank width) (r : Nat) : Fin width → α := t.row ((t.newest + 1 - height : Nat) + r)

/-- The row at a line of a screen that shows last the row `k` rows above the newest. -/
def window (height : Nat) (t : Text blank width) (k r : Nat) : Fin width → α := t.row (t.newest - k + 1 - height + r)

/-- The row at a line of a screen that is scrolled back by `k` rows. -/
def view (height : Nat) (t : Text blank width) (k r : Nat) : Fin width → α :=
  if k = 0 then t.live height r else t.window height k r

/-- The rows of a screen that is scrolled back by `k` rows all have the same text. -/
def Uniform (height : Nat) (t : Text blank width) (k : Nat) (line : Fin width → α) : Prop :=
  ∀ r : Nat, r < height → t.row (t.newest - k - r) = line

variable {t : Text blank width} {height k : Nat}

@[simp] theorem put_newest (t : Text blank width) (x : α) : (t.put x).newest = t.newest := rfl

theorem put_row_of_ne (t : Text blank width) (x : α) {i : Int} (other : i ≠ t.newest) : (t.put x).row i = t.row i :=
  Function.update_of_ne other _ _

theorem put_row_self (t : Text blank width) (x : α) :
    (t.put x).row t.newest = Function.update (t.row t.newest) t.col x := Function.update_self _ _ _

/-- A screen that is full shows the newest row last. -/
theorem live_eq_window (full : height ≤ t.newest + 1) (r : Nat) : t.live height r = t.window height 0 r := by
  refine congrArg t.row ?_
  omega

/-- While the rows are few, each has a line of its own. -/
theorem live_of_few (few : t.newest < height) (r : Nat) : t.live height r = t.row r := by
  refine congrArg t.row ?_
  omega

/-- Nothing that is put into the newest row is on a screen that is scrolled back. -/
theorem window_put (t : Text blank width) (x : α) (back : 0 < k) {r : Nat} (line : r < height) :
    (t.put x).window height k r = t.window height k r := by
  refine t.put_row_of_ne x ?_
  rw [put_newest]
  omega

/-- A screen drawn one row too high is right exactly when all its rows have the same text. -/
theorem drawnAbove_iff {drawn : Nat → Fin width → α} (some : 0 < height)
    (above : ∀ r, 0 < r → r < height → drawn r = t.row (t.newest - k - height + r)) :
    (∀ r < height, drawn r = t.window height k r) ↔ t.Uniform height k (drawn 0) := by
  constructor
  · intro right
    have fromTop : ∀ r : Nat, r < height → t.window height k r = drawn 0 := by
      intro r line
      induction r with
      | zero => exact (right 0 some).symm
      | succ r ih =>
          have before : drawn (r + 1) = t.window height k r := by
            rw [above (r + 1) (Nat.succ_pos r) line]
            refine congrArg t.row ?_
            omega
          rw [← right (r + 1) line, before, ih (Nat.lt_of_succ_lt line)]
    intro r line
    rw [← fromTop (height - 1 - r) (by omega)]
    refine congrArg t.row ?_
    omega
  · intro uniform r line
    have shown : t.window height k r = drawn 0 := by
      rw [← uniform (height - 1 - r) (by omega)]
      refine congrArg t.row ?_
      omega
    rw [shown]
    cases r with
    | zero => rfl
    | succ r =>
        rw [above (r + 1) (Nat.succ_pos r) line, ← uniform (height - 1 - r) (by omega)]
        refine congrArg t.row ?_
        omega

/-- While the rows are few, a live screen drawn as if it were full, and one row too high, is right exactly when
nothing is written. -/
theorem drawnAbove_live_iff {drawn : Nat → Fin width → α} (few : t.newest + 1 < height)
    (above : ∀ r, r < height → drawn r = t.row (t.newest - height + r)) :
    (∀ r < height, drawn r = t.live height r) ↔ t.Uniform height 0 (drawn 0) := by
  have top : drawn 0 = fun _ => blank := by
    rw [above 0 (by omega)]
    exact t.outside _ (by omega)
  constructor
  · intro right
    have blankRows : ∀ r : Nat, r < height → t.row r = fun _ => blank := by
      intro r
      induction r using Nat.strongRecOn with
      | ind r ih =>
          intro line
          rw [← live_of_few (Nat.lt_of_succ_lt few) r, ← right r line, above r line]
          by_cases negative : (t.newest - height + r : Int) < 0
          · exact t.outside _ (.inl negative)
          · obtain ⟨i, isRow⟩ := Int.eq_ofNat_of_zero_le (Int.not_lt.mp negative)
            rw [isRow]
            exact ih i (by omega) (by omega)
    intro r line
    rw [top]
    by_cases written : (t.newest - (0 : Nat) - r : Int) < 0
    · exact t.outside _ (.inl written)
    · obtain ⟨i, isRow⟩ := Int.eq_ofNat_of_zero_le (Int.not_lt.mp written)
      rw [isRow]
      exact blankRows i (by omega)
  · intro uniform
    have blankRows : ∀ i : Int, i < height → t.row i = fun _ => blank := by
      intro i below
      by_cases out : i < 0 ∨ t.newest < i
      · exact t.outside i out
      · rw [← top, ← uniform (t.newest - i).toNat (by omega)]
        refine congrArg t.row ?_
        omega
    intro r line
    rw [above r line, live_of_few (Nat.lt_of_succ_lt few), blankRows _ (by omega), blankRows _ (by omega)]

end Text

/-! ## Slots for the newest rows -/

/-- Slot `i % cap` holds row `i` for each of the last `cap` rows up to `last`. -/
def Holds {β : Type} (cap : Nat) (slots rows : Nat → β) (last : Nat) : Prop :=
  ∀ i ≤ last, last < i + cap → slots (i % cap) = rows i

namespace Holds

variable {β : Type} {cap last : Nat} {slots rows rows' : Nat → β}

theorem mod_ne {i j : Nat} (below : i < j) (near : j < i + cap) : i % cap ≠ j % cap := by
  intro same
  have apart : (j - i) % cap = 0 := Nat.sub_mod_eq_zero_of_mod_eq same.symm
  rw [Nat.mod_eq_of_lt (by omega)] at apart
  omega

/-- The newest row is written. -/
theorem update (holds : Holds cap slots rows last) (x : β) (same : ∀ i < last, rows' i = rows i)
    (newest : rows' last = x) : Holds cap (Function.update slots (last % cap) x) rows' last := by
  intro i upTo near
  by_cases isLast : i = last
  · rw [isLast, Function.update_self, newest]
  · have below : i < last := Nat.lt_of_le_of_ne upTo isLast
    rw [Function.update_of_ne (mod_ne below near), same i below]
    exact holds i upTo near

/-- A row is begun. -/
theorem advance (holds : Holds cap slots rows last) (x : β) (same : ∀ i ≤ last, rows' i = rows i)
    (newest : rows' (last + 1) = x) : Holds cap (Function.update slots ((last + 1) % cap) x) rows' (last + 1) := by
  intro i upTo near
  by_cases isLast : i = last + 1
  · rw [isLast, Function.update_self, newest]
  · have below : i ≤ last := by omega
    rw [Function.update_of_ne (mod_ne (Nat.lt_succ_of_le below) near), same i below]
    exact holds i below (by omega)

/-- The slot of the row that is just lost holds the newest row. -/
theorem lost (holds : Holds cap slots rows last) {i : Nat} (some : 0 < cap) (gone : i + cap = last) :
    slots (i % cap) = rows last := by
  rw [← Nat.add_mod_right i cap, gone]
  exact holds last (Nat.le_refl _) (by omega)

end Holds

end LineHistory
