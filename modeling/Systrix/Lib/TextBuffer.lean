import Mathlib.Logic.Function.Basic
import Mathlib.Tactic.Common

/-!
# Text in a buffer

Loops over an array of characters as operations on the text it holds: inserting and erasing by shifting
the rest, and strings that end at a zero byte.  A buffer keeps the indices that were written.
-/

namespace TextBuffer

/-- An array with the indices that were written, the last one first. -/
structure Buffer (α : Type) where
  cells : Nat → α
  writes : List Nat

namespace Buffer

variable {α : Type}

/-- `buf[i] = value` -/
def put (b : Buffer α) (i : Nat) (value : α) : Buffer α := ⟨Function.update b.cells i value, i :: b.writes⟩

/-- `for (; left > 0; i++, left--) buf[i] = buf[i + 1]` -/
def shiftDown (b : Buffer α) (i : Nat) : (left : Nat) → Buffer α
  | 0 => b
  | left + 1 => (b.put i (b.cells (i + 1))).shiftDown (i + 1) left

/-- `for (i = low + left; i > low; i--) buf[i] = buf[i - 1]` -/
def shiftUp (b : Buffer α) (low : Nat) : (left : Nat) → Buffer α
  | 0 => b
  | left + 1 => (b.put (low + left + 1) (b.cells (low + left))).shiftUp low left

/-- All writes were below a bound. -/
def Below (b : Buffer α) (bound : Nat) : Prop := ∀ i ∈ b.writes, i < bound

/-- The buffer begins with a text. -/
def Holds (b : Buffer α) (text : List α) : Prop := ∀ i < text.length, text[i]? = some (b.cells i)

theorem put_self (b : Buffer α) (i : Nat) (value : α) : (b.put i value).cells i = value :=
  Function.update_self _ _ _

theorem put_of_ne (b : Buffer α) {i j : Nat} (ne : j ≠ i) (value : α) : (b.put i value).cells j = b.cells j :=
  Function.update_of_ne ne _ _

theorem Below.put {b : Buffer α} {bound i : Nat} (below : b.Below bound) (inside : i < bound) (value : α) :
    (b.put i value).Below bound := by
  intro j member
  rcases List.mem_cons.mp member with rfl | old
  · exact inside
  · exact below j old

theorem Below.shiftDown {b : Buffer α} {bound i left : Nat} (below : b.Below bound) (inside : i + left ≤ bound) :
    (b.shiftDown i left).Below bound := by
  induction left generalizing b i with
  | zero => exact below
  | succ left ih =>
      have here : i < bound := by omega
      exact ih (below.put here _) (by omega)

theorem Below.shiftUp {b : Buffer α} {bound low left : Nat} (below : b.Below bound) (inside : low + left < bound) :
    (b.shiftUp low left).Below bound := by
  induction left generalizing b with
  | zero => exact below
  | succ left ih => exact ih (below.put inside _) (by omega)

theorem shiftDown_cells (b : Buffer α) (i left j : Nat) :
    (b.shiftDown i left).cells j = if i ≤ j ∧ j < i + left then b.cells (j + 1) else b.cells j := by
  induction left generalizing b i with
  | zero => exact (if_neg (by omega)).symm
  | succ left ih =>
      rw [shiftDown, ih]
      by_cases here : j = i
      · subst here
        rw [if_neg (by omega), if_pos (by omega), put_self]
      · rw [put_of_ne b here]
        by_cases inside : i + 1 ≤ j ∧ j < i + 1 + left
        · rw [if_pos inside, if_pos (by omega), put_of_ne b (by omega)]
        · rw [if_neg inside, if_neg (by omega)]

theorem shiftUp_cells (b : Buffer α) (low left j : Nat) :
    (b.shiftUp low left).cells j = if low < j ∧ j ≤ low + left then b.cells (j - 1) else b.cells j := by
  induction left generalizing b with
  | zero => exact (if_neg (by omega)).symm
  | succ left ih =>
      rw [shiftUp, ih]
      by_cases here : j = low + left + 1
      · subst here
        rw [if_neg (by omega), if_pos (by omega), put_self]
        rfl
      · rw [put_of_ne b here]
        by_cases inside : low < j ∧ j ≤ low + left
        · rw [if_pos inside, if_pos (by omega), put_of_ne b (by omega)]
        · rw [if_neg inside, if_neg (by omega)]

/-- Shifting the rest of a text down erases a character. -/
theorem Holds.erase {b : Buffer α} {text : List α} (holds : b.Holds text) {i : Nat} (inside : i < text.length) :
    (b.shiftDown i (text.length - 1 - i)).Holds (text.eraseIdx i) := by
  intro j below
  rw [List.length_eraseIdx_of_lt inside] at below
  rw [List.getElem?_eraseIdx, shiftDown_cells]
  by_cases before : j < i
  · rw [if_pos before, if_neg (by omega)]
    exact holds j (by omega)
  · rw [if_neg before, if_pos (by omega)]
    exact holds (j + 1) (by omega)

/-- Shifting the rest of a text up makes room for a character. -/
theorem Holds.insert {b : Buffer α} {text : List α} (holds : b.Holds text) {i : Nat} (inside : i ≤ text.length)
    (value : α) : ((b.shiftUp i (text.length - i)).put i value).Holds (text.insertIdx i value) := by
  intro j below
  rw [List.length_insertIdx_of_le_length inside] at below
  rw [List.getElem?_insertIdx]
  by_cases before : j < i
  · rw [if_pos before, put_of_ne _ (by omega), shiftUp_cells, if_neg (by omega)]
    exact holds j (by omega)
  · rw [if_neg before]
    by_cases here : j = i
    · subst here
      rw [if_pos rfl, if_pos inside, put_self]
    · rw [if_neg here, put_of_ne _ here, shiftUp_cells, if_pos (by omega)]
      exact holds (j - 1) (by omega)

theorem Holds.append_put {b : Buffer α} {text : List α} (holds : b.Holds text) (value : α) :
    (b.put text.length value).Holds text := fun i below => by
  rw [put_of_ne _ (Nat.ne_of_lt below)]
  exact holds i below

theorem Holds.put_end {b : Buffer α} {text : List α} (holds : b.Holds text) (value : α) :
    (b.put text.length value).Holds (text ++ [value]) := by
  intro i below
  rw [List.length_append, List.length_singleton] at below
  by_cases last : i = text.length
  · subst last
    rw [put_self, List.getElem?_append_right (Nat.le_refl _), Nat.sub_self]
    rfl
  · rw [put_of_ne _ last, List.getElem?_append_left (by omega)]
    exact holds i (by omega)

end Buffer

/-! ## Strings that end at a zero byte -/

/-- The string at an index. -/
def StringAt (m : Nat → UInt8) : Nat → List UInt8 → Prop
  | i, [] => m i = 0
  | i, c :: text => m i = c ∧ c ≠ 0 ∧ StringAt m (i + 1) text

/-- `strncmp(a + i, b + i, left) == 0` -/
def strncmpEq (a b : Nat → UInt8) (i : Nat) : (left : Nat) → Bool
  | 0 => true
  | left + 1 => if a i ≠ b i then false else if a i = 0 then true else strncmpEq a b (i + 1) left

/-- Copy a string with room for `left` characters and the terminator. -/
def copyString (dst src : Nat → UInt8) (i : Nat) : (left : Nat) → Nat → UInt8
  | 0 => Function.update dst i 0
  | left + 1 =>
      if src i = 0 then Function.update dst i 0 else copyString (Function.update dst i (src i)) src (i + 1) left

namespace StringAt

variable {m : Nat → UInt8} {i : Nat} {text : List UInt8}

theorem of_cells (cells : ∀ j < text.length, text[j]? = some (m (i + j))) (ends : m (i + text.length) = 0)
    (nonzero : 0 ∉ text) : StringAt m i text := by
  induction text generalizing i with
  | nil => exact ends
  | cons c text ih =>
      rw [List.mem_cons, not_or] at nonzero
      have first := cells 0 (Nat.zero_lt_succ _)
      refine ⟨(Option.some.inj first).symm, Ne.symm nonzero.1, ih (fun j below => ?_) ?_ nonzero.2⟩
      · have next := cells (j + 1) (Nat.succ_lt_succ below)
        rw [List.getElem?_cons_succ] at next
        rw [next, Nat.add_right_comm, Nat.add_assoc]
      · rw [List.length_cons] at ends
        rw [Nat.add_right_comm, Nat.add_assoc]
        exact ends

theorem cells (string : StringAt m i text) : ∀ j < text.length, text[j]? = some (m (i + j)) := by
  induction text generalizing i with
  | nil => exact fun j below => absurd below (Nat.not_lt_zero j)
  | cons c text ih =>
      obtain ⟨first, -, rest⟩ := string
      intro j below
      cases j with
      | zero => rw [List.getElem?_cons_zero, Nat.add_zero, first]
      | succ j =>
          rw [List.getElem?_cons_succ, ih rest j (Nat.lt_of_succ_lt_succ below), Nat.add_right_comm, Nat.add_assoc]

theorem nonzero (string : StringAt m i text) : 0 ∉ text := by
  induction text generalizing i with
  | nil => exact List.not_mem_nil
  | cons c text ih =>
      obtain ⟨-, real, rest⟩ := string
      rw [List.mem_cons, not_or]
      exact ⟨real.symm, ih rest⟩

theorem ends (string : StringAt m i text) : m (i + text.length) = 0 := by
  induction text generalizing i with
  | nil => exact string
  | cons c text ih =>
      have rest := ih string.2.2
      rw [Nat.add_right_comm, Nat.add_assoc] at rest
      exact rest

theorem unique {text' : List UInt8} (string : StringAt m i text) (string' : StringAt m i text') : text = text' := by
  induction text generalizing i text' with
  | nil =>
      cases text' with
      | nil => rfl
      | cons c' text' => exact absurd (string'.1.symm.trans string) string'.2.1
  | cons c text ih =>
      cases text' with
      | nil => exact absurd (string.1.symm.trans string') string.2.1
      | cons c' text' => rw [← string.1, ← string'.1, ih string.2.2 string'.2.2]

theorem agree {m' : Nat → UInt8} (string : StringAt m i text) (string' : StringAt m' i text) {j : Nat}
    (inside : j ≤ text.length) : m (i + j) = m' (i + j) := by
  rcases Nat.lt_or_eq_of_le inside with below | rfl
  · exact Option.some.inj ((string.cells j below).symm.trans (string'.cells j below))
  · exact string.ends.trans string'.ends.symm

/-- `strncmp` compares strings that fit whole. -/
theorem strncmpEq_iff {m' : Nat → UInt8} {text' : List UInt8} {left : Nat} (string : StringAt m i text)
    (string' : StringAt m' i text') (fits : text.length ≤ left) (fits' : text'.length ≤ left) :
    strncmpEq m m' i left = true ↔ text = text' := by
  induction text generalizing i text' left with
  | nil =>
      have stop : m i = 0 := string
      cases left with
      | zero =>
          have none : text' = [] := List.eq_nil_of_length_eq_zero (Nat.le_zero.mp fits')
          rw [none]
          exact iff_of_true rfl rfl
      | succ left =>
          rw [strncmpEq, stop]
          cases text' with
          | nil =>
              have stop' : m' i = 0 := string'
              rw [stop', if_neg (not_not.mpr rfl), if_pos rfl]
              exact iff_of_true rfl rfl
          | cons c' text' =>
              obtain ⟨first', real', -⟩ := string'
              rw [first', if_pos real'.symm]
              exact iff_of_false Bool.false_ne_true (List.cons_ne_nil _ _).symm
  | cons c text ih =>
      obtain ⟨first, real, rest⟩ := string
      cases left with
      | zero => exact absurd fits (Nat.not_succ_le_zero _)
      | succ left =>
          rw [strncmpEq, first]
          cases text' with
          | nil =>
              have stop' : m' i = 0 := string'
              rw [stop', if_pos real]
              exact iff_of_false Bool.false_ne_true (List.cons_ne_nil _ _)
          | cons c' text' =>
              obtain ⟨first', real', rest'⟩ := string'
              rw [first', List.cons_eq_cons]
              by_cases same : c = c'
              · rw [if_neg (not_not.mpr same), if_neg real,
                  ih rest rest' (Nat.le_of_succ_le_succ fits) (Nat.le_of_succ_le_succ fits')]
                exact (and_iff_right same).symm
              · rw [if_pos same]
                exact iff_of_false Bool.false_ne_true fun both => same both.1

theorem congr {mem later : Nat → UInt8} {p : Nat} {s : List UInt8} (there : StringAt mem p s)
    (same : ∀ a, p ≤ a → a ≤ p + s.length → later a = mem a) : StringAt later p s := by
  induction s generalizing p with
  | nil => exact (same p (Nat.le_refl p) (Nat.le_add_right p 0)).trans there
  | cons c s ih =>
    obtain ⟨first, nonzero, rest⟩ := there
    refine ⟨(same p (Nat.le_refl p) (Nat.le_add_right p _)).trans first, nonzero, ih rest ?_⟩
    intro a low high
    exact same a (by omega) (by simp only [List.length_cons]; omega)

end StringAt

theorem Buffer.Holds.stringAt {b : Buffer UInt8} {text : List UInt8} (holds : b.Holds (text ++ [0]))
    (nonzero : 0 ∉ text) : StringAt b.cells 0 text := by
  apply StringAt.of_cells
  · intro j below
    rw [Nat.zero_add, ← holds j (by simp; omega), List.getElem?_append_left below]
  · have last := holds text.length (by simp)
    rw [List.getElem?_append_right (Nat.le_refl _), Nat.sub_self] at last
    rw [Nat.zero_add]
    exact (Option.some.inj last).symm
  · exact nonzero

theorem copyString_below (dst src : Nat → UInt8) {i j : Nat} (below : j < i) (left : Nat) :
    copyString dst src i left j = dst j := by
  induction left generalizing dst i with
  | zero => exact Function.update_of_ne (Nat.ne_of_lt below) _ _
  | succ left ih =>
      rw [copyString]
      split_ifs
      · exact Function.update_of_ne (Nat.ne_of_lt below) _ _
      · rw [ih _ (Nat.lt_succ_of_lt below)]
        exact Function.update_of_ne (Nat.ne_of_lt below) _ _

/-- A string that fits is copied whole. -/
theorem StringAt.copy {src : Nat → UInt8} {i left : Nat} {text : List UInt8} (string : StringAt src i text)
    (fits : text.length ≤ left) (dst : Nat → UInt8) : StringAt (copyString dst src i left) i text := by
  induction text generalizing i left dst with
  | nil =>
      have stop : src i = 0 := string
      cases left with
      | zero => exact Function.update_self _ _ _
      | succ left =>
          rw [copyString, if_pos stop]
          exact Function.update_self _ _ _
  | cons c text ih =>
      obtain ⟨first, real, rest⟩ := string
      cases left with
      | zero => exact absurd fits (Nat.not_succ_le_zero _)
      | succ left =>
          rw [copyString, first, if_neg real]
          refine ⟨?_, real, ih rest (Nat.le_of_succ_le_succ fits) _⟩
          rw [copyString_below _ _ (Nat.lt_succ_self i)]
          exact Function.update_self _ _ _

end TextBuffer
