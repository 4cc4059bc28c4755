import Mathlib.Logic.Function.Basic
import Mathlib.Tactic.Common

/-!
# Ring buffers

A queue of bounded capacity kept in an array: `count` elements from `head` on, with
indices that wrap around, and `tail` as the index of the next free slot.  The
operations refine those of a list.
-/

/-- The representation of a queue in an array. -/
structure RingBuffer (α : Type) where
  slots : Nat → α
  head : Nat
  tail : Nat
  count : Nat

namespace RingBuffer

variable {α : Type} {cap : Nat}

/-- The queued elements, oldest first. -/
def contents (cap : Nat) (ring : RingBuffer α) : List α :=
  (List.range ring.count).map fun i => ring.slots ((ring.head + i) % cap)

/-- Store an element at the tail. -/
def push (cap : Nat) (ring : RingBuffer α) (value : α) : RingBuffer α where
  slots := Function.update ring.slots ring.tail value
  head := ring.head
  tail := (ring.tail + 1) % cap
  count := ring.count + 1

/-- The element at the head. -/
def front (ring : RingBuffer α) : α := ring.slots ring.head

/-- Drop the element at the head. -/
def pop (cap : Nat) (ring : RingBuffer α) : RingBuffer α where
  slots := ring.slots
  head := (ring.head + 1) % cap
  tail := ring.tail
  count := ring.count - 1

/-- An empty queue. -/
def empty (value : α) : RingBuffer α := ⟨fun _ => value, 0, 0, 0⟩

/-- The indices belong together. -/
structure Valid (cap : Nat) (ring : RingBuffer α) : Prop where
  head_lt : ring.head < cap
  tail_eq : ring.tail = (ring.head + ring.count) % cap
  count_le : ring.count ≤ cap

@[simp] theorem length_contents (ring : RingBuffer α) : (ring.contents cap).length = ring.count := by
  simp [contents]

theorem contents_of_count_eq_zero {ring : RingBuffer α} (isEmpty : ring.count = 0) :
    ring.contents cap = [] := by
  rw [contents, isEmpty]
  rfl

theorem contents_empty (cap : Nat) (value : α) : (empty value).contents cap = [] :=
  contents_of_count_eq_zero rfl

namespace Valid

variable {ring : RingBuffer α}

theorem empty (positive : 0 < cap) (value : α) : Valid cap (RingBuffer.empty value) :=
  ⟨positive, (Nat.zero_mod cap).symm, Nat.zero_le cap⟩

theorem push (valid : Valid cap ring) (room : ring.count < cap) (value : α) :
    Valid cap (ring.push cap value) where
  head_lt := valid.head_lt
  tail_eq := by
    change (ring.tail + 1) % cap = (ring.head + (ring.count + 1)) % cap
    rw [valid.tail_eq, Nat.mod_add_mod, Nat.add_assoc]
  count_le := room

theorem pop (valid : Valid cap ring) (some : 0 < ring.count) : Valid cap (ring.pop cap) where
  head_lt := Nat.mod_lt _ (Nat.lt_of_le_of_lt (Nat.zero_le _) valid.head_lt)
  tail_eq := by
    have moved : ring.head + 1 + (ring.count - 1) = ring.head + ring.count := by omega
    change ring.tail = ((ring.head + 1) % cap + (ring.count - 1)) % cap
    rw [valid.tail_eq, Nat.mod_add_mod, moved]
  count_le := Nat.le_trans (Nat.sub_le _ _) valid.count_le

/-- The free slot at the tail holds none of the queued elements. -/
theorem tail_ne (valid : Valid cap ring) (room : ring.count < cap) {i : Nat}
    (queued : i < ring.count) : (ring.head + i) % cap ≠ ring.tail := by
  intro same
  rw [valid.tail_eq] at same
  have inside := valid.head_lt
  by_cases wraps : ring.head + ring.count < cap
  · rw [Nat.mod_eq_of_lt wraps, Nat.mod_eq_of_lt (by omega)] at same
    omega
  · have wrapped : ∀ j, ring.head + j < 2 * cap → cap ≤ ring.head + j →
        (ring.head + j) % cap = ring.head + j - cap := by
      intro j below above
      rw [Nat.mod_eq_sub_mod above, Nat.mod_eq_of_lt (by omega)]
    rw [wrapped ring.count (by omega) (by omega)] at same
    by_cases wraps' : ring.head + i < cap
    · rw [Nat.mod_eq_of_lt wraps'] at same
      omega
    · rw [wrapped i (by omega) (by omega)] at same
      omega

/-- Pushing appends to the queue. -/
theorem contents_push (valid : Valid cap ring) (room : ring.count < cap) (value : α) :
    (ring.push cap value).contents cap = ring.contents cap ++ [value] := by
  have older : ∀ i ∈ List.range ring.count,
      Function.update ring.slots ring.tail value ((ring.head + i) % cap) =
        ring.slots ((ring.head + i) % cap) := by
    intro i member
    have queued := List.mem_range.mp member
    exact Function.update_of_ne (valid.tail_ne room queued) _ _
  have newest : Function.update ring.slots ring.tail value ((ring.head + ring.count) % cap) =
      value := by
    rw [← valid.tail_eq]
    exact Function.update_self _ _ _
  calc (ring.push cap value).contents cap
      = (List.range (ring.count + 1)).map fun i =>
          Function.update ring.slots ring.tail value ((ring.head + i) % cap) := rfl
    _ = ring.contents cap ++ [value] := by
        rw [List.range_succ, List.map_append, List.map_congr_left older, List.map_singleton,
          newest, contents]

/-- Popping takes the oldest element from the queue. -/
theorem contents_pop (valid : Valid cap ring) (some : 0 < ring.count) :
    ring.contents cap = ring.front :: (ring.pop cap).contents cap := by
  obtain ⟨rest, count⟩ : ∃ rest, ring.count = rest + 1 := ⟨ring.count - 1, by omega⟩
  have shifted : ∀ i ∈ List.range rest, ring.slots ((ring.head + (i + 1)) % cap) =
      ring.slots (((ring.head + 1) % cap + i) % cap) := by
    intro i _
    rw [Nat.mod_add_mod, Nat.add_comm i 1, Nat.add_assoc]
  have popped : (ring.pop cap).contents cap =
      (List.range rest).map fun i => ring.slots (((ring.head + 1) % cap + i) % cap) := by
    change (List.range (ring.count - 1)).map _ = _
    rw [count]
    rfl
  rw [popped, contents, count, List.range_succ_eq_map, List.map_cons, List.map_map,
    Nat.add_zero, Nat.mod_eq_of_lt valid.head_lt]
  exact congrArg (ring.front :: ·) (List.map_congr_left shifted)

end Valid

end RingBuffer
