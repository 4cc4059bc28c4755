import Systrix.Lib.Ring

/-!
# Rings with a free slot

A queue in an array with two indices and no counter.  It counts as full when one slot is left, so that a full queue can
be told from an empty one.  What is pushed on a full queue is either lost itself or takes the place of the oldest
element.
-/

/-- The representation of a queue in an array, without a counter. -/
structure OpenRing (α : Type) where
  slots : Nat → α
  head : Nat
  tail : Nat

/-- The last elements of a list. -/
def latest {α : Type} (n : Nat) (items : List α) : List α := items.drop (items.length - n)

theorem latest_of_le {α : Type} {n : Nat} {items : List α} (short : items.length ≤ n) : latest n items = items := by
  rw [latest, Nat.sub_eq_zero_of_le short, List.drop_zero]

theorem length_latest {α : Type} (n : Nat) (items : List α) : (latest n items).length = min n items.length := by
  rw [latest, List.length_drop]
  omega

/-- One more element at the end. -/
theorem latest_append_singleton {α : Type} (n : Nat) (items : List α) (item : α) :
    latest n (items ++ [item]) = latest n (latest n items ++ [item]) := by
  by_cases short : items.length ≤ n
  · rw [latest_of_le short]
  · have kept : (latest n items).length = n := by rw [length_latest]; omega
    have more : (latest n items ++ [item]).length = n + 1 := by rw [List.length_append, kept, List.length_singleton]
    have split : items ++ [item] = items.take (items.length - n) ++ (latest n items ++ [item]) := by
      rw [← List.append_assoc, latest, List.take_append_drop]
    rw [latest, latest, split, List.drop_append, more]
    rw [List.drop_eq_nil_of_le, List.nil_append]
    · congr 1
      simp only [List.length_append, List.length_take, List.length_singleton, kept]
      omega
    · simp only [List.length_append, List.length_take, List.length_singleton, kept]
      omega

namespace OpenRing

variable {α : Type} {cap : Nat} (ring : OpenRing α)

/-- The same queue with its counter. -/
def counted (cap : Nat) : RingBuffer α := ⟨ring.slots, ring.head, ring.tail, (ring.tail + cap - ring.head) % cap⟩

/-- The queued elements, oldest first. -/
def contents (cap : Nat) : List α := (ring.counted cap).contents cap

/-- One slot is left. -/
def Full (cap : Nat) : Prop := (ring.tail + 1) % cap = ring.head

instance (cap : Nat) : Decidable (ring.Full cap) := inferInstanceAs (Decidable (_ = _))

/-- The indices are inside the array. -/
structure Valid (cap : Nat) : Prop where
  head_lt : ring.head < cap
  tail_lt : ring.tail < cap

/-- Store an element at the tail. -/
def push (cap : Nat) (value : α) : OpenRing α := ⟨Function.update ring.slots ring.tail value, ring.head, (ring.tail + 1) % cap⟩

/-- Drop the element at the head. -/
def pop (cap : Nat) : OpenRing α := ⟨ring.slots, (ring.head + 1) % cap, ring.tail⟩

namespace Valid

variable {ring}

theorem push (valid : ring.Valid cap) (value : α) : (ring.push cap value).Valid cap where
  head_lt := valid.head_lt
  tail_lt := Nat.mod_lt _ (Nat.zero_lt_of_lt valid.head_lt)

theorem pop (valid : ring.Valid cap) : (ring.pop cap).Valid cap where
  head_lt := Nat.mod_lt _ (Nat.zero_lt_of_lt valid.head_lt)
  tail_lt := valid.tail_lt

/-- How far the tail is from the head. -/
theorem count_eq (valid : ring.Valid cap) :
    (ring.counted cap).count = if ring.head ≤ ring.tail then ring.tail - ring.head else ring.tail + cap - ring.head := by
  have head_lt := valid.head_lt
  have tail_lt := valid.tail_lt
  change (ring.tail + cap - ring.head) % cap = _
  split
  · have split : ring.tail + cap - ring.head = ring.tail - ring.head + cap := by omega
    rw [split, Nat.add_mod_right, Nat.mod_eq_of_lt (by omega)]
  · exact Nat.mod_eq_of_lt (by omega)

theorem counted (valid : ring.Valid cap) : (ring.counted cap).Valid cap where
  head_lt := valid.head_lt
  tail_eq := by
    have head_lt := valid.head_lt
    have tail_lt := valid.tail_lt
    rw [valid.count_eq]
    change ring.tail = (ring.head + _) % cap
    split
    · rw [Nat.add_sub_cancel' ‹_›, Nat.mod_eq_of_lt tail_lt]
    · have wrapped : ring.head + (ring.tail + cap - ring.head) = ring.tail + cap := by omega
      rw [wrapped, Nat.add_mod_right, Nat.mod_eq_of_lt tail_lt]
  count_le := Nat.le_of_lt (Nat.mod_lt _ (Nat.zero_lt_of_lt valid.head_lt))

theorem length_lt (valid : ring.Valid cap) : (ring.contents cap).length < cap := by
  rw [contents, RingBuffer.length_contents]
  exact Nat.mod_lt _ (Nat.zero_lt_of_lt valid.head_lt)

/-- The index behind another one. -/
theorem next_eq {i : Nat} (inside : i < cap) : (i + 1) % cap = if i + 1 = cap then 0 else i + 1 := by
  split
  · rw [‹i + 1 = cap›, Nat.mod_self]
  · exact Nat.mod_eq_of_lt (by omega)

theorem full_iff (valid : ring.Valid cap) : ring.Full cap ↔ (ring.contents cap).length + 1 = cap := by
  have head_lt := valid.head_lt
  have tail_lt := valid.tail_lt
  rw [Full, next_eq tail_lt, contents, RingBuffer.length_contents, valid.count_eq]
  split <;> split <;> omega

theorem contents_eq_nil_iff (valid : ring.Valid cap) : ring.contents cap = [] ↔ ring.head = ring.tail := by
  have head_lt := valid.head_lt
  have tail_lt := valid.tail_lt
  rw [← List.length_eq_zero_iff, contents, RingBuffer.length_contents, valid.count_eq]
  split <;> omega

/-- A queue that is not full takes one more element. -/
theorem contents_push (valid : ring.Valid cap) (room : ¬ ring.Full cap) (value : α) :
    (ring.push cap value).contents cap = ring.contents cap ++ [value] := by
  have head_lt := valid.head_lt
  have tail_lt := valid.tail_lt
  have free : ring.tail + 1 = cap → ring.head ≠ 0 := by
    intro last first
    refine room ?_
    rw [Full, last, Nat.mod_self, first]
  have apart : ring.tail + 1 ≠ ring.head := by
    intro next
    refine room ?_
    rw [Full, next, Nat.mod_eq_of_lt head_lt]
  have same : (ring.push cap value).counted cap = (ring.counted cap).push cap value := by
    have count : ((ring.push cap value).counted cap).count = (ring.counted cap).count + 1 := by
      rw [(valid.push value).count_eq, valid.count_eq]
      simp only [OpenRing.push, next_eq tail_lt]
      split <;> split <;> split <;> omega
    exact congrArg (RingBuffer.mk _ _ _) count
  have below : (ring.counted cap).count < cap := Nat.mod_lt _ (Nat.zero_lt_of_lt head_lt)
  rw [contents, same]
  exact valid.counted.contents_push below value

/-- A queue that is not empty gives its oldest element. -/
theorem contents_pop (valid : ring.Valid cap) (some : ring.head ≠ ring.tail) :
    ring.contents cap = ring.slots ring.head :: (ring.pop cap).contents cap := by
  have head_lt := valid.head_lt
  have tail_lt := valid.tail_lt
  have positive : 0 < (ring.counted cap).count := by
    rw [valid.count_eq]
    split <;> omega
  have same : (ring.pop cap).counted cap = (ring.counted cap).pop cap := by
    have count : ((ring.pop cap).counted cap).count = (ring.counted cap).count - 1 := by
      rw [valid.pop.count_eq, valid.count_eq]
      simp only [OpenRing.pop, next_eq head_lt]
      split <;> split <;> split <;> omega
    exact congrArg (RingBuffer.mk _ _ _) count
  rw [contents, contents, same]
  exact valid.counted.contents_pop positive

/-- An element that takes the place of the oldest one when the queue is full. -/
theorem contents_slide (valid : ring.Valid cap) (large : 1 < cap) (value : α) :
    ((if ring.Full cap then ring.pop cap else ring).push cap value).contents cap =
      latest (cap - 1) (ring.contents cap ++ [value]) := by
  have short := valid.length_lt
  by_cases full : ring.Full cap
  · have count := valid.full_iff.mp full
    have some : ring.head ≠ ring.tail := by
      intro same
      rw [valid.contents_eq_nil_iff.mpr same, List.length_nil] at count
      omega
    have popped := valid.contents_pop some
    have room : ¬ (ring.pop cap).Full cap := by
      rw [valid.pop.full_iff]
      rw [popped, List.length_cons] at count
      omega
    rw [if_pos full, valid.pop.contents_push room, popped, latest]
    rw [popped, List.length_cons] at count
    have one : ((ring.slots ring.head :: (ring.pop cap).contents cap) ++ [value]).length - (cap - 1) = 1 := by
      simp only [List.length_append, List.length_cons, List.length_nil]
      omega
    rw [one]
    rfl
  · have room := mt valid.full_iff.mpr full
    rw [if_neg full, valid.contents_push full, latest_of_le]
    rw [List.length_append, List.length_singleton]
    omega

end Valid

end OpenRing
