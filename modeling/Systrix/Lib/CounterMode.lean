import Systrix.Lib.ByteMemory

/-!
# Counter mode

Bytes are combined with a stream by exclusive or.  The stream is made of the
encryptions of successive counters, one for every `width` bytes.
-/

namespace CounterMode

open ByteMemory

/-- The first bytes combined with a stream. -/
def mask (stream : Nat → UInt8) (length : Nat) (data : Memory) : Memory :=
  fun i => if i < length then data i ^^^ stream i else data i

theorem mask_of_lt {stream : Nat → UInt8} {length : Nat} {data : Memory} {i : Nat} (inside : i < length) :
    mask stream length data i = data i ^^^ stream i :=
  if_pos inside

/-- A stream takes itself back. -/
@[simp] theorem mask_mask (stream : Nat → UInt8) (length : Nat) (data : Memory) :
    mask stream length (mask stream length data) = data := by
  funext i
  unfold mask
  split_ifs with inside
  · rw [UInt8.xor_assoc, UInt8.xor_self, UInt8.xor_zero]
  · rfl

/-- One byte more. -/
theorem mask_succ (stream : Nat → UInt8) (length : Nat) (data : Memory) :
    mask stream (length + 1) data =
      Function.update (mask stream length data) length (mask stream length data length ^^^ stream length) := by
  funext i
  unfold mask
  rcases Nat.lt_trichotomy i length with before | rfl | after
  · rw [Function.update_of_ne (Nat.ne_of_lt before), if_pos (Nat.lt_succ_of_lt before), if_pos before]
  · rw [Function.update_self, if_pos (Nat.lt_succ_self i), if_neg (Nat.lt_irrefl i)]
  · rw [Function.update_of_ne (Nat.ne_of_gt after), if_neg (by omega), if_neg (by omega)]

section Stream

variable {Block : Type}

/-- The counter, the stream from it and the bytes. -/
structure State (Block : Type) where
  counter : Block
  block : Block
  data : Memory

variable (next cipher : Block → Block) (byte : Block → Nat → UInt8) (width : Nat)

/-- Combine byte `i`; a new counter is encrypted when the stream is used up. -/
def step (s : State Block) (i : Nat) : State Block :=
  let s := if i % width = 0 then { s with counter := next s.counter, block := cipher (next s.counter) } else s
  { s with data := Function.update s.data i (s.data i ^^^ byte s.block (i % width)) }

/-- Byte `i` of the stream after a counter. -/
def stream (counter : Block) (i : Nat) : UInt8 := byte (cipher (next^[i / width + 1] counter)) (i % width)

/-- The counter that was encrypted last. -/
theorem foldl_step_counter (s : State Block) (positive : 0 < width) (n : Nat) :
    ((List.range n).foldl (step next cipher byte width) s).counter = next^[(n + width - 1) / width] s.counter ∧
      (0 < n → ((List.range n).foldl (step next cipher byte width) s).block =
        cipher (next^[(n + width - 1) / width] s.counter)) := by
  induction n with
  | zero =>
      rw [Nat.zero_add, Nat.div_eq_of_lt (by omega)]
      exact ⟨rfl, fun absurd => by omega⟩
  | succ n ih =>
      rw [List.range_succ, List.foldl_append, List.foldl_cons, List.foldl_nil]
      generalize (List.range n).foldl (step next cipher byte width) s = t at ih
      obtain ⟨counter, block⟩ := ih
      unfold step
      by_cases fresh : n % width = 0
      · have more : (n + 1 + width - 1) / width = (n + width - 1) / width + 1 := by
          obtain ⟨q, rfl⟩ := Nat.dvd_of_mod_eq_zero fresh
          have first : width * q + 1 + width - 1 = width * (q + 1) := by
            rw [Nat.mul_succ]
            omega
          have second : width * q + width - 1 = width * q + (width - 1) := by omega
          rw [first, second, Nat.mul_div_cancel_left _ positive, Nat.mul_add_div positive,
            Nat.div_eq_of_lt (by omega : width - 1 < width), Nat.add_zero]
        rw [if_pos fresh, more, Function.iterate_succ_apply', ← counter]
        exact ⟨rfl, fun _ => rfl⟩
      · have same : (n + 1 + width - 1) / width = (n + width - 1) / width := by
          have split := Nat.div_add_mod n width
          have rest := Nat.mod_lt n positive
          have first : n + 1 + width - 1 = width * (n / width + 1) + n % width := by
            rw [Nat.mul_succ]
            omega
          have second : n + width - 1 = width * (n / width + 1) + (n % width - 1) := by
            rw [Nat.mul_succ]
            omega
          rw [first, second, Nat.mul_add_div positive, Nat.mul_add_div positive, Nat.div_eq_of_lt rest,
            Nat.div_eq_of_lt (by omega : n % width - 1 < width)]
        have some : 0 < n := Nat.pos_of_ne_zero fun zero => fresh (by rw [zero, Nat.zero_mod])
        rw [if_neg fresh, same]
        exact ⟨counter, fun _ => block some⟩

/-- The loop combines the bytes with the stream. -/
theorem foldl_step_data (s : State Block) (positive : 0 < width) (n : Nat) :
    ((List.range n).foldl (step next cipher byte width) s).data =
      mask (stream next cipher byte width s.counter) n s.data := by
  induction n with
  | zero => rfl
  | succ n ih =>
      obtain ⟨-, block⟩ := foldl_step_counter next cipher byte width s positive (n + 1)
      have block := block (Nat.succ_pos n)
      have last : (n + 1 + width - 1) / width = n / width + 1 := by
        rw [Nat.add_right_comm, Nat.add_sub_cancel, Nat.add_div_right _ positive]
      rw [List.range_succ, List.foldl_append, List.foldl_cons, List.foldl_nil] at block ⊢
      rw [last] at block
      rw [mask_succ, stream, ← block, ← ih]
      generalize (List.range n).foldl (step next cipher byte width) s = t
      unfold step
      split_ifs <;> rfl

end Stream

end CounterMode
