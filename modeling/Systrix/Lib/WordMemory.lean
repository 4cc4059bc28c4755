import Mathlib.Tactic.Common

/-!
# Memory of words

Memory by the address of a word of 8 bytes, regions of it, and what is read back after
a region was written.
-/

namespace WordMemory

variable {α : Type}

/-- The addresses from `lo` on and below `hi`. -/
structure Region where
  lo : Nat
  hi : Nat
  deriving DecidableEq

/-- One region ends before the other begins. -/
def Region.Apart (r r' : Region) : Prop := r.hi ≤ r'.lo ∨ r'.hi ≤ r.lo

instance (r r' : Region) : Decidable (r.Apart r') := by
  unfold Region.Apart
  infer_instance

theorem Region.Apart.symm {r r' : Region} (apart : r.Apart r') : r'.Apart r := Or.symm apart

/-- A region apart from a larger one is apart from the smaller one. -/
theorem Region.Apart.mono {r r' small : Region} (apart : r.Apart r') (lo : r.lo ≤ small.lo)
    (hi : small.hi ≤ r.hi) : small.Apart r' := by
  rcases apart with before | after
  · exact .inl (by omega)
  · exact .inr (by omega)

/-- Outside a region nothing changed. -/
def SameOutside (r : Region) (mem mem' : Nat → α) : Prop :=
  ∀ x, x < r.lo ∨ r.hi ≤ x → mem' x = mem x

theorem SameOutside.trans {r : Region} {mem mem' mem'' : Nat → α} (same : SameOutside r mem mem')
    (same' : SameOutside r mem' mem'') : SameOutside r mem mem'' :=
  fun x outside => (same' x outside).trans (same x outside)

theorem SameOutside.mono {r large : Region} {mem mem' : Nat → α} (same : SameOutside r mem mem')
    (lo : large.lo ≤ r.lo) (hi : r.hi ≤ large.hi) : SameOutside large mem mem' :=
  fun x outside => same x (by omega)

/-- Overwrite a region with data given by address. -/
def fill (mem : Nat → α) (r : Region) (data : Nat → α) : Nat → α := fun x =>
  if r.lo ≤ x ∧ x < r.hi then data x else mem x

theorem fill_outside (mem : Nat → α) (r : Region) (data : Nat → α) :
    SameOutside r mem (fill mem r data) := fun x outside => by
  unfold fill
  exact if_neg (by omega)

variable {n : Nat}

/-- The words from an address on. -/
def readWords (mem : Nat → α) (base : Nat) : Fin n → α := fun i => mem (base + 8 * i)

/-- Store words from an address on. -/
def storeWords (mem : Nat → α) (base : Nat) (words : Fin n → α) : Nat → α := fun x =>
  if inside : base ≤ x ∧ x < base + 8 * n then words ⟨(x - base) / 8, by omega⟩ else mem x

theorem storeWords_outside (mem : Nat → α) (base : Nat) (words : Fin n → α) :
    SameOutside ⟨base, base + 8 * n⟩ mem (storeWords mem base words) := fun x outside => by
  have out : ¬(base ≤ x ∧ x < base + 8 * n) := fun inside => by
    rcases outside with below | above
    · exact absurd below (Nat.not_lt.mpr inside.1)
    · exact absurd inside.2 (Nat.not_lt.mpr above)
  unfold storeWords
  exact dif_neg out

theorem storeWords_at (mem : Nat → α) (base : Nat) (words : Fin n → α) (i : Fin n) :
    storeWords mem base words (base + 8 * i) = words i := by
  have index : (base + 8 * (i : Nat) - base) / 8 = i := by omega
  unfold storeWords
  rw [dif_pos (by omega)]
  exact congrArg words (Fin.ext index)

@[simp] theorem readWords_storeWords (mem : Nat → α) (base : Nat) (words : Fin n → α) :
    readWords (storeWords mem base words) base = words :=
  funext fun i => storeWords_at mem base words i

/-- Words outside a region are kept by what changes the region alone. -/
theorem readWords_apart {r : Region} {mem mem' : Nat → α} (same : SameOutside r mem mem')
    {base : Nat} (apart : r.Apart ⟨base, base + 8 * n⟩) :
    (readWords mem' base : Fin n → α) = readWords mem base := by
  funext i
  refine same _ ?_
  have bound := i.isLt
  rcases apart with before | after
  · simp only at before
    omega
  · simp only at after
    omega

end WordMemory
