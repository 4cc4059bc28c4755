import Mathlib.Logic.Equiv.Basic
import Mathlib.Data.List.Perm.Basic
import Mathlib.Data.List.Nodup
import Mathlib.Data.List.Range
import Mathlib.Tactic.Common

/-!
# Rearranging an array

An array is a function of its indices.  Part of it may be rearranged, which keeps what holds of each entry,
and it may be in order under a comparison that returns a number below, at or above zero.
-/

namespace Rearrange

variable {α : Type} {lo hi : Nat} {A A' A'' : Nat → α}

/-- Exchange two entries. -/
def exchange (A : Nat → α) (i j : Nat) : Nat → α := fun k => A (Equiv.swap i j k)

theorem exchange_left (A : Nat → α) (i j : Nat) : exchange A i j i = A j := by
  rw [exchange, Equiv.swap_apply_left]

theorem exchange_right (A : Nat → α) (i j : Nat) : exchange A i j j = A i := by
  rw [exchange, Equiv.swap_apply_right]

theorem exchange_of_ne (A : Nat → α) {i j k : Nat} (left : k ≠ i) (right : k ≠ j) : exchange A i j k = A k := by
  rw [exchange, Equiv.swap_apply_of_ne_of_ne left right]

/-- The entries from `lo` to `hi` are permuted, the others stay. -/
def Within (lo hi : Nat) (A A' : Nat → α) : Prop :=
  ∃ σ : Equiv.Perm Nat, (∀ k, ¬(lo ≤ k ∧ k ≤ hi) → σ k = k) ∧ ∀ k, A' k = A (σ k)

namespace Within

theorem refl (lo hi : Nat) (A : Nat → α) : Within lo hi A A := ⟨Equiv.refl Nat, fun _ _ => rfl, fun _ => rfl⟩

theorem trans (first : Within lo hi A A') (second : Within lo hi A' A'') : Within lo hi A A'' := by
  obtain ⟨σ, fixed, entries⟩ := first
  obtain ⟨τ, fixed', entries'⟩ := second
  refine ⟨τ.trans σ, fun k outside => ?_, fun k => ?_⟩
  · rw [Equiv.trans_apply, fixed' k outside, fixed k outside]
  · rw [entries', entries, Equiv.trans_apply]

theorem mono {lo' hi' : Nat} (within : Within lo hi A A') (below : lo' ≤ lo) (above : hi ≤ hi') :
    Within lo' hi' A A' := by
  obtain ⟨σ, fixed, entries⟩ := within
  refine ⟨σ, fun k outside => fixed k fun inside => outside ?_, entries⟩
  exact ⟨Nat.le_trans below inside.1, Nat.le_trans inside.2 above⟩

theorem exchange {i j : Nat} (left : lo ≤ i ∧ i ≤ hi) (right : lo ≤ j ∧ j ≤ hi) :
    Within lo hi A (Rearrange.exchange A i j) := by
  refine ⟨Equiv.swap i j, fun k outside => Equiv.swap_apply_of_ne_of_ne ?_ ?_, fun _ => rfl⟩
  · rintro rfl
    exact outside left
  · rintro rfl
    exact outside right

theorem outside (within : Within lo hi A A') {k : Nat} (outside : ¬(lo ≤ k ∧ k ≤ hi)) : A' k = A k := by
  obtain ⟨σ, fixed, entries⟩ := within
  rw [entries, fixed k outside]

/-- An entry of the part comes from the part. -/
theorem origin (within : Within lo hi A A') {k : Nat} (inside : lo ≤ k ∧ k ≤ hi) :
    ∃ k', (lo ≤ k' ∧ k' ≤ hi) ∧ A' k = A k' := by
  obtain ⟨σ, fixed, entries⟩ := within
  refine ⟨σ k, ?_, entries k⟩
  by_contra outside
  have same : σ k = k := σ.injective (fixed (σ k) outside)
  exact outside (same.symm ▸ inside)

theorem keeps {P : α → Prop} {n : Nat} (within : Within lo hi A A') (bound : hi < n) (all : ∀ k < n, P (A k)) :
    ∀ k < n, P (A' k) := by
  intro k below
  by_cases inside : lo ≤ k ∧ k ≤ hi
  · obtain ⟨k', inside', same⟩ := within.origin inside
    rw [same]
    exact all k' (Nat.lt_of_le_of_lt inside'.2 bound)
  · rw [within.outside inside]
    exact all k below

/-- As a list the array is permuted. -/
theorem perm {n : Nat} (within : Within lo hi A A') (bound : hi < n) :
    ((List.range n).map A').Perm ((List.range n).map A) := by
  obtain ⟨σ, fixed, entries⟩ := within
  have same : A' = fun k => A (σ k) := funext entries
  have apply_lt : ∀ k < n, σ k < n := by
    intro k below
    by_contra beyond
    have fixes : σ (σ k) = σ k := fixed (σ k) (by omega)
    have itself := σ.injective fixes
    omega
  have indices : ((List.range n).map σ).Perm (List.range n) := by
    refine (List.subperm_of_subset (List.nodup_range.map σ.injective) ?_).perm_of_length_le ?_
    · intro k member
      obtain ⟨k', inside, rfl⟩ := List.mem_map.mp member
      exact List.mem_range.mpr (apply_lt k' (List.mem_range.mp inside))
    · rw [List.length_map]
  rw [same]
  have mapped := indices.map A
  rw [List.map_map] at mapped
  exact mapped

end Within

/-! ## Order -/

/-- The comparison is a total preorder on the entries that satisfy a predicate. -/
structure PreorderOn (cmp : α → α → Int) (P : α → Prop) : Prop where
  flip : ∀ x y, P x → P y → (cmp x y < 0 ↔ 0 < cmp y x)
  trans : ∀ x y z, P x → P y → P z → cmp x y ≤ 0 → cmp y z ≤ 0 → cmp x z ≤ 0

namespace PreorderOn

variable {cmp : α → α → Int} {P : α → Prop} (order : PreorderOn cmp P) {x y : α}

include order

theorem self (isP : P x) : cmp x x = 0 := by
  have flip := order.flip x x isP isP
  omega

theorem le_of_pos (isP : P x) (isP' : P y) (above : 0 < cmp y x) : cmp x y ≤ 0 :=
  Int.le_of_lt ((order.flip x y isP isP').mpr above)

theorem le_of_nonneg (isP : P x) (isP' : P y) (notBelow : ¬cmp y x < 0) : cmp x y ≤ 0 := by
  have flip := order.flip y x isP' isP
  omega

end PreorderOn

/-- The entries from `lo` to `hi` are in order. -/
def InOrder (cmp : α → α → Int) (A : Nat → α) (lo hi : Nat) : Prop :=
  ∀ i j, lo ≤ i → i ≤ j → j ≤ hi → cmp (A i) (A j) ≤ 0

/-- Whether a part is in order depends on its entries alone. -/
theorem InOrder.congr {cmp : α → α → Int} (same : ∀ k, lo ≤ k → k ≤ hi → A' k = A k) (order : InOrder cmp A lo hi) :
    InOrder cmp A' lo hi := by
  intro i j low between high
  rw [same i low (Nat.le_trans between high), same j (Nat.le_trans low between) high]
  exact order i j low between high

end Rearrange
