import Mathlib.Data.List.TakeDrop
import Mathlib.Tactic.Common

/-!
# Consuming a stream in blocks

Elements are collected until there are `n` of them, and then consumed as one block.  It makes no difference how the
elements are cut into pieces, and what is consumed is the whole list, block by block.
-/

namespace BlockFold

variable {σ α : Type} (f : σ → List α → σ) (n : Nat)

/-- One more element behind those that are kept. -/
def push (p : σ × List α) (a : α) : σ × List α :=
  if p.2.length + 1 = n then (f p.1 (p.2 ++ [a]), []) else (p.1, p.2 ++ [a])

/-- All elements of a piece. -/
def feed (p : σ × List α) (l : List α) : σ × List α := l.foldl (push f n) p

/-- Block `i` of a list. -/
def block (l : List α) (i : Nat) : List α := (l.drop (n * i)).take n

/-- The first `k` blocks of a list, one after the other. -/
def foldBlocks (s : σ) (l : List α) (k : Nat) : σ := (List.range k).foldl (fun s i => f s (block n l i)) s

variable {f n}

@[simp] theorem feed_nil (p : σ × List α) : feed f n p [] = p := rfl

/-- Cutting a piece in two makes no difference. -/
theorem feed_append (p : σ × List α) (l m : List α) : feed f n p (l ++ m) = feed f n (feed f n p l) m :=
  List.foldl_append

/-- Elements that do not fill the block are kept. -/
theorem feed_short {p : σ × List α} {l : List α} (short : p.2.length + l.length < n) :
    feed f n p l = (p.1, p.2 ++ l) := by
  induction l generalizing p with
  | nil => rw [feed_nil, List.append_nil]
  | cons a l ih =>
    rw [List.length_cons] at short
    have kept : push f n p a = (p.1, p.2 ++ [a]) := if_neg (by omega)
    have rest := ih (p := (p.1, p.2 ++ [a])) (by rw [List.length_append, List.length_singleton]; omega)
    rw [List.append_assoc] at rest
    rw [feed, List.foldl_cons, kept]
    exact rest

/-- Elements that fill the block let it be consumed. -/
theorem feed_full {p : σ × List α} {l : List α} (some : l ≠ []) (full : p.2.length + l.length = n) :
    feed f n p l = (f p.1 (p.2 ++ l), []) := by
  obtain ⟨front, a, rfl⟩ := List.eq_nil_or_concat l |>.resolve_left some
  rw [List.concat_eq_append] at full ⊢
  rw [List.length_append, List.length_singleton] at full
  have kept := feed_short (f := f) (n := n) (p := p) (l := front) (by omega)
  have filled : push f n (p.1, p.2 ++ front) a = (f p.1 (p.2 ++ front ++ [a]), []) :=
    if_pos (by rw [List.length_append]; omega)
  rw [feed_append, kept, ← List.append_assoc]
  exact filled

/-- How many elements are kept. -/
theorem length_feed (positive : 0 < n) {p : σ × List α} (short : p.2.length < n) (l : List α) :
    (feed f n p l).2.length = (p.2.length + l.length) % n := by
  induction l generalizing p with
  | nil => rw [feed_nil, List.length_nil, Nat.add_zero, Nat.mod_eq_of_lt short]
  | cons a l ih =>
    rw [feed, List.foldl_cons, List.length_cons]
    by_cases full : p.2.length + 1 = n
    · have filled : push f n p a = (f p.1 (p.2 ++ [a]), []) := if_pos full
      have rest := ih (p := (f p.1 (p.2 ++ [a]), [])) positive
      rw [List.length_nil, Nat.zero_add] at rest
      rw [filled, Nat.add_comm l.length, ← Nat.add_assoc, full, Nat.add_mod_left]
      exact rest
    · have kept : push f n p a = (p.1, p.2 ++ [a]) := if_neg full
      have rest := ih (p := (p.1, p.2 ++ [a])) (by rw [List.length_append, List.length_singleton]; omega)
      rw [List.length_append, List.length_singleton] at rest
      rw [kept, Nat.add_comm l.length, ← Nat.add_assoc]
      exact rest

/-- From an empty block on, whole blocks are consumed one after the other. -/
theorem feed_blocks (positive : 0 < n) (s : σ) {l : List α} {k : Nat} (whole : l.length = n * k) :
    feed f n (s, []) l = (foldBlocks f n s l k, []) := by
  have front : ∀ j ≤ k, feed f n (s, []) (l.take (n * j)) = (foldBlocks f n s l j, []) := by
    intro j inside
    induction j with
    | zero => rw [Nat.mul_zero, List.take_zero]; rfl
    | succ j ih =>
      have room : n * (j + 1) ≤ n * k := Nat.mul_le_mul_left n inside
      rw [Nat.mul_succ] at room
      have size : (block n l j).length = n := by
        rw [block, List.length_take, List.length_drop]
        omega
      have next : block n l j ≠ [] := List.ne_nil_of_length_pos (by omega)
      rw [Nat.mul_succ, List.take_add, feed_append, ih (Nat.le_of_succ_le inside)]
      have consumed := feed_full (f := f) (n := n) (p := (foldBlocks f n s l j, [])) next
        (size.symm ▸ Nat.zero_add n)
      have more : foldBlocks f n s l (j + 1) = f (foldBlocks f n s l j) (block n l j) := by
        rw [foldBlocks, foldBlocks, List.range_succ, List.foldl_append]
        rfl
      rw [List.nil_append] at consumed
      rw [more]
      exact consumed
  have all := front k (Nat.le_refl k)
  rwa [← whole, List.take_length] at all

end BlockFold
