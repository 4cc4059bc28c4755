import Mathlib.Data.List.Basic
import Mathlib.Tactic.Common

/-!
# Cutting a list at a separator

A list is cut at the first occurrences of a separator, at most a given number of times.  Joining the pieces gives the
list back, and a list that was joined from pieces without the separator is cut into these.
-/

namespace Systrix.Lib

variable {α : Type}

/-- The pieces with the separator between them. -/
def joinWith (sep : α) : List (List α) → List α
  | [] => []
  | [part] => part
  | part :: next :: rest => part ++ sep :: joinWith sep (next :: rest)

theorem joinWith_cons (sep : α) (part : List α) {rest : List (List α)} (more : rest ≠ []) :
    joinWith sep (part :: rest) = part ++ sep :: joinWith sep rest := by
  cases rest with
  | nil => exact absurd rfl more
  | cons next rest => rfl

theorem joinWith_modifyHead (sep c : α) {parts : List (List α)} (nonempty : parts ≠ []) :
    joinWith sep (parts.modifyHead (c :: ·)) = c :: joinWith sep parts := by
  cases parts with
  | nil => exact absurd rfl nonempty
  | cons part rest => cases rest <;> rfl

variable [DecidableEq α]

/-- The pieces of a list after at most `cuts` cuts. -/
def splitAtMost (sep : α) : (cuts : Nat) → List α → List (List α)
  | 0, s => [s]
  | _ + 1, [] => [[]]
  | cuts + 1, c :: s => if c = sep then [] :: splitAtMost sep cuts s else (splitAtMost sep (cuts + 1) s).modifyHead (c :: ·)

theorem splitAtMost_nil (sep : α) (cuts : Nat) : splitAtMost sep cuts [] = [[]] := by cases cuts <;> rfl

theorem splitAtMost_ne_nil (sep : α) (cuts : Nat) (s : List α) : splitAtMost sep cuts s ≠ [] := by
  fun_induction splitAtMost sep cuts s with
  | case1 => simp
  | case2 => simp
  | case3 => simp
  | case4 cuts c s other ih => simpa using ih

theorem length_splitAtMost (sep : α) (cuts : Nat) (s : List α) : (splitAtMost sep cuts s).length ≤ cuts + 1 := by
  fun_induction splitAtMost sep cuts s with
  | case1 => simp
  | case2 => simp
  | case3 cuts s ih => simpa using ih
  | case4 cuts c s other ih => simpa using ih

/-- The pieces, joined again, are the list. -/
theorem joinWith_splitAtMost (sep : α) (cuts : Nat) (s : List α) : joinWith sep (splitAtMost sep cuts s) = s := by
  fun_induction splitAtMost sep cuts s with
  | case1 => rfl
  | case2 => rfl
  | case3 cuts s ih =>
    rw [joinWith_cons sep [] (splitAtMost_ne_nil _ _ _), ih]
    rfl
  | case4 cuts c s other ih => rw [joinWith_modifyHead sep c (splitAtMost_ne_nil _ _ _), ih]

/-- Only the last piece may still contain the separator. -/
theorem splitAtMost_free (sep : α) (cuts : Nat) (s : List α) : ∀ part ∈ (splitAtMost sep cuts s).dropLast, sep ∉ part := by
  fun_induction splitAtMost sep cuts s with
  | case1 => simp
  | case2 => simp
  | case3 cuts s ih =>
    rw [List.dropLast_cons_of_ne_nil (splitAtMost_ne_nil _ _ _)]
    intro part member
    rcases List.mem_cons.mp member with rfl | later
    · exact List.not_mem_nil
    · exact ih part later
  | case4 cuts c s other ih =>
    intro part member
    cases pieces : splitAtMost sep (cuts + 1) s with
    | nil => exact absurd pieces (splitAtMost_ne_nil _ _ _)
    | cons first rest =>
      rw [pieces] at member ih
      cases rest with
      | nil => simp at member
      | cons next rest =>
        rw [List.modifyHead_cons, List.dropLast_cons_of_ne_nil (by simp)] at member
        rw [List.dropLast_cons_of_ne_nil (by simp)] at ih
        rcases List.mem_cons.mp member with rfl | later
        · have free := ih first List.mem_cons_self
          simp [free, Ne.symm other]
        · exact ih part (List.mem_cons_of_mem _ later)

theorem splitAtMost_append (sep : α) (cuts : Nat) {part : List α} (free : sep ∉ part) (s : List α) :
    splitAtMost sep (cuts + 1) (part ++ sep :: s) = part :: splitAtMost sep cuts s := by
  induction part with
  | nil => simp [splitAtMost]
  | cons c part ih =>
    obtain ⟨other, rest⟩ := not_or.mp (mt List.mem_cons.mpr free)
    rw [List.cons_append, splitAtMost, if_neg (Ne.symm other), ih rest]
    rfl

theorem splitAtMost_of_free (sep : α) (cuts : Nat) {part : List α} (free : sep ∉ part) :
    splitAtMost sep cuts part = [part] := by
  induction part with
  | nil => exact splitAtMost_nil sep cuts
  | cons c part ih =>
    obtain ⟨other, rest⟩ := not_or.mp (mt List.mem_cons.mpr free)
    cases cuts with
    | zero => rfl
    | succ cuts =>
      rw [splitAtMost, if_neg (Ne.symm other), ih rest]
      rfl

/-- Pieces without the separator are found again. -/
theorem splitAtMost_joinWith (sep : α) {parts : List (List α)} (nonempty : parts ≠ []) (free : ∀ part ∈ parts, sep ∉ part)
    {cuts : Nat} (enough : parts.length ≤ cuts + 1) : splitAtMost sep cuts (joinWith sep parts) = parts := by
  induction parts generalizing cuts with
  | nil => exact absurd rfl nonempty
  | cons part rest ih =>
    have first := free part List.mem_cons_self
    cases rest with
    | nil => exact splitAtMost_of_free sep cuts first
    | cons next rest =>
      cases cuts with
      | zero => simp at enough
      | succ cuts =>
        have later := ih (by simp) (fun p member => free p (List.mem_cons_of_mem _ member))
          (Nat.le_of_succ_le_succ enough)
        rw [joinWith_cons sep part (by simp), splitAtMost_append sep cuts first, later]

end Systrix.Lib
