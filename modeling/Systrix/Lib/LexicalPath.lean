import Mathlib.Data.List.Basic
import Mathlib.Tactic.Common

/-!
# Paths

Paths as strings over an alphabet with a separator and a dot, the places they denote when they are resolved
component by component, and their normal forms.
-/

namespace LexicalPath

variable {α : Type} [DecidableEq α] (sep dot : α)

/-- The path begins with a separator. -/
def IsAbsolute (p : List α) : Prop := p.head? = some sep

instance (p : List α) : Decidable (IsAbsolute sep p) := inferInstanceAs (Decidable (_ = _))

/-- A place: how far above the start it lies, and the names on the way down from there, the last one first. -/
structure Location (α : Type) where
  absolute : Bool
  ups : Nat
  names : List (List α)
  deriving DecidableEq

/-- One component further.  The root has no place above it. -/
def Location.enter (l : Location α) (c : List α) : Location α :=
  if c = [] ∨ c = [dot] then l
  else if c = [dot, dot] then
    match l.names with
    | _ :: names => { l with names := names }
    | [] => if l.absolute then l else { l with ups := l.ups + 1 }
  else { l with names := c :: l.names }

/-- The root, or the start of relative paths. -/
def Location.start (absolute : Bool) : Location α := ⟨absolute, 0, []⟩

/-- The place a path denotes. -/
def location (p : List α) : Location α :=
  (p.splitOn sep).foldl (Location.enter dot) (.start (IsAbsolute sep p))

/-- The components of a path, without the separator at the beginning of an absolute one. -/
def components (p : List α) : List (List α) :=
  if p = [] ∨ p = [sep] then [] else if IsAbsolute sep p then p.tail.splitOn sep else p.splitOn sep

/-- There is no empty component and none that stays where it is, and only a relative path has components that go up,
before all others; a path without components is a dot, or the separator alone. -/
def InNormalForm (p : List α) : Prop :=
  p = [dot] ∨ (∀ c ∈ components sep p, c ≠ [] ∧ c ≠ [dot]) ∧
    ∃ k names, components sep p = List.replicate k [dot, dot] ++ names ∧ [dot, dot] ∉ names ∧ (IsAbsolute sep p → k = 0)

variable {sep dot} {p q : List α} {l : Location α}

/-- Neither the empty component, nor a dot, nor two dots. -/
def IsName (dot : α) (c : List α) : Prop := c ≠ [] ∧ c ≠ [dot] ∧ c ≠ [dot, dot]

namespace Location

theorem enter_stay {c : List α} (stays : c = [] ∨ c = [dot]) : l.enter dot c = l := if_pos stays

theorem enter_name {c : List α} (isName : IsName dot c) : l.enter dot c = { l with names := c :: l.names } := by
  obtain ⟨nonempty, noDot, noUp⟩ := isName
  exact (if_neg (not_or.mpr ⟨nonempty, noDot⟩)).trans (if_neg noUp)

theorem enter_up : l.enter dot [dot, dot] =
    match l.names with
    | _ :: names => { l with names := names }
    | [] => if l.absolute then l else { l with ups := l.ups + 1 } := by
  have moves : ¬([dot, dot] = [] ∨ [dot, dot] = [dot]) := by simp
  exact (if_neg moves).trans (if_pos rfl)

theorem enter_absolute (l : Location α) (c : List α) : (l.enter dot c).absolute = l.absolute := by
  unfold enter
  split
  · rfl
  · split
    · split
      · rfl
      · split <;> rfl
    · rfl

theorem ups_le_enter (l : Location α) (c : List α) : l.ups ≤ (l.enter dot c).ups := by
  unfold enter
  split
  · exact Nat.le_refl _
  · split
    · split
      · exact Nat.le_refl _
      · split
        · exact Nat.le_refl _
        · exact Nat.le_succ _
    · exact Nat.le_refl _

theorem foldl_enter_absolute (cs : List (List α)) (l : Location α) :
    (cs.foldl (enter dot) l).absolute = l.absolute := by
  induction cs generalizing l with
  | nil => rfl
  | cons c cs ih => exact (ih (l.enter dot c)).trans (enter_absolute l c)

theorem ups_le_foldl (cs : List (List α)) (l : Location α) : l.ups ≤ (cs.foldl (enter dot) l).ups := by
  induction cs generalizing l with
  | nil => exact Nat.le_refl _
  | cons c cs ih => exact Nat.le_trans (ups_le_enter l c) (ih (l.enter dot c))

/-- Only names are entered. -/
theorem foldl_enter_names {cs : List (List α)} (names : ∀ c ∈ cs, IsName dot c) (l : Location α) :
    cs.foldl (enter dot) l = { l with names := cs.reverse ++ l.names } := by
  induction cs generalizing l with
  | nil => rfl
  | cons c cs ih =>
      rw [List.foldl_cons, enter_name (names c List.mem_cons_self),
        ih fun later member => names later (List.mem_cons_of_mem c member), List.reverse_cons, List.append_assoc]
      rfl

end Location

/-! ## Splitting -/

theorem not_mem_splitOn {c : List α} (member : c ∈ p.splitOn sep) : sep ∉ c := by
  induction p generalizing c with
  | nil =>
      rw [List.splitOn_nil, List.mem_singleton] at member
      rw [member]
      exact List.not_mem_nil
  | cons x p ih =>
      rw [List.splitOn_cons_eq_if_modifyHead] at member
      by_cases isSep : x = sep
      · rw [if_pos (beq_iff_eq.mpr isSep)] at member
        rcases List.mem_cons.mp member with rfl | later
        · exact List.not_mem_nil
        · exact ih later
      · rw [if_neg (fun same => isSep (beq_iff_eq.mp same))] at member
        cases split : p.splitOn sep with
        | nil => exact absurd split (List.splitOn_ne_nil sep p)
        | cons first rest =>
            rw [split] at member ih
            rcases List.mem_cons.mp member with rfl | later
            · exact List.mem_cons.not.mpr (not_or.mpr ⟨Ne.symm isSep, ih List.mem_cons_self⟩)
            · exact ih (List.mem_cons_of_mem first later)

/-- The components before the last one have a separator behind them. -/
theorem exists_splitOn (sep : α) (p : List α) :
    ∃ cs last, p.splitOn sep = cs ++ [last] ∧ p = cs.flatMap (fun c => c ++ [sep]) ++ last := by
  induction p with
  | nil => exact ⟨[], [], List.splitOn_nil sep, rfl⟩
  | cons x p ih =>
      obtain ⟨cs, last, split, eq⟩ := ih
      rw [List.splitOn_cons_eq_if_modifyHead, split]
      by_cases isSep : x = sep
      · refine ⟨[] :: cs, last, if_pos (beq_iff_eq.mpr isSep), ?_⟩
        rw [isSep, eq]
        rfl
      · rw [if_neg (fun same => isSep (beq_iff_eq.mp same))]
        cases cs with
        | nil => exact ⟨[], x :: last, rfl, congrArg (x :: ·) eq⟩
        | cons c cs => exact ⟨(x :: c) :: cs, last, rfl, congrArg (x :: ·) eq⟩

end LexicalPath
