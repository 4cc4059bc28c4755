import Mathlib.Data.List.Basic
import Mathlib.Tactic.Common

/-!
# Trees of tables in memory

Pages of memory read as tables whose entries refer to further tables.  A place in the
tree is the list of the indices that lead to it, the last one first.  `child` says which
table an entry of a table refers to, by the depth of the table.
-/

namespace TableTree

variable {Page Index Entry : Type} (child : Nat → Entry → Option Page)

/-- The table at a place. -/
def table (mem : Page → Index → Entry) (root : Page) : List Index → Option Page
  | [] => some root
  | i :: place => (table mem root place).bind fun t => child place.length (mem t i)

/-- The entry at a place. -/
def entry (mem : Page → Index → Entry) (root : Page) : List Index → Option Entry
  | [] => none
  | i :: place => (table child mem root place).map fun t => mem t i

/-- No page is a table at two places. -/
def Distinct (mem : Page → Index → Entry) (root : Page) : Prop :=
  ∀ p q t, table child mem root p = some t → table child mem root q = some t → p = q

variable {child} {mem mem' : Page → Index → Entry} {root : Page}

theorem table_cons (i : Index) {place : List Index} {t : Page}
    (found : table child mem root place = some t) :
    table child mem root (i :: place) = child place.length (mem t i) := by
  rw [table, found, Option.bind_some]

/-- The entry that refers to a table. -/
theorem table_parent {i : Index} {place : List Index} {t : Page}
    (found : table child mem root (i :: place) = some t) :
    ∃ above, table child mem root place = some above ∧ child place.length (mem above i) = some t :=
  Option.bind_eq_some_iff.mp found

/-- A place below another has a table only when the upper one has. -/
theorem table_suffix {p q : List Index} (below : p <:+ q)
    (none : table child mem root p = none) : table child mem root q = .none := by
  obtain ⟨front, rfl⟩ := below
  induction front with
  | nil => exact none
  | cons i front ih => rw [List.cons_append, table, ih, Option.bind_none]

/-- The tables are where they were when no table has changed. -/
theorem table_congr (same : ∀ q t, table child mem root q = some t → mem' t = mem t) (q : List Index) :
    table child mem' root q = table child mem root q := by
  induction q with
  | nil => rfl
  | cons i q ih =>
      rw [table, table, ih]
      cases found : table child mem root q with
      | none => rfl
      | some t => rw [Option.bind_some, Option.bind_some, same q t found]

theorem Distinct.congr (distinct : Distinct child mem root)
    (same : ∀ q t, table child mem root q = some t → mem' t = mem t) : Distinct child mem' root := by
  intro p q t foundP foundQ
  rw [table_congr same] at foundP foundQ
  exact distinct p q t foundP foundQ

theorem entry_cons (i : Index) {place : List Index} {t : Page}
    (found : table child mem root place = some t) :
    entry child mem root (i :: place) = some (mem t i) := by
  rw [entry, found, Option.map_some]

/-- The entry below another one. -/
theorem entry_below (j i : Index) (place : List Index) :
    entry child mem root (j :: i :: place) =
      (entry child mem root (i :: place)).bind fun e =>
        (child place.length e).map fun t => mem t j := by
  rw [entry, entry, table]
  cases table child mem root place with
  | none => rfl
  | some t => rfl

/-- The entries are what they were when no table has changed. -/
theorem entry_congr (same : ∀ q t, table child mem root q = some t → mem' t = mem t) (q : List Index) :
    entry child mem' root q = entry child mem root q := by
  cases q with
  | nil => rfl
  | cons i q =>
      rw [entry, entry, table_congr same]
      cases found : table child mem root q with
      | none => rfl
      | some t => rw [Option.map_some, Option.map_some, same q t found]

/-! ## Writing an entry -/

section SetEntry

variable [DecidableEq Page] [DecidableEq Index]

/-- Overwrite an entry of a table. -/
def setEntry (mem : Page → Index → Entry) (t : Page) (i : Index) (e : Entry) : Page → Index → Entry :=
  fun t' i' => if t' = t ∧ i' = i then e else mem t' i'

@[simp] theorem setEntry_self (t : Page) (i : Index) (e : Entry) : setEntry mem t i e t i = e :=
  if_pos ⟨rfl, rfl⟩

theorem setEntry_of_ne {t t' : Page} {i i' : Index} (e : Entry) (ne : t' = t → i' ≠ i) :
    setEntry mem t i e t' i' = mem t' i' := if_neg fun ⟨same, same'⟩ => ne same same'

variable {t : Page} {i : Index} {place : List Index} (distinct : Distinct child mem root)
  (found : table child mem root place = some t)

include distinct found

/-- Writing an entry moves no table but those below the entry. -/
theorem table_setEntry (e : Entry) {q : List Index} (apart : ¬ i :: place <:+ q) :
    table child (setEntry mem t i e) root q = table child mem root q := by
  induction q with
  | nil => rfl
  | cons j q ih =>
      have above : ¬ i :: place <:+ q := fun below => apart (below.trans (List.suffix_cons j q))
      rw [table, table, ih above]
      cases foundQ : table child mem root q with
      | none => rfl
      | some t' =>
          rw [Option.bind_some, Option.bind_some, setEntry_of_ne]
          rintro rfl rfl
          exact apart (distinct _ _ _ found foundQ ▸ List.suffix_rfl)

/-- Writing an entry changes no entry but those at it and below it. -/
theorem entry_setEntry (e : Entry) {q : List Index} (apart : ¬ i :: place <:+ q) :
    entry child (setEntry mem t i e) root q = entry child mem root q := by
  cases q with
  | nil => rfl
  | cons j q =>
      have above : ¬ i :: place <:+ q := fun below => apart (below.trans (List.suffix_cons j q))
      rw [entry, entry, table_setEntry distinct found e above]
      cases foundQ : table child mem root q with
      | none => rfl
      | some t' =>
          rw [Option.map_some, Option.map_some, setEntry_of_ne]
          rintro rfl rfl
          exact apart (distinct _ _ _ found foundQ ▸ List.suffix_rfl)

/-- The table of an entry that is written stays. -/
theorem table_setEntry_above (e : Entry) :
    table child (setEntry mem t i e) root place = some t := by
  rw [table_setEntry distinct found e fun below => absurd below.length_le (by simp), found]

theorem entry_setEntry_self (e : Entry) :
    entry child (setEntry mem t i e) root (i :: place) = some e := by
  rw [entry_cons i (table_setEntry_above distinct found e), setEntry_self]

/-- An entry that refers to no table, before and after, moves no table. -/
theorem table_setEntry_leaf {e : Entry} (before : child place.length (mem t i) = none)
    (after : child place.length e = none) (q : List Index) :
    table child (setEntry mem t i e) root q = table child mem root q := by
  by_cases below : i :: place <:+ q
  · have above := table_setEntry_above distinct found (i := i) e
    have nothing : table child mem root q = none :=
      table_suffix below (by rw [table_cons i found, before])
    rw [nothing]
    exact table_suffix below (by rw [table_cons i above, setEntry_self, after])
  · exact table_setEntry distinct found e below

theorem Distinct.setEntry_leaf {e : Entry} (before : child place.length (mem t i) = none)
    (after : child place.length e = none) : Distinct child (setEntry mem t i e) root := by
  intro p q t' foundP foundQ
  rw [table_setEntry_leaf distinct found before after] at foundP foundQ
  exact distinct p q t' foundP foundQ

/-- Linking a new table without children adds it at the place of the entry. -/
theorem table_setEntry_link {e : Entry} {page : Page} (before : child place.length (mem t i) = none)
    (after : child place.length e = some page) (new : page ≠ t)
    (empty : ∀ j, child (place.length + 1) (mem page j) = none) (q : List Index) :
    table child (setEntry mem t i e) root q =
      if q = i :: place then some page else table child mem root q := by
  have above := table_setEntry_above distinct found (i := i) e
  have linked : table child (setEntry mem t i e) root (i :: place) = some page := by
    rw [table_cons i above, setEntry_self, after]
  by_cases same : q = i :: place
  · rw [if_pos same, same, linked]
  · rw [if_neg same]
    by_cases below : i :: place <:+ q
    · have nothing : table child mem root q = none :=
        table_suffix below (by rw [table_cons i found, before])
      rw [nothing]
      -- the first index below the new table leads nowhere
      obtain ⟨front, rfl⟩ := below
      have nonempty : front ≠ [] := fun nil => same (by rw [nil, List.nil_append])
      obtain ⟨front, j, rfl⟩ := List.eq_nil_or_concat front |>.resolve_left nonempty
      have next : j :: i :: place <:+ front.concat j ++ i :: place :=
        ⟨front, by rw [List.concat_append]⟩
      refine table_suffix next ?_
      rw [table_cons j linked, List.length_cons, setEntry_of_ne _ fun h => absurd h new]
      exact empty j
    · exact table_setEntry distinct found e below

theorem Distinct.setEntry_link {e : Entry} {page : Page} (before : child place.length (mem t i) = none)
    (after : child place.length e = some page)
    (fresh : ∀ q, table child mem root q ≠ some page)
    (empty : ∀ j, child (place.length + 1) (mem page j) = none) :
    Distinct child (setEntry mem t i e) root := by
  have new : page ≠ t := fun same => fresh place (found.trans (congrArg some same.symm))
  intro p q t' foundP foundQ
  rw [table_setEntry_link distinct found before after new empty] at foundP foundQ
  split at foundP
  · rename_i isP
    split at foundQ
    · rename_i isQ
      rw [isP, isQ]
    · exact absurd (foundQ.trans foundP.symm) (fresh q)
  · split at foundQ
    · exact absurd (foundP.trans foundQ.symm) (fresh p)
    · exact distinct p q t' foundP foundQ

end SetEntry

end TableTree
