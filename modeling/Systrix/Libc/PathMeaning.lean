import Systrix.Libc.PathNormalize

/-!
# The place a normalised path denotes

The draft keeps the names of the place that a path denotes, but not how far above the start it lies; and a slash at
the beginning of a draft, once it is there, makes the result absolute.
-/

namespace Systrix.Libc

open TextBuffer LexicalPath

/-! ## Results -/

namespace Draft

variable {d : Draft} {abs : Nat} {c : List UInt8}

/-- The components of a draft. -/
theorem splitOn_closed {lead : Bool} {name : List UInt8} {names : List (List UInt8)}
    (isNames : ∀ n ∈ name :: names, IsName dot n ∧ slash ∉ n) :
    (closed lead names ++ name).splitOn slash = (if lead then [[]] else []) ++ (name :: names).reverse := by
  induction names generalizing name with
  | nil =>
      have single : name.splitOn slash = [name] := List.splitOn_eq_singleton (isNames name List.mem_cons_self).2
      cases lead with
      | false => exact single
      | true =>
          change (slash :: name).splitOn slash = _
          rw [List.splitOn_cons_eq_if_modifyHead, if_pos (beq_self_eq_true slash), single]
          rfl
  | cons other names ih =>
      have single : name.splitOn slash = [name] := List.splitOn_eq_singleton (isNames name List.mem_cons_self).2
      have whole : closed lead (other :: names) ++ name = (closed lead names ++ other) ++ (slash :: name) := by
        rw [closed, List.append_assoc, List.append_assoc, List.append_assoc]
        rfl
      rw [whole, List.splitOn_append_cons_self, ih fun n member => isNames n (List.mem_cons_of_mem name member), single,
        List.append_assoc]
      exact congrArg _ List.reverse_cons.symm

theorem foldl_enter_names {cs : List (List UInt8)} (isNames : ∀ c ∈ cs, IsName dot c) :
    cs.foldl (enter abs) d = { d with names := cs.reverse ++ d.names } := by
  induction cs generalizing d with
  | nil => rfl
  | cons c cs ih =>
      rw [List.foldl_cons, enter_name (isNames c List.mem_cons_self),
        ih fun later member => isNames later (List.mem_cons_of_mem c member), List.reverse_cons, List.append_assoc]
      rfl

/-- The place of a result. -/
theorem Good.location_result (good : d.Good abs) : location slash dot (d.result abs) =
    ⟨IsAbsolute slash (d.result abs), 0, d.names⟩ := by
  obtain ⟨lead, names⟩ := d
  cases names with
  | nil =>
      rw [Draft.result]
      dsimp only
      split <;> rfl
  | cons name names =>
      have isNames : ∀ n ∈ (name :: names).reverse, IsName dot n :=
        fun n member => (good.names n (List.mem_reverse.mp member)).1
      have split : (Draft.result abs ⟨lead, name :: names⟩).splitOn slash =
          (if lead then [[]] else []) ++ (name :: names).reverse := splitOn_closed good.names
      rw [location, split, List.foldl_append]
      have leads : (if lead then [[]] else []).foldl (Location.enter dot)
          (.start (IsAbsolute slash (Draft.result abs ⟨lead, name :: names⟩))) =
          .start (IsAbsolute slash (Draft.result abs ⟨lead, name :: names⟩)) := by cases lead <;> rfl
      rw [leads, Location.foldl_enter_names isNames, List.reverse_reverse]
      exact congrArg _ (List.append_nil _)

theorem closed_true (names : List (List UInt8)) : closed true names = slash :: closed false names := by
  induction names with
  | nil => rfl
  | cons name names ih =>
      rw [closed, ih]
      rfl

theorem components_closed {lead : Bool} {name : List UInt8} {names : List (List UInt8)}
    (isNames : ∀ n ∈ name :: names, IsName dot n ∧ slash ∉ n) :
    components slash (closed lead names ++ name) = (name :: names).reverse := by
  have some : closed false names ++ name ≠ [] :=
    List.append_ne_nil_of_right_ne_nil _ (isNames name List.mem_cons_self).1.1
  have split := @splitOn_closed false _ _ isNames
  cases lead with
  | true =>
      rw [closed_true, List.cons_append, components, if_neg, if_pos]
      · exact split
      · rfl
      · rintro (empty | bare)
        · cases empty
        · exact some (List.cons.inj bare).2
  | false =>
      have relative : ¬IsAbsolute slash (closed false names ++ name) :=
        mt (head_closed isNames).mp Bool.false_ne_true
      rw [components, if_neg, if_neg relative]
      · exact split
      · rintro (empty | bare)
        · exact some empty
        · exact relative (bare ▸ rfl)

/-- The form of a result. -/
theorem Good.normal_result (good : d.Good abs) : InNormalForm slash dot (d.result abs) := by
  obtain ⟨lead, names⟩ := d
  cases names with
  | nil =>
      rw [Draft.result]
      dsimp only
      split
      · exact Or.inr ⟨fun c member => absurd member List.not_mem_nil, 0, [], rfl, List.not_mem_nil, fun _ => rfl⟩
      · exact Or.inl rfl
  | cons name names =>
      have parts : components slash (Draft.result abs ⟨lead, name :: names⟩) = (name :: names).reverse :=
        components_closed good.names
      have isNames : ∀ n ∈ (name :: names).reverse, IsName dot n :=
        fun n member => (good.names n (List.mem_reverse.mp member)).1
      rw [InNormalForm, parts]
      exact Or.inr ⟨fun c member => ⟨(isNames c member).1, (isNames c member).2.1⟩, 0, _, rfl,
        fun member => (isNames _ member).2.2 rfl, fun _ => rfl⟩

/-- A result is not changed. -/
theorem Good.normalText_result (good : d.Good abs) : normalText (d.result abs) = d.result abs := by
  obtain ⟨lead, names⟩ := d
  cases names with
  | nil =>
      rw [Draft.result]
      dsimp only
      split <;> rfl
  | cons name names =>
      have isName := (good.names name List.mem_cons_self).1
      have some : Draft.result abs ⟨lead, name :: names⟩ ≠ [] := List.append_ne_nil_of_right_ne_nil _ isName.1
      have split : (Draft.result abs ⟨lead, name :: names⟩).splitOn slash =
          ((if lead then [[]] else []) ++ names.reverse) ++ [name] := by
        refine (splitOn_closed good.names).trans ?_
        rw [List.reverse_cons, List.append_assoc]
      have isNames : ∀ n ∈ names.reverse, IsName dot n :=
        fun n member => (good.names n (List.mem_cons_of_mem name (List.mem_reverse.mp member))).1
      have leads (k : Nat) : (if lead then [[]] else []).foldl (Draft.enter k) ⟨false, []⟩ = ⟨lead, []⟩ := by
        cases lead <;> rfl
      rw [normalText, if_neg some, draftOf_eq split, List.foldl_append, leads, foldl_enter_names isNames, Draft.finish,
        if_neg isName.1, enter_name isName, List.reverse_reverse, List.append_nil]
      rfl

end Draft

/-! ## Drafts and places -/

section places

variable {d : Draft} {l : Location UInt8} {abs : Nat} {c : List UInt8}

theorem names_enter (same : d.names = l.names) : (d.enter abs c).names = (l.enter dot c).names := by
  by_cases empty : c = []
  · rw [Location.enter_stay (Or.inl empty), Draft.enter, if_pos empty]
    exact same
  by_cases isDot : c = [dot]
  · rw [Location.enter_stay (Or.inr isDot), Draft.enter, if_neg empty, if_pos isDot]
    exact same
  by_cases isUp : c = [dot, dot]
  · subst isUp
    rw [Location.enter_up, Draft.enter_up, same]
    cases names : l.names with
    | nil =>
        dsimp only
        split
        · exact names.symm
        · rfl
    | cons name names => rfl
  · have isName : IsName dot c := ⟨empty, isDot, isUp⟩
    rw [Location.enter_name isName, Draft.enter_name isName, same]

theorem names_foldl {cs : List (List UInt8)} (same : d.names = l.names) :
    (cs.foldl (Draft.enter abs) d).names = (cs.foldl (Location.enter dot) l).names := by
  induction cs generalizing d l with
  | nil => exact same
  | cons c cs ih => exact ih (names_enter same)

theorem names_finish (same : d.names = l.names) : (d.finish abs c).names = (l.enter dot c).names := by
  by_cases empty : c = []
  · rw [Draft.finish, if_pos empty, Location.enter_stay (Or.inl empty)]
    exact same
  · rw [Draft.finish, if_neg empty]
    exact names_enter same

/-- On the way through a relative path that stays level, the slash at the beginning comes from an empty component. -/
theorem lead_enter (same : d.names = l.names) (relative : l.absolute = false)
    (level : (l.enter dot c).ups = l.ups) :
    (d.enter 0 c).lead = true ↔ d.lead = true ∨ (c = [] ∧ l.names = []) := by
  by_cases empty : c = []
  · rw [Draft.enter, if_pos empty, Bool.or_eq_true, List.isEmpty_iff, same, and_iff_right empty]
  rw [or_iff_left fun both => empty both.1]
  by_cases isDot : c = [dot]
  · rw [Draft.enter, if_neg empty, if_pos isDot]
  by_cases isUp : c = [dot, dot]
  · subst isUp
    rw [Draft.enter_up, same]
    rw [Location.enter_up] at level
    cases names : l.names with
    | nil =>
        rw [names, relative] at level
        exact absurd level (Nat.succ_ne_self _)
    | cons name names => rfl
  · rw [Draft.enter_name ⟨empty, isDot, isUp⟩]

theorem lead_foldl {cs : List (List UInt8)} (same : d.names = l.names) (relative : l.absolute = false)
    (level : (cs.foldl (Location.enter dot) l).ups = l.ups) :
    (cs.foldl (Draft.enter 0) d).lead = true ↔
      d.lead = true ∨ ∃ pre post, cs = pre ++ [] :: post ∧ (pre.foldl (Location.enter dot) l).names = [] := by
  induction cs generalizing d l with
  | nil =>
      refine (or_iff_left ?_).symm
      rintro ⟨pre, post, eq, -⟩
      exact List.append_ne_nil_of_right_ne_nil pre (List.cons_ne_nil [] post) eq.symm
  | cons c cs ih =>
      have below : l.ups ≤ (l.enter dot c).ups := Location.ups_le_enter l c
      have above : (l.enter dot c).ups ≤ (cs.foldl (Location.enter dot) (l.enter dot c)).ups :=
        Location.ups_le_foldl cs _
      rw [List.foldl_cons] at level
      have level' : (l.enter dot c).ups = l.ups := by omega
      have still : (l.enter dot c).absolute = false := (Location.enter_absolute l c).trans relative
      rw [List.foldl_cons, ih (names_enter same) still (level.trans level'.symm), lead_enter same relative level',
        or_assoc]
      refine or_congr_right ⟨?_, ?_⟩
      · rintro (⟨rfl, start⟩ | ⟨pre, post, rfl, start⟩)
        · exact ⟨[], cs, rfl, start⟩
        · exact ⟨c :: pre, post, rfl, start⟩
      · rintro ⟨pre, post, eq, start⟩
        cases pre with
        | nil => exact Or.inl ⟨(List.cons.inj eq).1, start⟩
        | cons first pre =>
            obtain ⟨rfl, rfl⟩ := List.cons.inj eq
            exact Or.inr ⟨pre, post, rfl, start⟩

theorem lead_finish (same : d.names = l.names) (relative : l.absolute = false)
    (level : (l.enter dot c).ups = l.ups) : (d.finish 0 c).lead = d.lead := by
  by_cases empty : c = []
  · rw [Draft.finish, if_pos empty]
  · rw [Draft.finish, if_neg empty, Bool.eq_iff_iff, lead_enter same relative level,
      or_iff_left fun both => empty both.1]

end places

/-! ## When the function keeps its promises -/

variable {path : Nat → UInt8} {p : List UInt8} {fuel : Nat}

/-- A relative path that never goes above the start, and in which no slash follows a slash at a point where what comes
before is the start, unless the whole path is the start. -/
def StaysBelow (p : List UInt8) : Prop :=
  (location slash dot p).ups = 0 ∧ ∀ pre post, p.splitOn slash = pre ++ [] :: post → post ≠ [] →
    (pre.foldl (Location.enter dot) (.start false)).names = [] → (location slash dot p).names = []

/-- What is promised of `slibc_path_normalize`. -/
def Normalizes (fuel : Nat) (path : Nat → UInt8) (p : List UInt8) : Prop :=
  ∃ path' r, slibcPathNormalize fuel path = some path' ∧ StringAt path' 0 r ∧
    (r.length ≤ max p.length 1 ∧ ∀ i, p.length < i → path' i = path i) ∧
    (IsAbsolute slash r ↔ IsAbsolute slash p) ∧ InNormalForm slash dot r ∧ location slash dot r = location slash dot p ∧
    slibcPathNormalize fuel path' = some path'

theorem names_draftOf (p : List UInt8) : (draftOf p).names = (location slash dot p).names := by
  obtain ⟨cs, c, split, -⟩ := exists_splitOn slash p
  rw [draftOf_eq split, location, split, List.foldl_concat]
  exact names_finish (names_foldl rfl)

theorem lead_draftOf (relative : ¬IsAbsolute slash p) (level : (location slash dot p).ups = 0) :
    (draftOf p).lead = true ↔ ∃ pre post, p.splitOn slash = pre ++ [] :: post ∧ post ≠ [] ∧
      (pre.foldl (Location.enter dot) (.start false)).names = [] := by
  obtain ⟨cs, c, split, -⟩ := exists_splitOn slash p
  have isRel : absOf p = 0 := not_not.mp (mt absOf_ne_zero.mp relative)
  have start : (Location.start (IsAbsolute slash p) : Location UInt8) = .start false := by rw [decide_eq_false relative]
  rw [location, split, List.foldl_concat, start] at level
  have last : (cs.foldl (Location.enter dot) (.start false)).ups ≤
      ((cs.foldl (Location.enter dot) (.start false)).enter dot c).ups := Location.ups_le_enter _ c
  have levelHere : (cs.foldl (Location.enter dot) (.start false)).ups = 0 := by omega
  have levelLast : ((cs.foldl (Location.enter dot) (.start false)).enter dot c).ups =
      (cs.foldl (Location.enter dot) (.start false)).ups := level.trans levelHere.symm
  have still : (cs.foldl (Location.enter dot) (.start false)).absolute = false := Location.foldl_enter_absolute cs _
  have same : (Draft.mk false []).names = (Location.start false : Location UInt8).names := rfl
  rw [draftOf_eq split, isRel, lead_finish (names_foldl same) still levelLast, lead_foldl same rfl levelHere,
    or_iff_right Bool.false_ne_true, split]
  constructor
  · rintro ⟨pre, post, rfl, atStart⟩
    refine ⟨pre, post ++ [c], ?_, List.append_ne_nil_of_right_ne_nil _ (List.cons_ne_nil _ _), atStart⟩
    rw [List.append_assoc]
    rfl
  · rintro ⟨pre, post, eq, some, atStart⟩
    obtain ⟨post, last, rfl⟩ := (List.eq_nil_or_concat post).resolve_left some
    rw [List.concat_eq_append, ← List.cons_append, ← List.append_assoc] at eq
    exact ⟨pre, post, (List.append_inj' eq rfl).1, atStart⟩

/-- Only the place and the kind of path can be wrong. -/
theorem normalizes_iff_text (string : StringAt path 0 p) (enough : p.length < fuel) : Normalizes fuel path p ↔
    (IsAbsolute slash (normalText p) ↔ IsAbsolute slash p) ∧
      location slash dot (normalText p) = location slash dot p := by
  obtain ⟨path', ran, result, short, behind⟩ := slibcPathNormalize_text string enough
  constructor
  · rintro ⟨path'', r, ran', result', -, kind, -, place, -⟩
    cases ran.symm.trans ran'
    cases result.unique result'
    exact ⟨kind, place⟩
  · rintro ⟨kind, place⟩
    have good (some : p ≠ []) : (draftOf p).Good (absOf p) := (draftOf_loop string enough).1 some
    have again : normalText (normalText p) = normalText p ∧ InNormalForm slash dot (normalText p) := by
      by_cases empty : p = []
      · subst empty
        exact ⟨rfl, Or.inr ⟨fun c member => absurd member List.not_mem_nil, 0, [], rfl, List.not_mem_nil, fun _ => rfl⟩⟩
      · rw [show normalText p = (draftOf p).result (absOf p) from if_neg empty]
        exact ⟨(good empty).normalText_result, (good empty).normal_result⟩
    have enough' : (normalText p).length < fuel := by
      by_cases empty : p = []
      · subst empty
        exact enough
      · have some : 1 ≤ p.length := List.length_pos_iff.mpr empty
        exact Nat.lt_of_le_of_lt (Nat.max_eq_left some ▸ short) enough
    obtain ⟨path'', ran', result', -, behind'⟩ := slibcPathNormalize_text result enough'
    rw [again.1] at result'
    have unchanged : path'' = path' := by
      funext i
      by_cases inside : i ≤ (normalText p).length
      · have same := result'.agree result inside
        rwa [Nat.zero_add] at same
      · exact behind' i (Nat.lt_of_not_le inside)
    exact ⟨path', normalText p, ran, result, ⟨short, behind⟩, kind, again.2, place, unchanged ▸ ran'⟩

theorem ups_location (absolute : IsAbsolute slash p) : (location slash dot p).ups = 0 := by
  have stays : ∀ (cs : List (List UInt8)) (l : Location UInt8), l.absolute = true →
      (cs.foldl (Location.enter dot) l).ups = l.ups := by
    intro cs
    induction cs with
    | nil => exact fun l _ => rfl
    | cons c cs ih =>
        intro l isAbs
        rw [List.foldl_cons, ih _ ((Location.enter_absolute l c).trans isAbs)]
        unfold Location.enter
        split
        · rfl
        · rw [isAbs]
          split
          · split <;> rfl
          · rfl
  exact stays _ _ (decide_eq_true absolute)

theorem location_absolute (p : List UInt8) : (location slash dot p).absolute = decide (IsAbsolute slash p) :=
  Location.foldl_enter_absolute _ _

/-- The names are always right. -/
theorem location_normalText_iff (good : (draftOf p).Good (absOf p)) (some : p ≠ [])
    (kind : IsAbsolute slash (normalText p) ↔ IsAbsolute slash p) :
    location slash dot (normalText p) = location slash dot p ↔ (location slash dot p).ups = 0 := by
  have result : normalText p = (draftOf p).result (absOf p) := if_neg some
  have place : location slash dot (normalText p) =
      ⟨IsAbsolute slash (normalText p), 0, (location slash dot p).names⟩ := by
    rw [result, good.location_result, names_draftOf]
  have level : (location slash dot (normalText p)).ups = 0 := by rw [place]
  constructor
  · intro same
    rw [← same]
    exact level
  · intro ground
    rw [place, decide_eq_decide.mpr kind, ← location_absolute p, ← ground]

/-- `slibc_path_normalize` keeps its promises exactly for absolute paths and for relative ones that stay below the start
and do not return to it before a doubled slash. -/
theorem slibcPathNormalize_iff (string : StringAt path 0 p) (enough : p.length < fuel) :
    Normalizes fuel path p ↔ IsAbsolute slash p ∨ StaysBelow p := by
  rw [normalizes_iff_text string enough]
  by_cases empty : p = []
  · subst empty
    refine iff_of_true ⟨Iff.rfl, rfl⟩ (Or.inr ⟨rfl, fun _ _ _ _ _ => rfl⟩)
  have good := (draftOf_loop string enough).1 empty
  have kind : IsAbsolute slash (normalText p) ↔
      IsAbsolute slash p ∨ ((draftOf p).lead = true ∧ (location slash dot p).names ≠ []) := by
    rw [show normalText p = (draftOf p).result (absOf p) from if_neg empty, good.absolute_iff, absOf_ne_zero,
      names_draftOf]
  by_cases absolute : IsAbsolute slash p
  · have same : IsAbsolute slash (normalText p) ↔ IsAbsolute slash p :=
      iff_of_true (kind.mpr (Or.inl absolute)) absolute
    exact iff_of_true ⟨same, (location_normalText_iff good empty same).mpr (ups_location absolute)⟩ (Or.inl absolute)
  rw [or_iff_right absolute]
  constructor
  · rintro ⟨same, place⟩
    have level := (location_normalText_iff good empty same).mp place
    refine ⟨level, fun pre post split some atStart => ?_⟩
    by_contra names
    have lead := (lead_draftOf absolute level).mpr ⟨pre, post, split, some, atStart⟩
    exact absolute (same.mp (kind.mpr (Or.inr ⟨lead, names⟩)))
  · rintro ⟨level, doubled⟩
    have same : IsAbsolute slash (normalText p) ↔ IsAbsolute slash p := by
      rw [kind, or_iff_left]
      rintro ⟨lead, names⟩
      obtain ⟨pre, post, split, some, atStart⟩ := (lead_draftOf absolute level).mp lead
      exact names (doubled pre post split some atStart)
    exact ⟨same, (location_normalText_iff good empty same).mpr level⟩

/-- A string from the start of a buffer. -/
def bufferOf (p : List UInt8) (i : Nat) : UInt8 := p.getD i 0

/-- `"a/./b"` -/
theorem slibcPathNormalize_iff_dot :
    Normalizes 6 (bufferOf [0x61, slash, dot, slash, 0x62]) [0x61, slash, dot, slash, 0x62] ↔
      IsAbsolute slash [0x61, slash, dot, slash, 0x62] ∨ StaysBelow [0x61, slash, dot, slash, 0x62] :=
  slibcPathNormalize_iff ⟨rfl, by decide, rfl, by decide, rfl, by decide, rfl, by decide, rfl, by decide, rfl⟩
    (by decide)

/-- `"../a"` becomes `"a"`, and `".//a"` becomes `"/a"`. -/
theorem slibcPathNormalize_loses :
    ¬Normalizes 5 (bufferOf [dot, dot, slash, 0x61]) [dot, dot, slash, 0x61] ∧
      ¬Normalizes 5 (bufferOf [dot, slash, slash, 0x61]) [dot, slash, slash, 0x61] := by
  have up : StringAt (bufferOf [dot, dot, slash, 0x61]) 0 [dot, dot, slash, 0x61] :=
    ⟨rfl, by decide, rfl, by decide, rfl, by decide, rfl, by decide, rfl⟩
  have doubled : StringAt (bufferOf [dot, slash, slash, 0x61]) 0 [dot, slash, slash, 0x61] :=
    ⟨rfl, by decide, rfl, by decide, rfl, by decide, rfl, by decide, rfl⟩
  constructor
  · rw [normalizes_iff_text up (by decide)]
    decide +kernel
  · rw [normalizes_iff_text doubled (by decide)]
    decide +kernel

end Systrix.Libc
