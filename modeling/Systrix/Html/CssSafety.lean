import Systrix.Html.Css

/-!
# Any style sheet

`css_parse_sheet` ends on every text and stays inside its buffers and the text: every turn of its loops takes a
character, whatever the text looks like.
-/

namespace Systrix.Html

theorem cssEnd_eq {max : Nat} {buf : Bytes} (room : buf.length < max) : cssEnd max buf = some buf := if_pos room

theorem cssAddRule_safe {rules : List CssRule} (room : rules.length < cssMaxRules) (sel prop val : Bytes) :
    ∃ later, cssAddRule rules sel prop val = some later ∧ later.length ≤ cssMaxRules := by
  refine ⟨_, if_pos room, ?_⟩
  rw [List.length_append, List.length_singleton]
  exact room

variable {css : Bytes} (indexed : css.length + 2 < 2 ^ 31)

include indexed

theorem cssAccept_safe {c : UInt8} (nonzero : c ≠ 0) {i : Nat} {s : Bytes} (before : Before css i s) :
    ∃ j t, cssAccept css c i = some j ∧ Before css j t ∧ t.length ≤ s.length := by
  obtain ⟨j, run, there⟩ := cssAccept_eq indexed nonzero before
  refine ⟨j, _, run, there, ?_⟩
  split
  · exact List.length_tail ▸ Nat.sub_le _ _
  · exact Nat.le_refl _

/-- A declaration of any text takes at least a character. -/
theorem cssDeclaration_safe (sel : Bytes) {fuel i : Nat} {c : UInt8} {s : Bytes} {rules : List CssRule}
    (before : Before css i (c :: s)) (real : c ≠ 0 ∧ c ≠ ch '}') (enough : (c :: s).length ≤ fuel)
    (room : rules.length < cssMaxRules) :
    ∃ j t later, cssDeclaration css sel fuel i rules = some (j, later)
      ∧ Before css j t ∧ t.length ≤ s.length ∧ later.length ≤ cssMaxRules := by
  obtain ⟨j, read, behind⟩ := cssReadProp_eq indexed _ before enough
  have size : (propOf (c :: s)).2.length < cssPropMax := scanned_buf _ (by decide)
  have less : (propOf (c :: s)).1.length ≤ (c :: s).length := scanned_length _ _
  have progress : c = ch ':' ∨ (propOf (c :: s)).1.length ≤ s.length := by
    by_cases colon : c = ch ':'
    · exact .inl colon
    · exact .inr (scanned_cons_length ⟨real.1, by simp [cssPropEnd, colon, real.2], by decide⟩)
  have same : c = ch ':' → (propOf (c :: s)).1 = c :: s := fun colon => by
    rw [propOf, scanned, if_neg (by simp [cssPropEnd, colon])]
  obtain ⟨d, t, front⟩ := List.exists_cons_of_ne_nil behind.nonempty
  rw [front] at behind less progress same
  rw [cssDeclaration, read]
  simp only [Option.bind_eq_bind, Option.bind_some, cssEnd_eq size, behind.read]
  simp only [List.length_cons] at less enough progress
  by_cases colon : d = ch ':'
  · -- the colon is taken
    subst colon
    obtain ⟨k, skipped, spaces⟩ := cssSkipSpaces_eq indexed fuel (behind.next (by decide)) (by omega)
    have shorter : (afterSpaces t).length ≤ t.length := scanned_length _ _
    obtain ⟨l, value, there⟩ := cssReadValue_eq indexed fuel spaces (by omega)
    have rest : (valueOf (afterSpaces t)).1.length ≤ (afterSpaces t).length := scanned_length _ _
    have small : (valueOf (afterSpaces t)).2.length < cssValMax := scanned_buf _ (by decide)
    obtain ⟨m, u, accepted, final, fewer⟩ := cssAccept_safe indexed (c := ch ';') (by decide) there
    simp only [ne_eq, not_true_eq_false, if_false, behind.inc indexed, Option.bind_some, skipped, value, cssEnd_eq small,
      accepted]
    by_cases stored : (propOf (c :: s)).2.headD 0 ≠ 0 ∧ ((valueOf (afterSpaces t)).2.rdropWhile htmlIsspace).headD 0 ≠ 0
    · obtain ⟨later, added, fits⟩ := cssAddRule_safe room sel (propOf (c :: s)).2
        ((valueOf (afterSpaces t)).2.rdropWhile htmlIsspace)
      rw [if_pos stored, added]
      exact ⟨m, u, later, rfl, final, by omega, fits⟩
    · rw [if_neg stored]
      exact ⟨m, u, rules, rfl, final, by omega, Nat.le_of_lt room⟩
  · -- the property took a character, as the first one is no colon
    have taken : t.length + 1 ≤ s.length := by
      rcases progress with first | taken
      · exact absurd (List.cons.inj (same first)).1 (fun h => colon (h.trans first))
      · exact taken
    obtain ⟨k, skipped, there⟩ := cssSkipDeclaration_eq indexed fuel behind (by simp only [List.length_cons]; omega)
    have rest : (afterDeclaration (d :: t)).length ≤ (d :: t).length := scanned_length _ _
    obtain ⟨m, u, accepted, final, fewer⟩ := cssAccept_safe indexed (c := ch ';') (by decide) there
    rw [List.length_cons] at rest
    simp only [ne_eq, colon, not_false_eq_true, if_true, skipped, Option.bind_some, accepted]
    exact ⟨m, u, rules, rfl, final, by omega, Nat.le_of_lt room⟩

/-- The declarations of any text: the loop ends in the text, and the sheet does not overflow. -/
theorem cssDeclarations_safe (sel : Bytes) (fuel : Nat) {i : Nat} {s : Bytes} {rules : List CssRule} (before : Before css i s)
    (enough : s.length ≤ fuel) (room : rules.length ≤ cssMaxRules) :
    ∃ j t later, cssDeclarations css sel fuel i rules = some (j, later)
      ∧ Before css j t ∧ t.length ≤ s.length ∧ later.length ≤ cssMaxRules := by
  induction fuel generalizing i s rules with
  | zero => exact absurd (List.length_pos_of_ne_nil before.nonempty) (by omega)
  | succ fuel ih =>
    obtain ⟨c, s, rfl⟩ := List.exists_cons_of_ne_nil before.nonempty
    rw [cssDeclarations, before.read]
    simp only [Option.bind_eq_bind, Option.bind_some]
    by_cases go : c ≠ 0 ∧ c ≠ ch '}' ∧ rules.length < cssMaxRules
    · obtain ⟨j, skipped, spaces⟩ := cssSkipSpaces_eq indexed _ before enough
      have fewer : (afterSpaces (c :: s)).length ≤ (c :: s).length := scanned_length _ _
      obtain ⟨d, t, front⟩ := List.exists_cons_of_ne_nil spaces.nonempty
      rw [front] at spaces fewer
      rw [if_pos go, skipped]
      simp only [Option.bind_some, spaces.read]
      by_cases ends : d = 0 ∨ d = ch '}'
      · rw [if_pos ends]
        exact ⟨j, d :: t, rules, rfl, spaces, fewer, room⟩
      · rw [if_neg ends]
        obtain ⟨k, u, later, run, there, less, fits⟩ :=
          cssDeclaration_safe indexed sel spaces (not_or.mp ends) (Nat.le_trans fewer enough) go.2.2
        simp only [List.length_cons] at fewer enough ⊢
        obtain ⟨l, v, final, rest, last, least, most⟩ := ih there (by omega) fits
        rw [run]
        exact ⟨l, v, final, rest, last, by omega, most⟩
    · rw [if_neg go]
      exact ⟨i, c :: s, rules, rfl, before, Nat.le_refl _, room⟩

theorem cssSkipComment_safe (fuel : Nat) {i : Nat} (inside : i ≤ css.length) (enough : css.length - i < fuel) :
    ∃ j, cssSkipComment css css.length fuel i = some j ∧ i ≤ j ∧ j ≤ css.length := by
  induction fuel generalizing i with
  | zero => exact absurd enough (Nat.not_lt_zero _)
  | succ fuel ih =>
    have inc : cssInc i 1 = some (i + 1) := if_pos (by omega)
    rw [cssSkipComment, inc]
    simp only [Option.bind_eq_bind, Option.bind_some]
    by_cases more : i + 1 < css.length
    · obtain ⟨c, s, first⟩ := Before.of_lt css i (by omega)
      obtain ⟨d, t, second⟩ := Before.of_lt css (i + 1) (by omega)
      rw [if_pos more, first.read, second.read]
      simp only [Option.bind_some]
      split
      · exact ⟨i, rfl, Nat.le_refl i, inside⟩
      · obtain ⟨j, run, low, high⟩ := ih (i := i + 1) (by omega) (by omega)
        exact ⟨j, run, by omega, high⟩
    · rw [if_neg more]
      exact ⟨i, rfl, Nat.le_refl i, inside⟩

theorem cssLen_eq {fuel i : Nat} {s : Bytes} (before : Before css i (s ++ [0])) (nonzero : 0 ∉ s)
    (enough : s.length < fuel) : cssLen css fuel i = some css.length := by
  induction s generalizing fuel i with
  | nil =>
    obtain ⟨fuel, rfl⟩ := Nat.exists_eq_add_of_lt enough
    have size := before.length
    have last : i = css.length := by simpa using size
    subst last
    rw [cssLen, before.read]
    rfl
  | cons c s ih =>
    obtain ⟨fuel, rfl⟩ : ∃ n, fuel = n + 1 := ⟨fuel - 1, by simp at enough; omega⟩
    obtain ⟨other, free⟩ := not_or.mp (mt List.mem_cons.mpr nonzero)
    rw [List.cons_append] at before
    rw [cssLen, before.read]
    simp only [Option.bind_eq_bind, Option.bind_some]
    rw [if_pos (Ne.symm other), before.inc indexed]
    exact ih (before.next (Ne.symm other)) free (Nat.lt_of_succ_lt_succ enough)

/-- The whole loop on any text: every turn goes on in the text. -/
theorem cssParseLoop_safe {fuel i : Nat} {rules : List CssRule} (inside : i ≤ css.length + 2)
    (enough : css.length + 3 ≤ fuel + i) (room : rules.length ≤ cssMaxRules) :
    ∃ later, cssParseLoop css css.length fuel i rules = some later ∧ later.length ≤ cssMaxRules := by
  induction fuel generalizing i rules with
  | zero => omega
  | succ fuel ih =>
    rw [cssParseLoop]
    simp only [Option.bind_eq_bind]
    by_cases go : i < css.length ∧ rules.length < cssMaxRules
    · obtain ⟨c, s, before⟩ := Before.of_lt css i (by omega)
      have long := before.length
      obtain ⟨j, skipped, spaces⟩ := cssSkipSpaces_eq indexed (fuel + 1) before (by omega)
      have fewer : (afterSpaces (c :: s)).length ≤ (c :: s).length := scanned_length _ _
      obtain ⟨d, t, front⟩ := List.exists_cons_of_ne_nil spaces.nonempty
      rw [front] at spaces fewer
      have here := spaces.length
      rw [if_pos go, skipped]
      simp only [Option.bind_some, spaces.read]
      by_cases ends : d = 0
      · rw [if_pos ends]
        exact ⟨rules, rfl, room⟩
      · have after := spaces.next ends
        rw [if_neg ends]
        simp only [List.length_cons] at long fewer here
        rw [cssIsComment_eq spaces ends]
        simp only [Option.bind_some, decide_eq_true_eq]
        by_cases comment : d = ch '/' ∧ t.head? = some (ch '*')
        · obtain ⟨e, t, rfl⟩ := List.exists_cons_of_ne_nil after.nonempty
          have star : e = ch '*' := Option.some.inj comment.2
          have within := after.next (by rw [star]; decide)
          have position := within.length
          have some := List.length_pos_of_ne_nil within.nonempty
          have two : cssInc j 2 = .some (j + 2) := if_pos (by omega)
          obtain ⟨k, found, low, high⟩ :=
            cssSkipComment_safe indexed (fuel + 1) (i := j + 2) (by omega) (by omega)
          have behind : cssInc k 2 = .some (k + 2) := if_pos (by omega)
          simp only [if_pos comment, two, Option.bind_some, found, behind]
          exact ih (by omega) (by omega) room
        · obtain ⟨k, read, there⟩ := cssReadSelector_eq indexed (fuel + 1) spaces (by
            rw [List.length_cons]
            omega)
          have size : (selectorOf (d :: t)).2.length < cssSelMax := scanned_buf _ (by decide)
          have less : (selectorOf (d :: t)).1.length ≤ (d :: t).length := scanned_length _ _
          obtain ⟨f, u, stop⟩ := List.exists_cons_of_ne_nil there.nonempty
          rw [stop] at there less
          simp only [List.length_cons] at less
          simp only [if_neg comment, read, Option.bind_some, cssEnd_eq size, there.read]
          by_cases block : f = ch '{'
          · subst block
            have middle := there.length
            rw [List.length_cons] at middle
            obtain ⟨l, v, later, run, final, least, fits⟩ := cssDeclarations_safe indexed (selectorOf (d :: t)).2
              (fuel + 1) (there.next (by decide)) (by omega) room
            obtain ⟨m, w, accepted, last, fewest⟩ := cssAccept_safe indexed (c := ch '}') (by decide) final
            have position := last.length
            have rest := List.length_pos_of_ne_nil last.nonempty
            simp only [ne_eq, not_true_eq_false, if_false, there.inc indexed, Option.bind_some, run, accepted]
            exact ih (by omega) (by omega) fits
          · simp only [ne_eq, block, not_false_eq_true, if_true]
            exact ⟨rules, rfl, room⟩
    · rw [if_neg go]
      exact ⟨rules, rfl, room⟩

/-- Every text is parsed to the end, inside of all buffers. -/
theorem cssParseSheet_safe (nonzero : 0 ∉ css) {fuel : Nat} (enough : css.length + 3 ≤ fuel) {rules : List CssRule}
    (room : rules.length ≤ cssMaxRules) :
    ∃ later, cssParseSheet fuel css rules = some later ∧ later.length ≤ cssMaxRules := by
  obtain ⟨later, run, fits⟩ := cssParseLoop_safe indexed (Nat.zero_le _) (by omega : css.length + 3 ≤ fuel + 0) room
  refine ⟨later, ?_, fits⟩
  rw [cssParseSheet, cssLen_eq indexed (Before.start css) nonzero (by omega)]
  exact run

end Systrix.Html
