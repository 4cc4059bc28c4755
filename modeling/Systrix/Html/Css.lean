import Mathlib.Data.Nat.Bitwise
import Systrix.Html.Parser

/-!
# Style sheets

`css_parse_sheet` of `browser/css.h`.  A text ends at a NUL behind the list.  `none` stands for an access outside of an
array, for an index that is no `int`, or for a loop that has no fuel left.
-/

namespace Systrix.Html

def cssMaxRules : Nat := 256

def cssSelMax : Nat := 64

def cssPropMax : Nat := 32

def cssValMax : Nat := 128

/-- `CssRule`; each array up to its terminator. -/
structure CssRule where
  selector : Bytes
  prop : Bytes
  value : Bytes
  deriving DecidableEq

/-- `css[i]` -/
def cssAt (css : Bytes) (i : Nat) : Option UInt8 := (css ++ [0])[i]?

/-- An index that stays an `int`. -/
def cssInc (i n : Nat) : Option Nat := if i + n < 2 ^ 31 then some (i + n) else none

/-- `buf[n++] = c`, for a buffer of `max` characters. -/
def cssPut (max : Nat) (buf : Bytes) (c : UInt8) : Option Bytes := if buf.length < max then some (buf ++ [c]) else none

/-- `buf[n] = 0` -/
def cssEnd (max : Nat) (buf : Bytes) : Option Bytes := if buf.length < max then some buf else none

/-- The loops that run up to a character or until the buffer is full, and store some of the characters. -/
def cssScan (stop : UInt8 → Bool) (max : Nat) (keep : UInt8 → Option UInt8) (css : Bytes) :
    (fuel : Nat) → (i : Nat) → (buf : Bytes) → Option (Nat × Bytes)
  | 0, _, _ => none
  | fuel + 1, i, buf => do
      let c ← cssAt css i
      if c ≠ 0 ∧ stop c = false ∧ buf.length < max - 1 then
        let buf ← match keep c with
          | some kept => cssPut max buf kept
          | none => some buf
        cssScan stop max keep css fuel (← cssInc i 1) buf
      else return (i, buf)

/-- The characters that end a property. -/
def cssPropEnd (c : UInt8) : Bool := c = ch ':' || c = ch '}'

/-- The characters that end a declaration. -/
def cssDeclEnd (c : UInt8) : Bool := c = ch ';' || c = ch '}'

/-- A character of a selector, if it is stored. -/
def cssSelChar (c : UInt8) : Option UInt8 := if htmlIsspace c then none else some c

/-- A character of a property, if it is stored. -/
def cssPropChar (c : UInt8) : Option UInt8 := if htmlIsspace c then none else some (htmlTolower c)

def cssSkipSpaces (css : Bytes) (fuel i : Nat) : Option Nat :=
  (cssScan (fun c => !htmlIsspace c) 2 (fun _ => none) css fuel i []).map Prod.fst

/-- The loop that reads a selector. -/
def cssReadSelector (css : Bytes) (fuel i : Nat) : Option (Nat × Bytes) :=
  cssScan (· = ch '{') cssSelMax cssSelChar css fuel i []

/-- The loop that reads a property. -/
def cssReadProp (css : Bytes) (fuel i : Nat) : Option (Nat × Bytes) :=
  cssScan cssPropEnd cssPropMax cssPropChar css fuel i []

/-- The loop that passes over a declaration without a colon. -/
def cssSkipDeclaration (css : Bytes) (fuel i : Nat) : Option Nat :=
  (cssScan cssDeclEnd 2 (fun _ => none) css fuel i []).map Prod.fst

/-- The loop that reads a value. -/
def cssReadValue (css : Bytes) (fuel i : Nat) : Option (Nat × Bytes) := cssScan cssDeclEnd cssValMax some css fuel i []

/-- `while (i+1<len && !(css[i]=='*' && css[i+1]=='/')) i++;` -/
def cssSkipComment (css : Bytes) (len : Nat) : (fuel : Nat) → (i : Nat) → Option Nat
  | 0, _ => none
  | fuel + 1, i => do
      let next ← cssInc i 1
      if next < len then
        let c ← cssAt css i
        let d ← cssAt css next
        if c = ch '*' ∧ d = ch '/' then return i else cssSkipComment css len fuel next
      else return i

/-- `css[i]=='/' && css[i+1]=='*'` -/
def cssIsComment (css : Bytes) (i : Nat) : Option Bool := do
  if (← cssAt css i) = ch '/' then return (← cssAt css (i + 1)) = ch '*' else return false

/-- `if (css[i]==c) i++;` -/
def cssAccept (css : Bytes) (c : UInt8) (i : Nat) : Option Nat := do
  if (← cssAt css i) = c then cssInc i 1 else return i

def htmlStrncpy (src : Bytes) (n : Nat) : Bytes := src.take (n - 1)

/-- `sheet->rules[sheet->count++]`, with the three copies. -/
def cssAddRule (rules : List CssRule) (sel prop val : Bytes) : Option (List CssRule) :=
  if rules.length < cssMaxRules then
    some (rules ++ [⟨htmlStrncpy sel cssSelMax, htmlStrncpy prop cssPropMax, htmlStrncpy val cssValMax⟩])
  else none

/-- A turn of the loop over the declarations of a block, behind white space: one declaration and its semicolon. -/
def cssDeclaration (css sel : Bytes) (fuel i : Nat) (rules : List CssRule) : Option (Nat × List CssRule) := do
  let (i, prop) ← cssReadProp css fuel i
  let prop ← cssEnd cssPropMax prop
  if (← cssAt css i) ≠ ch ':' then
    let i ← cssSkipDeclaration css fuel i
    return (← cssAccept css (ch ';') i, rules)
  else
    let i ← cssSkipSpaces css fuel (← cssInc i 1)
    let (i, val) ← cssReadValue css fuel i
    let val := (← cssEnd cssValMax val).rdropWhile htmlIsspace
    let rules ← if prop.headD 0 ≠ 0 ∧ val.headD 0 ≠ 0 then cssAddRule rules sel prop val else some rules
    return (← cssAccept css (ch ';') i, rules)

/-- The loop over the declarations of a block. -/
def cssDeclarations (css sel : Bytes) : (fuel : Nat) → (i : Nat) → (rules : List CssRule) → Option (Nat × List CssRule)
  | 0, _, _ => none
  | fuel + 1, i, rules => do
      let c ← cssAt css i
      if c ≠ 0 ∧ c ≠ ch '}' ∧ rules.length < cssMaxRules then
        let i ← cssSkipSpaces css (fuel + 1) i
        let c ← cssAt css i
        if c = 0 ∨ c = ch '}' then return (i, rules)
        let (i, rules) ← cssDeclaration css sel (fuel + 1) i rules
        cssDeclarations css sel fuel i rules
      else return (i, rules)

/-- `while(css[len]) len++;` -/
def cssLen (css : Bytes) : (fuel : Nat) → (len : Nat) → Option Nat
  | 0, _ => none
  | fuel + 1, len => do
      if (← cssAt css len) ≠ 0 then cssLen css fuel (← cssInc len 1) else return len

/-- The loop of `css_parse_sheet`. -/
def cssParseLoop (css : Bytes) (len : Nat) : (fuel : Nat) → (i : Nat) → (rules : List CssRule) → Option (List CssRule)
  | 0, _, _ => none
  | fuel + 1, i, rules => do
      if i < len ∧ rules.length < cssMaxRules then
        let i ← cssSkipSpaces css (fuel + 1) i
        let c ← cssAt css i
        if c = 0 then return rules
        if ← cssIsComment css i then
          let i ← cssSkipComment css len (fuel + 1) (← cssInc i 2)
          cssParseLoop css len fuel (← cssInc i 2) rules
        else
          let (i, sel) ← cssReadSelector css (fuel + 1) i
          let sel ← cssEnd cssSelMax sel
          if (← cssAt css i) ≠ ch '{' then return rules
          let (i, rules) ← cssDeclarations css sel (fuel + 1) (← cssInc i 1) rules
          cssParseLoop css len fuel (← cssAccept css (ch '}') i) rules
      else return rules

/-- `css_parse_sheet`: the rules of the sheet after the call. -/
def cssParseSheet (fuel : Nat) (css : Bytes) (rules : List CssRule) : Option (List CssRule) := do
  let len ← cssLen css fuel 0
  cssParseLoop css len fuel 0 rules

end Systrix.Html

/-!
## Positions of the style sheet parser

What an index of `css_parse_sheet` stands in front of.  Each loop over characters ends in front of a rest of the text,
and the rest and what was stored are a function of the text alone.
-/

namespace Systrix.Html

/-- The index stands in front of the rest `s` of the text, which its terminator belongs to. -/
structure Before (css : Bytes) (i : Nat) (s : Bytes) : Prop where
  rest : (css ++ [0]).drop i = s
  nonempty : s ≠ []

namespace Before

variable {css s : Bytes} {i : Nat} {c : UInt8}

theorem start (css : Bytes) : Before css 0 (css ++ [0]) := ⟨rfl, by simp⟩

theorem length (before : Before css i s) : i + s.length = css.length + 1 := by
  have positive := List.length_pos_of_ne_nil before.nonempty
  have size := congrArg List.length before.rest
  rw [List.length_drop, List.length_append, List.length_singleton] at size
  omega

theorem read (before : Before css i (c :: s)) : cssAt css i = some c := by
  have first := congrArg (·[0]?) before.rest
  rw [List.getElem?_drop, Nat.add_zero] at first
  exact first

theorem next_rest (before : Before css i (c :: s)) : (css ++ [0]).drop (i + 1) = s := by
  rw [← List.drop_drop, before.rest, List.drop_one, List.tail_cons]

/-- Behind a character that is not the terminator there are others. -/
theorem next (before : Before css i (c :: s)) (nonzero : c ≠ 0) : Before css (i + 1) s := by
  refine ⟨before.next_rest, fun none => ?_⟩
  subst none
  have last := congrArg List.getLast? before.rest
  have size := before.length
  rw [List.getLast?_drop] at last
  simp only [List.length_append, List.length_singleton] at last size
  rw [if_neg (by omega)] at last
  simp at last
  exact nonzero last.symm

theorem unique {j : Nat} (before : Before css i s) (other : Before css j s) : i = j := by
  have first := before.length
  have second := other.length
  omega

theorem of_lt (css : Bytes) (i : Nat) (inside : i < css.length + 1) : ∃ c s, Before css i (c :: s) := by
  have long : i < (css ++ [0]).length := by simpa using inside
  exact ⟨_, _, List.drop_eq_getElem_cons long, List.cons_ne_nil _ _⟩

theorem inc (before : Before css i (c :: s)) (indexed : css.length + 2 < 2 ^ 31) : cssInc i 1 = some (i + 1) := by
  have size := before.length
  rw [List.length_cons] at size
  exact if_pos (by omega)

end Before

/-! ## Loops over characters -/

/-- What a loop leaves of the text, and the buffer after it. -/
def scanned (stop : UInt8 → Bool) (max : Nat) (keep : UInt8 → Option UInt8) : Bytes → Bytes → Bytes × Bytes
  | [], buf => ([], buf)
  | c :: s, buf =>
      if c ≠ 0 ∧ stop c = false ∧ buf.length < max - 1 then scanned stop max keep s (buf ++ (keep c).toList)
      else (c :: s, buf)

variable {stop : UInt8 → Bool} {max : Nat} {keep : UInt8 → Option UInt8}

theorem scanned_length (s buf : Bytes) : (scanned stop max keep s buf).1.length ≤ s.length := by
  induction s generalizing buf with
  | nil => exact Nat.le_refl _
  | cons c s ih =>
    rw [scanned]
    split
    · exact Nat.le_succ_of_le (ih _)
    · exact Nat.le_refl _

/-- A loop that does not end at once takes a character. -/
theorem scanned_cons_length {c : UInt8} {s buf : Bytes} (go : c ≠ 0 ∧ stop c = false ∧ buf.length < max - 1) :
    (scanned stop max keep (c :: s) buf).1.length ≤ s.length := by
  rw [scanned, if_pos go]
  exact scanned_length _ _

theorem scanned_buf (s : Bytes) {buf : Bytes} (room : buf.length < max) :
    (scanned stop max keep s buf).2.length < max := by
  induction s generalizing buf with
  | nil => exact room
  | cons c s ih =>
    rw [scanned]
    split
    case isTrue go =>
      apply ih
      have one : (keep c).toList.length ≤ 1 := by cases keep c <;> simp
      rw [List.length_append]
      omega
    case isFalse => exact room

theorem cssScan_eq {css : Bytes} (indexed : css.length + 2 < 2 ^ 31) {s : Bytes} {i fuel : Nat} {buf : Bytes}
    (before : Before css i s) (enough : s.length ≤ fuel) (room : buf.length < max) :
    ∃ j, cssScan stop max keep css fuel i buf = some (j, (scanned stop max keep s buf).2)
      ∧ Before css j (scanned stop max keep s buf).1 := by
  induction s generalizing i fuel buf with
  | nil => exact absurd rfl before.nonempty
  | cons c s ih =>
    obtain ⟨fuel, rfl⟩ : ∃ n, fuel = n + 1 := ⟨fuel - 1, by simp at enough; omega⟩
    rw [cssScan, scanned, before.read]
    simp only [Option.bind_eq_bind, Option.bind_some]
    by_cases go : c ≠ 0 ∧ stop c = false ∧ buf.length < max - 1
    · rw [if_pos go, if_pos go, before.inc indexed]
      have shorter : s.length ≤ fuel := Nat.le_of_succ_le_succ enough
      cases kept : keep c with
      | none =>
        simp only [Option.bind_some, Option.toList_none, List.append_nil]
        exact ih (before.next go.1) shorter room
      | some k =>
        have put : cssPut max buf k = some (buf ++ [k]) := if_pos room
        simp only [put, Option.bind_some, Option.toList_some]
        exact ih (before.next go.1) shorter (by rw [List.length_append, List.length_singleton]; omega)
    · rw [if_neg go, if_neg go]
      exact ⟨i, rfl, before⟩

/-- A character that ends the loop. -/
theorem scanned_stop {d : UInt8} {rest buf : Bytes} (ends : d = 0 ∨ stop d = true) :
    scanned stop max keep (d :: rest) buf = (d :: rest, buf) := by
  rw [scanned, if_neg]
  rintro ⟨nonzero, goes, -⟩
  rcases ends with zero | stops
  · exact nonzero zero
  · exact absurd (goes.symm.trans stops) (by decide)

/-- A loop that stores what it reads, up to a character that ends it. -/
theorem scanned_keep {taken : Bytes} {d : UInt8} {rest buf : Bytes}
    (go : ∀ c ∈ taken, c ≠ 0 ∧ stop c = false ∧ keep c = some c) (room : buf.length + taken.length < max)
    (ends : d = 0 ∨ stop d = true) : scanned stop max keep (taken ++ d :: rest) buf = (d :: rest, buf ++ taken) := by
  induction taken generalizing buf with
  | nil =>
    rw [List.nil_append, List.append_nil]
    exact scanned_stop ends
  | cons c taken ih =>
    obtain ⟨nonzero, goes, kept⟩ := go c List.mem_cons_self
    rw [List.length_cons] at room
    rw [List.cons_append, scanned, if_pos ⟨nonzero, goes, by omega⟩, kept, Option.toList_some,
      ih (fun c member => go c (List.mem_cons_of_mem _ member)) (by rw [List.length_append, List.length_singleton]; omega),
      List.append_assoc, List.singleton_append]

/-! ## The loops of the parser -/

/-- The text behind white space. -/
def afterSpaces (s : Bytes) : Bytes := (scanned (fun c => !htmlIsspace c) 2 (fun _ => none) s []).1

/-- The text from the end of a declaration on. -/
def afterDeclaration (s : Bytes) : Bytes := (scanned cssDeclEnd 2 (fun _ => none) s []).1

/-- The text behind a selector, and the selector. -/
def selectorOf (s : Bytes) : Bytes × Bytes := scanned (· = ch '{') cssSelMax cssSelChar s []

/-- The text behind a property, and the property. -/
def propOf (s : Bytes) : Bytes × Bytes := scanned cssPropEnd cssPropMax cssPropChar s []

/-- The text behind a value, and the value. -/
def valueOf (s : Bytes) : Bytes × Bytes := scanned cssDeclEnd cssValMax some s []

section

variable {css : Bytes} (indexed : css.length + 2 < 2 ^ 31) (fuel : Nat) {i : Nat} {s : Bytes} (before : Before css i s)
  (enough : s.length ≤ fuel)

include indexed before enough

theorem cssSkipSpaces_eq : ∃ j, cssSkipSpaces css fuel i = some j ∧ Before css j (afterSpaces s) := by
  obtain ⟨j, run, there⟩ := cssScan_eq indexed before enough (by decide : ([] : Bytes).length < 2)
  exact ⟨j, by rw [cssSkipSpaces, run, Option.map_some], there⟩

theorem cssSkipDeclaration_eq : ∃ j, cssSkipDeclaration css fuel i = some j ∧ Before css j (afterDeclaration s) := by
  obtain ⟨j, run, there⟩ := cssScan_eq indexed before enough (by decide : ([] : Bytes).length < 2)
  exact ⟨j, by rw [cssSkipDeclaration, run, Option.map_some], there⟩

theorem cssReadSelector_eq :
    ∃ j, cssReadSelector css fuel i = some (j, (selectorOf s).2) ∧ Before css j (selectorOf s).1 :=
  cssScan_eq indexed before enough (by decide)

theorem cssReadProp_eq : ∃ j, cssReadProp css fuel i = some (j, (propOf s).2) ∧ Before css j (propOf s).1 :=
  cssScan_eq indexed before enough (by decide)

theorem cssReadValue_eq : ∃ j, cssReadValue css fuel i = some (j, (valueOf s).2) ∧ Before css j (valueOf s).1 :=
  cssScan_eq indexed before enough (by decide)

end

theorem cssIsComment_eq {css : Bytes} {i : Nat} {c : UInt8} {s : Bytes} (before : Before css i (c :: s)) (real : c ≠ 0) :
    cssIsComment css i = some (decide (c = ch '/' ∧ s.head? = some (ch '*'))) := by
  rw [cssIsComment, before.read]
  simp only [Option.bind_eq_bind, Option.bind_some]
  by_cases slash : c = ch '/'
  · obtain ⟨d, t, rfl⟩ := List.exists_cons_of_ne_nil (before.next real).nonempty
    rw [if_pos slash, (before.next real).read]
    simp [slash]
  · rw [if_neg slash]
    simp [slash]

theorem cssAccept_eq {css : Bytes} (indexed : css.length + 2 < 2 ^ 31) {c : UInt8} (nonzero : c ≠ 0) {i : Nat} {s : Bytes}
    (before : Before css i s) :
    ∃ j, cssAccept css c i = some j ∧ Before css j (if s.head? = some c then s.tail else s) := by
  cases s with
  | nil => exact absurd rfl before.nonempty
  | cons d s =>
    rw [cssAccept, before.read]
    simp only [Option.bind_eq_bind, Option.bind_some, List.head?_cons, Option.some.injEq, List.tail_cons]
    by_cases same : d = c
    · subst same
      rw [if_pos rfl, if_pos rfl, before.inc indexed]
      exact ⟨i + 1, rfl, before.next nonzero⟩
    · rw [if_neg same, if_neg same]
      exact ⟨i, rfl, before⟩

end Systrix.Html
