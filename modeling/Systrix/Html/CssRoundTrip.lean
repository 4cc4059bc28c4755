import Systrix.Html.CssSafety

/-!
# Style sheets are read back

A style sheet is a list of blocks with white space and comments between them.  Written out and parsed, it gives its
declarations in order, as long as they fit the sheet and its buffers.
-/

namespace Systrix.Html

/-- A declaration of a block. -/
structure CssDecl where
  prop : Bytes
  value : Bytes

/-- A selector with its declarations. -/
structure CssBlock where
  selector : Bytes
  decls : List CssDecl

/-- A part of a style sheet. -/
inductive SheetPart where
  | space (c : UInt8)
  | comment (body : Bytes)
  | block (b : CssBlock)

/-- The text of a declaration. -/
def CssDecl.render (d : CssDecl) : Bytes := d.prop ++ ch ':' :: (d.value ++ [ch ';'])

/-- The text of a block. -/
def CssBlock.render (b : CssBlock) : Bytes := b.selector ++ ch '{' :: (b.decls.flatMap CssDecl.render ++ [ch '}'])

/-- The text of a part. -/
def SheetPart.render : SheetPart → Bytes
  | space c => [c]
  | comment body => ch '/' :: ch '*' :: (body ++ [ch '*', ch '/'])
  | block b => b.render

/-- The rules of a block. -/
def CssBlock.rules (b : CssBlock) : List CssRule := b.decls.map fun d => ⟨b.selector, d.prop, d.value⟩

/-- The rules of a part. -/
def SheetPart.rules : SheetPart → List CssRule
  | block b => b.rules
  | _ => []

/-- A property in lower case and a trimmed value, both short enough. -/
structure CssDecl.Valid (d : CssDecl) : Prop where
  prop_nonempty : d.prop ≠ []
  prop_short : d.prop.length ≤ 31
  prop_chars : ∀ c ∈ d.prop, c ≠ 0 ∧ htmlIsspace c = false ∧ htmlTolower c = c ∧ c ≠ ch ':' ∧ c ≠ ch ';' ∧ c ≠ ch '}'
  value_nonempty : d.value ≠ []
  value_short : d.value.length ≤ 127
  value_chars : ∀ c ∈ d.value, c ≠ 0 ∧ c ≠ ch ';' ∧ c ≠ ch '}'
  value_first : ∀ c ∈ d.value.head?, htmlIsspace c = false
  value_last : ∀ c ∈ d.value.getLast?, htmlIsspace c = false

/-- A selector without white space and braces that does not begin a comment, and is short enough. -/
structure CssBlock.Valid (b : CssBlock) : Prop where
  short : b.selector.length ≤ 63
  chars : ∀ c ∈ b.selector, c ≠ 0 ∧ htmlIsspace c = false ∧ c ≠ ch '{' ∧ c ≠ ch '}'
  begins : ¬[ch '/', ch '*'] <+: b.selector
  decls : ∀ d ∈ b.decls, d.Valid

/-- White space, a comment that ends where it says, or a block. -/
def SheetPart.Valid : SheetPart → Prop
  | space c => htmlIsspace c = true
  | comment body => 0 ∉ body ∧ ¬[ch '*', ch '/'] <:+: body
  | block b => b.Valid

/-! ## One declaration -/

theorem afterSpaces_stay {c : UInt8} (ink : htmlIsspace c = false) (s : Bytes) : afterSpaces (c :: s) = c :: s := by
  rw [afterSpaces, scanned, if_neg (by simp [ink])]

theorem space_ne_zero {c : UInt8} (space : htmlIsspace c = true) : c ≠ 0 := by
  rintro rfl
  revert space
  decide

theorem afterSpaces_skip {c : UInt8} (space : htmlIsspace c = true) (s : Bytes) : afterSpaces (c :: s) = afterSpaces s := by
  rw [afterSpaces, scanned, if_pos ⟨space_ne_zero space, by simp [space], by decide⟩]
  rfl

theorem propOf_render {d : CssDecl} (valid : d.Valid) (rest : Bytes) :
    propOf (d.prop ++ ch ':' :: rest) = (ch ':' :: rest, d.prop) := by
  apply scanned_keep
  · intro c member
    obtain ⟨nonzero, ink, lower, colon, -, brace⟩ := valid.prop_chars c member
    exact ⟨nonzero, by simp [cssPropEnd, colon, brace], by simp [cssPropChar, ink, lower]⟩
  · have := valid.prop_short
    simp only [List.length_nil, cssPropMax]
    omega
  · exact .inr rfl

theorem valueOf_render {d : CssDecl} (valid : d.Valid) (rest : Bytes) :
    valueOf (d.value ++ ch ';' :: rest) = (ch ';' :: rest, d.value) := by
  apply scanned_keep
  · intro c member
    obtain ⟨nonzero, semicolon, brace⟩ := valid.value_chars c member
    exact ⟨nonzero, by simp [cssDeclEnd, semicolon, brace], rfl⟩
  · have := valid.value_short
    simp only [List.length_nil, cssValMax]
    omega
  · exact .inr rfl

theorem CssDecl.Valid.trimmed {d : CssDecl} (valid : d.Valid) : d.value.rdropWhile htmlIsspace = d.value := by
  rw [List.rdropWhile_eq_self_iff]
  intro some space
  have ink := valid.value_last _ (List.getLast?_eq_some_getLast some)
  exact absurd (ink.symm.trans space) (by decide)

theorem CssDecl.Valid.stored {d : CssDecl} (valid : d.Valid) : d.prop.headD 0 ≠ 0 ∧ d.value.headD 0 ≠ 0 := by
  obtain ⟨c, prop, first⟩ := List.exists_cons_of_ne_nil valid.prop_nonempty
  obtain ⟨v, value, second⟩ := List.exists_cons_of_ne_nil valid.value_nonempty
  rw [first, second]
  exact ⟨(valid.prop_chars c (first ▸ List.mem_cons_self)).1, (valid.value_chars v (second ▸ List.mem_cons_self)).1⟩

theorem htmlStrncpy_eq {src : Bytes} {n : Nat} (short : src.length ≤ n - 1) : htmlStrncpy src n = src :=
  List.take_of_length_le short

theorem selectorOf_render {b : CssBlock} (valid : b.Valid) (rest : Bytes) :
    selectorOf (b.selector ++ ch '{' :: rest) = (ch '{' :: rest, b.selector) := by
  apply scanned_keep
  · intro c member
    obtain ⟨nonzero, ink, brace, -⟩ := valid.chars c member
    exact ⟨nonzero, by simp [brace], by simp [cssSelChar, ink]⟩
  · have := valid.short
    simp only [List.length_nil, cssSelMax]
    omega
  · exact .inr rfl

/-- The text of a block begins with a character that is neither white space nor the begin of a comment. -/
theorem CssBlock.Valid.first {b : CssBlock} (valid : b.Valid) (rest : Bytes) :
    ∃ c s, b.selector ++ ch '{' :: rest = c :: s ∧ c ≠ 0 ∧ htmlIsspace c = false
      ∧ ¬(c = ch '/' ∧ s.head? = some (ch '*')) := by
  cases selector : b.selector with
  | nil => exact ⟨ch '{', rest, rfl, by decide, by decide, by rintro ⟨slash, -⟩; exact absurd slash (by decide)⟩
  | cons c sel =>
    obtain ⟨nonzero, ink, -⟩ := valid.chars c (selector ▸ List.mem_cons_self)
    refine ⟨c, sel ++ ch '{' :: rest, rfl, nonzero, ink, ?_⟩
    rintro ⟨rfl, star⟩
    cases sel with
    | nil => exact absurd (Option.some.inj star) (by decide)
    | cons d sel =>
      obtain rfl : d = ch '*' := Option.some.inj star
      exact valid.begins (selector ▸ ⟨sel, rfl⟩)

theorem cssParseLoop_full (css : Bytes) (fuel : Nat) {i : Nat} {rules : List CssRule}
    (full : ¬(i < css.length ∧ rules.length < cssMaxRules)) :
    cssParseLoop css css.length (fuel + 1) i rules = some rules := by
  rw [cssParseLoop, if_neg full]
  rfl

variable {css : Bytes} (indexed : css.length + 2 < 2 ^ 31)

include indexed

theorem cssDeclaration_render {d : CssDecl} (valid : d.Valid) {sel : Bytes} (short : sel.length ≤ 63) {fuel i : Nat}
    {rest : Bytes} {rules : List CssRule} (before : Before css i (d.render ++ rest)) (enough : (d.render ++ rest).length ≤ fuel)
    (room : rules.length < cssMaxRules) :
    ∃ j, cssDeclaration css sel fuel i rules = some (j, rules ++ [⟨sel, d.prop, d.value⟩]) ∧ Before css j rest := by
  have text : d.render ++ rest = d.prop ++ ch ':' :: (d.value ++ ch ';' :: rest) := by simp [CssDecl.render]
  rw [text] at before enough
  obtain ⟨j, read, colon⟩ := cssReadProp_eq indexed _ before enough
  simp only [List.length_append, List.length_cons] at enough
  rw [propOf_render valid] at read colon
  have value := colon.next (by decide)
  obtain ⟨k, skipped, spaces⟩ := cssSkipSpaces_eq indexed fuel value (by
    simp only [List.length_append, List.length_cons]
    omega)
  have stay : afterSpaces (d.value ++ ch ';' :: rest) = d.value ++ ch ';' :: rest := by
    obtain ⟨v, tail, first⟩ := List.exists_cons_of_ne_nil valid.value_nonempty
    have ink := valid.value_first v (by rw [first]; rfl)
    rw [first]
    exact afterSpaces_stay ink _
  rw [stay] at spaces
  obtain ⟨l, taken, semicolon⟩ := cssReadValue_eq indexed fuel spaces (by
    simp only [List.length_append, List.length_cons]
    omega)
  rw [valueOf_render valid] at taken semicolon
  obtain ⟨m, accepted, final⟩ := cssAccept_eq indexed (c := ch ';') (by decide) semicolon
  have ended : d.prop.length < cssPropMax := Nat.lt_succ_of_le valid.prop_short
  have closed : d.value.length < cssValMax := Nat.lt_succ_of_le valid.value_short
  have added : cssAddRule rules sel d.prop d.value = some (rules ++ [⟨sel, d.prop, d.value⟩]) := by
    rw [cssAddRule, if_pos room, htmlStrncpy_eq short, htmlStrncpy_eq valid.prop_short, htmlStrncpy_eq valid.value_short]
  refine ⟨m, ?_, by simpa using final⟩
  rw [cssDeclaration, read]
  simp only [Option.bind_eq_bind, Option.bind_some, cssEnd_eq ended, colon.read, ne_eq, not_true_eq_false, if_false,
    colon.inc indexed, skipped, taken, cssEnd_eq closed, valid.trimmed, accepted]
  rw [if_pos valid.stored, added]
  rfl

/-! ## One block -/

theorem cssDeclarations_render {decls : List CssDecl} (valid : ∀ d ∈ decls, d.Valid) {sel : Bytes}
    (short : sel.length ≤ 63) (fuel : Nat) {i : Nat} {rest : Bytes} {rules : List CssRule}
    (before : Before css i (decls.flatMap CssDecl.render ++ ch '}' :: rest))
    (enough : (decls.flatMap CssDecl.render ++ ch '}' :: rest).length ≤ fuel)
    (room : rules.length + decls.length ≤ cssMaxRules) :
    ∃ j, cssDeclarations css sel fuel i rules = some (j, rules ++ decls.map fun d => ⟨sel, d.prop, d.value⟩)
      ∧ Before css j (ch '}' :: rest) := by
  induction decls generalizing fuel i rules with
  | nil =>
    obtain ⟨fuel, rfl⟩ : ∃ n, fuel = n + 1 := ⟨fuel - 1, by simp at enough; omega⟩
    rw [List.flatMap_nil, List.nil_append] at before
    refine ⟨i, ?_, before⟩
    rw [cssDeclarations, before.read]
    simp
  | cons d decls ih =>
    obtain ⟨fuel, rfl⟩ : ∃ n, fuel = n + 1 := ⟨fuel - 1, by simp at enough; omega⟩
    have here := valid d List.mem_cons_self
    obtain ⟨c, prop, first⟩ := List.exists_cons_of_ne_nil here.prop_nonempty
    obtain ⟨nonzero, ink, -, -, -, brace⟩ := here.prop_chars c (first ▸ List.mem_cons_self)
    rw [List.length_cons] at room
    rw [List.flatMap_cons, List.append_assoc] at before enough
    have text : ∃ tail, d.render ++ (decls.flatMap CssDecl.render ++ ch '}' :: rest) = c :: tail := by
      rw [CssDecl.render, first]
      exact ⟨_, rfl⟩
    obtain ⟨tail, head⟩ := text
    have char := head ▸ before
    obtain ⟨j, skipped, spaces⟩ := cssSkipSpaces_eq indexed (fuel + 1) char (head ▸ enough)
    rw [afterSpaces_stay ink] at spaces
    obtain rfl := char.unique spaces
    obtain ⟨k, run, behind⟩ := cssDeclaration_render indexed here short before enough
      (by omega : rules.length < cssMaxRules)
    have fewer : d.render.length ≠ 0 := by simp [CssDecl.render]
    have shorter : (decls.flatMap CssDecl.render ++ ch '}' :: rest).length ≤ fuel := by
      rw [List.length_append] at enough
      omega
    have grown : (rules ++ [(⟨sel, d.prop, d.value⟩ : CssRule)]).length + decls.length ≤ cssMaxRules := by
      rw [List.length_append, List.length_singleton]
      omega
    obtain ⟨l, more, final⟩ := ih (fun e member => valid e (List.mem_cons_of_mem _ member)) fuel behind shorter grown
    refine ⟨l, ?_, final⟩
    rw [cssDeclarations, char.read]
    simp only [Option.bind_eq_bind, Option.bind_some]
    rw [if_pos ⟨nonzero, brace, by omega⟩, skipped]
    simp only [Option.bind_some, char.read]
    rw [if_neg (by simp [nonzero, brace]), run]
    simp only [Option.bind_some]
    rw [more, List.append_assoc]
    rfl

/-! ## Comments -/

theorem cssSkipComment_render {body rest : Bytes} (inside : ¬[ch '*', ch '/'] <:+: body) (more : rest ≠ []) (fuel : Nat)
    {i : Nat} (before : Before css i (body ++ ch '*' :: ch '/' :: rest)) (nonzero : 0 ∉ body)
    (enough : body.length < fuel) :
    ∃ j, cssSkipComment css css.length fuel i = some j ∧ Before css j (ch '*' :: ch '/' :: rest) := by
  have tail := List.length_pos_of_ne_nil more
  induction body generalizing fuel i with
  | nil =>
    obtain ⟨fuel, rfl⟩ := Nat.exists_eq_add_of_lt enough
    rw [List.nil_append] at before
    have size := before.length
    simp only [List.length_cons] at size
    refine ⟨i, ?_, before⟩
    rw [cssSkipComment, before.inc indexed]
    simp only [Option.bind_eq_bind, Option.bind_some]
    rw [if_pos (by omega), before.read, (before.next (by decide)).read]
    simp
  | cons b body ih =>
    obtain ⟨fuel, rfl⟩ : ∃ n, fuel = n + 1 := ⟨fuel - 1, by simp at enough; omega⟩
    obtain ⟨other, free⟩ := not_or.mp (mt List.mem_cons.mpr nonzero)
    have next := before.next (Ne.symm other)
    obtain ⟨d, t, second⟩ := List.exists_cons_of_ne_nil next.nonempty
    have apart : ¬(b = ch '*' ∧ d = ch '/') := by
      rintro ⟨rfl, rfl⟩
      cases body with
      | nil => exact absurd (List.cons.inj second).1 (by decide)
      | cons e body =>
        obtain ⟨rfl, -⟩ := List.cons.inj second
        exact inside ⟨[], body, rfl⟩
    have char : Before css (i + 1) (d :: t) := second ▸ next
    have size := before.length
    simp only [List.cons_append, List.length_cons, List.length_append] at size
    obtain ⟨j, run, there⟩ := ih (fun found => inside (List.infix_cons found)) fuel next free (Nat.lt_of_succ_lt_succ enough)
    refine ⟨j, ?_, there⟩
    rw [cssSkipComment, before.inc indexed]
    simp only [Option.bind_eq_bind, Option.bind_some]
    rw [if_pos (by omega), before.read, char.read]
    simp only [Option.bind_some]
    rw [if_neg apart, run]

/-! ## The whole sheet -/

/-- White space in front makes no difference. -/
theorem cssParseLoop_space {c : UInt8} {s : Bytes} {fuel i : Nat} {rules : List CssRule} (space : htmlIsspace c = true)
    (before : Before css i (c :: s)) (enough : css.length + 1 ≤ fuel + i) :
    cssParseLoop css css.length fuel i rules = cssParseLoop css css.length fuel (i + 1) rules := by
  have next := before.next (space_ne_zero space)
  have size := before.length
  have tail := List.length_pos_of_ne_nil next.nonempty
  rw [List.length_cons] at size
  obtain ⟨fuel, rfl⟩ : ∃ n, fuel = n + 1 := ⟨fuel - 1, by omega⟩
  by_cases room : rules.length < cssMaxRules
  · obtain ⟨j, first, there⟩ := cssSkipSpaces_eq indexed (fuel + 1) before (by rw [List.length_cons]; omega)
    obtain ⟨k, second, same⟩ := cssSkipSpaces_eq indexed (fuel + 1) next (by omega)
    rw [afterSpaces_skip space] at there
    obtain rfl := there.unique same
    by_cases more : i + 1 < css.length
    · rw [cssParseLoop, cssParseLoop, if_pos ⟨by omega, room⟩, if_pos ⟨more, room⟩, first, second]
    · -- the text ends behind the white space
      have last : s = [0] := by
        rw [← next.rest]
        exact List.drop_left' (by omega)
      subst last
      have ended := cssParseLoop_full css fuel (i := i + 1) (fun both => more (And.left both) : ¬(_ ∧ rules.length < cssMaxRules))
      rw [ended, cssParseLoop, if_pos ⟨by omega, room⟩, first]
      have stay : afterSpaces [0] = [0] := afterSpaces_stay (by decide) []
      rw [stay] at there
      simp only [Option.bind_eq_bind, Option.bind_some, there.read]
      rfl
  · rw [cssParseLoop_full css fuel (fun both => room both.2), cssParseLoop_full css fuel (fun both => room both.2)]

theorem cssParseLoop_comment {body rest : Bytes} (inside : ¬[ch '*', ch '/'] <:+: body) (nonzero : 0 ∉ body)
    (more : rest ≠ []) (fuel : Nat) {i : Nat} {rules : List CssRule} (room : rules.length < cssMaxRules)
    (before : Before css i (ch '/' :: ch '*' :: (body ++ ch '*' :: ch '/' :: rest)))
    (enough : css.length + 1 ≤ fuel + i) :
    ∃ j, i < j ∧ cssParseLoop css css.length (fuel + 1) i rules = cssParseLoop css css.length fuel j rules
      ∧ Before css j rest := by
  have size := before.length
  have tail := List.length_pos_of_ne_nil more
  simp only [List.length_cons, List.length_append] at size
  obtain ⟨j, skipped, spaces⟩ := cssSkipSpaces_eq indexed (fuel + 1) before (by
    simp only [List.length_cons, List.length_append]
    omega)
  rw [afterSpaces_stay (by decide)] at spaces
  obtain rfl := before.unique spaces
  have within := (before.next (by decide)).next (by decide)
  obtain ⟨k, found, ends⟩ := cssSkipComment_render indexed inside more (fuel + 1) within nonzero (by omega)
  have two : cssInc i 2 = some (i + 2) := if_pos (by omega)
  have after := (ends.next (by decide)).next (by decide)
  have position := after.length
  have behind : cssInc k 2 = some (k + 2) := if_pos (by omega)
  refine ⟨k + 2, by omega, ?_, after⟩
  rw [cssParseLoop, if_pos ⟨by omega, room⟩, skipped]
  simp only [Option.bind_eq_bind, Option.bind_some, before.read, cssIsComment_eq before (by decide)]
  rw [if_neg (by decide), if_pos (by simp)]
  simp only [two, Option.bind_some, found, behind]

theorem cssParseLoop_block {b : CssBlock} (valid : b.Valid) {rest : Bytes} (fuel : Nat) {i : Nat} {rules : List CssRule}
    (free : rules.length < cssMaxRules) (room : rules.length + b.decls.length ≤ cssMaxRules)
    (before : Before css i (b.render ++ rest)) (enough : css.length + 1 ≤ fuel + i) (more : rest ≠ []) :
    ∃ j, i < j ∧ cssParseLoop css css.length (fuel + 1) i rules = cssParseLoop css css.length fuel j (rules ++ b.rules)
      ∧ Before css j rest := by
  have text : b.render ++ rest = b.selector ++ ch '{' :: (b.decls.flatMap CssDecl.render ++ ch '}' :: rest) := by
    simp [CssBlock.render]
  rw [text] at before
  have size := before.length
  have tail := List.length_pos_of_ne_nil more
  simp only [List.length_cons, List.length_append] at size
  obtain ⟨c, s, head, nonzero, ink, plain⟩ := valid.first (b.decls.flatMap CssDecl.render ++ ch '}' :: rest)
  have char : Before css i (c :: s) := head ▸ before
  have long := char.length
  obtain ⟨j, skipped, spaces⟩ := cssSkipSpaces_eq indexed (fuel + 1) char (by omega)
  rw [afterSpaces_stay ink] at spaces
  obtain rfl := char.unique spaces
  obtain ⟨k, read, brace⟩ := cssReadSelector_eq indexed (fuel + 1) before (by
    simp only [List.length_cons, List.length_append]
    omega)
  rw [selectorOf_render valid] at read brace
  have ended : b.selector.length < cssSelMax := Nat.lt_succ_of_le valid.short
  have inner := brace.next (by decide)
  have position := inner.length
  simp only [List.length_cons, List.length_append] at position
  obtain ⟨l, run, close⟩ := cssDeclarations_render indexed valid.decls valid.short (fuel + 1) inner (by
    simp only [List.length_cons, List.length_append]
    omega) room
  obtain ⟨m, accepted, final⟩ := cssAccept_eq indexed (c := ch '}') (by decide) close
  have behind : Before css m rest := by simpa using final
  have last := behind.length
  refine ⟨m, by omega, ?_, behind⟩
  rw [cssParseLoop, if_pos ⟨by omega, free⟩, skipped]
  simp only [Option.bind_eq_bind, Option.bind_some, char.read, cssIsComment_eq char nonzero]
  rw [if_neg nonzero, if_neg (by simpa using plain), read]
  simp only [Option.bind_some, cssEnd_eq ended, brace.read, ne_eq, not_true_eq_false, if_false, brace.inc indexed, run,
    accepted]
  rfl

/-- The parts of a sheet from a position on, which gives their rules in order. -/
theorem cssParseLoop_render {parts : List SheetPart} (valid : ∀ part ∈ parts, part.Valid) {fuel i : Nat}
    {rules : List CssRule} (before : Before css i (parts.flatMap SheetPart.render ++ [0]))
    (enough : css.length + 2 ≤ fuel + i)
    (room : rules.length + (parts.flatMap SheetPart.rules).length ≤ cssMaxRules) :
    cssParseLoop css css.length fuel i rules = some (rules ++ parts.flatMap SheetPart.rules) := by
  induction parts generalizing fuel i rules with
  | nil =>
    have size := before.length
    simp at size
    obtain ⟨fuel, rfl⟩ : ∃ n, fuel = n + 1 := ⟨fuel - 1, by omega⟩
    rw [cssParseLoop_full css fuel (by omega)]
    simp
  | cons part parts ih =>
    have here := valid part List.mem_cons_self
    have later := fun p member => valid p (List.mem_cons_of_mem _ member)
    have more : parts.flatMap SheetPart.render ++ [0] ≠ [] := by simp
    have size := before.length
    simp only [List.length_append, List.length_singleton] at size
    rw [List.flatMap_cons, List.append_assoc] at before
    rw [List.flatMap_cons, List.length_append] at room
    rw [List.flatMap_cons]
    obtain ⟨fuel, rfl⟩ : ∃ n, fuel = n + 1 := ⟨fuel - 1, by omega⟩
    by_cases free : rules.length < cssMaxRules
    · cases part with
      | space c =>
        have space : htmlIsspace c = true := here
        have next := before.next (space_ne_zero space)
        rw [cssParseLoop_space indexed here before (by omega)]
        exact ih later next (by omega) (by omega)
      | comment body =>
        have text : (SheetPart.comment body).render ++ (parts.flatMap SheetPart.render ++ [0])
            = ch '/' :: ch '*' :: (body ++ ch '*' :: ch '/' :: (parts.flatMap SheetPart.render ++ [0])) := by
          simp [SheetPart.render]
        rw [text] at before
        obtain ⟨j, moved, turn, behind⟩ := cssParseLoop_comment indexed here.2 here.1 more fuel free before (by omega)
        rw [turn]
        exact ih later behind (by omega) (by omega)
      | block b =>
        have count : (SheetPart.block b).rules.length = b.decls.length := List.length_map _
        obtain ⟨j, moved, turn, behind⟩ := cssParseLoop_block indexed here fuel free (by omega) before (by omega) more
        have grown : (rules ++ b.rules).length + (parts.flatMap SheetPart.rules).length ≤ cssMaxRules := by
          rw [List.length_append, CssBlock.rules, List.length_map]
          omega
        rw [turn, ih later behind (by omega) grown, List.append_assoc]
        rfl
    · -- the sheet is full, so the other parts have no rules
      have none : part.rules ++ parts.flatMap SheetPart.rules = [] := by
        apply List.eq_nil_of_length_eq_zero
        rw [List.length_append]
        omega
      rw [cssParseLoop_full css fuel (fun both => free both.2), none, List.append_nil]

/-- Every text is parsed inside of all buffers, and the text of a sheet whose rules fit gives its rules in order. -/
theorem cssParseSheet_round_trip (nonzero : 0 ∉ css) {fuel : Nat} (enough : css.length + 3 ≤ fuel)
    {rules : List CssRule} (room : rules.length ≤ cssMaxRules) :
    (∃ later, cssParseSheet fuel css rules = some later ∧ later.length ≤ cssMaxRules)
      ∧ ∀ parts : List SheetPart, (∀ part ∈ parts, part.Valid) → css = parts.flatMap SheetPart.render →
        rules.length + (parts.flatMap SheetPart.rules).length ≤ cssMaxRules →
        cssParseSheet fuel css rules = some (rules ++ parts.flatMap SheetPart.rules) := by
  refine ⟨cssParseSheet_safe indexed nonzero enough room, ?_⟩
  intro parts valid text fits
  have begins := Before.start css
  rw [cssParseSheet, cssLen_eq indexed begins nonzero (by omega)]
  exact cssParseLoop_render indexed valid (by rw [← text]; exact begins) (by omega) fits

omit indexed in
/-- White space, an empty comment and a block. -/
theorem cssParseSheet_round_trip_block :
    cssParseSheet 20 (str " /**/p{a:b;}") [] = some [⟨str "p", str "a", str "b"⟩] := by
  have both := @cssParseSheet_round_trip (str " /**/p{a:b;}") (by decide) (by decide) 20 (by decide) [] (by decide)
  refine both.2 [.space (ch ' '), .comment [], .block ⟨str "p", [⟨str "a", str "b"⟩]⟩] ?_ (by decide) (by decide)
  intro part member
  simp only [List.mem_cons, List.not_mem_nil, or_false] at member
  rcases member with rfl | rfl | rfl
  · exact (by decide : htmlIsspace (ch ' ') = true)
  · exact ⟨List.not_mem_nil, by decide⟩
  · refine ⟨by decide, by decide +kernel, by decide, ?_⟩
    intro d only
    obtain rfl := List.mem_singleton.mp only
    exact ⟨by decide, by decide, by decide +kernel, by decide, by decide, by decide +kernel, by decide +kernel,
      by decide +kernel⟩

end Systrix.Html
