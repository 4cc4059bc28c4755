import Systrix.Libc.Path

/-!
# What `slibc_path_normalize` leaves

The two pointers go over the components of the path, and what lies below `dst` is a draft of the result: the
names kept so far, each with the slash behind it.
-/

namespace Systrix.Libc

open TextBuffer LexicalPath

/-! ## Drafts -/

/-- The names kept so far, the last one first, and whether a slash stands before them. -/
structure Draft where
  lead : Bool
  names : List (List UInt8)

namespace Draft

/-- Names with a slash behind each. -/
def closed (lead : Bool) : List (List UInt8) → List UInt8
  | [] => if lead then [slash] else []
  | name :: names => closed lead names ++ (name ++ [slash])

/-- What lies below `dst`. -/
def text (d : Draft) : List UInt8 := closed d.lead d.names

/-- A component and the slash behind it. -/
def enter (abs : Nat) (d : Draft) (c : List UInt8) : Draft :=
  if c = [] then { d with lead := d.lead || d.names.isEmpty }
  else if c = [dot] then d
  else if c = [dot, dot] then
    match d.names with
    | _ :: names => { d with names := names }
    | [] => { d with lead := d.lead && abs ≠ 0 }
  else { d with names := c :: d.names }

/-- The last component. -/
def finish (abs : Nat) (d : Draft) (c : List UInt8) : Draft := if c = [] then d else d.enter abs c

/-- The result. -/
def result (abs : Nat) (d : Draft) : List UInt8 :=
  match d.names with
  | [] => if abs ≠ 0 then [slash] else [dot]
  | name :: names => closed d.lead names ++ name

/-- A draft of an absolute path begins with a slash, and what it keeps are names. -/
structure Good (abs : Nat) (d : Draft) : Prop where
  led : abs ≠ 0 → d.lead = true
  names : ∀ name ∈ d.names, IsName dot name ∧ slash ∉ name

variable {abs : Nat} {d : Draft} {c : List UInt8}

theorem enter_name (isName : IsName dot c) : d.enter abs c = { d with names := c :: d.names } := by
  obtain ⟨nonempty, noDot, noUp⟩ := isName
  rw [enter, if_neg nonempty, if_neg noDot, if_neg noUp]

theorem enter_up : d.enter abs [dot, dot] =
    match d.names with
    | _ :: names => { d with names := names }
    | [] => { d with lead := d.lead && abs ≠ 0 } := by
  rw [enter, if_neg (by decide), if_neg (by decide), if_pos rfl]

theorem Good.enter (good : d.Good abs) (noSlash : slash ∉ c) : (d.enter abs c).Good abs := by
  unfold Draft.enter
  split_ifs with empty isDot isUp
  · exact ⟨fun absolute => by rw [good.led absolute]; rfl, good.names⟩
  · exact good
  · split
    next name names eq =>
      exact ⟨good.led, fun name member => good.names name (eq ▸ List.mem_cons_of_mem _ member)⟩
    next eq =>
      refine ⟨fun absolute => ?_, good.names⟩
      rw [good.led absolute, Bool.true_and]
      exact decide_eq_true absolute
  · refine ⟨good.led, fun name member => ?_⟩
    rcases List.mem_cons.mp member with rfl | old
    · exact ⟨⟨empty, isDot, isUp⟩, noSlash⟩
    · exact good.names name old

theorem Good.finish (good : d.Good abs) (noSlash : slash ∉ c) : (d.finish abs c).Good abs := by
  unfold Draft.finish
  split
  · exact good
  · exact good.enter noSlash

/-- Every component so far has its slash. -/
theorem closed_ends (lead : Bool) (names : List (List UInt8)) :
    closed lead names = [] ∨ (closed lead names).getLast? = some slash := by
  cases names with
  | nil =>
      cases lead with
      | false => exact Or.inl rfl
      | true => exact Or.inr rfl
  | cons name names =>
      rw [closed, ← List.append_assoc]
      exact Or.inr (List.getLast?_concat)

theorem closed_eq_nil {lead : Bool} {names : List (List UInt8)} :
    closed lead names = [] ↔ lead = false ∧ names = [] := by
  cases names with
  | nil => cases lead <;> simp [closed]
  | cons name names => simp [closed]

end Draft

/-! ## The two pointers -/

/-- `out` has been written, and `rest` is still to be read of a path of `size` characters. -/
structure PathCursor.At (s : PathCursor) (orig : Nat → UInt8) (size : Nat) (out rest : List UInt8) : Prop where
  dst : s.dst = out.length
  behind : s.dst ≤ s.src
  written : ∀ i < out.length, out[i]? = some (s.path i)
  kept : ∀ i, s.src ≤ i → s.path i = orig i
  ahead : StringAt orig s.src rest
  position : s.src + rest.length = size
  nonzero : 0 ∉ out

namespace PathCursor.At

variable {s : PathCursor} {orig : Nat → UInt8} {size : Nat} {out rest : List UInt8} {c : UInt8}

theorem head (here : s.At orig size out (c :: rest)) : s.path s.src = c :=
  (here.kept _ (Nat.le_refl _)).trans here.ahead.1

theorem head_ne (here : s.At orig size out (c :: rest)) : c ≠ 0 := here.ahead.2.1

theorem head_nil (here : s.At orig size out []) : s.path s.src = 0 :=
  (here.kept _ (Nat.le_refl _)).trans here.ahead

theorem second (here : s.At orig size out (c :: rest)) : s.path (s.src + 1) = rest.headD 0 := by
  rw [here.kept _ (Nat.le_succ _)]
  cases rest with
  | nil => exact here.ahead.2.2
  | cons c' rest => exact here.ahead.2.2.1

theorem third {c' : UInt8} (here : s.At orig size out (c :: c' :: rest)) : s.path (s.src + 2) = rest.headD 0 := by
  rw [here.kept _ (Nat.le_add_right _ _)]
  cases rest with
  | nil => exact here.ahead.2.2.2.2
  | cons c'' rest => exact here.ahead.2.2.2.2.1

/-- The character before `dst`. -/
theorem last (here : s.At orig size out rest) (nonempty : out ≠ []) : out.getLast? = some (s.path (s.dst - 1)) := by
  have positive := List.length_pos_iff.mpr nonempty
  rw [List.getLast?_eq_getElem?, here.dst]
  exact here.written _ (Nat.sub_one_lt_of_lt positive)

/-- `src++` -/
theorem skip (here : s.At orig size out (c :: rest)) : At { s with src := s.src + 1 } orig size out rest :=
  ⟨here.dst, Nat.le_succ_of_le here.behind, here.written, fun i beyond => here.kept i (Nat.le_of_succ_le beyond),
    here.ahead.2.2, (Nat.succ_add_eq_add_succ s.src rest.length).trans here.position, here.nonzero⟩

/-- `dst` goes back. -/
theorem cut (here : s.At orig size out rest) {out' : List UInt8} (part : out' <+: out) :
    At { s with dst := out'.length } orig size out' rest := by
  refine ⟨rfl, ?_, fun i below => ?_, here.kept, here.ahead, here.position, fun member => ?_⟩
  · exact Nat.le_trans (Nat.le_trans part.length_le (Nat.le_of_eq here.dst.symm)) here.behind
  · rw [← here.written i (Nat.lt_of_lt_of_le below part.length_le)]
    exact (List.prefix_iff_getElem?.mp part i below).symm ▸ (List.getElem?_eq_getElem below)
  · exact here.nonzero (part.subset member)

/-- `*dst++ = x`, and `src++` -/
theorem put_skip (here : s.At orig size out (c :: rest)) {x : UInt8} (real : x ≠ 0) :
    ∃ s', s.put x = some s' ∧ At { s' with src := s'.src + 1 } orig size (out ++ [x]) rest := by
  have behind := here.behind
  have position := here.dst
  refine ⟨_, if_pos behind, ?_, Nat.succ_le_succ behind, fun i below => ?_, fun i beyond => ?_, here.ahead.2.2,
    (Nat.succ_add_eq_add_succ s.src rest.length).trans here.position, fun member => ?_⟩
  · rw [List.length_append, ← position]
    rfl
  · rw [List.length_append, List.length_singleton, ← position] at below
    show _ = some (Function.update s.path s.dst x i)
    rcases Nat.lt_succ_iff_lt_or_eq.mp below with old | rfl
    · rw [Function.update_of_ne (Nat.ne_of_lt old), List.getElem?_append_left (position ▸ old)]
      exact here.written i (position ▸ old)
    · rw [Function.update_self, position, List.getElem?_concat_length]
  · show Function.update s.path s.dst x i = orig i
    rw [Function.update_of_ne (Nat.ne_of_gt (Nat.lt_of_le_of_lt behind beyond))]
    exact here.kept i (Nat.le_of_succ_le beyond)
  · rcases List.mem_append.mp member with old | new
    · exact here.nonzero old
    · exact real (List.mem_singleton.mp new).symm

end PathCursor.At

/-! ## One round of the loop -/

section rounds

variable {s : PathCursor} {orig : Nat → UInt8} {size abs fuel : Nat} {out rest tail c : List UInt8} {d : Draft}

theorem normalizeLoop_end (here : s.At orig size out []) : normalizeLoop abs (fuel + 1) s = some s := by
  rw [normalizeLoop]
  exact if_pos here.head_nil

theorem normalizeLoop_slash (abs fuel : Nat) (here : s.At orig size out (slash :: rest)) :
    ∃ s', normalizeLoop abs (fuel + 1) s = normalizeLoop abs fuel s' ∧
      s'.At orig size (if out = [] ∨ out.getLast? ≠ some slash then out ++ [slash] else out) rest := by
  have apart : (s.dst = 0 ∨ s.path (s.dst - 1) ≠ slash) ↔ (out = [] ∨ out.getLast? ≠ some slash) := by
    by_cases empty : out = []
    · rw [here.dst, empty]
      exact iff_of_true (Or.inl rfl) (Or.inl rfl)
    · have some : s.dst ≠ 0 := by rwa [here.dst, ne_eq, List.length_eq_zero_iff]
      rw [here.last empty, or_iff_right some, or_iff_right empty, ne_eq, ne_eq, Option.some_inj]
  rw [normalizeLoop]
  dsimp only
  rw [here.head, if_neg (by decide), if_pos rfl]
  by_cases puts : out = [] ∨ out.getLast? ≠ some slash
  · obtain ⟨s', put, there⟩ := here.put_skip (show slash ≠ 0 by decide)
    rw [if_pos (apart.mpr puts), if_pos puts, put]
    exact ⟨_, rfl, there⟩
  · rw [if_neg (mt apart.mp puts), if_neg puts]
    exact ⟨_, rfl, here.skip⟩

/-- What stands behind a component. -/
def Stops (tail : List UInt8) : Prop := tail = [] ∨ tail.head? = some slash

theorem Stops.headD (stops : Stops tail) : tail.headD 0 = slash ∨ tail.headD 0 = 0 := by
  rcases stops with rfl | found
  · exact Or.inr rfl
  · cases tail with
    | nil => cases found
    | cons c tail => exact Or.inl (Option.some.inj found)

/-- The slash behind `.` and `..` is skipped. -/
theorem skip_stop (here : s.At orig size out tail) (stops : Stops tail) :
    PathCursor.At { s with src := s.src + if s.path s.src = slash then 1 else 0 } orig size out tail.tail := by
  rcases stops with rfl | found
  · have none : s.path s.src ≠ slash := by
      rw [here.head_nil]
      decide
    rw [if_neg none]
    exact here
  · cases tail with
    | nil => cases found
    | cons c tail =>
        cases found
        rw [if_pos here.head]
        exact here.skip

theorem normalizeLoop_dot (abs fuel : Nat) (here : s.At orig size out (dot :: tail)) (stops : Stops tail) :
    ∃ s', normalizeLoop abs (fuel + 1) s = normalizeLoop abs fuel s' ∧ s'.At orig size out tail.tail := by
  have ends : s.path (s.src + 1) = slash ∨ s.path (s.src + 1) = 0 := by
    rw [here.second]
    exact stops.headD
  have there := skip_stop here.skip stops
  refine ⟨_, ?_, there⟩
  rw [normalizeLoop]
  dsimp only
  rw [here.head, if_neg (by decide), if_neg (by decide), if_pos ⟨rfl, ends⟩]
  congr 2
  split <;> rfl

/-- The way back over a name. -/
theorem popName_name {path : Nat → UInt8} {low count : Nat} (above : abs ≤ low)
    (name : ∀ i < count, path (low + i) ≠ slash) : popName abs path (low + count) = popName abs path low := by
  induction count with
  | zero => rfl
  | succ count ih =>
      have last := name count (Nat.lt_succ_self count)
      rw [← Nat.add_assoc, popName, if_pos ⟨Nat.lt_succ_of_le (Nat.le_add_right_of_le above), last⟩]
      exact ih fun i below => name i (Nat.lt_succ_of_lt below)

theorem popName_stop {path : Nat → UInt8} {low : Nat} (stops : low ≤ abs ∨ path (low - 1) = slash) :
    popName abs path low = low := by
  cases low with
  | zero => rfl
  | succ low =>
      refine if_neg fun goes => ?_
      rcases stops with bottom | found
      · exact absurd goes.1 (Nat.not_lt_of_le bottom)
      · exact goes.2 found

/-- The last name is taken off the draft. -/
theorem popName_closed {lead : Bool} {name : List UInt8} {names : List (List UInt8)} (noSlash : slash ∉ name)
    (led : abs ≠ 0 → lead = true) (one : abs ≤ 1) (here : s.At orig size (Draft.closed lead (name :: names)) rest) :
    popName abs s.path (s.dst - 1) = (Draft.closed lead names).length ∧ abs < s.dst := by
  have size : s.dst = (Draft.closed lead names).length + name.length + 1 := by
    rw [here.dst, Draft.closed, List.length_append, List.length_append, List.length_singleton, Nat.add_assoc]
  have above : abs ≤ (Draft.closed lead names).length := by
    by_cases relative : abs = 0
    · rw [relative]
      exact Nat.zero_le _
    · refine Nat.le_trans one (List.length_pos_iff.mpr fun empty => ?_)
      have bare := (Draft.closed_eq_nil.mp empty).1
      rw [led relative] at bare
      exact Bool.noConfusion bare
  have inName : ∀ i < name.length, s.path ((Draft.closed lead names).length + i) ≠ slash := by
    intro i below same
    have cell := here.written ((Draft.closed lead names).length + i) (by rw [← here.dst, size]; omega)
    rw [Draft.closed, List.getElem?_append_right (Nat.le_add_right _ _), Nat.add_sub_cancel_left,
      List.getElem?_append_left below, same] at cell
    exact noSlash (List.mem_of_getElem? cell)
  refine ⟨?_, by omega⟩
  rw [size, Nat.add_sub_cancel, popName_name above inName]
  refine popName_stop ?_
  rcases Draft.closed_ends lead names with bottom | last
  · rw [bottom]
    exact Or.inl (Nat.zero_le _)
  · right
    have nonempty : 0 < (Draft.closed lead names).length :=
      List.length_pos_iff.mpr fun empty => by rw [empty] at last; cases last
    have cell := here.written ((Draft.closed lead names).length - 1) (by rw [← here.dst, size]; omega)
    rw [Draft.closed, List.getElem?_append_left (Nat.sub_one_lt_of_lt nonempty), ← List.getLast?_eq_getElem?,
      last] at cell
    exact (Option.some.inj cell).symm

theorem closed_begins (lead : Bool) (name : List UInt8) (names : List (List UInt8)) :
    Draft.closed lead names <+: Draft.closed lead (name :: names) := List.prefix_append _ _

/-- Where `dst` is after `..`. -/
theorem dst_up (good : d.Good abs) (one : abs ≤ 1) (here : s.At orig size d.text rest) :
    popName abs s.path (if abs < s.dst then s.dst - 1 else s.dst) = (d.enter abs [dot, dot]).text.length ∧
      (d.enter abs [dot, dot]).text <+: d.text := by
  obtain ⟨lead, names⟩ := d
  rw [Draft.enter_up]
  cases names with
  | cons name names =>
      have noSlash := (good.names name List.mem_cons_self).2
      obtain ⟨goesBack, above⟩ := popName_closed noSlash good.led one here
      rw [if_pos above]
      exact ⟨goesBack, closed_begins lead name names⟩
  | nil =>
      have position := here.dst
      by_cases relative : abs = 0
      · subst relative
        have bottom : (if 0 < s.dst then s.dst - 1 else s.dst) = 0 := by
          rw [position]
          cases lead <;> rfl
        have dropped : Draft.text ⟨lead && decide (0 ≠ 0), []⟩ = [] := by cases lead <;> rfl
        dsimp only
        rw [bottom, dropped]
        exact ⟨rfl, List.nil_prefix⟩
      · have one' : abs = 1 := Nat.le_antisymm one (Nat.pos_of_ne_zero relative)
        have led : lead = true := good.led relative
        subst one' led
        have top : s.dst = 1 := position
        rw [top, if_neg (Nat.lt_irrefl 1)]
        exact ⟨popName_stop (Or.inl (Nat.le_refl 1)), List.prefix_refl _⟩

/-- `..` -/
theorem normalizeLoop_up (fuel : Nat) (good : d.Good abs) (one : abs ≤ 1)
    (here : s.At orig size d.text (dot :: dot :: tail)) (stops : Stops tail) :
    ∃ s', normalizeLoop abs (fuel + 1) s = normalizeLoop abs fuel s' ∧
      s'.At orig size (d.enter abs [dot, dot]).text tail.tail := by
  have ends : s.path (s.src + 2) = slash ∨ s.path (s.src + 2) = 0 := by
    rw [here.third]
    exact stops.headD
  have second : s.path (s.src + 1) = dot := here.second
  obtain ⟨goesBack, part⟩ := dst_up good one here
  have solid : ¬(abs ≠ 0 ∧ (d.enter abs [dot, dot]).text.length = 0) := by
    rintro ⟨absolute, empty⟩
    have led := (good.enter (c := [dot, dot]) (by decide)).led absolute
    have bare := (Draft.closed_eq_nil.mp (List.eq_nil_of_length_eq_zero empty)).1
    rw [led] at bare
    exact Bool.noConfusion bare
  have there := (skip_stop here.skip.skip stops).cut part
  refine ⟨_, ?_, there⟩
  rw [normalizeLoop]
  dsimp only
  rw [here.head, if_neg (by decide), if_neg (by decide), if_neg (by rw [second]; decide),
    if_pos ⟨rfl, second, ends⟩, goesBack, if_neg solid]
  show normalizeLoop abs fuel _ = _
  congr 2
  split <;> rfl

theorem copyName_spec (here : s.At orig size out (c ++ tail)) (noSlash : slash ∉ c) (stops : Stops tail)
    (enough : c.length < fuel) : ∃ s', copyName fuel s = some s' ∧ s'.At orig size (out ++ c) tail := by
  induction c generalizing s out fuel with
  | nil =>
      obtain ⟨fuel, rfl⟩ := Nat.exists_eq_add_one_of_ne_zero (Nat.ne_of_gt enough)
      have ends : ¬(s.path s.src ≠ 0 ∧ s.path s.src ≠ slash) := by
        rw [here.kept _ (Nat.le_refl _)]
        rintro ⟨some, other⟩
        cases tail with
        | nil => exact some here.ahead
        | cons x tail =>
            rcases stops.headD with found | found
            · exact other (here.ahead.1.trans found)
            · exact here.head_ne found
      refine ⟨s, if_neg ends, ?_⟩
      rw [List.append_nil]
      exact here
  | cons x c ih =>
      obtain ⟨fuel, rfl⟩ := Nat.exists_eq_add_one_of_ne_zero (Nat.ne_of_gt (Nat.lt_of_le_of_lt (Nat.zero_le _) enough))
      rw [List.mem_cons, not_or] at noSlash
      have goes : s.path s.src ≠ 0 ∧ s.path s.src ≠ slash := by
        rw [PathCursor.At.head here]
        exact ⟨here.head_ne, Ne.symm noSlash.1⟩
      obtain ⟨s', put, there⟩ := PathCursor.At.put_skip here here.head_ne
      obtain ⟨s'', copied, done⟩ := ih there noSlash.2 (Nat.lt_of_succ_lt_succ enough)
      refine ⟨s'', ?_, ?_⟩
      · rw [copyName, if_pos goes, PathCursor.At.head here, put]
        exact copied
      · rwa [List.append_assoc] at done

/-- A name. -/
theorem normalizeLoop_name (abs fuel : Nat) (isName : IsName dot c) (noSlash : slash ∉ c)
    (here : s.At orig size out (c ++ tail)) (stops : Stops tail) (enough : c.length ≤ fuel) :
    ∃ s', normalizeLoop abs (fuel + 1) s = normalizeLoop abs fuel s' ∧ s'.At orig size (out ++ c) tail := by
  obtain ⟨s', copied, there⟩ := copyName_spec here noSlash stops (Nat.lt_succ_of_le enough)
  refine ⟨s', ?_, there⟩
  obtain ⟨nonempty, noDot, noUp⟩ := isName
  have real := here.ahead.nonzero
  cases c with
  | nil => exact absurd rfl nonempty
  | cons x more =>
      have first := PathCursor.At.head here
      have second := PathCursor.At.second here
      rw [List.mem_cons, not_or] at noSlash
      rw [List.cons_append, List.mem_cons, not_or] at real
      have stays : ¬(x = dot ∧ (s.path (s.src + 1) = slash ∨ s.path (s.src + 1) = 0)) := by
        rw [second]
        rintro ⟨rfl, ends⟩
        cases more with
        | nil => exact noDot rfl
        | cons y more =>
            rcases ends with found | found
            · exact noSlash.2 (found ▸ List.mem_cons_self)
            · exact real.2 (found ▸ List.mem_cons_self)
      have goesUp : ¬(x = dot ∧ s.path (s.src + 1) = dot ∧
          (s.path (s.src + 2) = slash ∨ s.path (s.src + 2) = 0)) := by
        rw [second]
        rintro ⟨rfl, two, ends⟩
        match more with
        | [] =>
            have closes := stops.headD
            change tail.headD 0 = dot at two
            rw [two] at closes
            revert closes
            decide
        | [y] =>
            cases two
            exact noUp rfl
        | y :: z :: more =>
            have third : s.path (s.src + 2) = z := PathCursor.At.third here
            rw [third] at ends
            rcases ends with found | found
            · exact noSlash.2 (found ▸ List.mem_cons_of_mem y List.mem_cons_self)
            · exact real.2 (found ▸ List.mem_cons_of_mem y List.mem_cons_self)
      rw [normalizeLoop]
      dsimp only
      rw [first, if_neg here.head_ne, if_neg (Ne.symm noSlash.1), if_neg stays, if_neg goesUp, copied]
      rfl

/-! ## One component after the other -/

theorem getLast?_append_name (text : List UInt8) (nonempty : c ≠ []) (noSlash : slash ∉ c) :
    (text ++ c).getLast? ≠ some slash := by
  intro found
  rw [List.getLast?_append_of_ne_nil _ nonempty] at found
  exact noSlash (List.mem_of_getLast? found)

/-- A slash is written where none stands. -/
theorem text_enter_nil (d : Draft) : (d.enter abs []).text =
    if d.text = [] ∨ d.text.getLast? ≠ some slash then d.text ++ [slash] else d.text := by
  obtain ⟨lead, names⟩ := d
  have enters : Draft.enter abs ⟨lead, names⟩ [] = ⟨lead || names.isEmpty, names⟩ := if_pos rfl
  rw [enters]
  cases names with
  | nil => cases lead <;> rfl
  | cons name names =>
      have closed : (Draft.text ⟨lead, name :: names⟩).getLast? = some slash := by
        rcases Draft.closed_ends lead (name :: names) with none | last
        · exact absurd (Draft.closed_eq_nil.mp none).2 (List.cons_ne_nil _ _)
        · exact last
      have some : Draft.text ⟨lead, name :: names⟩ ≠ [] := by
        intro none
        rw [none] at closed
        cases closed
      rw [if_neg (not_or.mpr ⟨some, not_not.mpr closed⟩)]
      cases lead <;> rfl

/-- A component and the slash behind it. -/
theorem normalizeLoop_enter (good : d.Good abs) (one : abs ≤ 1) (noSlash : slash ∉ c)
    (here : s.At orig size d.text (c ++ slash :: rest)) (enough : (c ++ slash :: rest).length < fuel) :
    ∃ s' fuel', normalizeLoop abs fuel s = normalizeLoop abs fuel' s' ∧ rest.length < fuel' ∧
      s'.At orig size (d.enter abs c).text rest := by
  obtain ⟨fuel, rfl⟩ := Nat.exists_eq_add_one_of_ne_zero (Nat.ne_of_gt (Nat.lt_of_le_of_lt (Nat.zero_le _) enough))
  rw [List.length_append, List.length_cons] at enough
  have stops : Stops (slash :: rest) := Or.inr rfl
  by_cases empty : c = []
  · subst empty
    obtain ⟨s', goes, there⟩ := normalizeLoop_slash abs fuel here
    refine ⟨s', fuel, goes, by omega, ?_⟩
    rwa [text_enter_nil]
  by_cases isDot : c = [dot]
  · subst isDot
    obtain ⟨s', goes, there⟩ := normalizeLoop_dot abs fuel here stops
    exact ⟨s', fuel, goes, by omega, there⟩
  by_cases isUp : c = [dot, dot]
  · subst isUp
    obtain ⟨s', goes, there⟩ := normalizeLoop_up fuel good one here stops
    exact ⟨s', fuel, goes, by omega, there⟩
  · have isName : IsName dot c := ⟨empty, isDot, isUp⟩
    obtain ⟨s', goes, there⟩ := normalizeLoop_name abs fuel isName noSlash here stops (by omega)
    have some := List.length_pos_iff.mpr empty
    obtain ⟨fuel, rfl⟩ := Nat.exists_eq_add_one_of_ne_zero (show fuel ≠ 0 by omega)
    obtain ⟨s'', goes', there'⟩ := normalizeLoop_slash abs fuel there
    refine ⟨s'', fuel, goes.trans goes', by omega, ?_⟩
    rw [if_pos (Or.inr (getLast?_append_name d.text empty noSlash)), List.append_assoc] at there'
    rw [Draft.enter_name isName]
    exact there'

/-- The loop writes the draft, or the draft without its last slash. -/
def Draft.Written (d : Draft) (out : List UInt8) : Prop :=
  out = d.text ∨ ∃ name names, d.names = name :: names ∧ out = closed d.lead names ++ name

/-- The last component. -/
theorem normalizeLoop_finish (good : d.Good abs) (one : abs ≤ 1) (noSlash : slash ∉ c)
    (here : s.At orig size d.text c) (enough : c.length < fuel) :
    ∃ s' out, normalizeLoop abs fuel s = some s' ∧ s'.At orig size out [] ∧ (d.finish abs c).Written out := by
  obtain ⟨fuel, rfl⟩ := Nat.exists_eq_add_one_of_ne_zero (Nat.ne_of_gt (Nat.lt_of_le_of_lt (Nat.zero_le _) enough))
  have stops : Stops [] := Or.inl rfl
  by_cases empty : c = []
  · subst empty
    exact ⟨s, d.text, normalizeLoop_end here, here, Or.inl rfl⟩
  obtain ⟨fuel, rfl⟩ := Nat.exists_eq_add_one_of_ne_zero
    (Nat.ne_of_gt (Nat.lt_of_lt_of_le (List.length_pos_iff.mpr empty) (Nat.le_of_lt_succ enough)))
  rw [Draft.finish, if_neg empty]
  by_cases isDot : c = [dot]
  · subst isDot
    obtain ⟨s', goes, there⟩ := normalizeLoop_dot abs (fuel + 1) here stops
    exact ⟨s', d.text, goes.trans (normalizeLoop_end there), there, Or.inl rfl⟩
  by_cases isUp : c = [dot, dot]
  · subst isUp
    obtain ⟨s', goes, there⟩ := normalizeLoop_up (fuel + 1) good one here stops
    exact ⟨s', _, goes.trans (normalizeLoop_end there), there, Or.inl rfl⟩
  · have isName : IsName dot c := ⟨empty, isDot, isUp⟩
    rw [← List.append_nil c] at here
    obtain ⟨s', goes, there⟩ := normalizeLoop_name abs (fuel + 1) isName noSlash here stops (Nat.le_of_lt_succ enough)
    refine ⟨s', _, goes.trans (normalizeLoop_end there), there, Or.inr ⟨c, d.names, ?_, ?_⟩⟩
    · rw [Draft.enter_name isName]
    · rw [Draft.enter_name isName]
      rfl

/-- The whole loop. -/
theorem normalizeLoop_run (good : d.Good abs) (one : abs ≤ 1) {cs : List (List UInt8)}
    (noSlash : ∀ name ∈ cs ++ [c], slash ∉ name)
    (here : s.At orig size d.text (cs.flatMap (fun c => c ++ [slash]) ++ c))
    (enough : (cs.flatMap (fun c => c ++ [slash]) ++ c).length < fuel) :
    ∃ s' out, normalizeLoop abs fuel s = some s' ∧ s'.At orig size out [] ∧
      ((cs.foldl (Draft.enter abs) d).finish abs c).Written out := by
  induction cs generalizing s d fuel with
  | nil => exact normalizeLoop_finish good one (noSlash c (List.mem_singleton_self c)) here enough
  | cons first cs ih =>
      rw [List.flatMap_cons, List.append_assoc, List.append_assoc] at here enough
      have free := noSlash first List.mem_cons_self
      obtain ⟨s', fuel', goes, enough', there⟩ := normalizeLoop_enter good one free here enough
      rw [goes]
      exact ih (good.enter free) (fun name member => noSlash name (List.mem_cons_of_mem first member)) there enough'

theorem Draft.Good.run {cs : List (List UInt8)} (good : d.Good abs) (noSlash : ∀ name ∈ cs, slash ∉ name) :
    (cs.foldl (Draft.enter abs) d).Good abs := by
  induction cs generalizing d with
  | nil => exact good
  | cons first cs ih =>
      exact ih (good.enter (noSlash first List.mem_cons_self))
        fun name member => noSlash name (List.mem_cons_of_mem first member)

/-- The last slash goes, unless it is the root's. -/
theorem strip_slash (good : d.Good abs) (one : abs ≤ 1) (written : d.Written out) (here : s.At orig size out []) :
    ∃ out', out' <+: out ∧
      (if abs < s.dst ∧ s.path (s.dst - 1) = slash then s.dst - 1 else s.dst) = out'.length ∧
      d.result abs = (if out' = [] then [dot] else out') := by
  obtain ⟨lead, names⟩ := d
  rcases written with rfl | ⟨name, names, rfl, rfl⟩
  · cases names with
    | cons name names =>
        have isName := good.names name List.mem_cons_self
        have above := (popName_closed isName.2 good.led one here).2
        have ends : (Draft.text ⟨lead, name :: names⟩).getLast? = some slash := by
          rw [Draft.text, Draft.closed, ← List.append_assoc]
          exact List.getLast?_concat
        have last : s.path (s.dst - 1) = slash := by
          have found := here.last fun empty => by rw [empty] at ends; cases ends
          rw [ends] at found
          exact (Option.some.inj found).symm
        refine ⟨Draft.closed lead names ++ name, ?_, ?_, ?_⟩
        · rw [Draft.text, Draft.closed, ← List.append_assoc]
          exact List.prefix_append _ _
        · rw [if_pos ⟨above, last⟩, here.dst, Draft.text, Draft.closed, ← List.append_assoc, List.length_append,
            List.length_singleton, Nat.add_sub_cancel]
        · rw [if_neg (List.append_ne_nil_of_right_ne_nil _ isName.1.1)]
          rfl
    | nil =>
        have position := here.dst
        by_cases relative : abs = 0
        · subst relative
          refine ⟨[], List.nil_prefix, ?_, rfl⟩
          cases lead with
          | false =>
              have bottom : s.dst = 0 := position
              rw [bottom]
              rfl
          | true =>
              have top : s.dst = 1 := position
              have last := here.last (List.cons_ne_nil slash [])
              rw [top] at last
              rw [top, if_pos ⟨Nat.one_pos, (Option.some.inj last).symm⟩]
              rfl
        · have led : lead = true := good.led relative
          have one' : abs = 1 := Nat.le_antisymm one (Nat.pos_of_ne_zero relative)
          subst led one'
          have top : s.dst = 1 := position
          refine ⟨[slash], List.prefix_refl _, ?_, rfl⟩
          rw [top, if_neg fun both => Nat.lt_irrefl 1 both.1]
          rfl
  · have isName := good.names name List.mem_cons_self
    have some : Draft.closed lead names ++ name ≠ [] := List.append_ne_nil_of_right_ne_nil _ isName.1.1
    refine ⟨Draft.closed lead names ++ name, List.prefix_refl _, ?_, ?_⟩
    · have last := here.last some
      have unclosed := getLast?_append_name (Draft.closed lead names) isName.1.1 isName.2
      rw [last] at unclosed
      rw [if_neg fun both => unclosed (congrArg _ both.2), here.dst]
    · rw [if_neg some]
      rfl

end rounds

/-! ## The whole function -/

/-- Only the leading slash makes a result absolute. -/
theorem Draft.head_closed {lead : Bool} {name : List UInt8} {names : List (List UInt8)}
    (isNames : ∀ n ∈ name :: names, IsName dot n ∧ slash ∉ n) :
    (closed lead names ++ name).head? = some slash ↔ lead = true := by
  induction names generalizing name with
  | nil =>
      have noSlash := (isNames name List.mem_cons_self).2
      cases lead with
      | true => exact iff_of_true rfl rfl
      | false =>
          refine iff_of_false (fun found => noSlash (List.mem_of_head? ?_)) Bool.false_ne_true
          exact found
  | cons other names ih =>
      have some := (isNames other (List.mem_cons_of_mem name List.mem_cons_self)).1.1
      have whole : closed lead (other :: names) ++ name = (closed lead names ++ other) ++ (slash :: name) := by
        rw [closed, List.append_assoc, List.append_assoc, List.append_assoc]
        rfl
      rw [whole, List.head?_append_of_ne_nil _ (List.append_ne_nil_of_right_ne_nil _ some)]
      exact ih fun n member => isNames n (List.mem_cons_of_mem name member)

theorem Draft.Good.absolute_iff {d : Draft} {abs : Nat} (good : d.Good abs) :
    IsAbsolute slash (d.result abs) ↔ abs ≠ 0 ∨ (d.lead = true ∧ d.names ≠ []) := by
  obtain ⟨lead, names⟩ := d
  unfold IsAbsolute
  cases names with
  | nil =>
      rw [or_iff_left fun both => both.2 rfl]
      by_cases absolute : abs ≠ 0
      · rw [Draft.result, if_pos absolute]
        exact iff_of_true rfl absolute
      · rw [Draft.result, if_neg absolute]
        refine iff_of_false (fun found => ?_) absolute
        cases found
  | cons name names =>
      refine (Draft.head_closed good.names).trans ⟨fun led => Or.inr ⟨led, List.cons_ne_nil _ _⟩, fun either => ?_⟩
      rcases either with absolute | led
      · exact good.led absolute
      · exact led.1

/-- `abs` of a path. -/
def absOf (p : List UInt8) : Nat := if p.head? = some slash then 1 else 0

/-- The draft of a path. -/
def draftOf (p : List UInt8) : Draft :=
  ((p.splitOn slash).dropLast.foldl (Draft.enter (absOf p)) ⟨false, []⟩).finish (absOf p)
    ((p.splitOn slash).getLast?.getD [])

/-- What a path becomes. -/
def normalText (p : List UInt8) : List UInt8 := if p = [] then [] else (draftOf p).result (absOf p)

variable {path : Nat → UInt8} {p : List UInt8} {fuel : Nat}

theorem absOf_le (p : List UInt8) : absOf p ≤ 1 := by
  unfold absOf
  split <;> decide

theorem absOf_ne_zero : absOf p ≠ 0 ↔ IsAbsolute slash p := by
  unfold absOf IsAbsolute
  split
  next absolute => exact iff_of_true Nat.one_ne_zero absolute
  next relative => exact iff_of_false (not_not.mpr rfl) relative

theorem draftOf_eq {cs : List (List UInt8)} {c : List UInt8} (split : p.splitOn slash = cs ++ [c]) :
    draftOf p = (cs.foldl (Draft.enter (absOf p)) ⟨false, []⟩).finish (absOf p) c := by
  rw [draftOf, split, List.dropLast_concat, List.getLast?_concat]
  rfl

theorem draftOf_loop (string : StringAt path 0 p) (enough : p.length < fuel) :
    (p ≠ [] → (draftOf p).Good (absOf p)) ∧ ∃ s out, normalizeLoop (absOf p) fuel ⟨path, 0, 0⟩ = some s ∧
      s.At path p.length out [] ∧ (draftOf p).Written out := by
  have starts : PathCursor.At ⟨path, 0, 0⟩ path p.length [] p :=
    ⟨rfl, Nat.le_refl _, fun i below => absurd below (Nat.not_lt_zero i), fun _ _ => rfl, string, Nat.zero_add _,
      List.not_mem_nil⟩
  by_cases absolute : p.head? = some slash
  · obtain ⟨p', rfl⟩ : ∃ p', p = slash :: p' := by
      cases p with
      | nil => cases absolute
      | cons c p' => exact ⟨p', by rw [Option.some.inj absolute]⟩
    have isAbs : absOf (slash :: p') = 1 := if_pos absolute
    obtain ⟨cs, c, split, eq⟩ := exists_splitOn slash p'
    have noSlash : ∀ name ∈ cs ++ [c], slash ∉ name := fun name member => not_mem_splitOn (split ▸ member)
    have split' : (slash :: p').splitOn slash = ([] :: cs) ++ [c] := by
      rw [List.splitOn_cons_eq_if_modifyHead, if_pos (beq_self_eq_true slash), split]
      rfl
    have good : Draft.Good 1 ⟨true, []⟩ := ⟨fun _ => rfl, fun name member => absurd member List.not_mem_nil⟩
    obtain ⟨fuel, rfl⟩ := Nat.exists_eq_add_one_of_ne_zero (Nat.ne_of_gt (Nat.lt_of_le_of_lt (Nat.zero_le _) enough))
    obtain ⟨s', goes, there⟩ := normalizeLoop_slash 1 fuel starts
    have rest : PathCursor.At s' path (slash :: p').length (Draft.text ⟨true, []⟩)
        (cs.flatMap (fun c => c ++ [slash]) ++ c) := eq ▸ there
    have enough' : (cs.flatMap (fun c => c ++ [slash]) ++ c).length < fuel := eq ▸ Nat.lt_of_succ_lt_succ enough
    rw [draftOf_eq split', isAbs, goes]
    have run := good.run fun name member => noSlash name (List.mem_append_left [c] member)
    exact ⟨fun _ => run.finish (noSlash c List.mem_concat_self),
      normalizeLoop_run good (Nat.le_refl 1) noSlash rest enough'⟩
  · have isRel : absOf p = 0 := if_neg absolute
    obtain ⟨cs, c, split, eq⟩ := exists_splitOn slash p
    have noSlash : ∀ name ∈ cs ++ [c], slash ∉ name := fun name member => not_mem_splitOn (split ▸ member)
    have good : Draft.Good 0 ⟨false, []⟩ :=
      ⟨fun some => absurd rfl some, fun name member => absurd member List.not_mem_nil⟩
    rw [draftOf_eq split, isRel]
    have run := good.run fun name member => noSlash name (List.mem_append_left [c] member)
    exact ⟨fun _ => run.finish (noSlash c List.mem_concat_self),
      normalizeLoop_run good (Nat.zero_le 1) noSlash (eq ▸ starts) (eq ▸ enough)⟩

/-- Nothing is written ahead of what is read, and the result is never longer than the path, or one character. -/
theorem slibcPathNormalize_text (string : StringAt path 0 p) (enough : p.length < fuel) :
    ∃ path', slibcPathNormalize fuel path = some path' ∧ StringAt path' 0 (normalText p) ∧
      (normalText p).length ≤ max p.length 1 ∧ ∀ i, p.length < i → path' i = path i := by
  by_cases empty : p = []
  · subst empty
    exact ⟨path, if_pos string, string, Nat.zero_le _, fun i _ => rfl⟩
  obtain ⟨goods, s, out, loop, there, written⟩ := draftOf_loop string enough
  have good := goods empty
  obtain ⟨out', part, length, result⟩ := strip_slash good (absOf_le p) written there
  have start : path 0 ≠ 0 ∧ absOf p = if path 0 = slash then 1 else 0 := by
    cases p with
    | nil => exact absurd rfl empty
    | cons c p =>
        obtain ⟨first, real, -⟩ := string
        rw [first, absOf, List.head?_cons]
        exact ⟨real, if_congr Option.some_inj rfl rfl⟩
  have src : s.src = p.length := there.position
  have behind : out'.length ≤ s.src :=
    Nat.le_trans part.length_le (Nat.le_trans (Nat.le_of_eq there.dst.symm) there.behind)
  have some : 1 ≤ s.src := by
    rw [src]
    exact List.length_pos_iff.mpr empty
  rw [slibcPathNormalize, if_neg start.1, ← start.2]
  dsimp only
  rw [loop]
  simp only [Option.bind_eq_bind, Option.bind_some, length, PathCursor.store, if_pos behind]
  rw [normalText, if_neg empty, result]
  by_cases bare : out' = []
  · rw [if_pos bare, bare, List.length_nil, if_pos rfl]
    have relative : absOf p = 0 := by
      by_contra absolute
      have leads := good.absolute_iff.mpr (Or.inl absolute)
      rw [result, if_pos bare] at leads
      revert leads
      decide
    have nonempty : 1 ≤ p.length := src ▸ some
    rw [if_pos (Nat.zero_le _), if_neg (not_not.mpr relative), Option.bind_some, if_pos some]
    refine ⟨_, rfl, ⟨?_, by decide, ?_⟩, Nat.le_max_right _ _, fun i beyond => ?_⟩
    · rfl
    · rfl
    · show Function.update (Function.update (Function.update s.path 0 0) 0 dot) 1 0 i = path i
      rw [Function.update_of_ne (by omega), Function.update_of_ne (by omega), Function.update_of_ne (by omega)]
      exact there.kept i (by omega)
  · have long : out'.length ≠ 0 := mt List.eq_nil_of_length_eq_zero bare
    rw [if_neg bare, if_neg long]
    refine ⟨_, rfl, ?_, ?_, fun i beyond => ?_⟩
    · refine StringAt.of_cells (fun j below => ?_) ?_ fun member => there.nonzero (part.subset member)
      · rw [Nat.zero_add, Function.update_of_ne (Nat.ne_of_lt below),
          ← there.written j (Nat.lt_of_lt_of_le below part.length_le)]
        exact (List.prefix_iff_getElem?.mp part j below).symm ▸ List.getElem?_eq_getElem below
      · rw [Nat.zero_add]
        exact Function.update_self _ _ _
    · exact Nat.le_trans (src ▸ behind) (Nat.le_max_left _ _)
    · rw [Function.update_of_ne (by omega)]
      exact there.kept i (by omega)

end Systrix.Libc
