import Systrix.Libc.Path
import Mathlib.Data.List.DropRight

/-!
# The parts of a path

`slibc_path_dirname` against the directory part of a path, and joining it again with the result of
`slibc_path_basename`.
-/

namespace Systrix.Libc

open LexicalPath

variable {p : List UInt8}

/-! ## The backward loops -/

/-- A path without the slashes at its end. -/
def trimmed (p : List UInt8) : List UInt8 := p.rdropWhile fun c => c == slash

/-- A path up to the name of its last component. -/
def upToName (p : List UInt8) : List UInt8 := p.rdropWhile fun c => c != slash

theorem trimmed_slash (p : List UInt8) : trimmed (p ++ [slash]) = trimmed p :=
  List.rdropWhile_concat_pos _ p _ (beq_self_eq_true slash)

theorem trimmed_concat {c : UInt8} (other : c ≠ slash) : trimmed (p ++ [c]) = p ++ [c] :=
  List.rdropWhile_concat_neg _ p _ fun same => other (beq_iff_eq.mp same)

theorem upToName_slash (p : List UInt8) : upToName (p ++ [slash]) = p ++ [slash] :=
  List.rdropWhile_concat_neg _ p _ fun other => bne_iff_ne.mp other rfl

theorem upToName_concat {c : UInt8} (other : c ≠ slash) : upToName (p ++ [c]) = upToName p :=
  List.rdropWhile_concat_pos _ p _ (bne_iff_ne.mpr other)

theorem take_succ_concat {len : Nat} (inside : len < p.length) : p.take (len + 1) = p.take len ++ [p[len]] := by
  rw [List.take_add_one, List.getElem?_eq_getElem inside]
  rfl

theorem trimSlashes_eq {len : Nat} (inside : len ≤ p.length) :
    trimSlashes p len = max (min 1 len) (trimmed (p.take len)).length := by
  induction len with
  | zero => rfl
  | succ len ih =>
      have here : p[len]? = some slash ↔ p[len] = slash := by
        rw [List.getElem?_eq_getElem inside, Option.some_inj]
      rw [trimSlashes, take_succ_concat inside]
      by_cases isSlash : p[len] = slash
      · have skips : trimmed (p.take len ++ [p[len]]) = trimmed (p.take len) := isSlash ▸ trimmed_slash _
        rw [skips]
        by_cases first : len = 0
        · subst first
          rfl
        · rw [if_pos ⟨Nat.pos_of_ne_zero first, here.mpr isSlash⟩, ih (Nat.le_of_lt inside)]
          omega
      · rw [if_neg fun both => isSlash (here.mp both.2), trimmed_concat isSlash, List.length_append,
          List.length_take, List.length_singleton]
        omega

theorem nameStart_eq {k : Nat} (inside : k ≤ p.length) : nameStart p k = (upToName (p.take k)).length := by
  induction k with
  | zero => rfl
  | succ k ih =>
      have here : p[k]? = some slash ↔ p[k] = slash := by
        rw [List.getElem?_eq_getElem inside, Option.some_inj]
      rw [nameStart, take_succ_concat inside]
      by_cases isSlash : p[k] = slash
      · have stays : upToName (p.take k ++ [p[k]]) = p.take k ++ [p[k]] := isSlash ▸ upToName_slash _
        rw [if_neg (not_not.mpr (here.mpr isSlash)), stays, List.length_append, List.length_take, List.length_singleton]
        omega
      · rw [if_pos (mt here.mp isSlash), upToName_concat isSlash]
        exact ih (Nat.le_of_lt inside)

theorem skipSlashesBack_eq (p : List UInt8) (last : Nat) : skipSlashesBack p last + 1 = trimSlashes p (last + 1) := by
  induction last with
  | zero =>
      rw [trimSlashes, if_neg fun both => Nat.lt_irrefl 0 both.1]
      rfl
  | succ last ih =>
      rw [skipSlashesBack, trimSlashes]
      by_cases isSlash : p[last + 1]? = some slash
      · rw [if_pos isSlash, if_pos ⟨Nat.zero_lt_succ last, isSlash⟩]
        exact ih
      · rw [if_neg isSlash, if_neg fun both => isSlash both.2]

/-! ## The directory part -/

/-- The directory part of a path: what stands before the slash of its last component, a dot if there is none, and the
root's slash if nothing stands before it. -/
def directoryPart (p : List UInt8) : List UInt8 :=
  if p = [] then [dot]
  else if trimmed p = [] then [slash]
  else if upToName (trimmed p) = [] then [dot]
  else if upToName (trimmed p) = [slash] then [slash]
  else (upToName (trimmed p)).dropLast

/-- No slash stands before the last component. -/
def NoDirectory (p : List UInt8) : Prop := p = [] ∨ (trimmed p ≠ [] ∧ slash ∉ trimmed p)

instance : Decidable (NoDirectory p) := inferInstanceAs (Decidable (_ ∨ _))

theorem trimmed_begins (p : List UInt8) : trimmed p <+: p := List.rdropWhile_prefix _ p

theorem upToName_eq_nil : upToName p = [] ↔ slash ∉ p := by
  refine List.rdropWhile_eq_nil_iff.trans ⟨fun all member => ?_, fun none c member => ?_⟩
  · exact bne_iff_ne.mp (all slash member) rfl
  · exact bne_iff_ne.mpr fun same => none (same ▸ member)

theorem getLast_trimmed (some : trimmed p ≠ []) : (trimmed p).getLast some ≠ slash :=
  fun same => List.rdropWhile_last_not _ _ some (beq_iff_eq.mpr same)

theorem getLast_upToName (some : upToName p ≠ []) : (upToName p).getLast some = slash := by
  by_contra other
  exact List.rdropWhile_last_not _ _ some (bne_iff_ne.mpr other)

theorem trimSlashes_length (some : p ≠ []) : trimSlashes p p.length = max 1 (trimmed p).length := by
  have positive := List.length_pos_iff.mpr some
  rw [trimSlashes_eq (Nat.le_refl _), List.take_length, Nat.min_eq_left positive]

theorem take_trimmed (p : List UInt8) : p.take (trimmed p).length = trimmed p :=
  (List.prefix_iff_eq_take.mp (trimmed_begins p)).symm

/-- `strlcpy` and the terminator behind the directory part. -/
theorem strlcpy_cut (p : List UInt8) (last dst_sz : Nat) :
    (if last < dst_sz then (strlcpy p (if last + 1 < dst_sz then last + 1 else dst_sz)).1.take last
      else (strlcpy p (if last + 1 < dst_sz then last + 1 else dst_sz)).1) = (p.take last).take (dst_sz - 1) := by
  simp only [strlcpy, List.take_take]
  split
  · congr 1
    split <;> omega
  · congr 1
    split <;> omega

/-- What is written is always the directory part, as far as it fits; but success is reported only where the whole path
is no longer than that part. -/
theorem slibcPathDirname_eq (p : List UInt8) {dst_sz : Nat} (room : dst_sz ≠ 0) :
    slibcPathDirname p dst_sz =
      (if NoDirectory p ∨ p = [slash] then 0 else -1, (directoryPart p).take (dst_sz - 1)) := by
  rw [slibcPathDirname, if_neg room]
  by_cases empty : p = []
  · subst empty
    rfl
  rw [if_neg empty]
  by_cases bare : trimmed p = []
  · have dir : directoryPart p = [slash] := by rw [directoryPart, if_neg empty, if_pos bare]
    have noName : ¬NoDirectory p := not_or.mpr ⟨empty, fun both => both.1 bare⟩
    have one : trimSlashes p p.length = 1 := by
      rw [trimSlashes_length empty, bare]
      rfl
    cases p with
    | nil => exact absurd rfl empty
    | cons c rest =>
        have root : c = slash := beq_iff_eq.mp (List.rdropWhile_eq_nil_iff.mp bare c List.mem_cons_self)
        subst root
        have single : (slash :: rest).length ≤ 1 ↔ NoDirectory (slash :: rest) ∨ slash :: rest = [slash] := by
          rw [or_iff_right noName, List.length_cons, Nat.succ_le_succ_iff, Nat.le_zero, List.length_eq_zero_iff,
            List.cons_inj_right]
        have begins : nameStart (slash :: rest) 1 = 1 := if_neg (not_not.mpr rfl)
        rw [one, begins, if_neg Nat.one_ne_zero, if_neg (Nat.lt_irrefl 1), dir]
        refine Prod.ext (if_congr single rfl rfl) ?_
        exact strlcpy_cut (slash :: rest) 1 dst_sz
  have size : trimSlashes p p.length = (trimmed p).length :=
    (trimSlashes_length empty).trans (Nat.max_eq_right (List.length_pos_iff.mpr bare))
  have start : nameStart p (trimmed p).length = (upToName (trimmed p)).length := by
    rw [nameStart_eq (trimmed_begins p).length_le, take_trimmed]
  by_cases inName : slash ∉ trimmed p
  · have none := upToName_eq_nil.mpr inName
    have dir : directoryPart p = [dot] := by rw [directoryPart, if_neg empty, if_neg bare, if_pos none]
    have simple : NoDirectory p ∨ p = [slash] := Or.inl (Or.inr ⟨bare, inName⟩)
    rw [size, start, none, List.length_nil, if_pos rfl, if_pos simple, dir]
    rfl
  · have some := mt upToName_eq_nil.mp inName
    have positive := List.length_pos_iff.mpr some
    have part : upToName (trimmed p) <+: p := (List.rdropWhile_prefix _ _).trans (trimmed_begins p)
    have shorter : (upToName (trimmed p)).length < (trimmed p).length := by
      refine Nat.lt_of_le_of_ne (List.rdropWhile_prefix _ _).length_le fun same => ?_
      have whole : upToName (trimmed p) = trimmed p := (List.rdropWhile_prefix _ _).eq_of_length same
      exact getLast_trimmed bare (by rw [← getLast_upToName some]; congr 1; exact whole.symm)
    have inside := (trimmed_begins p).length_le
    have noRoot : p ≠ [slash] := by
      rintro rfl
      exact bare rfl
    have named : ¬(NoDirectory p ∨ p = [slash]) :=
      not_or.mpr ⟨not_or.mpr ⟨empty, fun both => inName both.2⟩, noRoot⟩
    have dir : directoryPart p = p.take (if 1 < (upToName (trimmed p)).length then (upToName (trimmed p)).length - 1
        else (upToName (trimmed p)).length) := by
      have whole : p.take (upToName (trimmed p)).length = upToName (trimmed p) :=
        (List.prefix_iff_eq_take.mp part).symm
      rw [directoryPart, if_neg empty, if_neg bare, if_neg some]
      by_cases long : 1 < (upToName (trimmed p)).length
      · have noRoot' : upToName (trimmed p) ≠ [slash] := by
          intro root
          rw [root] at long
          exact Nat.lt_irrefl 1 long
        rw [if_neg noRoot', if_pos long, List.dropLast_eq_take]
        conv_lhs => rw [← whole, List.take_take]
        congr 1
        rw [whole]
        omega
      · have one : (upToName (trimmed p)).length = 1 := by omega
        obtain ⟨c, single⟩ := List.length_eq_one_iff.mp one
        have last := getLast_upToName some
        simp only [single, List.getLast_singleton] at last
        rw [if_neg long, whole, single, last, if_pos rfl]
    rw [size, start, if_neg (Nat.ne_of_gt positive), if_neg named, dir]
    refine Prod.ext (if_neg ?_) (strlcpy_cut p _ dst_sz)
    show ¬p.length ≤ _
    split <;> omega

/-! ## Joining the parts -/

theorem not_head_slash (named : trimmed p ≠ []) (noSlash : slash ∉ trimmed p) : p.head? ≠ some slash := by
  obtain ⟨rest, whole⟩ := trimmed_begins p
  rw [← whole, List.head?_append_of_ne_nil _ named]
  exact fun found => noSlash (List.mem_of_head? found)

theorem slibcPathBasename_eq (named : trimmed p ≠ []) (noSlash : slash ∉ trimmed p) : slibcPathBasename p = p := by
  have nonempty : p ≠ [] := by
    rintro rfl
    exact named rfl
  have positive := List.length_pos_iff.mpr nonempty
  have last := skipSlashesBack_eq p (p.length - 1)
  rw [Nat.sub_add_cancel positive, trimSlashes_length nonempty,
    Nat.max_eq_right (List.length_pos_iff.mpr named)] at last
  have inside : skipSlashesBack p (p.length - 1) ≤ (trimmed p).length := by omega
  have before : slash ∉ p.take (skipSlashesBack p (p.length - 1)) := by
    intro member
    rw [← Nat.min_eq_left inside, ← List.take_take, take_trimmed] at member
    exact noSlash (List.mem_of_mem_take member)
  have start : nameStart p (skipSlashesBack p (p.length - 1)) = 0 := by
    rw [nameStart_eq (Nat.le_trans inside (trimmed_begins p).length_le), upToName_eq_nil.mpr before]
    rfl
  rw [slibcPathBasename, if_neg nonempty]
  dsimp only
  rw [if_neg fun both => not_head_slash named noSlash both.2, start]
  rfl

theorem slibcPathJoin_dot {name : List UInt8} (relative : name.head? ≠ some slash) (nonempty : name ≠ []) {n : Nat}
    (large : name.length + 3 ≤ n) : slibcPathJoin n (some [dot]) (some name) = (0, dot :: slash :: name) := by
  have copied : strlcpy [dot] n = ([dot], 1) := by
    refine Prod.ext (List.take_of_length_le ?_) rfl
    change 1 ≤ n - 1
    omega
  have rest : strlcpy name (n - 2) = (name, name.length) := Prod.ext (List.take_of_length_le (by omega)) rfl
  have apart : 0 < 1 ∧ [dot].getLast? ≠ some slash := ⟨Nat.one_pos, by decide⟩
  rw [slibcPathJoin, if_neg (by omega : n ≠ 0), Option.getD_some, if_neg relative]
  dsimp only
  rw [copied, if_neg (by omega : ¬n ≤ 1), if_neg nonempty, if_neg (fun both => absurd both.2 (by omega)), if_pos apart,
    if_pos apart, rest, if_neg (by omega : ¬n - 2 ≤ name.length)]
  rfl

/-- A dot and a slash in front of a relative path. -/
theorem location_dot_slash (relative : p.head? ≠ some slash) :
    location slash dot (dot :: slash :: p) = location slash dot p := by
  have split : (dot :: slash :: p).splitOn slash = [dot] :: p.splitOn slash :=
    List.splitOn_append_cons_self [dot] p
  have kind : ¬IsAbsolute slash p := relative
  rw [location, split, List.foldl_cons, Location.enter_stay (Or.inr rfl), location, decide_eq_false kind]
  rfl

/-- What is promised of the functions on the parts of a path. -/
def PartsAgree (p : List UInt8) (dst_sz : Nat) : Prop :=
  let ran := slibcPathDirname p dst_sz
  ((ran.1 = 0 ↔ (directoryPart p).length + 1 ≤ dst_sz) ∧ (ran.1 ≠ 0 → ran.1 = -1)) ∧
    (ran.1 = 0 → ran.2 = directoryPart p ∧ ∃ enough, ∀ n, enough ≤ n →
      ∃ r, slibcPathJoin n (some ran.2) (some (slibcPathBasename p)) = (0, r) ∧
        location slash dot r = location slash dot p)

theorem directoryPart_named (named : trimmed p ≠ []) (noSlash : slash ∉ trimmed p) : directoryPart p = [dot] := by
  have nonempty : p ≠ [] := by
    rintro rfl
    exact named rfl
  rw [directoryPart, if_neg nonempty, if_neg named, if_pos (upToName_eq_nil.mpr noSlash)]

theorem directoryPart_simple (simple : NoDirectory p ∨ p = [slash]) : (directoryPart p).length = 1 := by
  rcases simple with (rfl | ⟨named, noSlash⟩) | rfl
  · rfl
  · rw [directoryPart_named named noSlash]
    rfl
  · rfl

/-- The parts of a path without a directory. -/
theorem join_parts (simple : NoDirectory p ∨ p = [slash]) : ∃ enough, ∀ n, enough ≤ n →
    ∃ r, slibcPathJoin n (some (directoryPart p)) (some (slibcPathBasename p)) = (0, r) ∧
      location slash dot r = location slash dot p := by
  rcases simple with (rfl | ⟨named, noSlash⟩) | rfl
  · refine ⟨4, fun n large => ⟨_, slibcPathJoin_dot (by decide) (List.cons_ne_nil dot []) large, rfl⟩⟩
  · have nonempty : p ≠ [] := by
      rintro rfl
      exact named rfl
    have relative := not_head_slash named noSlash
    rw [directoryPart_named named noSlash, slibcPathBasename_eq named noSlash]
    exact ⟨p.length + 3, fun n large =>
      ⟨_, slibcPathJoin_dot relative nonempty large, location_dot_slash relative⟩⟩
  · refine ⟨2, fun n large => ⟨[slash], ?_, rfl⟩⟩
    have copied : strlcpy [slash] n = ([slash], 1) := by
      refine Prod.ext (List.take_of_length_le ?_) rfl
      change 1 ≤ n - 1
      omega
    have base : slibcPathBasename [slash] = [slash] := rfl
    rw [base, slibcPathJoin, if_neg (by omega : n ≠ 0), Option.getD_some, if_pos (by rfl), copied]
    exact Prod.ext (if_pos large) rfl

/-- The parts agree only for paths without a directory and for the root, given room for two characters; for all others
the function fails, which is right only where the directory part does not fit. -/
theorem partsAgree_iff (p : List UInt8) (dst_sz : Nat) : PartsAgree p dst_sz ↔
    dst_sz = 0 ∨ if NoDirectory p ∨ p = [slash] then 2 ≤ dst_sz else dst_sz ≤ (directoryPart p).length := by
  unfold PartsAgree
  dsimp only
  by_cases room : dst_sz = 0
  · have fails : slibcPathDirname p dst_sz = (-1, []) := if_pos room
    rw [fails]
    refine iff_of_true ⟨⟨iff_of_false (by decide) (by omega), fun _ => rfl⟩, fun wins => ?_⟩ (Or.inl room)
    exact absurd wins (by decide)
  rw [slibcPathDirname_eq p room, or_iff_right room]
  dsimp only
  by_cases simple : NoDirectory p ∨ p = [slash]
  · have one := directoryPart_simple simple
    rw [if_pos simple, if_pos simple, one]
    constructor
    · rintro ⟨⟨fits, -⟩, -⟩
      exact fits.mp rfl
    · intro two
      have whole : (directoryPart p).take (dst_sz - 1) = directoryPart p :=
        List.take_of_length_le (by omega)
      rw [whole]
      exact ⟨⟨iff_of_true rfl two, fun fails => absurd rfl fails⟩, fun _ => ⟨rfl, join_parts simple⟩⟩
  · have fails : (-1 : Int) ≠ 0 := by decide
    rw [if_neg simple, if_neg simple]
    constructor
    · rintro ⟨⟨fits, -⟩, -⟩
      exact Nat.le_of_lt_succ (Nat.lt_of_not_le (mt fits.mpr fails))
    · intro short
      exact ⟨⟨iff_of_false fails (by omega), fun _ => rfl⟩, fun wins => absurd wins fails⟩

/-- `"/a/b"` with plenty of room fails, and `"a"` with room for the terminator only succeeds. -/
theorem dirname_fails : ¬PartsAgree [slash, 0x61, slash, 0x62] 64 ∧ ¬PartsAgree [0x61] 1 := by
  constructor
  · rintro ⟨⟨fits, -⟩, -⟩
    revert fits
    decide +kernel
  · rintro ⟨⟨fits, -⟩, -⟩
    revert fits
    decide +kernel

end Systrix.Libc
