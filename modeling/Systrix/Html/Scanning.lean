import Systrix.Html.Parser

/-!
# Scanning

Where the loops over bytes stop, and how much they store.
-/

namespace Systrix.Html

/-! ## Bounds -/

section Bounds

variable {go : UInt8 → Bool} {f : UInt8 → UInt8} {max : Nat}

theorem skipWhile_le (bytes : Bytes) (pos : Nat) :
    pos ≤ skipWhile go bytes pos ∧ skipWhile go bytes pos ≤ pos + bytes.length := by
  induction bytes generalizing pos with
  | nil => exact ⟨Nat.le_refl pos, Nat.le_refl pos⟩
  | cons c rest ih =>
      rw [skipWhile, List.length_cons]
      split
      · have bounds := ih (pos + 1)
        omega
      · omega

theorem push_length {buf : Bytes} (fits : buf.length < max) (c : UInt8) : (push max buf c).length < max := by
  rw [push]
  split
  · rw [List.length_append, List.length_singleton]
    omega
  · exact fits

theorem push_short (max : Nat) (buf : Bytes) (c : UInt8) : (push max buf c).length ≤ buf.length + 1 := by
  rw [push]
  split
  · rw [List.length_append, List.length_singleton]
  · omega

theorem collect_le (bytes : Bytes) (pos : Nat) (buf : Bytes) :
    pos ≤ (collect go f max bytes pos buf).1 ∧ (collect go f max bytes pos buf).1 ≤ pos + bytes.length := by
  induction bytes generalizing pos buf with
  | nil => exact ⟨Nat.le_refl pos, Nat.le_refl pos⟩
  | cons c rest ih =>
      rw [collect, List.length_cons]
      split
      · have bounds := ih (pos + 1) (push max buf (f c))
        omega
      · dsimp only
        omega

theorem collect_length (bytes : Bytes) (pos : Nat) {buf : Bytes} (fits : buf.length < max) :
    (collect go f max bytes pos buf).2.length < max := by
  induction bytes generalizing pos buf with
  | nil => exact fits
  | cons c rest ih =>
      rw [collect]
      split
      · exact ih (pos + 1) (push_length fits (f c))
      · exact fits

/-- A byte that is stored is passed. -/
theorem collect_short (go : UInt8 → Bool) (f : UInt8 → UInt8) (max : Nat) (bytes : Bytes) (pos : Nat) (buf : Bytes) :
    (collect go f max bytes pos buf).2.length + pos ≤ buf.length + (collect go f max bytes pos buf).1 := by
  induction bytes generalizing pos buf with
  | nil => exact Nat.le_refl _
  | cons c rest ih =>
      rw [collect]
      split
      · have stored := push_short max buf (f c)
        have short := ih (pos + 1) (push max buf (f c))
        omega
      · exact Nat.le_refl _

theorem fill_le (bytes : Bytes) (pos : Nat) (buf : Bytes) :
    pos ≤ (fill go max bytes pos buf).1 ∧ (fill go max bytes pos buf).1 ≤ pos + bytes.length := by
  induction bytes generalizing pos buf with
  | nil => exact ⟨Nat.le_refl pos, Nat.le_refl pos⟩
  | cons c rest ih =>
      rw [fill, List.length_cons]
      split
      · have bounds := ih (pos + 1) (buf ++ [c])
        omega
      · dsimp only
        omega

theorem fill_length (bytes : Bytes) (pos : Nat) {buf : Bytes} (fits : buf.length < max) :
    (fill go max bytes pos buf).2.length < max := by
  induction bytes generalizing pos buf with
  | nil => exact fits
  | cons c rest ih =>
      rw [fill]
      split
      · rename_i room
        refine ih (pos + 1) ?_
        have less := of_decide_eq_true (Bool.and_eq_true_iff.mp room).2
        rw [List.length_append, List.length_singleton]
        omega
      · exact fits

/-- The loop passes the first byte when it may. -/
theorem fill_progress {c : UInt8} (bytes : Bytes) (pos : Nat) (first : go c = true) (room : 1 < max) :
    pos < (fill go max (c :: bytes) pos []).1 := by
  have goes : (go c && decide (([] : Bytes).length < max - 1)) = true := by
    rw [first, Bool.true_and, decide_eq_true_iff, List.length_nil]
    omega
  rw [fill, if_pos goes]
  exact (fill_le bytes (pos + 1) _).1

theorem commentLoop_le (bytes : Bytes) (pos : Nat) (buf : Bytes) :
    pos ≤ (commentLoop bytes pos buf).1 ∧ (commentLoop bytes pos buf).1 ≤ pos + bytes.length := by
  induction bytes generalizing pos buf with
  | nil => exact ⟨Nat.le_refl pos, Nat.le_refl pos⟩
  | cons a rest ih =>
      match rest, ih with
      | [], _ => exact ⟨Nat.le_refl pos, Nat.le_add_right pos _⟩
      | [b], _ => exact ⟨Nat.le_refl pos, Nat.le_add_right pos _⟩
      | b :: c :: rest, ih =>
          rw [commentLoop]
          split
          · simp only [List.length_cons]
            omega
          · have bounds := ih (pos + 1) (push domTextMax buf a)
            simp only [List.length_cons] at bounds ⊢
            omega

theorem commentLoop_length (bytes : Bytes) (pos : Nat) {buf : Bytes} (fits : buf.length < domTextMax) :
    (commentLoop bytes pos buf).2.length < domTextMax := by
  induction bytes generalizing pos buf with
  | nil => exact fits
  | cons a rest ih =>
      match rest, ih with
      | [], _ => exact fits
      | [b], _ => exact fits
      | b :: c :: rest, ih =>
          rw [commentLoop]
          split
          · exact fits
          · exact ih (pos + 1) (push_length fits a)

end Bounds

/-! ## What is read -/

/-- A loop does not go on with these bytes. -/
def Stops (go : UInt8 → Bool) (rest : Bytes) : Prop := ∀ c, rest.head? = some c → go c = false

theorem Stops.nil {go : UInt8 → Bool} : Stops go [] := fun _ first => absurd first.symm (Option.some_ne_none _)

theorem Stops.cons {go : UInt8 → Bool} {c : UInt8} (stop : go c = false) (rest : Bytes) : Stops go (c :: rest) := by
  intro d first
  obtain rfl := Option.some.inj first
  exact stop

section Read

variable {go : UInt8 → Bool} {f : UInt8 → UInt8} {max : Nat} {rest : Bytes}

theorem skipWhile_append (bytes : Bytes) (goes : ∀ c ∈ bytes, go c = true) (stops : Stops go rest) (pos : Nat) :
    skipWhile go (bytes ++ rest) pos = pos + bytes.length := by
  induction bytes generalizing pos with
  | nil =>
      cases rest with
      | nil => rfl
      | cons c rest =>
          rw [List.nil_append, skipWhile, stops c rfl]
          rfl
  | cons c bytes ih =>
      rw [List.cons_append, skipWhile, if_pos (goes c List.mem_cons_self),
        ih (fun d member => goes d (List.mem_cons_of_mem c member)), List.length_cons]
      omega

theorem collect_append {bytes : Bytes} (goes : ∀ c ∈ bytes, go c = true) (kept : ∀ c ∈ bytes, f c = c)
    (stops : Stops go rest) (pos : Nat) {buf : Bytes} (room : buf.length + bytes.length < max) :
    collect go f max (bytes ++ rest) pos buf = (pos + bytes.length, buf ++ bytes) := by
  induction bytes generalizing pos buf with
  | nil =>
      rw [List.nil_append, List.append_nil]
      cases rest with
      | nil => rfl
      | cons c rest =>
          rw [collect, stops c rfl]
          rfl
  | cons c bytes ih =>
      rw [List.length_cons] at room ⊢
      have stored : push max buf (f c) = buf ++ [c] := by
        rw [push, if_pos (by omega), kept c List.mem_cons_self]
      rw [List.cons_append, collect, if_pos (goes c List.mem_cons_self), stored,
        ih (fun d member => goes d (List.mem_cons_of_mem c member))
          (fun d member => kept d (List.mem_cons_of_mem c member)) (pos + 1) (by
            rw [List.length_append, List.length_singleton]
            omega), List.append_assoc, List.singleton_append]
      rw [Nat.add_right_comm, Nat.add_assoc]

theorem fill_append {bytes : Bytes} (goes : ∀ c ∈ bytes, go c = true) (stops : Stops go rest) (pos : Nat) {buf : Bytes}
    (room : buf.length + bytes.length < max) :
    fill go max (bytes ++ rest) pos buf = (pos + bytes.length, buf ++ bytes) := by
  induction bytes generalizing pos buf with
  | nil =>
      rw [List.nil_append, List.append_nil]
      cases rest with
      | nil => rfl
      | cons c rest =>
          rw [fill, stops c rfl, Bool.false_and]
          rfl
  | cons c bytes ih =>
      rw [List.length_cons] at room ⊢
      have goesOn : (go c && decide (buf.length < max - 1)) = true := by
        rw [goes c List.mem_cons_self, Bool.true_and, decide_eq_true_iff]
        omega
      rw [List.cons_append, fill, if_pos goesOn,
        ih (fun d member => goes d (List.mem_cons_of_mem c member)) (pos + 1) (by
          rw [List.length_append, List.length_singleton]
          omega), List.append_assoc, List.singleton_append]
      rw [Nat.add_right_comm, Nat.add_assoc]

/-- The end of a comment. -/
def commentEnd : Bytes := str "-->"

/-- A byte of a comment is stored when no end starts with it. -/
theorem commentLoop_step {a b c : UInt8} {more : Bytes} {pos : Nat} {buf : Bytes}
    (notEnd : a ≠ ch '-' ∨ b ≠ ch '-' ∨ c ≠ ch '>') (stored : push domTextMax buf a = buf ++ [a]) :
    commentLoop (a :: b :: c :: more) pos buf = commentLoop (b :: c :: more) (pos + 1) (buf ++ [a]) := by
  have isNot : ¬ (decide (a = ch '-') && decide (b = ch '-') && decide (c = ch '>')) = true := by
    simp only [Bool.and_eq_true, decide_eq_true_iff]
    exact fun isEnd => notEnd.elim (fun no => no isEnd.1.1) fun others =>
      others.elim (fun no => no isEnd.1.2) fun no => no isEnd.2
  rw [commentLoop, if_neg isNot, stored]

/-- A text without an end of a comment is read to the end that follows it. -/
theorem commentLoop_append {text : Bytes} (free : ¬ commentEnd <:+: text) (pos : Nat) {buf : Bytes}
    (room : buf.length + text.length < domTextMax) :
    commentLoop (text ++ (commentEnd ++ rest)) pos buf = (pos + text.length + 3, buf ++ text) := by
  induction text generalizing pos buf with
  | nil =>
      rw [List.append_nil]
      rfl
  | cons a text ih =>
      rw [List.length_cons] at room ⊢
      have free' : ¬ commentEnd <:+: text := fun inside => free (inside.trans (List.suffix_cons a text).isInfix)
      have stored : push domTextMax buf a = buf ++ [a] := by
        rw [push, if_pos (by omega)]
      have onward := @ih free' (pos + 1) (buf ++ [a]) (by
        rw [List.length_append, List.length_singleton]
        omega)
      rw [List.append_assoc, List.singleton_append] at onward
      rw [show pos + (text.length + 1) + 3 = pos + 1 + text.length + 3 by omega, ← onward]
      -- the three bytes from `a` on are not an end: they are in the text, or run into the dashes of the end
      match text with
      | [] => exact commentLoop_step (.inr (.inr (by decide))) stored
      | [b] => exact commentLoop_step (.inr (.inr (by decide))) stored
      | b :: c :: text =>
          refine commentLoop_step ?_ stored
          by_contra isEnd
          simp only [not_or, not_not] at isEnd
          obtain ⟨rfl, rfl, rfl⟩ := isEnd
          exact free (List.prefix_append commentEnd text).isInfix

end Read

/-! ## Positions in the source -/

section Positions

variable {src : Bytes} {pos : Nat}

/-- A position that a loop over the rest of the source reaches. -/
theorem within {reached : Nat} (inside : pos ≤ src.length)
    (bounds : pos ≤ reached ∧ reached ≤ pos + (src.drop pos).length) : pos ≤ reached ∧ reached ≤ src.length := by
  rw [List.length_drop] at bounds
  omega

/-- What `collect` reads from the source. -/
theorem collect_scan (go : UInt8 → Bool) (f : UInt8 → UInt8) {max : Nat} (inside : pos ≤ src.length) (room : 0 < max) :
    ∃ reached buf, collect go f max (src.drop pos) pos [] = (reached, buf) ∧ (pos ≤ reached ∧ reached ≤ src.length) ∧
      buf.length < max ∧ buf.length + pos ≤ reached := by
  have short := collect_short go f max (src.drop pos) pos []
  rw [List.length_nil, Nat.zero_add] at short
  exact ⟨_, _, rfl, within inside (collect_le (src.drop pos) pos []), collect_length (src.drop pos) pos room, short⟩

/-- What `fill` reads from the source. -/
theorem fill_scan (go : UInt8 → Bool) {max : Nat} (inside : pos ≤ src.length) (room : 0 < max) :
    ∃ reached buf, fill go max (src.drop pos) pos [] = (reached, buf) ∧ (pos ≤ reached ∧ reached ≤ src.length) ∧
      buf.length < max :=
  ⟨_, _, rfl, within inside (fill_le (src.drop pos) pos []), fill_length (src.drop pos) pos room⟩

variable (src) in
theorem hpSkipSpaces_le (inside : pos ≤ src.length) :
    pos ≤ hpSkipSpaces src pos ∧ hpSkipSpaces src pos ≤ src.length :=
  within inside (skipWhile_le (src.drop pos) pos)

theorem skipToEnd_le (inside : pos ≤ src.length) : pos ≤ skipToEnd src pos ∧ skipToEnd src pos ≤ src.length :=
  within inside (skipWhile_le (src.drop pos) pos)

variable (src) in
theorem skipPastEnd_le (inside : pos ≤ src.length) : pos ≤ skipPastEnd src pos ∧ skipPastEnd src pos ≤ src.length := by
  have bounds := skipToEnd_le inside
  rw [skipPastEnd]
  split <;> omega

/-- Where something is read, the source goes on. -/
theorem hpPeek_inside (real : hpPeek src pos ≠ 0) : pos < src.length := by
  by_contra outside
  exact real (by rw [hpPeek, if_neg outside])

theorem hpPeek_drop {c : UInt8} {rest : Bytes} (at_ : src.drop pos = c :: rest) :
    hpPeek src pos = c ∧ pos < src.length ∧ src.drop (pos + 1) = rest := by
  have inside : pos < src.length := by
    by_contra outside
    rw [List.drop_eq_nil_of_le (Nat.le_of_not_lt outside)] at at_
    cases at_
  rw [List.drop_eq_getElem_cons inside] at at_
  obtain ⟨first, others⟩ := List.cons.inj at_
  refine ⟨?_, inside, others⟩
  rw [hpPeek, if_pos inside, List.getD_eq_getElem?_getD, List.getElem?_eq_getElem inside, Option.getD_some, first]

theorem getD_drop {c : UInt8} {rest : Bytes} (at_ : src.drop pos = c :: rest) : src.getD pos 0 = c := by
  obtain ⟨read, inside, -⟩ := hpPeek_drop at_
  rw [hpPeek, if_pos inside] at read
  exact read

theorem drop_append {bytes rest : Bytes} (at_ : src.drop pos = bytes ++ rest) :
    src.drop (pos + bytes.length) = rest := by
  rw [← List.drop_drop, at_, List.drop_left]

theorem drop_eq_cons (inside : pos < src.length) : src.drop pos = hpPeek src pos :: src.drop (pos + 1) := by
  rw [hpPeek, if_pos inside, List.drop_eq_getElem_cons inside, List.getD_eq_getElem?_getD,
    List.getElem?_eq_getElem inside, Option.getD_some]

theorem parseValue_le (inside : pos ≤ src.length) :
    pos ≤ (parseValue src pos).1 ∧ (parseValue src pos).1 ≤ src.length := by
  rw [parseValue]
  dsimp only
  split
  · rename_i quoted
    rw [Bool.or_eq_true, decide_eq_true_iff, decide_eq_true_iff] at quoted
    have real : hpPeek src pos ≠ 0 := by
      rcases quoted with isQuote | isQuote <;> rw [isQuote] <;> decide
    have behind := hpPeek_inside real
    obtain ⟨reached, value, scanned, bounds, -⟩ := fill_scan (· ≠ hpPeek src pos) behind (show 0 < domAttrMax by decide)
    rw [scanned]
    dsimp only
    split
    · rename_i closed
      rw [← closed] at real
      have := hpPeek_inside real
      omega
    · omega
  · exact within inside (collect_le (src.drop pos) pos [])

theorem parseValue_length : (parseValue src pos).2.length < domAttrMax := by
  rw [parseValue]
  dsimp only
  split
  · exact fill_length _ _ (by decide)
  · exact collect_length _ _ (by decide)

/-- What `parseValue` reads. -/
theorem parseValue_scan (inside : pos ≤ src.length) :
    ∃ reached value, parseValue src pos = (reached, value) ∧ (pos ≤ reached ∧ reached ≤ src.length) ∧
      value.length < domAttrMax :=
  ⟨_, _, rfl, parseValue_le inside, parseValue_length⟩

theorem rawLoop_le {keep : Bool} {close : Bytes} (bytes : Bytes) (buf : Bytes)
    (all : pos + bytes.length = src.length) :
    pos ≤ (rawLoop src keep close bytes pos buf).1 ∧ (rawLoop src keep close bytes pos buf).1 ≤ src.length := by
  induction bytes generalizing pos buf with
  | nil => exact ⟨Nat.le_refl pos, all.le⟩
  | cons c rest ih =>
      rw [List.length_cons] at all
      rw [rawLoop]
      split
      · split
        · exact skipPastEnd_le src (by omega)
        · have bounds := @ih (pos + 1) (if keep then push domTextMax buf c else buf) (by omega)
          omega
      · exact ⟨Nat.le_refl pos, by dsimp only; omega⟩

theorem rawLoop_length {keep : Bool} {close : Bytes} (bytes : Bytes) {buf : Bytes} (fits : buf.length < domTextMax) :
    (rawLoop src keep close bytes pos buf).2.length < domTextMax := by
  induction bytes generalizing pos buf with
  | nil => exact fits
  | cons c rest ih =>
      rw [rawLoop]
      split
      · split
        · exact fits
        · refine ih ?_
          split
          · exact push_length fits c
          · exact fits
      · exact fits

theorem rawLoop_scan (keep : Bool) (close : Bytes) (inside : pos ≤ src.length) :
    ∃ reached text, rawLoop src keep close (src.drop pos) pos [] = (reached, text) ∧
      (pos ≤ reached ∧ reached ≤ src.length) ∧ text.length < domTextMax := by
  have all : pos + (src.drop pos).length = src.length := by
    rw [List.length_drop]
    omega
  exact ⟨_, _, rfl, rawLoop_le (src.drop pos) [] all, rawLoop_length (src.drop pos) (show 0 < domTextMax by decide)⟩

end Positions

end Systrix.Html
