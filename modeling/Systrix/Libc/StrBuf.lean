import Mathlib.Algebra.GroupWithZero.Nat
import Systrix.Libc.Printf
import Systrix.Lib.Run

/-!
# The string builder

`slibc_sb_*` of `libc/systrix_libc.c`.  Each call comes with what the heap answers to its requests: no memory, or a
block with some contents.  `none` stands for a write outside the block, for a loop without end, and for what the format
leaves undefined.
-/

namespace Systrix.Libc

/-- What `malloc` and `realloc` answer: nothing, or memory with these contents. -/
abbrev HeapAnswer := Option (Nat → UInt8)

/-- `SStrBuf` -/
structure SStrBuf where
  data : Option (Nat → UInt8)
  len : Nat
  cap : Nat

def ssbufInitCap : Nat := 64

namespace SStrBuf

/-- `slibc_sb_init` -/
def init : SStrBuf := ⟨none, 0, 0⟩

/-- `slibc_sb_reset` -/
def reset (sb : SStrBuf) : SStrBuf := { sb with data := sb.data.map fun block => Function.update block 0 0, len := 0 }

/-- `while (ncap < need) ncap *= 2;` -/
def growCap (need : Nat) : (fuel : Nat) → (ncap : Nat) → Option Nat
  | 0, _ => none
  | fuel + 1, ncap => if ncap < need then growCap need fuel (ncap * 2 % 2 ^ 64) else some ncap

/-- `_sb_grow` -/
def grow (answer : HeapAnswer) (sb : SStrBuf) (need : Nat) : Option (Int × SStrBuf) :=
  if need ≤ sb.cap then some (0, sb)
  else do
    let ncap ← growCap need 64 (if sb.cap ≠ 0 then sb.cap else ssbufInitCap)
    match answer with
    | none => return (-1, sb)
    | some fresh =>
        -- `realloc` keeps what was in the block
        let block := fun i => if i < sb.cap then (sb.data.getD fresh) i else fresh i
        return (0, ⟨some block, sb.len, ncap⟩)

/-- `memcpy(sb->data + sb->len, s, n)`, the new length and the terminator. -/
def put (sb : SStrBuf) (s : List UInt8) : Option SStrBuf := do
  let block ← sb.data
  if sb.len + s.length < sb.cap then
    let copied := fun i => if sb.len ≤ i ∧ i < sb.len + s.length then s.getD (i - sb.len) 0 else block i
    return ⟨some (Function.update copied (sb.len + s.length) 0), sb.len + s.length, sb.cap⟩
  else none

/-- `slibc_sb_appendn` -/
def appendn (answer : HeapAnswer) (sb : SStrBuf) (s : List UInt8) : Option (Int × SStrBuf) := do
  let (grown, sb) ← sb.grow answer ((sb.len + s.length + 1) % 2 ^ 64)
  if grown < 0 then return (-1, sb)
  else do
    let sb ← sb.put s
    return (0, sb)

/-- `slibc_sb_append`, with the characters before the terminator of its argument. -/
def append (answer : HeapAnswer) (sb : SStrBuf) (s : List UInt8) : Option (Int × SStrBuf) := sb.appendn answer s

/-- `slibc_sb_appendc` -/
def appendc (answer : HeapAnswer) (sb : SStrBuf) (c : UInt8) : Option (Int × SStrBuf) := sb.appendn answer [c]

/-- `slibc_sb_appendf` -/
def appendf (big answer : HeapAnswer) (sb : SStrBuf) (fmt : List UInt8) (args : List VaArg) :
    Option (Int × SStrBuf) := do
  let (tmp, n) ← vsnprintf 256 fmt args
  if n < 0 then return (-1, sb)
  else if n < 256 then sb.appendn answer (tmp.take n.toNat)
  else
    match big with
    | none => return (-1, sb)
    | some _ => do
        let (big, _) ← vsnprintf (n.toNat + 1) fmt args
        sb.appendn answer (big.take n.toNat)

/-- `slibc_sb_steal`: the block that is given away, and the builder. -/
def steal (answer : HeapAnswer) (sb : SStrBuf) : HeapAnswer × SStrBuf :=
  let p := match sb.data with
    | some block => some block
    | none => answer.map fun fresh => Function.update fresh 0 0
  (p, ⟨none, 0, 0⟩)

end SStrBuf

/-! ## Calls -/

/-- A call, with the answers of the heap. -/
inductive SbCall where
  | append (answer : HeapAnswer) (s : List UInt8)
  | appendn (answer : HeapAnswer) (s : List UInt8)
  | appendc (answer : HeapAnswer) (c : UInt8)
  | appendf (big answer : HeapAnswer) (fmt : List UInt8) (args : List VaArg)
  | reset
  | steal (answer : HeapAnswer)

namespace SbCall

/-- What a call does, with 0 as the result of those that have none. -/
def run (sb : SStrBuf) : SbCall → Option (Int × SStrBuf)
  | append answer s => sb.append answer s
  | appendn answer s => sb.appendn answer s
  | appendc answer c => sb.appendc answer c
  | appendf big answer fmt args => sb.appendf big answer fmt args
  | reset => some (0, sb.reset)
  | steal answer => some (0, (sb.steal answer).2)

/-- The piece that a call appends; none where a format is used against its rules. -/
def piece : SbCall → Option (List UInt8)
  | append _ s => some s
  | appendn _ s => some s
  | appendc _ c => some [c]
  | appendf _ _ fmt args => formatText fmt args
  | reset => some []
  | steal _ => some []

/-- The text after a call that did not fail. -/
def after (text : List UInt8) : SbCall → List UInt8
  | reset => []
  | steal _ => []
  | call => text ++ call.piece.getD []

/-- The length of a formatted piece is an `int`, or becomes negative as one. -/
def Fits : SbCall → Prop
  | appendf _ _ fmt args => ∀ text, formatText fmt args = some text →
      wrapInt text.length = text.length ∨ wrapInt text.length < 0
  | _ => True

end SbCall

/-! ## What the builder holds -/

/-- The builder holds a text: it has no block and the text is empty, or the text and its terminator are in the block. -/
def SStrBuf.Holds (sb : SStrBuf) (text : List UInt8) : Prop :=
  match sb.data with
  | none => sb.len = 0 ∧ sb.cap = 0 ∧ text = []
  | some block => sb.len = text.length ∧ text.length + 1 ≤ sb.cap ∧ (∀ i < text.length, text[i]? = some (block i)) ∧
      block text.length = 0

/-- A run in which every call keeps its promises: it is defined, a call that fails changes nothing, and after every call
the builder holds the pieces that were appended. -/
def Faithful : SStrBuf → List UInt8 → List SbCall → Prop
  | sb, text, [] => sb.Holds text
  | sb, text, call :: calls => sb.Holds text ∧ ∃ ret sb', call.run sb = some (ret, sb') ∧
      ((ret = 0 ∧ Faithful sb' (call.after text) calls) ∨ (ret = -1 ∧ sb' = sb ∧ Faithful sb' text calls))

/-- The length of all pieces together. -/
def totalLength (calls : List SbCall) : Nat := (calls.map fun call => (call.piece.getD []).length).sum

namespace SStrBuf

variable {sb : SStrBuf} {text s : List UInt8} {answer : HeapAnswer}

theorem growCap_spec {need fuel ncap : Nat} (positive : 0 < ncap) (small : need ≤ 2 ^ 63)
    (enough : need ≤ ncap * 2 ^ fuel) : ∃ ncap', growCap need (fuel + 1) ncap = some ncap' ∧ need ≤ ncap' := by
  induction fuel generalizing ncap with
  | zero =>
      rw [Nat.pow_zero, Nat.mul_one] at enough
      exact ⟨ncap, if_neg (Nat.not_lt_of_le enough), enough⟩
  | succ fuel ih =>
      by_cases short : ncap < need
      · have room : ncap * 2 % 2 ^ 64 = ncap * 2 := Nat.mod_eq_of_lt (by omega)
        have enough' : need ≤ ncap * 2 * 2 ^ fuel := by
          rw [Nat.mul_assoc, Nat.mul_comm 2, ← Nat.pow_succ]
          exact enough
        obtain ⟨ncap', grown, fits⟩ := ih (Nat.mul_pos positive Nat.two_pos) enough'
        exact ⟨ncap', (if_pos short).trans (by rw [room]; exact grown), fits⟩
      · exact ⟨ncap, if_neg short, Nat.le_of_not_lt short⟩

/-- There is a block with the text and room for more, or nothing has changed. -/
theorem grow_spec (holds : sb.Holds text) {need : Nat} (positive : 0 < need) (small : need ≤ 2 ^ 63)
    (answer : HeapAnswer) : ∃ ret sb', sb.grow answer need = some (ret, sb') ∧
      ((ret = 0 ∧ sb'.len = text.length ∧ need ≤ sb'.cap ∧
          ∃ block, sb'.data = some block ∧ ∀ i < text.length, text[i]? = some (block i)) ∨
        (ret = -1 ∧ sb' = sb)) := by
  obtain ⟨data, len, cap⟩ := sb
  rw [grow]
  by_cases fits : need ≤ cap
  · refine ⟨0, ⟨data, len, cap⟩, if_pos fits, Or.inl ?_⟩
    cases data with
    | none =>
        have empty : cap = 0 := holds.2.1
        omega
    | some block => exact ⟨rfl, holds.1, fits, block, rfl, holds.2.2.1⟩
  · have starts : 0 < if cap ≠ 0 then cap else ssbufInitCap := by
      split
      · next some => exact Nat.pos_of_ne_zero some
      · decide
    have enough : need ≤ (if cap ≠ 0 then cap else ssbufInitCap) * 2 ^ 63 :=
      Nat.le_trans small (Nat.le_mul_of_pos_left _ starts)
    obtain ⟨ncap, grown, room⟩ := growCap_spec starts small enough
    dsimp only
    rw [if_neg fits, grown]
    cases answer with
    | none => exact ⟨-1, _, rfl, Or.inr ⟨rfl, rfl⟩⟩
    | some fresh =>
        refine ⟨0, _, rfl, Or.inl ⟨rfl, ?_, room, _, rfl, fun i below => ?_⟩⟩
        · cases data with
          | none =>
              have empty : text = [] := holds.2.2
              rw [empty]
              exact holds.1
          | some block => exact holds.1
        · cases data with
          | none =>
              have empty : text = [] := holds.2.2
              rw [empty] at below
              exact absurd below (Nat.not_lt_zero i)
          | some block =>
              have inside : i < cap := Nat.lt_of_lt_of_le below (Nat.le_of_succ_le holds.2.1)
              rw [if_pos inside]
              exact holds.2.2.1 i below

/-- The piece is behind the text. -/
theorem put_spec {block : Nat → UInt8} (data : sb.data = some block) (len : sb.len = text.length)
    (cells : ∀ i < text.length, text[i]? = some (block i)) (room : text.length + s.length + 1 ≤ sb.cap) :
    ∃ sb', sb.put s = some sb' ∧ sb'.Holds (text ++ s) := by
  rw [put, data, len]
  refine ⟨_, if_pos room, List.length_append.symm, ?_, fun i below => ?_, ?_⟩
  · rw [List.length_append]
    exact room
  · rw [List.length_append] at below
    rw [Function.update_of_ne (Nat.ne_of_lt below)]
    by_cases old : i < text.length
    · rw [if_neg fun both => Nat.not_lt_of_le both.1 old, List.getElem?_append_left old]
      exact cells i old
    · have behind := Nat.le_of_not_lt old
      have inside : i - text.length < s.length := by omega
      rw [if_pos ⟨behind, below⟩, List.getElem?_append_right behind, List.getD_eq_getElem?_getD,
        List.getElem?_eq_getElem inside]
      rfl
  · rw [List.length_append]
    exact Function.update_self _ _ _

theorem Holds.len_eq (holds : sb.Holds text) : sb.len = text.length := by
  obtain ⟨data, len, cap⟩ := sb
  cases data with
  | none =>
      have empty : text = [] := holds.2.2
      rw [empty]
      exact holds.1
  | some block => exact holds.1

theorem appendn_spec (holds : sb.Holds text) (s : List UInt8) (small : text.length + s.length < 2 ^ 63)
    (answer : HeapAnswer) : ∃ ret sb', sb.appendn answer s = some (ret, sb') ∧
      ((ret = 0 ∧ sb'.Holds (text ++ s)) ∨ (ret = -1 ∧ sb' = sb)) := by
  have need : (sb.len + s.length + 1) % 2 ^ 64 = text.length + s.length + 1 := by
    rw [holds.len_eq]
    exact Nat.mod_eq_of_lt (by omega)
  obtain ⟨ret, sb', grown, cases⟩ := grow_spec holds (Nat.succ_pos _) (Nat.succ_le_of_lt small) answer
  rw [appendn, need, grown]
  rcases cases with ⟨rfl, len, room, block, data, cells⟩ | ⟨rfl, rfl⟩
  · obtain ⟨sb'', put, holds'⟩ := put_spec data len cells room
    refine ⟨0, sb'', ?_, Or.inl ⟨rfl, holds'⟩⟩
    simp only [Option.bind_eq_bind, Option.bind_some, if_neg (Int.lt_irrefl 0), put]
    rfl
  · exact ⟨-1, sb', rfl, Or.inr ⟨rfl, rfl⟩⟩

theorem appendf_spec (holds : sb.Holds text) {fmt : List UInt8} {args : List VaArg}
    (formatted : formatText fmt args = some s) (small : text.length + s.length < 2 ^ 63)
    (fits : wrapInt s.length = s.length ∨ wrapInt s.length < 0) (big answer : HeapAnswer) :
    ∃ ret sb', sb.appendf big answer fmt args = some (ret, sb') ∧
      ((ret = 0 ∧ sb'.Holds (text ++ s)) ∨ (ret = -1 ∧ sb' = sb)) := by
  have first : vsnprintf 256 fmt args = some (s.take 255, wrapInt s.length) :=
    vsnprintf_eq (by decide : 256 ≠ 0) formatted
  have second : vsnprintf (s.length + 1) fmt args = some (s, wrapInt s.length) := by
    rw [vsnprintf_eq (by omega : s.length + 1 ≠ 0) formatted, Nat.add_sub_cancel, List.take_length]
  generalize wrapInt s.length = n at first second fits
  generalize cut : s.take 255 = tmp at first
  rw [appendf, first]
  rw [Option.bind_eq_bind, Option.bind_some]
  dsimp only
  rcases fits with rfl | negative
  · rw [if_neg (Int.not_lt.mpr (Int.natCast_nonneg _)), Int.toNat_natCast]
    by_cases short : (s.length : Int) < 256
    · have inTmp : tmp = s := cut.symm.trans (List.take_of_length_le (by omega))
      rw [if_pos short, inTmp, List.take_length]
      exact appendn_spec holds s small answer
    · rw [if_neg short]
      cases big with
      | none => exact ⟨-1, sb, rfl, Or.inr ⟨rfl, rfl⟩⟩
      | some fresh =>
          rw [second, Option.bind_some, List.take_length]
          exact appendn_spec holds s small answer
  · rw [if_pos negative]
    exact ⟨-1, sb, rfl, Or.inr ⟨rfl, rfl⟩⟩

theorem reset_spec (holds : sb.Holds text) : sb.reset.Holds [] := by
  obtain ⟨data, len, cap⟩ := sb
  cases data with
  | none => exact ⟨rfl, holds.2.1, rfl⟩
  | some block =>
      exact ⟨rfl, Nat.le_trans (Nat.succ_le_succ (Nat.zero_le _)) holds.2.1,
        fun i below => absurd below (Nat.not_lt_zero i), Function.update_self _ _ _⟩

/-- One call. -/
theorem call_spec (holds : sb.Holds text) {call : SbCall} (piece : call.piece = some s)
    (small : text.length + s.length < 2 ^ 63) (fits : call.Fits) : ∃ ret sb', call.run sb = some (ret, sb') ∧
      ((ret = 0 ∧ sb'.Holds (call.after text)) ∨ (ret = -1 ∧ sb' = sb)) := by
  cases call with
  | append answer s' =>
      cases piece
      exact appendn_spec holds s small answer
  | appendn answer s' =>
      cases piece
      exact appendn_spec holds s small answer
  | appendc answer c =>
      cases piece
      exact appendn_spec holds [c] small answer
  | appendf big answer fmt args =>
      have formatted : formatText fmt args = some s := piece
      have appended : (SbCall.appendf big answer fmt args).after text = text ++ s := by
        change text ++ (SbCall.appendf big answer fmt args).piece.getD [] = text ++ s
        rw [piece]
        rfl
      rw [appended]
      exact appendf_spec holds formatted small (fits s formatted) big answer
  | reset => exact ⟨0, sb.reset, rfl, Or.inl ⟨rfl, reset_spec holds⟩⟩
  | steal answer => exact ⟨0, _, rfl, Or.inl ⟨rfl, rfl, rfl, rfl⟩⟩

theorem length_after {call : SbCall} (piece : call.piece = some s) :
    (call.after text).length ≤ text.length + s.length := by
  cases call with
  | reset => exact Nat.zero_le _
  | steal answer => exact Nat.zero_le _
  | append answer s' =>
      cases piece
      exact Nat.le_of_eq List.length_append
  | appendn answer s' =>
      cases piece
      exact Nat.le_of_eq List.length_append
  | appendc answer c =>
      cases piece
      exact Nat.le_of_eq List.length_append
  | appendf big answer fmt args =>
      change (text ++ (SbCall.appendf big answer fmt args).piece.getD []).length ≤ _
      rw [piece]
      exact Nat.le_of_eq List.length_append

theorem faithful_run {calls : List SbCall} (holds : sb.Holds text) (valid : ∀ call ∈ calls, call.piece ≠ none)
    (small : text.length + totalLength calls < 2 ^ 63) (fits : ∀ call ∈ calls, call.Fits) :
    Faithful sb text calls := by
  induction calls generalizing sb text with
  | nil => exact holds
  | cons call calls ih =>
      obtain ⟨s, piece⟩ := Option.ne_none_iff_exists'.mp (valid call List.mem_cons_self)
      have total : totalLength (call :: calls) = s.length + totalLength calls := by
        rw [totalLength, List.map_cons, List.sum_cons, piece]
        rfl
      rw [total] at small
      obtain ⟨ret, sb', ran, kept⟩ := call_spec holds piece (by omega) (fits call List.mem_cons_self)
      have valid' : ∀ call ∈ calls, call.piece ≠ none := fun later member => valid later (List.mem_cons_of_mem _ member)
      have fits' : ∀ call ∈ calls, call.Fits := fun later member => fits later (List.mem_cons_of_mem _ member)
      refine ⟨holds, ret, sb', ran, ?_⟩
      rcases kept with ⟨success, holds'⟩ | ⟨failure, same⟩
      · have longer : (call.after text).length ≤ text.length + s.length := length_after piece
        exact Or.inl ⟨success, ih holds' valid' (by omega) fits'⟩
      · exact Or.inr ⟨failure, same, ih (same ▸ holds) valid' (by omega) fits'⟩

end SStrBuf

/-- Every run of calls with formatted pieces of a length that an `int` holds keeps its promises, whatever the heap
answers. -/
theorem sb_faithful {calls : List SbCall} (valid : ∀ call ∈ calls, call.piece ≠ none)
    (small : totalLength calls < 2 ^ 63) (fits : ∀ call ∈ calls, call.Fits) : Faithful SStrBuf.init [] calls :=
  SStrBuf.faithful_run ⟨rfl, rfl, rfl⟩ valid (Nat.lt_of_le_of_lt (Nat.le_of_eq (Nat.zero_add _)) small) fits

/-- Two pieces, one of them formatted, of which the second finds no memory. -/
theorem sb_faithful_pieces : Faithful SStrBuf.init []
    [.append (some fun _ => 7) [0x61], .appendf none none [0x62] [], .reset, .appendc none 0x63, .steal none] := by
  have text : formatText [0x62] [] = some [0x62] := rfl
  refine sb_faithful (fun call member => ?_) (by decide) (fun call member => ?_)
  · simp only [List.mem_cons, List.not_mem_nil, or_false] at member
    rcases member with rfl | rfl | rfl | rfl | rfl <;> exact Option.some_ne_none _
  · simp only [List.mem_cons, List.not_mem_nil, or_false] at member
    rcases member with rfl | rfl | rfl | rfl | rfl
    · trivial
    · intro s formatted
      cases text.symm.trans formatted
      exact Or.inl (by decide)
    · trivial
    · trivial
    · trivial

/-! ## A piece that is too long -/

/-- `"%*c"` -/
def wideChar : List UInt8 := [0x25, 0x2A, 0x63]

theorem directive_wideChar {w : BitVec 64} (positive : ¬(w.setWidth 32).toInt < 0) (c : BitVec 64) (fmt : List UInt8)
    (args : List VaArg) : directive (0x2A :: 0x63 :: fmt) (.int w :: .int c :: args) =
      some (padding ' '.toUInt8 1 (w.setWidth 32).toInt ++ [UInt8.ofNat c.toNat], fmt, args) := by
  have flags : readFlags {} (0x2A :: 0x63 :: fmt) = ({}, 0x2A :: 0x63 :: fmt) := rfl
  have width : readWidth {} (0x2A :: 0x63 :: fmt) (.int w :: .int c :: args) =
      some ({}, (w.setWidth 32).toInt, 0x63 :: fmt, .int c :: args) := congrArg some (if_neg positive)
  rw [directive, flags]
  dsimp only
  rw [width]
  exact congrArg (fun t => some (t, fmt, args)) (List.append_nil _)

theorem vprintfCb_wideChar {w : BitVec 64} (positive : ¬(w.setWidth 32).toInt < 0) (c : BitVec 64) (fuel : Nat)
    {fmt rest : List UInt8} {args : List VaArg} (later : vprintfCb fuel fmt args = some rest) :
    vprintfCb (fuel + 1) (wideChar ++ fmt) (.int w :: .int c :: args) =
      some (padding ' '.toUInt8 1 (w.setWidth 32).toInt ++ [UInt8.ofNat c.toNat] ++ rest) := by
  change vprintfCb (fuel + 1) (0x25 :: 0x2A :: 0x63 :: fmt) _ = _
  rw [vprintfCb, if_neg (by decide), directive_wideChar positive]
  change (vprintfCb fuel fmt args).bind _ = _
  rw [later]
  rfl

theorem length_wide (k : Int) (c : UInt8) (rest : List UInt8) :
    (padding ' '.toUInt8 1 k ++ [c] ++ rest).length = (k - 1).toNat + 1 + rest.length := by
  rw [List.length_append, List.length_append, padding, List.length_replicate, List.length_singleton]

/-- Three characters in fields that are 2^32 wide together. -/
theorem exists_longText : ∃ s, s.length = 2 ^ 32 ∧ formatText (wideChar ++ (wideChar ++ (wideChar ++ [])))
    [.int 2147483647, .int 0x61, .int 2147483647, .int 0x61, .int 2, .int 0x61] = some s := by
  have wide : ¬((2147483647 : BitVec 64).setWidth 32).toInt < 0 := by decide
  have narrow : ¬((2 : BitVec 64).setWidth 32).toInt < 0 := by decide
  have last := vprintfCb_wideChar narrow 0x61 6 (show vprintfCb 6 [] [] = some [] from rfl)
  have both := vprintfCb_wideChar wide 0x61 7 last
  refine ⟨_, ?_, vprintfCb_wideChar wide 0x61 8 both⟩
  rw [length_wide, length_wide, length_wide]
  decide

/-- `"%*c%*c%*c"` with fields of 2147483647, 2147483647 and 2 characters: the length becomes 0 as an `int`, and the call
succeeds without a character. -/
theorem sb_appendf_loses : ¬Faithful SStrBuf.init [] [.appendf none (some fun _ => 0)
    (wideChar ++ (wideChar ++ (wideChar ++ [])))
    [.int 2147483647, .int 0x61, .int 2147483647, .int 0x61, .int 2, .int 0x61]] := by
  obtain ⟨s, length, formatted⟩ := exists_longText
  generalize wideChar ++ (wideChar ++ (wideChar ++ [])) = fmt at formatted
  rintro ⟨-, ret, sb', ran, kept⟩
  have none : wrapInt s.length = 0 := by
    rw [length]
    decide
  have first := vsnprintf_eq (by decide : 256 ≠ 0) formatted
  rw [none] at first
  rw [SbCall.run, SStrBuf.appendf, first, Option.bind_eq_bind, Option.bind_some] at ran
  have appended : SStrBuf.init.appendn (some fun _ => 0) [] = some (ret, sb') := ran
  have started : SStrBuf.init.Holds [] := ⟨rfl, rfl, rfl⟩
  obtain ⟨ret', sb'', appended', holds⟩ := SStrBuf.appendn_spec started [] (by decide) (some fun _ => 0)
  cases appended.symm.trans appended'
  rcases kept with ⟨success, keeps⟩ | ⟨failure, -⟩
  · have long : sb'.Holds ([] ++ (formatText fmt _).getD []) := keeps
    rw [formatted] at long
    have len : sb'.len = s.length := long.len_eq
    rcases holds with ⟨-, short⟩ | ⟨failure, -⟩
    · have len' : sb'.len = 0 := short.len_eq
      rw [len, length] at len'
      exact absurd len' (by decide)
    · rw [success] at failure
      exact absurd failure (by decide)
  · have succeeded : SStrBuf.init.appendn (some fun _ => 0) [] = some (0, _) := rfl
    cases succeeded.symm.trans appended
    exact absurd failure (by decide)

end Systrix.Libc
