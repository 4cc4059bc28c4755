import Systrix.Lib.Splitting
import Systrix.Lib.TextBuffer
import Systrix.Libc.Printf
import Mathlib.Data.List.Forall2

/-!
# Splitting and joining strings

`slibc_str_split` writes a terminator over the separators of a string, and `slibc_str_join` copies strings into a buffer.
`none` stands for a loop that has no fuel left.
-/

namespace Systrix.Libc

open Systrix.Lib TextBuffer

/-- The loop of `slibc_str_split`: the memory, `out_parts` up to `count`, and `p`. -/
def strSplitLoop (delim : UInt8) (max_parts : Int) :
    (fuel : Nat) → (mem : Nat → UInt8) → (out_parts : List Nat) → (p : Nat) → Option ((Nat → UInt8) × List Nat)
  | 0, _, _, _ => none
  | fuel + 1, mem, out_parts, p =>
      if mem p ≠ 0 ∧ (out_parts.length : Int) < max_parts then
        if mem p = delim then
          let mem := Function.update mem p 0
          let out_parts := if (out_parts.length : Int) < max_parts then out_parts ++ [p + 1] else out_parts
          strSplitLoop delim max_parts fuel mem out_parts (p + 1)
        else strSplitLoop delim max_parts fuel mem out_parts (p + 1)
      else some (mem, out_parts)

/-- `slibc_str_split`: the memory after the call and the parts; their number is the result. -/
def slibcStrSplit (fuel : Nat) (mem : Nat → UInt8) (src : Option Nat) (delim : UInt8) (max_parts : Int) :
    Option ((Nat → UInt8) × List Nat) :=
  match src with
  | none => some (mem, [])
  | some src => if max_parts ≤ 0 then some (mem, []) else strSplitLoop delim max_parts fuel mem [src] src

/-- `for (p = parts[i]; *p && pos + 1 < bufsz; ) buf[pos++] = *p++;` -/
def joinCopy (mem : Nat → UInt8) (bufsz : Nat) :
    (fuel : Nat) → (p : Nat) → (buf : Buffer UInt8) → (pos : Nat) → Option (Buffer UInt8 × Nat)
  | 0, _, _, _ => none
  | fuel + 1, p, buf, pos =>
      if mem p ≠ 0 ∧ pos + 1 < bufsz then joinCopy mem bufsz fuel (p + 1) (buf.put pos (mem p)) (pos + 1)
      else some (buf, pos)

/-- The loop of `slibc_str_join` over the parts from index `i` on. -/
def strJoinLoop (mem : Nat → UInt8) (sep : UInt8) (bufsz fuel : Nat) :
    (parts : List Nat) → (i : Nat) → (buf : Buffer UInt8) → (pos : Nat) → Option (Buffer UInt8 × Nat)
  | [], _, buf, pos => some (buf, pos)
  | p :: rest, i, buf, pos => do
      let (buf, pos) := if 0 < i ∧ pos + 1 < bufsz then (buf.put pos sep, pos + 1) else (buf, pos)
      let (buf, pos) ← joinCopy mem bufsz fuel p buf pos
      strJoinLoop mem sep bufsz fuel rest (i + 1) buf pos

/-- `slibc_str_join`: the buffer and the result. -/
def slibcStrJoin (fuel : Nat) (mem : Nat → UInt8) (parts : List Nat) (sep : UInt8) (buf : Buffer UInt8) (bufsz : Nat) :
    Option (Buffer UInt8 × Int) := do
  let (buf, pos) ← strJoinLoop mem sep bufsz fuel parts 0 buf 0
  return (buf.put (if pos < bufsz then pos else bufsz - 1) 0, wrapInt pos)

/-! ## The parts -/

/-- Pointers to strings. -/
def PartsAt (mem : Nat → UInt8) : List Nat → List (List UInt8) → Prop := List.Forall₂ (StringAt mem)

/-- The loop cuts the string that `p` points to: its first piece stands at `p`, and the others are new parts. -/
theorem strSplitLoop_eq (delim : UInt8) {s : List UInt8} {fuel : Nat} (enough : s.length < fuel) (cuts : Nat)
    {mem : Nat → UInt8} {p : Nat} (there : StringAt mem p s) (out_parts : List Nat) :
    ∃ later ptrs first rest,
      strSplitLoop delim (out_parts.length + cuts : Nat) fuel mem out_parts p = some (later, out_parts ++ ptrs)
        ∧ splitAtMost delim cuts s = first :: rest
        ∧ StringAt later p first ∧ PartsAt later ptrs rest
        ∧ ∀ a, a < p → later a = mem a := by
  induction s generalizing fuel cuts mem p out_parts with
  | nil =>
    obtain ⟨fuel, rfl⟩ : ∃ n, fuel = n + 1 := ⟨fuel - 1, by simp at enough; omega⟩
    have zero : mem p = 0 := there
    exact ⟨mem, [], [], [], by rw [strSplitLoop, if_neg (by simp [zero]), List.append_nil], splitAtMost_nil _ _, there,
      .nil, fun _ _ => rfl⟩
  | cons c s ih =>
    obtain ⟨fuel, rfl⟩ : ∃ n, fuel = n + 1 := ⟨fuel - 1, by simp at enough; omega⟩
    obtain ⟨here, nonzero, next⟩ := there
    have shorter : s.length < fuel := by simpa using enough
    cases cuts with
    | zero =>
      exact ⟨mem, [], c :: s, [], by rw [strSplitLoop, if_neg (by simp), List.append_nil], rfl, ⟨here, nonzero, next⟩,
        .nil, fun _ _ => rfl⟩
    | succ cuts =>
      have room : ((out_parts.length : Nat) : Int) < ((out_parts.length + (cuts + 1) : Nat) : Int) := by omega
      by_cases cut : c = delim
      · subst cut
        have kept : StringAt (Function.update mem p 0) (p + 1) s :=
          next.congr fun a low _ => Function.update_of_ne (by omega) _ _
        obtain ⟨later, ptrs, first, rest, run, pieces, start, others, frame⟩ :=
          ih shorter cuts kept (out_parts ++ [p + 1])
        refine ⟨later, (p + 1) :: ptrs, [], first :: rest, ?_, ?_, ?_, .cons start others, ?_⟩
        · rw [strSplitLoop, if_pos ⟨by rw [here]; exact nonzero, room⟩, if_pos here]
          simp only [if_pos room]
          rw [List.length_append, List.length_singleton, Nat.add_assoc, Nat.add_comm 1] at run
          rw [run, List.append_assoc, List.singleton_append]
        · rw [splitAtMost, if_pos rfl, pieces]
        · show later p = 0
          rw [frame p (Nat.lt_succ_self p), Function.update_self]
        · intro a before
          rw [frame a (by omega), Function.update_of_ne (by omega)]
      · obtain ⟨later, ptrs, first, rest, run, pieces, start, others, frame⟩ := ih shorter (cuts + 1) next out_parts
        refine ⟨later, ptrs, c :: first, rest, ?_, ?_, ?_, others, fun a before => frame a (by omega)⟩
        · rw [strSplitLoop, if_pos ⟨by rw [here]; exact nonzero, room⟩, if_neg (by rw [here]; exact cut), run]
        · rw [splitAtMost, if_neg cut, pieces, List.modifyHead_cons]
        · exact ⟨(frame p (Nat.lt_succ_self p)).trans here, nonzero, start⟩

/-- Splitting finds the pieces of the string. -/
theorem slibcStrSplit_eq (delim : UInt8) {s : List UInt8} {fuel : Nat} (enough : s.length < fuel) {max_parts : Int}
    (positive : 1 ≤ max_parts) {mem : Nat → UInt8} {src : Nat} (there : StringAt mem src s) :
    ∃ later ptrs, slibcStrSplit fuel mem (some src) delim max_parts = some (later, ptrs)
      ∧ PartsAt later ptrs (splitAtMost delim (max_parts.toNat - 1) s) := by
  have whole : max_parts = ((([src] : List Nat).length + (max_parts.toNat - 1) : Nat) : Int) := by
    simp only [List.length_singleton]
    omega
  obtain ⟨later, ptrs, first, rest, run, pieces, start, others, -⟩ :=
    strSplitLoop_eq delim enough (max_parts.toNat - 1) there [src]
  refine ⟨later, src :: ptrs, ?_, ?_⟩
  · rw [slibcStrSplit, if_neg (by omega)]
    rw [← whole] at run
    exact run
  · rw [pieces]
    exact .cons start others

/-! ## Joining -/

/-- What a part of the loop leaves behind: the text so far, and no write outside of the buffer. -/
structure Joined (buf : Buffer UInt8) (text : List UInt8) (bufsz : Nat) : Prop where
  holds : buf.Holds text
  below : buf.Below bufsz
  room : text.length < bufsz

theorem Joined.put {buf : Buffer UInt8} {text : List UInt8} {bufsz : Nat} (joined : Joined buf text bufsz) {c : UInt8}
    (room : text.length + 1 < bufsz) : Joined (buf.put text.length c) (text ++ [c]) bufsz where
  holds := joined.holds.put_end c
  below := joined.below.put joined.room c
  room := by simpa using room

theorem joinCopy_eq {mem : Nat → UInt8} {bufsz fuel : Nat} {s text : List UInt8} {p : Nat} {buf : Buffer UInt8}
    (enough : s.length < fuel) (there : StringAt mem p s) (joined : Joined buf text bufsz)
    (room : text.length + s.length < bufsz) :
    ∃ later, joinCopy mem bufsz fuel p buf text.length = some (later, (text ++ s).length)
      ∧ Joined later (text ++ s) bufsz := by
  induction s generalizing fuel p text buf with
  | nil =>
    obtain ⟨fuel, rfl⟩ : ∃ n, fuel = n + 1 := ⟨fuel - 1, by simp at enough; omega⟩
    have zero : mem p = 0 := there
    rw [joinCopy, if_neg (by simp [zero]), List.append_nil]
    exact ⟨buf, rfl, joined⟩
  | cons c s ih =>
    obtain ⟨fuel, rfl⟩ : ∃ n, fuel = n + 1 := ⟨fuel - 1, by simp at enough; omega⟩
    obtain ⟨here, nonzero, next⟩ := there
    have size : (text ++ [c]).length = text.length + 1 := by simp
    simp only [List.length_cons] at room enough
    obtain ⟨later, run, done⟩ := ih (Nat.lt_of_succ_lt_succ enough) next (joined.put (c := c) (by omega)) (by omega)
    rw [List.append_cons]
    refine ⟨later, ?_, done⟩
    rw [joinCopy, if_pos ⟨by rw [here]; exact nonzero, by omega⟩, here, ← size, run]

/-- The text of parts that are joined behind others: a separator stands before every part but the first. -/
def joinedFrom (sep : UInt8) (i : Nat) : List (List UInt8) → List UInt8
  | [] => []
  | part :: rest => (if 0 < i then [sep] else []) ++ part ++ joinedFrom sep (i + 1) rest

theorem joinedFrom_later (sep : UInt8) (i : Nat) (part : List UInt8) (rest : List (List UInt8)) :
    joinedFrom sep (i + 1) (part :: rest) = sep :: joinWith sep (part :: rest) := by
  induction rest generalizing i part with
  | nil => simp [joinedFrom, joinWith]
  | cons next rest ih =>
    rw [joinedFrom, ih, joinWith]
    simp

theorem joinedFrom_zero (sep : UInt8) (parts : List (List UInt8)) : joinedFrom sep 0 parts = joinWith sep parts := by
  cases parts with
  | nil => rfl
  | cons part rest =>
    cases rest with
    | nil => simp [joinedFrom, joinWith]
    | cons next rest =>
      rw [joinedFrom, joinedFrom_later, joinWith]
      simp

theorem strJoinLoop_eq {mem : Nat → UInt8} (sep : UInt8) {bufsz fuel : Nat} {ptrs : List Nat}
    {parts : List (List UInt8)} (there : PartsAt mem ptrs parts) (enough : ∀ part ∈ parts, part.length < fuel)
    {i : Nat} {buf : Buffer UInt8} {text : List UInt8} (joined : Joined buf text bufsz)
    (room : (text ++ joinedFrom sep i parts).length < bufsz) :
    ∃ later, strJoinLoop mem sep bufsz fuel ptrs i buf text.length
        = some (later, (text ++ joinedFrom sep i parts).length)
      ∧ Joined later (text ++ joinedFrom sep i parts) bufsz := by
  induction there generalizing i buf text with
  | nil =>
    rw [joinedFrom, List.append_nil]
    exact ⟨buf, rfl, joined⟩
  | @cons p part ptrs parts first rest ih =>
    have short := enough part List.mem_cons_self
    have others := fun part member => enough part (List.mem_cons_of_mem _ member)
    rw [joinedFrom, ← List.append_assoc, ← List.append_assoc] at room ⊢
    by_cases start : 0 < i
    · rw [if_pos start] at room ⊢
      have size : (text ++ [sep]).length = text.length + 1 := by simp
      have inside : text.length + 1 < bufsz := by simp only [List.length_append] at room; simp at room; omega
      obtain ⟨middle, copied, stands⟩ := joinCopy_eq short first (joined.put (c := sep) inside) (by
        simp only [List.length_append] at room ⊢
        omega)
      obtain ⟨later, run, done⟩ := ih others stands room
      refine ⟨later, ?_, done⟩
      rw [strJoinLoop, if_pos ⟨start, inside⟩]
      simp only [← size]
      rw [copied]
      exact run
    · rw [if_neg start, List.append_nil] at room ⊢
      obtain ⟨middle, copied, stands⟩ := joinCopy_eq short first joined (by
        simp only [List.length_append] at room ⊢
        omega)
      obtain ⟨later, run, done⟩ := ih others stands room
      refine ⟨later, ?_, done⟩
      rw [strJoinLoop, if_neg (by simp [start])]
      simp only
      rw [copied]
      exact run

/-- Joining writes the parts with the separator between them and a terminator. -/
theorem slibcStrJoin_eq {mem : Nat → UInt8} (sep : UInt8) (bufsz : Nat) {fuel : Nat} {ptrs : List Nat}
    {parts : List (List UInt8)} (there : PartsAt mem ptrs parts) (enough : ∀ part ∈ parts, part.length < fuel)
    (cells : Nat → UInt8) (room : (joinWith sep parts).length < bufsz) :
    ∃ buf, slibcStrJoin fuel mem ptrs sep ⟨cells, []⟩ bufsz = some (buf, wrapInt (joinWith sep parts).length)
      ∧ buf.Holds (joinWith sep parts ++ [0]) ∧ buf.Below bufsz := by
  have fresh : Joined ⟨cells, []⟩ [] bufsz := {
    holds := fun i below => absurd below (Nat.not_lt_zero i)
    below := fun i member => absurd member List.not_mem_nil
    room := Nat.lt_of_le_of_lt (Nat.zero_le _) room
  }
  obtain ⟨later, run, done⟩ := strJoinLoop_eq sep there enough (i := 0) fresh (by
    rw [List.nil_append, joinedFrom_zero]
    exact room)
  rw [List.nil_append, joinedFrom_zero] at run done
  refine ⟨later.put (joinWith sep parts).length 0, ?_, done.holds.put_end 0, done.below.put room 0⟩
  have loop : strJoinLoop mem sep bufsz fuel ptrs 0 ⟨cells, []⟩ 0 = some (later, (joinWith sep parts).length) := run
  rw [slibcStrJoin, loop]
  simp only [Option.bind_eq_bind, Option.bind_some, if_pos room]
  rfl

/-! ## Round trips -/

theorem mem_joinWith {sep c : UInt8} {parts : List (List UInt8)} (member : c ∈ joinWith sep parts) :
    c = sep ∨ ∃ part ∈ parts, c ∈ part := by
  induction parts with
  | nil => exact absurd member List.not_mem_nil
  | cons part rest ih =>
    by_cases last : rest = []
    · subst last
      exact .inr ⟨part, List.mem_singleton_self part, member⟩
    · rw [joinWith_cons sep part last] at member
      rcases List.mem_append.mp member with here | later
      · exact .inr ⟨part, List.mem_cons_self, here⟩
      · rcases List.mem_cons.mp later with found | inside
        · exact .inl found
        · rcases ih inside with found | ⟨other, among, found⟩
          · exact .inl found
          · exact .inr ⟨other, List.mem_cons_of_mem _ among, found⟩

theorem PartsAt.nonzero {mem : Nat → UInt8} {ptrs : List Nat} {parts : List (List UInt8)} (there : PartsAt mem ptrs parts) :
    ∀ part ∈ parts, 0 ∉ part := by
  induction there with
  | nil => simp
  | cons first _ ih =>
    intro part member
    rcases List.mem_cons.mp member with rfl | later
    · exact first.nonzero
    · exact ih part later

theorem length_le_joinWith (sep : UInt8) {part : List UInt8} {parts : List (List UInt8)} (member : part ∈ parts) :
    part.length ≤ (joinWith sep parts).length := by
  induction parts with
  | nil => exact absurd member List.not_mem_nil
  | cons first rest ih =>
    by_cases last : rest = []
    · subst last
      exact List.mem_singleton.mp member ▸ Nat.le_refl _
    · rw [joinWith_cons sep first last, List.length_append, List.length_cons]
      rcases List.mem_cons.mp member with rfl | later
      · exact Nat.le_add_right _ _
      · have := ih later
        omega

/-- The parts of a string, joined, are the string, and only the last part may contain the separator; and the parts that
were joined are found again. -/
theorem split_join_inverse {delim : UInt8} (separates : delim ≠ 0) {max_parts : Int} (positive : 1 ≤ max_parts) :
    (∀ (mem : Nat → UInt8) (src : Nat) (s : List UInt8) (fuel : Nat), StringAt mem src s → s.length < fuel →
      ∃ later ptrs parts, slibcStrSplit fuel mem (some src) delim max_parts = some (later, ptrs)
        ∧ (ptrs.length : Int) ≤ max_parts ∧ PartsAt later ptrs parts ∧ (∀ part ∈ parts.dropLast, delim ∉ part)
        ∧ ∀ (cells : Nat → UInt8) (bufsz : Nat), s.length < bufsz →
          ∃ buf, slibcStrJoin fuel later ptrs delim ⟨cells, []⟩ bufsz = some (buf, wrapInt s.length)
            ∧ buf.Holds (s ++ [0]) ∧ buf.Below bufsz)
      ∧ ∀ (mem : Nat → UInt8) (ptrs : List Nat) (parts : List (List UInt8)) (cells : Nat → UInt8) (bufsz fuel : Nat),
        PartsAt mem ptrs parts → parts ≠ [] → (∀ part ∈ parts, delim ∉ part) → (parts.length : Int) ≤ max_parts →
        (joinWith delim parts).length < bufsz → (joinWith delim parts).length < fuel →
        ∃ buf later found, slibcStrJoin fuel mem ptrs delim ⟨cells, []⟩ bufsz
            = some (buf, wrapInt (joinWith delim parts).length)
          ∧ slibcStrSplit fuel buf.cells (some 0) delim max_parts = some (later, found)
          ∧ PartsAt later found parts := by
  constructor
  · intro mem src s fuel there enough
    obtain ⟨later, ptrs, run, found⟩ := slibcStrSplit_eq delim enough positive there
    have size := found.length_eq
    have count := length_splitAtMost delim (max_parts.toNat - 1) s
    refine ⟨later, ptrs, _, run, by omega, found, splitAtMost_free _ _ _, ?_⟩
    intro cells bufsz large
    have whole := joinWith_splitAtMost delim (max_parts.toNat - 1) s
    have short : ∀ part ∈ splitAtMost delim (max_parts.toNat - 1) s, part.length < fuel := fun part member => by
      have := length_le_joinWith delim member
      rw [whole] at this
      omega
    have joined := slibcStrJoin_eq delim bufsz found short cells (by rw [whole]; exact large)
    rw [whole] at joined
    exact joined
  · intro mem ptrs parts cells bufsz fuel there nonempty free fits large enough
    have short : ∀ part ∈ parts, part.length < fuel := fun part member =>
      Nat.lt_of_le_of_lt (length_le_joinWith delim member) enough
    obtain ⟨buf, run, holds, -⟩ := slibcStrJoin_eq delim bufsz there short cells large
    have nonzero : 0 ∉ joinWith delim parts := fun member => by
      rcases mem_joinWith member with sep | ⟨part, among, inside⟩
      · exact separates sep.symm
      · exact there.nonzero part among inside
    have string : StringAt buf.cells 0 (joinWith delim parts) := holds.stringAt nonzero
    obtain ⟨later, found, split, pieces⟩ := slibcStrSplit_eq delim enough positive string
    rw [splitAtMost_joinWith delim nonempty free (by omega)] at pieces
    exact ⟨buf, later, found, run, split, pieces⟩

/-- The string `a,,b`. -/
def commaCells (i : Nat) : UInt8 := [0x61, 0x2C, 0x2C, 0x62].getD i 0

/-- The strings `a`, the empty one and `b`. -/
def letterCells (i : Nat) : UInt8 := [0x61, 0, 0, 0x62].getD i 0

/-- The string `a,,b` in at most 3 parts, and the parts `a`, the empty one and `b` joined. -/
theorem split_join_inverse_commas :
    (∃ later ptrs parts, slibcStrSplit 5 commaCells (some 0) 0x2C 3 = some (later, ptrs)
      ∧ (ptrs.length : Int) ≤ 3 ∧ PartsAt later ptrs parts ∧ (∀ part ∈ parts.dropLast, 0x2C ∉ part)
      ∧ ∀ (cells : Nat → UInt8) (bufsz : Nat), 4 < bufsz →
        ∃ buf, slibcStrJoin 5 later ptrs 0x2C ⟨cells, []⟩ bufsz = some (buf, 4)
          ∧ buf.Holds [0x61, 0x2C, 0x2C, 0x62, 0] ∧ buf.Below bufsz)
      ∧ ∃ buf later found, slibcStrJoin 5 letterCells [0, 1, 3] 0x2C ⟨fun _ => 0, []⟩ 5 = some (buf, 4)
        ∧ slibcStrSplit 5 buf.cells (some 0) 0x2C 3 = some (later, found)
        ∧ PartsAt later found [[0x61], [], [0x62]] := by
  have both := @split_join_inverse 0x2C (by decide) 3 (by decide)
  refine ⟨both.1 commaCells 0 [0x61, 0x2C, 0x2C, 0x62] 5 ?_ (by decide), both.2 letterCells [0, 1, 3]
    [[0x61], [], [0x62]] (fun _ => 0) 5 5 ?_ (by decide) (by decide) (by decide) (by decide) (by decide)⟩
  · exact ⟨rfl, by decide, rfl, by decide, rfl, by decide, rfl, by decide, rfl⟩
  · exact .cons ⟨rfl, by decide, rfl⟩ (.cons rfl (.cons ⟨rfl, by decide, rfl⟩ .nil))

end Systrix.Libc
