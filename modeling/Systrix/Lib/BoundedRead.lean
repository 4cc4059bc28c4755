import Systrix.Lib.Fallible

/-!
# Reads within a message

Programs that read a message byte by byte at indices of their own choice: a read outside the message stops them.  The
rules say exactly when such a program stays inside, step by step.
-/

namespace BoundedRead

open Fallible

variable {α β : Type}

/-- Why a program stops: it reads outside the message, or it gives up. -/
inductive Stop where
  | outside (index : Nat)
  | rejected
  deriving DecidableEq

/-- A byte of the message. -/
def readByte (msg : List UInt8) (index : Nat) : Except Stop UInt8 :=
  if index < msg.length then .ok (msg.getD index 0) else .error (.outside index)

/-- The bytes from an index on, from the first to the last one. -/
def readBytes (msg : List UInt8) (index : Nat) : (count : Nat) → Except Stop (List UInt8)
  | 0 => .ok []
  | count + 1 =>
      readByte msg index >>= fun byte => (byte :: ·) <$> readBytes msg (index + 1) count

/-- The bytes from an index on, with zeros where the message has ended. -/
def bytesAt (msg : List UInt8) (index count : Nat) : List UInt8 := (List.range' index count).map (msg.getD · 0)

/-- The program reads nothing outside the message, and its result is as it should be unless it gives up. -/
def Inside (post : α → Prop) (run : Except Stop α) : Prop := Ends (· = .rejected) post run

theorem inside_ok {post : α → Prop} {result : α} : Inside post (.ok result) ↔ post result := ends_ok

theorem inside_pure {post : α → Prop} {result : α} : Inside post (pure result) ↔ post result := ends_ok

theorem inside_rejected {post : α → Prop} : Inside post (.error .rejected) ↔ True := ends_error.trans (iff_true_intro rfl)

theorem inside_throw {post : α → Prop} : Inside post (throw .rejected) ↔ True := inside_rejected

theorem inside_outside {post : α → Prop} {index : Nat} : Inside post (.error (.outside index)) ↔ False :=
  ends_error.trans (iff_false_intro (by rintro ⟨⟩))

/-- A program that asks nothing of its result. -/
theorem inside_true_iff {run : Except Stop α} :
    Inside (fun _ => True) run ↔ ∀ index, run ≠ .error (.outside index) := by
  cases run with
  | ok result => exact iff_of_true (.ok trivial) fun index => by rintro ⟨⟩
  | error stop =>
      cases stop with
      | outside index => exact iff_of_false inside_outside.mp fun inside => inside index rfl
      | rejected => exact iff_of_true (.error rfl) fun index => by rintro ⟨⟩

theorem inside_bind {post : β → Prop} {run : Except Stop α} {next : α → Except Stop β} :
    Inside post (run >>= next) ↔ Inside (fun result => Inside post (next result)) run := by
  cases run with
  | ok result =>
      refine ⟨fun inside => .ok inside, fun inside => ?_⟩
      cases inside with
      | ok holds => exact holds
  | error stop =>
      cases stop with
      | outside index => exact inside_outside.trans inside_outside.symm
      | rejected => exact inside_rejected.trans inside_rejected.symm

theorem inside_map {post : β → Prop} {run : Except Stop α} {f : α → β} :
    Inside post (f <$> run) ↔ Inside (fun result => post (f result)) run := by
  cases run with
  | ok result =>
      refine ⟨fun inside => ?_, fun inside => ?_⟩
      · cases inside with
        | ok holds => exact .ok holds
      · cases inside with
        | ok holds => exact .ok holds
  | error stop =>
      cases stop with
      | outside index => exact inside_outside.trans inside_outside.symm
      | rejected => exact inside_rejected.trans inside_rejected.symm

theorem inside_ite {post : α → Prop} {c : Prop} [Decidable c] {yes no : Except Stop α} :
    Inside post (if c then yes else no) ↔ (c → Inside post yes) ∧ (¬c → Inside post no) := by
  by_cases holds : c
  · rw [if_pos holds]
    exact ⟨fun inside => ⟨fun _ => inside, fun fails => absurd holds fails⟩, fun both => both.1 holds⟩
  · rw [if_neg holds]
    exact ⟨fun inside => ⟨fun holds' => absurd holds' holds, fun _ => inside⟩, fun both => both.2 holds⟩

theorem inside_congr {post post' : α → Prop} {run : Except Stop α} (same : ∀ result, post result ↔ post' result) :
    Inside post run ↔ Inside post' run := by
  rw [funext fun result => propext (same result)]

/-- Reading a byte. -/
theorem inside_readByte {post : UInt8 → Prop} {msg : List UInt8} {index : Nat} :
    Inside post (readByte msg index) ↔ index < msg.length ∧ post (msg.getD index 0) := by
  rw [readByte]
  by_cases inside : index < msg.length
  · rw [if_pos inside]
    exact inside_ok.trans (and_iff_right inside).symm
  · rw [if_neg inside]
    exact inside_outside.trans (iff_false_intro fun both => inside both.1).symm

/-- Reading some bytes. -/
theorem inside_readBytes {post : List UInt8 → Prop} {msg : List UInt8} {index count : Nat} :
    Inside post (readBytes msg index count) ↔
      (0 < count → index + count ≤ msg.length) ∧ post (bytesAt msg index count) := by
  induction count generalizing index post with
  | zero => exact inside_ok.trans (and_iff_right fun none => absurd none (Nat.lt_irrefl 0)).symm
  | succ count ih =>
      have bytes : bytesAt msg index (count + 1) = msg.getD index 0 :: bytesAt msg (index + 1) count := by
        rw [bytesAt, List.range'_succ, List.map_cons, bytesAt]
      rw [readBytes, inside_bind, inside_readByte, inside_map, ih, bytes, ← and_assoc]
      refine and_congr_left fun _ => ⟨fun both _ => ?_, fun fits => ⟨?_, fun _ => ?_⟩⟩
      · rcases Nat.eq_zero_or_pos count with rfl | some
        · exact both.1
        · have more := both.2 some
          omega
      · have all := fits (Nat.succ_pos count)
        omega
      · have all := fits (Nat.succ_pos count)
        omega

/-- What is read is what the message holds. -/
theorem ends_readBytes (msg : List UInt8) (index count : Nat) :
    Ends (fun _ => True) (· = bytesAt msg index count) (readBytes msg index count) := by
  cases read : readBytes msg index count with
  | error stop => exact .error trivial
  | ok bytes =>
      have inside : Inside (· = bytes) (readBytes msg index count) := by
        rw [read]
        exact .ok rfl
      exact .ok (inside_readBytes.mp inside).2.symm

/-- The message holds the bytes at an index. -/
def Holds (msg : List UInt8) (index : Nat) (bytes : List UInt8) : Prop := bytes <+: msg.drop index

section Holds

variable {msg bytes rest : List UInt8} {index : Nat} {byte : UInt8}

theorem holds_append (before bytes after : List UInt8) : Holds (before ++ bytes ++ after) before.length bytes := by
  rw [Holds, List.append_assoc, List.drop_left]
  exact List.prefix_append _ _

theorem Holds.left (holds : Holds msg index (bytes ++ rest)) : Holds msg index bytes :=
  (List.prefix_append bytes rest).trans holds

theorem Holds.right (holds : Holds msg index (bytes ++ rest)) : Holds msg (index + bytes.length) rest := by
  obtain ⟨after, whole⟩ := holds
  refine ⟨after, ?_⟩
  rw [← List.drop_drop, ← whole, List.append_assoc, List.drop_left]

theorem Holds.tail (holds : Holds msg index (byte :: bytes)) : Holds msg (index + 1) bytes := by
  have split : Holds msg index ([byte] ++ bytes) := holds
  exact split.right

theorem Holds.readByte (holds : Holds msg index (byte :: bytes)) : readByte msg index = .ok byte := by
  obtain ⟨after, whole⟩ := holds
  have here : msg[index]? = some byte := by
    rw [← Nat.add_zero index, ← List.getElem?_drop, ← whole]
    rfl
  rw [BoundedRead.readByte, if_pos (List.getElem?_eq_some_iff.mp here).1, List.getD_eq_getElem?_getD, here]
  rfl

theorem Holds.readBytes (holds : Holds msg index bytes) : readBytes msg index bytes.length = .ok bytes := by
  induction bytes generalizing index with
  | nil => rfl
  | cons byte bytes ih =>
      rw [List.length_cons, BoundedRead.readBytes, holds.readByte, ok_bind, ih holds.tail]
      rfl

end Holds

/-! ## Programs that give up -/

/-- Go on when a program gives up. -/
def attempt : Except Stop α → Except Stop (Option α)
  | .ok result => .ok (some result)
  | .error .rejected => .ok none
  | .error (.outside index) => .error (.outside index)

theorem inside_attempt {run : Except Stop α} :
    Inside (fun _ => True) (attempt run) ↔ Inside (fun _ => True) run := by
  cases run with
  | ok result => exact iff_of_true (.ok trivial) (.ok trivial)
  | error stop =>
      cases stop with
      | outside index => exact inside_outside.trans inside_outside.symm
      | rejected => exact iff_of_true (.ok trivial) (.error rfl)

/-- The program does not give up. -/
def Persists (run : Except Stop α) : Prop := run ≠ .error .rejected

theorem persists_pure (result : α) : Persists (pure result : Except Stop α) := by rintro ⟨⟩

theorem persists_readByte (msg : List UInt8) (index : Nat) : Persists (readByte msg index) := by
  rw [readByte]
  split
  · exact persists_pure _
  · rintro ⟨⟩

theorem persists_attempt (run : Except Stop α) : Persists (attempt run) := by
  cases run with
  | ok result => exact persists_pure _
  | error stop =>
      cases stop with
      | outside index => rintro ⟨⟩
      | rejected => exact persists_pure _

theorem Persists.bind {run : Except Stop α} {next : α → Except Stop β} (first : Persists run)
    (second : ∀ result, Persists (next result)) : Persists (run >>= next) := by
  cases run with
  | ok result => exact second result
  | error stop =>
      cases stop with
      | outside index => rintro ⟨⟩
      | rejected => exact absurd rfl first

theorem Persists.map {run : Except Stop α} (persists : Persists run) (f : α → β) : Persists (f <$> run) := by
  cases run with
  | ok result => exact persists_pure _
  | error stop =>
      cases stop with
      | outside index => rintro ⟨⟩
      | rejected => exact absurd rfl persists

theorem persists_readBytes (msg : List UInt8) (index count : Nat) : Persists (readBytes msg index count) := by
  induction count generalizing index with
  | zero => exact persists_pure _
  | succ count ih => exact (persists_readByte msg index).bind fun byte => (ih (index + 1)).map _

/-- What holds of every result of a program that does not give up. -/
theorem inside_const {run : Except Stop α} (persists : Persists run) {p : Prop} :
    Inside (fun _ => p) run ↔ Inside (fun _ => True) run ∧ p := by
  cases run with
  | ok result => exact ⟨fun inside => ⟨.ok trivial, inside_ok.mp inside⟩, fun both => .ok both.2⟩
  | error stop =>
      cases stop with
      | outside index => exact inside_outside.trans (iff_false_intro fun both => inside_outside.mp both.1).symm
      | rejected => exact absurd rfl persists

end BoundedRead
