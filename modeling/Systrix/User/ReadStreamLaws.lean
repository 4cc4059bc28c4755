import Systrix.User.ReadStream

/-!
# Buffered reading delivers the file

Each call takes the next bytes of the file, from the buffer or past it, and keeps the rest for the calls after it.
-/

namespace Systrix.User

namespace ReadStream

variable {s : ReadStream} {content d : List UInt8}

/-! ## What one byte or one read does -/

theorem Sound.buffered (sound : s.Sound content d) (more : s.rpos < s.rlen) :
    ({ s with rpos := s.rpos + 1 } : ReadStream).Sound content (d ++ [s.rbuf.getD s.rpos 0]) where
  order := by
    have inside : s.rpos < (s.rbuf.take s.rlen).length := by
      rw [List.length_take]
      have := sound.filled
      omega
    have order := sound.order
    rw [List.drop_eq_getElem_cons inside, List.getElem_take] at order
    rw [List.append_assoc, List.singleton_append, ← order, List.getD_eq_getElem?_getD,
      List.getElem?_eq_getElem (Nat.lt_of_lt_of_le more sound.filled), Option.getD_some]
  inside := sound.inside
  position := more
  filled := sound.filled
  size := sound.size
  readable := sound.readable
  ended := fun eof => absurd (sound.ended eof).1 (Nat.ne_of_lt more)
  same := sound.same

theorem Sound.drained (sound : s.Sound content d) (empty : s.rpos = s.rlen) : d = s.file.content.take s.file.pos := by
  have order := sound.order
  rwa [empty, List.drop_eq_nil_of_le (List.length_take_le _ _), List.append_nil] at order

/-- A read that gives nothing: the flag says why. -/
theorem Sound.nothing (sound : s.Sound content d) (empty : s.rpos = s.rlen) {later : OpenFile}
    (kept : later.content = s.file.content) (pos : later.pos = s.file.pos) {n : Int}
    (last : n = 0 → s.file.pos = s.file.content.length) :
    (s.ended n later).Sound content d ∧ ((s.ended n later).eof = true ∨ (s.ended n later).err = true) := by
  have order : d ++ (s.rbuf.take s.rlen).drop s.rpos = later.content.take later.pos := by
    rw [kept, pos]
    exact sound.order
  have inside : later.pos ≤ later.content.length := by
    rw [kept, pos]
    exact sound.inside
  unfold ReadStream.ended
  by_cases zero : n = 0
  · rw [if_pos zero]
    refine ⟨⟨order, inside, sound.position, sound.filled, sound.size, sound.readable, fun _ => ⟨empty, ?_⟩,
      kept.trans sound.same⟩, .inl rfl⟩
    rw [kept, pos]
    exact last zero
  · rw [if_neg zero]
    refine ⟨⟨order, inside, sound.position, sound.filled, sound.size, sound.readable, fun eof => ?_,
      kept.trans sound.same⟩, .inr rfl⟩
    rw [kept, pos]
    exact sound.ended eof

/-- A read for an empty buffer gives the next bytes, or it gives nothing and a flag says why. -/
theorem Sound.reads (sound : s.Sound content d) (empty : s.rpos = s.rlen) {count : Nat} (asked : 0 < count) :
    (∃ (k : Nat) (later : OpenFile), s.file.read count = ((k : Int), (s.file.content.drop s.file.pos).take k, later) ∧ 0 < k
        ∧ k ≤ count ∧ s.file.pos + k ≤ s.file.content.length ∧ later.content = s.file.content
        ∧ later.pos = s.file.pos + k)
      ∨ ∃ (n : Int) (later : OpenFile), s.file.read count = (n, [], later) ∧ n ≤ 0 ∧ (s.ended n later).Sound content d
        ∧ ((s.ended n later).eof = true ∨ (s.ended n later).err = true) := by
  have reads := s.file.read_spec asked sound.inside
  generalize s.file.read count = result at reads ⊢
  cases reads with
  | @bytes k later positive small inside kept pos => exact .inl ⟨k, later, rfl, positive, small, inside, kept, pos⟩
  | @last later last kept pos =>
    exact .inr ⟨0, later, rfl, Int.le_refl 0, sound.nothing empty kept pos fun _ => last⟩
  | @failed later kept pos =>
    exact .inr ⟨-1, later, rfl, by decide, sound.nothing empty kept pos fun zero => absurd zero (by decide)⟩

/-- Bytes that are read past the empty buffer. -/
theorem Sound.past (sound : s.Sound content d) (empty : s.rpos = s.rlen) {k : Nat} {later : OpenFile} (positive : 0 < k)
    (inside : s.file.pos + k ≤ s.file.content.length) (kept : later.content = s.file.content)
    (pos : later.pos = s.file.pos + k) :
    ({ s with file := later } : ReadStream).Sound content (d ++ (s.file.content.drop s.file.pos).take k) where
  order := by
    rw [kept, pos, sound.drained empty, List.take_add, empty, List.drop_eq_nil_of_le (List.length_take_le _ _),
      List.append_nil]
  inside := by rw [kept, pos]; exact inside
  position := sound.position
  filled := sound.filled
  size := sound.size
  readable := sound.readable
  ended := fun eof => by
    have last := (sound.ended eof).2
    omega
  same := kept.trans sound.same

end ReadStream

/-- What a call may answer, given the stream after it. -/
def ReadOutcome.Answers (after : ReadStream) : ReadCall → ReadOutcome → Prop
  | .fgetc, .char c => (c = eofChar ∧ (after.eof = true ∨ after.err = true)) ∨ ∃ b : UInt8, c = b.toNat
  | .fgets n, .line none => n ≤ 0 ∨ after.eof = true ∨ after.err = true
  | .fgets n, .line (some buf) => ∃ text, buf = text ++ [0] ∧ (text.length : Int) ≤ n - 1 ∧ 10 ∉ text.dropLast
      ∧ ((text.length : Int) = n - 1 ∨ text.getLast? = some 10 ∨ after.eof = true ∨ after.err = true)
  | .fread size nmemb, .elements count out => out.length ≤ size * nmemb ∧ count = out.length / size
      ∧ (out.length < size * nmemb → after.eof = true ∨ after.err = true)
  | _, _ => False

/-- The caller's promise: the size of all elements does not wrap around. -/
def ReadCall.Fits : ReadCall → Prop
  | fread size nmemb => size * nmemb < 2 ^ 64
  | _ => True

namespace ReadStream

variable {s : ReadStream} {content d : List UInt8}

theorem Sound.delivered (sound : s.Sound content d) : d <+: content := by
  have order := sound.order
  exact sound.same ▸ (order ▸ List.prefix_append d _).trans (List.take_prefix _ _)

theorem Sound.complete (sound : s.Sound content d) (eof : s.eof = true) : d = content := by
  obtain ⟨empty, last⟩ := sound.ended eof
  rw [sound.drained empty, last, List.take_length, sound.same]

end ReadStream

end Systrix.User
