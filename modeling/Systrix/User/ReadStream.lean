import Mathlib.Data.List.TakeDrop
import Mathlib.Data.Nat.Bitwise
import Mathlib.Tactic.Common

/-!
# Buffered reading

`fread`, `fgetc` and `fgets` of `user/libc.c` on a stream that is only read.  `fgetc` refills the buffer of the stream,
and `fread` reads past it once it is empty.  The kernel decides at each read how many bytes it gives.
-/

namespace Systrix.User

def bufsiz : Nat := 4096

/-- `EOF` -/
def eofChar : Int := -1

/-- What a read is ready to give: at most so many bytes, or nothing because it fails. -/
inductive ReadAnswer where
  | bytes (most : Nat)
  | failure

/-- A file that is open for reading, and the answers to all reads of it. -/
structure OpenFile where
  content : List UInt8
  pos : Nat
  answers : Nat → ReadAnswer
  reads : Nat

/-- `read`: the result, the bytes that are stored, and the file.  Before the end of the file it gives at least one byte,
and never more than asked for or than `ssize_t` can count. -/
def OpenFile.read (file : OpenFile) (count : Nat) : Int × List UInt8 × OpenFile :=
  match file.answers file.reads with
  | .failure => (-1, [], { file with reads := file.reads + 1 })
  | .bytes most =>
      let n := min (max 1 most) (min (2 ^ 63 - 1) (min count (file.content.length - file.pos)))
      (n, (file.content.drop file.pos).take n, { file with pos := file.pos + n, reads := file.reads + 1 })

/-- The `FILE` of a read stream: its flags, its buffer, and the file behind `fd`. -/
structure ReadStream where
  file : OpenFile
  readable : Bool
  eof : Bool
  err : Bool
  rbuf : List UInt8
  rpos : Nat
  rlen : Nat

namespace ReadStream

/-- The flags after a read that gave no bytes. -/
def ended (s : ReadStream) (n : Int) (file : OpenFile) : ReadStream :=
  if n = 0 then { s with file := file, eof := true } else { s with file := file, err := true }

/-- `while (got < total && f->rpos < f->rlen) out[got++] = f->rbuf[f->rpos++];`, for `total - got` bytes. -/
def drain : (left : Nat) → ReadStream → List UInt8 × ReadStream
  | 0, s => ([], s)
  | left + 1, s =>
      if s.rpos < s.rlen then
        let (out, later) := drain left { s with rpos := s.rpos + 1 }
        (s.rbuf.getD s.rpos 0 :: out, later)
      else ([], s)

/-- The loop of `fread` that reads into the caller's memory, for `total - got` bytes.  Each turn but the last reads at
least one of them, so that there are at most as many turns. -/
def direct : (turns : Nat) → (left : Nat) → ReadStream → List UInt8 × ReadStream
  | 0, _, s => ([], s)
  | turns + 1, left, s =>
      if left = 0 then ([], s)
      else
        let (n, bytes, file) := s.file.read left
        if n ≤ 0 then ([], s.ended n file)
        else
          let (out, later) := direct turns (left - n.toNat) { s with file := file }
          (bytes ++ out, later)

/-- `fread`: the number of elements, the bytes that are stored, and the stream. -/
def fread (size nmemb : Nat) (s : ReadStream) : Nat × List UInt8 × ReadStream :=
  if s.readable = false ∨ s.eof = true then (0, [], s)
  else
    let total := size * nmemb % 2 ^ 64
    if total = 0 then (0, [], s)
    else
      let (first, s) := s.drain total
      let (rest, s) := s.direct (total - first.length) (total - first.length)
      let out := first ++ rest
      (if 0 < size then out.length / size else 0, out, s)

def fgetc (s : ReadStream) : Int × ReadStream :=
  if s.readable = false ∨ s.eof = true then (eofChar, s)
  else if s.rpos < s.rlen then ((s.rbuf.getD s.rpos 0).toNat, { s with rpos := s.rpos + 1 })
  else
    let (n, bytes, file) := s.file.read bufsiz
    if n ≤ 0 then (eofChar, s.ended n file)
    else
      let rbuf := bytes ++ s.rbuf.drop bytes.length
      ((rbuf.getD 0 0).toNat, { s with file := file, rbuf := rbuf, rpos := 1, rlen := n.toNat })

/-- The loop of `fgets`, for `n - 1 - i` characters. -/
def fgetsLoop : (left : Nat) → ReadStream → List UInt8 × ReadStream
  | 0, s => ([], s)
  | left + 1, s =>
      let (c, s) := s.fgetc
      if c = eofChar then ([], s)
      else
        let ch := c.toNat.toUInt8
        if ch = 10 then ([ch], s)
        else
          let (rest, s) := fgetsLoop left s
          (ch :: rest, s)

/-- `fgets`: the string in `buf` with its terminator, or `NULL`. -/
def fgets (n : Int) (s : ReadStream) : Option (List UInt8) × ReadStream :=
  if n ≤ 0 then (none, s)
  else
    let (text, s) := s.fgetsLoop (n - 1).toNat
    if text = [] ∧ 0 < n - 1 then (none, s) else (some (text ++ [0]), s)

end ReadStream

/-- The calls on a read stream. -/
inductive ReadCall where
  | fgetc
  | fgets (n : Int)
  | fread (size nmemb : Nat)

/-- What a call gives its caller. -/
inductive ReadOutcome where
  | char (c : Int)
  | line (buf : Option (List UInt8))
  | elements (count : Nat) (out : List UInt8)

/-- The bytes of the file among what a call gives. -/
def ReadOutcome.bytes : ReadOutcome → List UInt8
  | char c => if c = eofChar then [] else [c.toNat.toUInt8]
  | line none => []
  | line (some buf) => buf.dropLast
  | elements _ out => out

/-- One call. -/
def ReadStream.perform (s : ReadStream) : ReadCall → ReadOutcome × ReadStream
  | .fgetc => (.char s.fgetc.1, s.fgetc.2)
  | .fgets n => (.line (s.fgets n).1, (s.fgets n).2)
  | .fread size nmemb => (.elements (s.fread size nmemb).1 (s.fread size nmemb).2.1, (s.fread size nmemb).2.2)

/-- The bytes that some calls deliver, and the stream after them. -/
def ReadStream.run (s : ReadStream) : List ReadCall → List UInt8 × ReadStream
  | [] => ([], s)
  | call :: calls => ((s.perform call).1.bytes ++ ((s.perform call).2.run calls).1, ((s.perform call).2.run calls).2)

/-- A stream that was just opened. -/
def ReadStream.opened (content : List UInt8) (answers : Nat → ReadAnswer) : ReadStream where
  file := ⟨content, 0, answers, 0⟩
  readable := true
  eof := false
  err := false
  rbuf := List.replicate bufsiz 0
  rpos := 0
  rlen := 0

/-! ## What is not delivered yet -/

namespace ReadStream

/-- What of the file was delivered: the buffer holds the bytes behind it, up to the position of the file. -/
structure Sound (s : ReadStream) (content delivered : List UInt8) : Prop where
  order : delivered ++ (s.rbuf.take s.rlen).drop s.rpos = s.file.content.take s.file.pos
  inside : s.file.pos ≤ s.file.content.length
  position : s.rpos ≤ s.rlen
  filled : s.rlen ≤ s.rbuf.length
  size : s.rbuf.length = bufsiz
  readable : s.readable = true
  ended : s.eof = true → s.rpos = s.rlen ∧ s.file.pos = s.file.content.length
  same : s.file.content = content

end ReadStream

theorem ReadStream.opened_sound (content : List UInt8) (answers : Nat → ReadAnswer) :
    (ReadStream.opened content answers).Sound content [] where
  order := rfl
  inside := Nat.zero_le _
  position := Nat.le_refl _
  filled := Nat.zero_le _
  size := List.length_replicate
  readable := rfl
  ended := nofun
  same := rfl

/-- What a read does: it gives the next bytes of the file, or says that there are none, or fails. -/
inductive OpenFile.Reads (file : OpenFile) (count : Nat) : Int × List UInt8 × OpenFile → Prop where
  | bytes {k : Nat} {later : OpenFile} (positive : 0 < k) (small : k ≤ count)
      (inside : file.pos + k ≤ file.content.length) (content : later.content = file.content)
      (pos : later.pos = file.pos + k) : Reads file count (k, (file.content.drop file.pos).take k, later)
  | last {later : OpenFile} (done : file.pos = file.content.length) (content : later.content = file.content)
      (pos : later.pos = file.pos) : Reads file count (0, [], later)
  | failed {later : OpenFile} (content : later.content = file.content) (pos : later.pos = file.pos) :
      Reads file count (-1, [], later)

theorem OpenFile.read_spec (file : OpenFile) {count : Nat} (positive : 0 < count)
    (inside : file.pos ≤ file.content.length) : file.Reads count (file.read count) := by
  unfold OpenFile.read
  cases file.answers file.reads with
  | failure => exact .failed rfl rfl
  | bytes most =>
    by_cases done : file.pos = file.content.length
    · have none : min (max 1 most) (min (2 ^ 63 - 1) (min count (file.content.length - file.pos))) = 0 := by omega
      simp only [none, List.take_zero, Nat.add_zero]
      exact .last done rfl rfl
    · exact .bytes (by omega) (by omega) (by omega) rfl rfl

end Systrix.User
