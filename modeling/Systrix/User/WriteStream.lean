import Systrix.Libc.Printf
import Systrix.User.ReadStream

/-!
# Buffered writing

`fwrite`, `fputc`, `fputs`, `fflush`, `fseek`, `ftell` and `fclose` of `user/libc.c` on a stream that is only written.
Bytes wait in the buffer of the stream until it is full or flushed.  The kernel decides at each write how many bytes it
takes.
-/

namespace Systrix.User

open Systrix.Libc (wrapInt)

/-- The bytes of a file after some are stored at a position. -/
def overwrite (content : List UInt8) (pos : Nat) (bytes : List UInt8) : List UInt8 :=
  content.take pos ++ bytes ++ content.drop (pos + bytes.length)

theorem length_overwrite {content : List UInt8} {pos : Nat} (inside : pos ≤ content.length) (bytes : List UInt8) :
    (overwrite content pos bytes).length = max content.length (pos + bytes.length) := by
  simp only [overwrite, List.length_append, List.length_take, List.length_drop]
  omega

@[simp] theorem overwrite_nil (content : List UInt8) (pos : Nat) : overwrite content pos [] = content := by
  simp [overwrite]

/-- Storing bytes behind others stores both. -/
theorem overwrite_overwrite {content : List UInt8} {pos : Nat} (inside : pos ≤ content.length) (a b : List UInt8) :
    overwrite (overwrite content pos a) (pos + a.length) b = overwrite content pos (a ++ b) := by
  have front : (content.take pos ++ a).length = pos + a.length := by
    rw [List.length_append, List.length_take]
    omega
  unfold overwrite
  rw [List.take_left' front, List.append_assoc (content.take pos) a b, List.length_append, ← Nat.add_assoc,
    ← List.drop_drop, List.drop_left' front, List.drop_drop]

/-- What a write is ready to take: at most so many bytes, or nothing because it fails. -/
inductive WriteAnswer where
  | bytes (most : Nat)
  | failure

/-- A file that is open for writing, the answers to all writes to it, and how many bytes they did not take so far.
Positions and sizes are `u32`, and no position is behind the end. -/
structure WrittenFile where
  content : List UInt8
  pos : Nat
  answers : Nat → WriteAnswer
  writes : Nat
  refused : Nat
  inside : pos ≤ content.length
  small : content.length < 2 ^ 32

namespace WrittenFile

/-- How many bytes of a write are taken. -/
def taken (file : WrittenFile) (most : Nat) (bytes : List UInt8) : Nat :=
  min most (min bytes.length (2 ^ 32 - 1 - file.pos))

/-- The file after some bytes are stored. -/
def store (file : WrittenFile) (n : Nat) (bytes : List UInt8) (short : n ≤ bytes.length) (fits : file.pos + n < 2 ^ 32) :
    WrittenFile where
  content := overwrite file.content file.pos (bytes.take n)
  pos := file.pos + n
  answers := file.answers
  writes := file.writes + 1
  refused := file.refused + (bytes.length - n)
  inside := by
    rw [length_overwrite file.inside, List.length_take]
    omega
  small := by
    have := file.small
    rw [length_overwrite file.inside, List.length_take]
    omega

def write (file : WrittenFile) (bytes : List UInt8) : Int × WrittenFile :=
  match file.answers file.writes with
  | .failure => (-1, { file with writes := file.writes + 1, refused := file.refused + bytes.length })
  | .bytes most =>
      (file.taken most bytes, file.store (file.taken most bytes) bytes (by unfold taken; omega) (by
        have := file.inside
        have := file.small
        unfold taken
        omega))

end WrittenFile

/-- `sys_lseek` for a file of a size and a position: the new position or an error. -/
def sysLseek (fd : Int) (size pos : Nat) (offset whence : Int) : Int :=
  if fd < 3 then -22
  else if whence = 0 then min (offset % 2 ^ 32) size
  else if whence = 1 then min ((pos + offset) % 2 ^ 32) size
  else if whence = 2 then min ((size + offset) % 2 ^ 32) size
  else -22

theorem sysLseek_le (fd : Int) (size pos : Nat) (offset whence : Int) : sysLseek fd size pos offset whence ≤ size := by
  unfold sysLseek
  split_ifs <;> omega

/-- `lseek` moves the file, or leaves it where it is with an error. -/
def WrittenFile.lseek (file : WrittenFile) (fd offset whence : Int) : Int × WrittenFile :=
  let r := sysLseek fd file.content.length file.pos offset whence
  if r < 0 then (r, file)
  else (r, { file with pos := r.toNat, inside := by have := sysLseek_le fd file.content.length file.pos offset whence; omega })

/-- The `FILE` of a write stream: its flags, the buffer up to `wpos`, the fields of the other buffer, and the file behind
`fd`. -/
structure WriteStream where
  file : WrittenFile
  fd : Int
  writable : Bool
  strm : Bool
  eof : Bool
  err : Bool
  wbuf : List UInt8
  rpos : Nat
  rlen : Nat

namespace WriteStream

def fflush (s : WriteStream) : Int × WriteStream :=
  if s.writable = false then (0, s)
  else if s.wbuf.length = 0 then (0, s)
  else
    let (n, file) := s.file.write s.wbuf
    let s := { s with file := file, wbuf := [] }
    if n < 0 then (-1, { s with err := true }) else (0, s)

/-- The loop of `fwrite`, which counts a chunk in an `int`. -/
def fwriteLoop (src : List UInt8) (total : Nat) : (fuel : Nat) → (written : Nat) → WriteStream → Option (Nat × WriteStream)
  | 0, _, _ => none
  | fuel + 1, written, s =>
      if written < total then
        let space : Int := bufsiz - s.wbuf.length
        let chunk := wrapInt (total - written : Nat)
        let chunk := if space < chunk then space else chunk
        let s := { s with wbuf := s.wbuf ++ (src.drop written).take chunk.toNat }
        let written := ((written + chunk) % 2 ^ 64).toNat
        if s.wbuf.length = bufsiz then
          let (r, s) := s.fflush
          if r < 0 then some (written, s) else fwriteLoop src total fuel written s
        else fwriteLoop src total fuel written s
      else some (written, s)

/-- `fwrite`: the number of elements. -/
def fwrite (fuel : Nat) (src : List UInt8) (size nmemb : Nat) (s : WriteStream) : Option (Nat × WriteStream) :=
  if s.writable = false then some (0, s)
  else
    let total := size * nmemb % 2 ^ 64
    if total = 0 then some (0, s)
    else if s.strm = true then
      let (n, file) := s.file.write (src.take total)
      if n < 0 then some (0, { s with file := file, err := true })
      else some (if 0 < size then n.toNat / size else 0, { s with file := file })
    else do
      let (written, s) ← fwriteLoop src total fuel 0 s
      return (if 0 < size then written / size else 0, s)

def fputc (fuel : Nat) (c : Int) (s : WriteStream) : Option (Int × WriteStream) := do
  let (n, s) ← s.fwrite fuel [UInt8.ofNat (c % 256).toNat] 1 1
  return (if n ≠ 1 then eofChar else c, s)

def fputs (fuel : Nat) (text : Option (List UInt8)) (s : WriteStream) : Option (Int × WriteStream) :=
  match text with
  | none => some (eofChar, s)
  | some text => do
      let (n, s) ← s.fwrite fuel text 1 text.length
      return (if n = text.length then 0 else eofChar, s)

def fseek (offset whence : Int) (s : WriteStream) : Int × WriteStream :=
  if s.fd < 0 then (-1, s)
  else
    let (_, s) := s.fflush
    let (r, file) := s.file.lseek s.fd offset whence
    (if r < 0 then -1 else 0, { s with file := file, rpos := 0, rlen := 0, eof := false })

def ftell (s : WriteStream) : Int :=
  if s.fd < 0 then -1 else (s.file.lseek s.fd 0 1).1 - ((s.rlen : Int) - s.rpos)

def fclose (s : WriteStream) : Int × WriteStream :=
  if s.fd < 0 then (-1, s)
  else
    let (_, s) := s.fflush
    (0, { s with fd := -1, writable := false, strm := false, eof := false, err := false, wbuf := [], rpos := 0, rlen := 0 })

end WriteStream

/-- The calls on a write stream. -/
inductive WriteCall where
  | fwrite (src : List UInt8) (size nmemb : Nat)
  | fputc (c : Int)
  | fputs (text : Option (List UInt8))
  | fflush
  | fseek (offset whence : Int)
  | ftell
  | fclose

/-- One call: its result and the stream after it. -/
def WriteStream.perform (fuel : Nat) (s : WriteStream) : WriteCall → Option (Int × WriteStream)
  | .fwrite src size nmemb => (s.fwrite fuel src size nmemb).map fun (count, s) => ((count : Int), s)
  | .fputc c => s.fputc fuel c
  | .fputs text => s.fputs fuel text
  | .fflush => some s.fflush
  | .fseek offset whence => some (s.fseek offset whence)
  | .ftell => some (s.ftell, s)
  | .fclose => some s.fclose

/-! ## What the calls report -/

/-- The bytes that a call reports as written. -/
def WriteCall.reported : WriteCall → Int → List UInt8
  | fwrite src size _, r => src.take (r.toNat * size)
  | fputc c, r => if r = eofChar then [] else [UInt8.ofNat (c % 256).toNat]
  | fputs text, r => if r = eofChar then [] else text.getD []
  | _, _ => []

/-- The file as the calls report it. -/
structure ReportedFile where
  content : List UInt8
  pos : Nat

/-- What a call with its result adds to the report.  A flush that reports an error takes back what is not in the file. -/
def ReportedFile.next (g : ReportedFile) (fd : Int) (call : WriteCall) (r : Int) (file : WrittenFile) : ReportedFile :=
  match call with
  | .fseek offset whence =>
      if r = 0 then { g with pos := (sysLseek fd g.content.length g.pos offset whence).toNat } else g
  | .fflush => if r < 0 then ⟨file.content, file.pos⟩ else g
  | call => ⟨overwrite g.content g.pos (call.reported r), g.pos + (call.reported r).length⟩

/-- A stream that was just opened. -/
def WriteStream.opened (file : WrittenFile) (fd : Int) (strm : Bool) : WriteStream :=
  ⟨file, fd, true, strm, false, false, [], 0, 0⟩

/-- The states that a stream and the report reach by calls that meet a condition in the state before them. -/
inductive Written (condition : WriteStream → WriteCall → Prop) (fuel : Nat) (start : WriteStream) :
    WriteStream → ReportedFile → Prop where
  | opened : Written condition fuel start start ⟨start.file.content, start.file.pos⟩
  | call {s after : WriteStream} {g : ReportedFile} {call : WriteCall} {r : Int} (before : Written condition fuel start s g)
      (met : condition s call) (run : s.perform fuel call = some (r, after)) :
      Written condition fuel start after (g.next s.fd call r after.file)

/-- The file holds what was reported, once the buffer is in it, and the next byte goes where it was reported. -/
structure Stored (s : WriteStream) (g : ReportedFile) : Prop where
  bytes : overwrite s.file.content s.file.pos s.wbuf = g.content
  place : s.file.pos + s.wbuf.length = g.pos

/-! ## When they report the truth -/

/-- Every write of a call takes all the bytes it is given. -/
def TakesAll (fuel : Nat) (s : WriteStream) (call : WriteCall) : Prop :=
  ∀ r after, s.perform fuel call = some (r, after) → after.file.refused = s.file.refused

/-- The condition on a call.  Writes take all bytes, or fail where the call says so; the bytes of an `fwrite` are whole
elements and fewer than `int` can count; no `EOF` is written as a character; and `ftell` finds an empty buffer. -/
def WriteCall.Clean (fuel : Nat) (s : WriteStream) (call : WriteCall) : Prop :=
  s.writable = false ∨
    match call with
    | .fwrite src size nmemb =>
        let total := size * nmemb % 2 ^ 64
        let n := (s.file.write (src.take total)).1
        total ≤ src.length
          ∧ if s.strm = true then n < 0 ∨ size ∣ n.toNat else total < 2 ^ 31 ∧ size ∣ total ∧ TakesAll fuel s call
    | .fputc c =>
        if s.strm = true then c ≠ eofChar ∨ (s.file.write [UInt8.ofNat (c % 256).toNat]).1 ≤ 0
        else c ≠ eofChar ∧ TakesAll fuel s call
    | .fputs text => ∀ t ∈ text, t.length < 2 ^ 64 ∧
        if s.strm = true then (s.file.write t).1 ≤ 0 ∨ (s.file.write t).1 = t.length
        else t.length < 2 ^ 31 ∧ TakesAll fuel s call
    | .fflush => (s.file.write s.wbuf).1 < 0 ∨ TakesAll fuel s call
    | .ftell => s.wbuf = []
    | .fseek _ _ | .fclose => TakesAll fuel s call

end Systrix.User
