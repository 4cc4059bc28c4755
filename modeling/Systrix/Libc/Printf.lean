import Mathlib.Data.Nat.Bitwise
import Mathlib.Tactic.Common

/-!
# Formatted output

`slibc_vprintf_cb` and `vsnprintf` of `libc/systrix_libc.c`.  The characters that are handed to the callback are a
list.  `none` stands for what C leaves undefined: arguments that are missing or of another kind, a format that ends
within a directive, and a write behind the end of `tmp`.
-/

namespace Systrix.Libc

/-- The value of an `int` that wraps around. -/
def wrapInt (n : Int) : Int := n.bmod (2 ^ 32)

/-- An argument of a call with a format: an integer or an address, and a string or a null pointer. -/
inductive VaArg where
  | int (bits : BitVec 64)
  | str (text : Option (List UInt8))

/-! ## A directive -/

/-- `flag_left`, `flag_zero`, `flag_plus`, `flag_space` and `flag_hash` -/
structure FormatFlags where
  left : Bool := false
  zero : Bool := false
  plus : Bool := false
  space : Bool := false
  hash : Bool := false

/-- The loop over the flags. -/
def readFlags (f : FormatFlags) : List UInt8 → FormatFlags × List UInt8
  | [] => (f, [])
  | c :: fmt =>
      if c = '-'.toUInt8 then readFlags { f with left := true } fmt
      else if c = '0'.toUInt8 then readFlags { f with zero := true } fmt
      else if c = '+'.toUInt8 then readFlags { f with plus := true } fmt
      else if c = ' '.toUInt8 then readFlags { f with space := true } fmt
      else if c = '#'.toUInt8 then readFlags { f with hash := true } fmt
      else (f, c :: fmt)

/-- `while (*fmt >= '0' && *fmt <= '9') width = width * 10 + (*fmt++ - '0');` -/
def readDecimal (n : Int) : List UInt8 → Int × List UInt8
  | [] => (n, [])
  | c :: fmt =>
      if '0'.toUInt8 ≤ c ∧ c ≤ '9'.toUInt8 then readDecimal (wrapInt (n * 10 + (c.toNat - 48))) fmt
      else (n, c :: fmt)

/-- `va_arg(ap, int)` -/
def vaInt : List VaArg → Option (Int × List VaArg)
  | .int bits :: args => some ((bits.setWidth 32).toInt, args)
  | _ => none

/-- The width. -/
def readWidth (f : FormatFlags) (fmt : List UInt8) (args : List VaArg) :
    Option (FormatFlags × Int × List UInt8 × List VaArg) :=
  if fmt.head? = some '*'.toUInt8 then do
    let (width, args) ← vaInt args
    return if width < 0 then ({ f with left := true }, wrapInt (-width), fmt.tail, args)
      else (f, width, fmt.tail, args)
  else
    let (width, fmt) := readDecimal 0 fmt
    some (f, width, fmt, args)

/-- The precision. -/
def readPrecision (fmt : List UInt8) (args : List VaArg) : Option (Int × List UInt8 × List VaArg) :=
  if fmt.head? ≠ some '.'.toUInt8 then some (-1, fmt, args)
  else if fmt.tail.head? = some '*'.toUInt8 then do
    let (prec, args) ← vaInt args
    return (prec, fmt.tail.tail, args)
  else
    let (prec, fmt) := readDecimal 0 fmt.tail
    some (prec, fmt, args)

/-- The length modifier: 0 for `int`, 1 for `long` and 2 for `long long`. -/
def readLength : List UInt8 → Nat × List UInt8
  | [] => (0, [])
  | c :: fmt =>
      if c = 'l'.toUInt8 then (if fmt.head? = some 'l'.toUInt8 then (2, fmt.tail) else (1, fmt))
      else if c = 'h'.toUInt8 then (0, if fmt.head? = some 'h'.toUInt8 then fmt.tail else fmt)
      else if c = 'z'.toUInt8 then (1, fmt)
      else (0, c :: fmt)

/-- A character as often as `for (int i = from; i < width; i++)` runs. -/
def padding (c : UInt8) (start width : Int) : List UInt8 := List.replicate (width - start).toNat c

/-- `digs` -/
def digitTable (upper : Bool) : List UInt8 :=
  (if upper then ['0', '1', '2', '3', '4', '5', '6', '7', '8', '9', 'A', 'B', 'C', 'D', 'E', 'F']
    else ['0', '1', '2', '3', '4', '5', '6', '7', '8', '9', 'a', 'b', 'c', 'd', 'e', 'f']).map Char.toUInt8

/-- `while (v) { tmp[tlen++] = digs[v % base]; v /= base; }` with `room` places left in `tmp`. -/
def digitsReversed (base : Nat) (digs : List UInt8) : (room v : Nat) → Option (List UInt8)
  | 0, v => if v = 0 then some [] else none
  | room + 1, v =>
      if v = 0 then some []
      else do
        let digit ← digs[v % base]?
        let tmp ← digitsReversed base digs room (v / base)
        return digit :: tmp

/-- The digits of a number in `tmp`, the last one first. -/
def tmpDigits (base : Nat) (digs : List UInt8) (uval : BitVec 64) : Option (List UInt8) :=
  if uval = 0 then some ['0'.toUInt8] else digitsReversed base digs 24 uval.toNat

/-- The sign in `prefix`. -/
def signText (f : FormatFlags) (neg : Bool) : List UInt8 :=
  if neg then ['-'.toUInt8] else if f.plus then ['+'.toUInt8] else if f.space then [' '.toUInt8] else []

/-- The mark of the base in `prefix`. -/
def altText (f : FormatFlags) (spec : UInt8) (uval : BitVec 64) (tmp : List UInt8) : List UInt8 :=
  if f.hash ∧ (spec = 'x'.toUInt8 ∨ spec = 'X'.toUInt8) ∧ uval ≠ 0 then
    ['0'.toUInt8, if spec = 'X'.toUInt8 then 'X'.toUInt8 else 'x'.toUInt8]
  else if f.hash ∧ spec = 'o'.toUInt8 ∧ (tmp = [] ∨ tmp.getLast? ≠ some '0'.toUInt8) then ['0'.toUInt8]
  else []

/-- `base` -/
def specBase (spec : UInt8) : Nat :=
  if spec = 'x'.toUInt8 ∨ spec = 'X'.toUInt8 then 16 else if spec = 'o'.toUInt8 then 8 else 10

/-- The end of a numeric directive. -/
def numberText (f : FormatFlags) (width : Int) (spec : UInt8) (uval : BitVec 64) (neg : Bool) :
    Option (List UInt8) := do
  let tmp ← tmpDigits (specBase spec) (digitTable (spec = 'X'.toUInt8)) uval
  let lead := signText f neg ++ altText f spec uval tmp
  let numw : Int := tmp.length + lead.length
  let pad := if ¬f.left ∧ f.zero then '0'.toUInt8 else ' '.toUInt8
  return (if ¬f.left ∧ pad = ' '.toUInt8 then padding ' '.toUInt8 numw width else []) ++ lead ++
    (if ¬f.left ∧ pad = '0'.toUInt8 then padding '0'.toUInt8 numw width else []) ++ tmp.reverse ++
    (if f.left then padding ' '.toUInt8 numw width else [])

/-- The value of an integer argument: its magnitude and whether a minus stands before it. -/
def numberArg (spec : UInt8) (lng : Nat) (bits : BitVec 64) : BitVec 64 × Bool :=
  if spec = 'd'.toUInt8 ∨ spec = 'i'.toUInt8 then
    let sv := if lng = 0 then (bits.setWidth 32).signExtend 64 else bits
    if sv.toInt < 0 then (-sv, true) else (sv, false)
  else (if lng = 0 then (bits.setWidth 32).setWidth 64 else bits, false)

/-- A directive, from behind the percent sign: its text, and what is left of the format and the arguments. -/
def directive (fmt : List UInt8) (args : List VaArg) : Option (List UInt8 × List UInt8 × List VaArg) := do
  let (f, fmt) := readFlags {} fmt
  let (f, width, fmt, args) ← readWidth f fmt args
  let (prec, fmt, args) ← readPrecision fmt args
  let (lng, fmt) := readLength fmt
  match fmt with
  | [] => none
  | spec :: fmt =>
      if spec = '%'.toUInt8 then some (['%'.toUInt8], fmt, args)
      else if spec = 'c'.toUInt8 then
        match args with
        | .int bits :: args =>
            let fill := padding ' '.toUInt8 1 width
            let text := (if f.left then [] else fill) ++ [UInt8.ofNat bits.toNat] ++ (if f.left then fill else [])
            some (text, fmt, args)
        | _ => none
      else if spec = 's'.toUInt8 then
        match args with
        | .str text :: args =>
            let sv := text.getD (['(', 'n', 'u', 'l', 'l', ')'].map Char.toUInt8)
            let sl := wrapInt (if 0 ≤ prec then min sv.length prec.toNat else sv.length)
            let fill := padding ' '.toUInt8 sl width
            let text := (if f.left then [] else fill) ++ sv.take sl.toNat ++ (if f.left then fill else [])
            some (text, fmt, args)
        | _ => none
      else
        match args with
        | .int bits :: args => do
            let (spec, f, lng) :=
              if spec = 'p'.toUInt8 then ('x'.toUInt8, { f with hash := true }, 2) else (spec, f, lng)
            let (uval, neg) := numberArg spec lng bits
            let text ← numberText f width spec uval neg
            return (text, fmt, args)
        | _ => none

/-- `slibc_vprintf_cb`: the characters handed to the callback.  Each round reads a part of the format. -/
def vprintfCb : (fuel : Nat) → (fmt : List UInt8) → List VaArg → Option (List UInt8)
  | _, [], _ => some []
  | 0, _ :: _, _ => none
  | fuel + 1, c :: fmt, args =>
      if c ≠ '%'.toUInt8 then do
        let rest ← vprintfCb fuel fmt args
        return c :: rest
      else do
        let (text, fmt, args) ← directive fmt args
        let rest ← vprintfCb fuel fmt args
        return text ++ rest

/-- The text of a format and its arguments. -/
def formatText (fmt : List UInt8) (args : List VaArg) : Option (List UInt8) := vprintfCb fmt.length fmt args

/-! ## `vsnprintf` -/

/-- `_snbuf`: what was written, and the room that is left. -/
structure SnBuf where
  out : List UInt8
  rem : Nat

/-- `_sn_putc` -/
def SnBuf.putc (b : SnBuf) (c : UInt8) : SnBuf := if 1 < b.rem then ⟨b.out ++ [c], b.rem - 1⟩ else b

/-- `vsnprintf`: the string it leaves in the buffer, and the result. -/
def vsnprintf (size : Nat) (fmt : List UInt8) (args : List VaArg) : Option (List UInt8 × Int) :=
  if size = 0 then some ([], 0)
  else do
    let text ← formatText fmt args
    return ((text.foldl SnBuf.putc ⟨[], size⟩).out, wrapInt text.length)

/-- The buffer takes all but one of its places for characters. -/
theorem SnBuf.foldl_putc (text : List UInt8) (b : SnBuf) :
    (text.foldl SnBuf.putc b).out = b.out ++ text.take (b.rem - 1) := by
  induction text generalizing b with
  | nil => rw [List.take_nil, List.append_nil, List.foldl_nil]
  | cons c text ih =>
      rw [List.foldl_cons, ih, SnBuf.putc]
      by_cases room : 1 < b.rem
      · obtain ⟨k, eq⟩ := Nat.exists_eq_add_of_lt room
        have left : b.rem - 1 = k + 1 := by omega
        rw [if_pos room, left, List.take_succ_cons, List.append_assoc]
        rfl
      · have none : b.rem - 1 = 0 := by omega
        rw [if_neg room, none, List.take_zero, List.take_zero]

theorem vsnprintf_eq {size : Nat} (room : size ≠ 0) {fmt : List UInt8} {args : List VaArg} {text : List UInt8}
    (formatted : formatText fmt args = some text) :
    vsnprintf size fmt args = some (text.take (size - 1), wrapInt text.length) := by
  rw [vsnprintf, if_neg room, formatted]
  exact congrArg (fun out => some (out, wrapInt text.length)) (SnBuf.foldl_putc text ⟨[], size⟩)

end Systrix.Libc
