import Systrix.User.WriteStreamLaws
import Mathlib.Data.Nat.Digits.Lemmas

/-!
# Formatted output to descriptors and streams

`vsnprintf`, `vfprintf`, `vprintf` and `vfprint` of `user/libc.c`.  `none` stands for what C leaves undefined: arguments
that are missing or of another kind than the format says, and a read of bytes of `tmp` that were not stored.
-/

namespace Systrix.User

open Systrix.Libc (wrapInt digitTable)

/-- A `double` as the conversion uses it: whether it is below zero, its bits, and for its magnitude the integer part and
the fraction times a scale, rounded. -/
structure Double where
  negative : Bool
  bits : BitVec 64
  ipart : BitVec 64
  scaled : BitVec 64 → BitVec 64

/-- An argument of a call with a format: an integer or an address, a string or a null pointer, and a `double`. -/
inductive VaArg where
  | int (bits : BitVec 64)
  | str (text : Option (List UInt8))
  | double (value : Double)

/-- `va_arg(ap, int)` -/
def vaInt : List VaArg → Option (Int × List VaArg)
  | .int bits :: args => some ((bits.setWidth 32).toInt, args)
  | _ => none

/-! ## A directive -/

/-- `left`, `zero_pad`, `alt`, `plus` and `space` -/
structure Flags where
  left : Bool := false
  zero_pad : Bool := false
  alt : Bool := false
  plus : Bool := false
  space : Bool := false

/-- The loop over the flags. -/
def readFlags (f : Flags) : List UInt8 → Flags × List UInt8
  | [] => (f, [])
  | c :: fmt =>
      if c = '-'.toUInt8 then readFlags { f with left := true } fmt
      else if c = '0'.toUInt8 then readFlags { f with zero_pad := true } fmt
      else if c = '#'.toUInt8 then readFlags { f with alt := true } fmt
      else if c = '+'.toUInt8 then readFlags { f with plus := true } fmt
      else if c = ' '.toUInt8 then readFlags { f with space := true } fmt
      else (f, c :: fmt)

/-- `while (isdigit(*fmt)) width = width * 10 + (*fmt++ - '0');` -/
def readDecimal (n : Int) : List UInt8 → Int × List UInt8
  | [] => (n, [])
  | c :: fmt =>
      if '0'.toUInt8 ≤ c ∧ c ≤ '9'.toUInt8 then readDecimal (wrapInt (n * 10 + (c.toNat - 48))) fmt
      else (n, c :: fmt)

/-- A width or a precision: an argument or a decimal number. -/
def readNumber (fmt : List UInt8) (args : List VaArg) : Option (Int × List UInt8 × List VaArg) :=
  if fmt.head? = some '*'.toUInt8 then do
    let (n, args) ← vaInt args
    return (n, fmt.tail, args)
  else some ((readDecimal 0 fmt).1, (readDecimal 0 fmt).2, args)

/-- The precision. -/
def readPrecision (fmt : List UInt8) (args : List VaArg) : Option (Int × List UInt8 × List VaArg) :=
  if fmt.head? = some '.'.toUInt8 then readNumber fmt.tail args else some (-1, fmt, args)

/-- `lmod`: 0 for `int`, 1 for `long` and 2 for `long long`. -/
def readLength : List UInt8 → Nat × List UInt8
  | [] => (0, [])
  | c :: fmt =>
      if c = 'l'.toUInt8 then (if fmt.head? = some 'l'.toUInt8 then (2, fmt.tail) else (1, fmt))
      else if c = 'h'.toUInt8 then (0, if fmt.head? = some 'h'.toUInt8 then fmt.tail else fmt)
      else if c = 'z'.toUInt8 ∨ c = 't'.toUInt8 then (1, fmt)
      else (0, c :: fmt)

/-- `while (pad-- > 0) _PUTC(c);` -/
def padText (c : UInt8) (pad : Int) : List UInt8 := List.replicate pad.toNat c

/-- The digits of a number, the last one first, as the loops leave them in `tmp`. -/
def digitsReversed (base : Nat) (upper : Bool) (v : Nat) : List UInt8 :=
  if v = 0 then ['0'.toUInt8] else (Nat.digits base v).map fun digit => (digitTable upper).getD digit 0

/-- A number with what stands before it, padded to a width. -/
def paddedText (f : Flags) (width : Int) (lead digits : List UInt8) : List UInt8 :=
  let total : Int := digits.length + lead.length
  let pad := if total < width then width - total else 0
  let padch := if f.zero_pad ∧ ¬f.left then '0'.toUInt8 else ' '.toUInt8
  (if ¬f.left ∧ padch = ' '.toUInt8 then padText ' '.toUInt8 pad else []) ++ lead ++
    (if ¬f.left ∧ padch = '0'.toUInt8 then padText '0'.toUInt8 pad else []) ++ digits.reverse ++
    (if f.left then padText ' '.toUInt8 pad else [])

def emitStr (s : List UInt8) (width : Int) (left : Bool) (prec : Int) : List UInt8 :=
  let slen := if 0 ≤ prec ∧ prec < s.length then prec.toNat else s.length
  let pad := if 0 < width ∧ (slen : Int) < width then wrapInt (width - slen) else 0
  (if left then [] else padText ' '.toUInt8 pad) ++ s.take slen ++ (if left then padText ' '.toUInt8 pad else [])

def emitUint (f : Flags) (v : BitVec 64) (base : Nat) (upper : Bool) (width : Int) (prefixed : Bool) : List UInt8 :=
  let tmp := digitsReversed base upper v.toNat
  let pre :=
    if prefixed ∧ base = 16 then ['0'.toUInt8, if upper then 'X'.toUInt8 else 'x'.toUInt8]
    else if prefixed ∧ base = 8 ∧ tmp ≠ ['0'.toUInt8] then ['0'.toUInt8]
    else []
  paddedText f width pre tmp

/-- The conversion of `d` and `i`. -/
def emitInt (f : Flags) (v : BitVec 64) (width : Int) : List UInt8 :=
  let uv := if v.toInt < 0 then -v else v
  let sign :=
    if v.toInt < 0 then ['-'.toUInt8] else if f.plus then ['+'.toUInt8] else if f.space then [' '.toUInt8] else []
  paddedText f width sign (digitsReversed 10 false uv.toNat)

/-- The last digits of a number, `prec` of them, the first one first. -/
def fraction (prec : Nat) (v : Nat) : List UInt8 :=
  ((List.range prec).map fun i => UInt8.ofNat (48 + v / 10 ^ i % 10)).reverse

/-- `ftmp` -/
def floatText (f : Flags) (spec : UInt8) (dv : Double) (prec : Int) : List UInt8 :=
  let prec := if prec < 0 then 6 else prec
  let fsign :=
    if dv.negative then ['-'.toUInt8] else if f.plus then ['+'.toUInt8] else if f.space then [' '.toUInt8] else []
  if (dv.bits >>> 52) &&& 0x7FF = 0x7FF then
    let fs := if dv.bits &&& 0x000FFFFFFFFFFFFF ≠ 0 then ['n', 'a', 'n'] else ['i', 'n', 'f']
    fsign ++ fs.map fun c => if 'a'.toUInt8 ≤ spec then c.toUInt8 else c.toUInt8 - 32
  else
    let prec := if 17 < prec then 17 else prec.toNat
    let scale : BitVec 64 := BitVec.ofNat 64 (10 ^ prec)
    let frac_digits := dv.scaled scale
    let ipart := if scale ≤ frac_digits then dv.ipart + 1 else dv.ipart
    let frac_digits := if scale ≤ frac_digits then frac_digits - scale else frac_digits
    fsign ++ (digitsReversed 10 false ipart.toNat).reverse ++
      (if 0 < prec ∨ f.alt then '.'.toUInt8 :: fraction prec frac_digits.toNat else [])

/-- The conversions of a `double`: with zeros to pad and a sign, nothing is padded. -/
def emitFloat (f : Flags) (spec : UInt8) (dv : Double) (width prec : Int) : List UInt8 :=
  let ftmp := floatText f spec dv prec
  let fpad := if ftmp.length < width then width - ftmp.length else 0
  let fpadch := if f.zero_pad ∧ ¬f.left then '0'.toUInt8 else ' '.toUInt8
  if ¬f.left ∧ fpadch = ' '.toUInt8 then padText ' '.toUInt8 fpad ++ ftmp
  else if ¬f.left then
    if ftmp.head? ∈ [some '-'.toUInt8, some '+'.toUInt8, some ' '.toUInt8] then ftmp else padText '0'.toUInt8 fpad ++ ftmp
  else ftmp ++ padText ' '.toUInt8 fpad

/-- The value of an integer argument: an `int` is extended with its sign or without. -/
def intArg (signed : Bool) (lmod : Nat) (bits : BitVec 64) : BitVec 64 :=
  if lmod = 0 then (if signed then (bits.setWidth 32).signExtend 64 else (bits.setWidth 32).setWidth 64) else bits

/-- What a directive does: the characters it puts, an `int` it stores at an address, and the arguments behind its own. -/
structure Conversion where
  text : List UInt8
  store : Option (BitVec 64 × Int) := none
  args : List VaArg

/-- The `switch` over the conversions, after `pos` characters. -/
def convert (pos : Nat) (f : Flags) (width prec : Int) (lmod : Nat) (spec : UInt8) (args : List VaArg) : Option Conversion :=
  if spec = 'c'.toUInt8 then
    match args with
    | .int bits :: args =>
        let pad := if 1 < width then width - 1 else 0
        some { text := (if f.left then [] else padText ' '.toUInt8 pad) ++ [UInt8.ofNat bits.toNat] ++
                (if f.left then padText ' '.toUInt8 pad else []), args := args }
    | _ => none
  else if spec = 's'.toUInt8 then
    match args with
    | .str s :: args =>
        let s := s.getD (['(', 'n', 'u', 'l', 'l', ')'].map Char.toUInt8)
        some { text := emitStr s width f.left prec, args := args }
    | _ => none
  else if spec = 'd'.toUInt8 ∨ spec = 'i'.toUInt8 then
    match args with
    | .int bits :: args => some { text := emitInt f (intArg true lmod bits) width, args := args }
    | _ => none
  else if spec = 'u'.toUInt8 then
    match args with
    | .int bits :: args => some { text := emitUint f (intArg false lmod bits) 10 false width false, args := args }
    | _ => none
  else if spec = 'x'.toUInt8 ∨ spec = 'X'.toUInt8 then
    match args with
    | .int bits :: args =>
        some { text := emitUint f (intArg false lmod bits) 16 (spec = 'X'.toUInt8) width f.alt, args := args }
    | _ => none
  else if spec = 'o'.toUInt8 then
    match args with
    | .int bits :: args => some { text := emitUint f (intArg false lmod bits) 8 false width f.alt, args := args }
    | _ => none
  else if spec = 'p'.toUInt8 then
    match args with
    | .int bits :: args =>
        let width := if 2 < width then width - 2 else 0
        some { text := ['0'.toUInt8, 'x'.toUInt8] ++ emitUint { f with zero_pad := true } bits 16 false width false,
               args := args }
    | _ => none
  else if spec = '%'.toUInt8 then some { text := ['%'.toUInt8], args := args }
  else if spec ∈ ['f', 'F', 'e', 'E', 'g', 'G'].map Char.toUInt8 then
    match args with
    | .double dv :: args => some { text := emitFloat f spec dv width prec, args := args }
    | _ => none
  else if spec = 'n'.toUInt8 then
    match args with
    | .int np :: args => some { text := [], store := if np ≠ 0 then some (np, wrapInt pos) else none, args := args }
    | _ => none
  else some { text := ['%'.toUInt8, spec], args := args }

/-- A directive, from behind the percent sign, and what is left of the format.  A format that ends within it ends the
text. -/
def directive (pos : Nat) (fmt : List UInt8) (args : List VaArg) : Option (Conversion × List UInt8) := do
  let (f, fmt) := readFlags {} fmt
  let (width, fmt, args) ← readNumber fmt args
  let (prec, fmt, args) ← readPrecision fmt args
  let (lmod, fmt) := readLength fmt
  match fmt with
  | [] => some ({ text := [], args := args }, [])
  | spec :: fmt => do
      let conversion ← convert pos f width prec lmod spec args
      return (conversion, fmt)

/-! ## `vsnprintf` -/

/-- The characters that a format puts, and the counts it stores. -/
structure Formatted where
  text : List UInt8
  stores : List (BitVec 64 × Int)

/-- The loop of `vsnprintf` after `pos` characters.  Each round reads a part of the format. -/
def formatLoop : (fuel pos : Nat) → (fmt : List UInt8) → List VaArg → Option Formatted
  | _, _, [], _ => some ⟨[], []⟩
  | 0, _, _ :: _, _ => none
  | fuel + 1, pos, c :: fmt, args =>
      if c ≠ '%'.toUInt8 then do
        let rest ← formatLoop fuel (pos + 1) fmt args
        return ⟨c :: rest.text, rest.stores⟩
      else do
        let (conversion, fmt) ← directive pos fmt args
        let rest ← formatLoop fuel (pos + conversion.text.length) fmt conversion.args
        return ⟨conversion.text ++ rest.text, conversion.store.toList ++ rest.stores⟩

/-- The text of a format and its arguments. -/
def formatText (fmt : List UInt8) (args : List VaArg) : Option Formatted := formatLoop fmt.length 0 fmt args

/-- A buffer on the stack, of which some bytes were stored, and `pos`. -/
structure Tmp where
  stored : Nat → Option UInt8
  pos : Nat

def Tmp.putc (size : Nat) (tmp : Tmp) (c : UInt8) : Tmp :=
  ⟨if tmp.pos < size - 1 then Function.update tmp.stored tmp.pos (some c) else tmp.stored, tmp.pos + 1⟩

/-- A call of an output function: its result, where it wrote to, and the counts stored by `%n`. -/
structure Printed (Sink : Type) where
  result : Int
  sink : Sink
  stores : List (BitVec 64 × Int)

/-- `vsnprintf` into a fresh buffer. -/
def vsnprintf (size : Nat) (fmt : List UInt8) (args : List VaArg) : Option (Printed (Nat → Option UInt8)) :=
  if size = 0 then some ⟨0, fun _ => none, []⟩
  else do
    let formatted ← formatText fmt args
    let tmp := formatted.text.foldl (Tmp.putc size) ⟨fun _ => none, 0⟩
    let last := if tmp.pos < size then tmp.pos else size - 1
    return ⟨wrapInt tmp.pos, Function.update tmp.stored last (some 0), formatted.stores⟩

/-- The first bytes of a buffer, all of which must have been stored. -/
def readTmp (buf : Nat → Option UInt8) (n : Nat) : Option (List UInt8) := (List.range n).mapM buf

def vfprintf (file : WrittenFile) (fmt : List UInt8) (args : List VaArg) : Option (Printed WrittenFile) := do
  let tmp ← vsnprintf 1024 fmt args
  let bytes ← readTmp tmp.sink (if tmp.result < 0 then 0 else tmp.result.toNat)
  return { tmp with sink := (file.write bytes).2 }

/-- `vprintf`, for the file behind descriptor 1. -/
def vprintf (stdout : WrittenFile) (fmt : List UInt8) (args : List VaArg) : Option (Printed WrittenFile) :=
  vfprintf stdout fmt args

def vfprint (fuel : Nat) (f : WriteStream) (fmt : List UInt8) (args : List VaArg) : Option (Printed WriteStream) := do
  let tmp ← vsnprintf 2048 fmt args
  if tmp.result ≤ 0 ∨ f.writable = false then return { tmp with sink := f }
  else do
    let bytes ← readTmp tmp.sink tmp.result.toNat
    let count ← f.fwrite fuel bytes 1 tmp.result.toNat
    return { tmp with sink := count.2 }

end Systrix.User
