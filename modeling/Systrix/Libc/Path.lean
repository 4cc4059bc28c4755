import Systrix.Lib.LexicalPath
import Systrix.Lib.TextBuffer

/-!
# The path functions of the C library

`slibc_path_*` of `libc/systrix_libc.c`.  `slibc_path_normalize` works on the bytes of the path, and `none`
stands for a write ahead of what is read, or for a loop that has no fuel left; the other functions read one
string and write another, and work on lists of characters without the terminator.
-/

namespace Systrix.Libc

/-- `'/'` -/
def slash : UInt8 := 0x2F

/-- `'.'` -/
def dot : UInt8 := 0x2E

/-! ## `slibc_path_normalize` -/

/-- The path and the pointers `src` and `dst`, as indices. -/
structure PathCursor where
  path : Nat → UInt8
  src : Nat
  dst : Nat

/-- `*dst++ = c` -/
def PathCursor.put (s : PathCursor) (c : UInt8) : Option PathCursor :=
  if s.dst ≤ s.src then some { s with path := Function.update s.path s.dst c, dst := s.dst + 1 } else none

/-- `while (*src && *src != '/') *dst++ = *src++;` -/
def copyName : (fuel : Nat) → PathCursor → Option PathCursor
  | 0, _ => none
  | fuel + 1, s =>
      let c := s.path s.src
      if c ≠ 0 ∧ c ≠ slash then do
        let s ← s.put c
        copyName fuel { s with src := s.src + 1 }
      else some s

/-- `while (dst > path + abs && *(dst - 1) != '/') dst--;` -/
def popName (abs : Nat) (path : Nat → UInt8) : (dst : Nat) → Nat
  | 0 => 0
  | dst + 1 => if abs < dst + 1 ∧ path dst ≠ slash then popName abs path dst else dst + 1

/-- The loop of `slibc_path_normalize`. -/
def normalizeLoop (abs : Nat) : (fuel : Nat) → PathCursor → Option PathCursor
  | 0, _ => none
  | fuel + 1, s =>
      let c := s.path s.src
      let c1 := s.path (s.src + 1)
      let c2 := s.path (s.src + 2)
      if c = 0 then some s
      else if c = slash then do
        let s ← if s.dst = 0 ∨ s.path (s.dst - 1) ≠ slash then s.put slash else some s
        normalizeLoop abs fuel { s with src := s.src + 1 }
      else if c = dot ∧ (c1 = slash ∨ c1 = 0) then
        normalizeLoop abs fuel { s with src := s.src + if c1 = slash then 2 else 1 }
      else if c = dot ∧ c1 = dot ∧ (c2 = slash ∨ c2 = 0) then do
        let src := s.src + if c2 = slash then 3 else 2
        let dst := if abs < s.dst then s.dst - 1 else s.dst
        let s := { s with src := src, dst := popName abs s.path dst }
        let s ← if abs ≠ 0 ∧ s.dst = 0 then s.put slash else some s
        normalizeLoop abs fuel s
      else do
        let s ← copyName (fuel + 1) s
        normalizeLoop abs fuel s

/-- A byte is written, at or before what is read. -/
def PathCursor.store (s : PathCursor) (i : Nat) (c : UInt8) : Option PathCursor :=
  if i ≤ s.src then some { s with path := Function.update s.path i c } else none

def slibcPathNormalize (fuel : Nat) (path : Nat → UInt8) : Option (Nat → UInt8) :=
  if path 0 = 0 then some path
  else do
    let abs := if path 0 = slash then 1 else 0
    let s ← normalizeLoop abs fuel ⟨path, 0, 0⟩
    let dst := if abs < s.dst ∧ s.path (s.dst - 1) = slash then s.dst - 1 else s.dst
    let s ← s.store dst 0
    if dst = 0 then do
      let s ← s.store 0 (if abs ≠ 0 then slash else dot)
      let s ← s.store 1 0
      return s.path
    else return s.path

/-! ## `slibc_path_join`, `slibc_path_basename` and `slibc_path_dirname` -/

/-- `strlcpy`: what is written to `dst`, if there is room for the terminator, and the result. -/
def strlcpy (src : List UInt8) (sz : Nat) : List UInt8 × Nat := (src.take (sz - 1), src.length)

/-- `slibc_path_join`; the result and `dst`. -/
def slibcPathJoin (dst_sz : Nat) (base name : Option (List UInt8)) : Int × List UInt8 :=
  let name := name.getD []
  if dst_sz = 0 then (-1, [])
  else if name.head? = some slash then
    let (dst, n) := strlcpy name dst_sz
    (if n < dst_sz then 0 else -1, dst)
  else
    let (dst, blen) := match base with
      | some base => strlcpy base dst_sz
      | none => ([], 0)
    if dst_sz ≤ blen then (-1, dst)
    else if name = [] then (0, dst)
    else
      let apart := 0 < blen ∧ dst.getLast? ≠ some slash
      if apart ∧ dst_sz ≤ blen + 1 then (-1, dst)
      else
        let dst := if apart then dst ++ [slash] else dst
        let blen := if apart then blen + 1 else blen
        let (rest, nlen) := strlcpy name (dst_sz - blen)
        (if dst_sz - blen ≤ nlen then -1 else 0, dst ++ rest)

/-- `while (end > path && *end == '/') end--;` -/
def skipSlashesBack (path : List UInt8) : (last : Nat) → Nat
  | 0 => 0
  | last + 1 => if path[last + 1]? = some slash then skipSlashesBack path last else last + 1

/-- `while (p > path && *(p - 1) != '/') p--;` -/
def nameStart (path : List UInt8) : (p : Nat) → Nat
  | 0 => 0
  | p + 1 => if path[p]? ≠ some slash then nameStart path p else p + 1

def slibcPathBasename (path : List UInt8) : List UInt8 :=
  if path = [] then [dot]
  else
    let last := skipSlashesBack path (path.length - 1)
    if last = 0 ∧ path.head? = some slash then [slash]
    else path.drop (nameStart path last)

/-- `while (len > 1 && path[len - 1] == '/') len--;` -/
def trimSlashes (path : List UInt8) : (len : Nat) → Nat
  | 0 => 0
  | len + 1 => if 0 < len ∧ path[len]? = some slash then trimSlashes path len else len + 1

/-- `slibc_path_dirname`; the result and `dst`. -/
def slibcPathDirname (path : List UInt8) (dst_sz : Nat) : Int × List UInt8 :=
  if dst_sz = 0 then (-1, [])
  else if path = [] then (0, (strlcpy [dot] dst_sz).1)
  else
    let last := nameStart path (trimSlashes path path.length)
    if last = 0 then (0, (strlcpy [dot] dst_sz).1)
    else
      let last := if 1 < last then last - 1 else last
      let (dst, n) := strlcpy path (if last + 1 < dst_sz then last + 1 else dst_sz)
      -- `dst[last] = '\0'` cuts nothing off: at most `last` characters were copied
      let dst := if last < dst_sz then dst.take last else dst
      (if n ≤ last then 0 else -1, dst)

end Systrix.Libc
