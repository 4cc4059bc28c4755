import Mathlib.Logic.Function.Basic
import Systrix.Lib.Fallible

/-!
# Images

The container and the error codes of `kernel/image.h`, and access to the buffers of a decoder.  Every read and write is
checked: an index outside the buffer stops the decoder with `outside`.
-/

namespace Systrix.Image

open Fallible

/-- Why a decoder delivers no image. -/
inductive Stop where
  /-- Return of a negative error code. -/
  | failed (code : Int)
  /-- Access outside a buffer. -/
  | outside
  deriving DecidableEq, Repr

/-- `IMG_ERR_FORMAT` -/
def errFormat : Stop := .failed (-1)

/-- `IMG_ERR_UNSUPPORTED` -/
def errUnsupported : Stop := .failed (-2)

/-- `IMG_ERR_CORRUPT` -/
def errCorrupt : Stop := .failed (-3)

/-- `IMG_ERR_MEMORY` -/
def errMemory : Stop := .failed (-4)

/-- `IMG_ERR_TRUNCATED` -/
def errTruncated : Stop := .failed (-5)

/-- `IMG_ERR_TOOBIG` -/
def errTooBig : Stop := .failed (-6)

def imgMaxDim : Nat := 4096

def imgMaxPixels : Nat := imgMaxDim * imgMaxDim

/-- `image_t` -/
structure Picture where
  width : Nat
  height : Nat
  channels : Nat
  has_alpha : Bool
  pixels : Nat → UInt8
  size : Nat
  stride : Nat

/-- `d[i]` -/
def readByte (d : List UInt8) (i : Nat) : Except Stop UInt8 :=
  match d[i]? with
  | some b => .ok b
  | none => .error .outside

/-- `px[i] = b` for an allocation of `size` bytes. -/
def writeByte (size : Nat) (px : Nat → UInt8) (i : Nat) (b : UInt8) : Except Stop (Nat → UInt8) :=
  if i < size then .ok (Function.update px i b) else .error .outside

def be32 (d : List UInt8) (i : Nat) : Except Stop Nat := do
  let a ← readByte d i
  let b ← readByte d (i + 1)
  let c ← readByte d (i + 2)
  let e ← readByte d (i + 3)
  return a.toNat * 0x1000000 + b.toNat * 0x10000 + c.toNat * 0x100 + e.toNat

/-- No access lies outside a buffer, and the result satisfies `post`. -/
abbrev Inside {α : Type} (post : α → Prop) (run : Except Stop α) : Prop := Ends (· ≠ .outside) post run

theorem inside_readByte {d : List UInt8} {i : Nat} (below : i < d.length) :
    Inside (fun b => d[i]? = some b) (readByte d i) := by
  rw [readByte, List.getElem?_eq_getElem below]
  exact .ok rfl

theorem readByte_eq {d : List UInt8} {i : Nat} {b : UInt8} (found : d[i]? = some b) : readByte d i = .ok b := by
  rw [readByte, found]

theorem inside_be32 {d : List UInt8} {i : Nat} (below : i + 3 < d.length) : Inside (fun _ => True) (be32 d i) := by
  refine (inside_readByte (by omega)).bind fun a _ => ?_
  refine (inside_readByte (by omega)).bind fun b _ => ?_
  refine (inside_readByte (by omega)).bind fun c _ => ?_
  exact (inside_readByte (by omega)).bind fun e _ => .ok trivial

end Systrix.Image
