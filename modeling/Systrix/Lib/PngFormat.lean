import Mathlib.Algebra.GroupWithZero.Nat
import Mathlib.Data.List.GetD
import Mathlib.Data.List.Nodup
import Mathlib.Tactic.Common

/-!
# Portable network graphics

What the format defines: how the bytes of a row are filtered, how interlacing divides an image into passes, and how
samples are packed.
-/

namespace PngFormat

/-! ## Filters -/

/-- The filter types, in the order of their numbers. -/
inductive Filter where
  | none
  | sub
  | up
  | average
  | paeth
  deriving DecidableEq, Repr

/-- The number that stands in front of a row. -/
def Filter.code : Filter → UInt8
  | .none => 0
  | .sub => 1
  | .up => 2
  | .average => 3
  | .paeth => 4

/-- The one of three neighbours that is nearest to `a + b - c`; of equally near ones the first. -/
def paethPredictor (a b c : UInt8) : UInt8 :=
  let p : Int := a.toNat + b.toNat - c.toNat
  let distance (x : UInt8) := (p - x.toNat).natAbs
  if distance a ≤ distance b ∧ distance a ≤ distance c then a else if distance b ≤ distance c then b else c

/-- What a byte is expected to be from its neighbours on the left, above, and above on the left. -/
def Filter.predict (a b c : UInt8) : Filter → UInt8
  | .none => 0
  | .sub => a
  | .up => b
  | .average => UInt8.ofNat ((a.toNat + b.toNat) / 2)
  | .paeth => paethPredictor a b c

/-- The corresponding byte of the pixel on the left; there are zeros in front of a row. -/
def left (bpp : Nat) (row : List UInt8) (i : Nat) : UInt8 := if i < bpp then 0 else row.getD (i - bpp) 0

/-- Byte `i` of a row as the filter predicts it. -/
def Filter.expected (kind : Filter) (bpp : Nat) (prior row : List UInt8) (i : Nat) : UInt8 :=
  kind.predict (left bpp row i) (prior.getD i 0) (left bpp prior i)

/-- The differences from what is expected. -/
def filterRow (kind : Filter) (bpp : Nat) (prior row : List UInt8) : List UInt8 :=
  (List.range row.length).map fun i => row.getD i 0 - kind.expected bpp prior row i

/-- The filtered rows of a pass, each one behind the number of its filter. -/
def filterRows (bpp : Nat) : (prior : List UInt8) → (rows : List (Filter × List UInt8)) → List UInt8
  | _, [] => []
  | prior, (kind, row) :: rows => kind.code :: filterRow kind bpp prior row ++ filterRows bpp row rows

@[simp] theorem length_filterRow (kind : Filter) (bpp : Nat) (prior row : List UInt8) :
    (filterRow kind bpp prior row).length = row.length := by
  rw [filterRow, List.length_map, List.length_range]

theorem filterRow_getD (kind : Filter) (bpp : Nat) (prior : List UInt8) {row : List UInt8} {i : Nat}
    (inside : i < row.length) :
    (filterRow kind bpp prior row).getD i 0 = row.getD i 0 - kind.expected bpp prior row i := by
  rw [filterRow, List.getD_eq_getElem?_getD, List.getElem?_map, List.getElem?_range inside]
  rfl

/-! ## Interlacing -/

/-- Every `dx`-th column from `x0` on, in every `dy`-th row from `y0` on. -/
structure Lattice where
  x0 : Nat
  y0 : Nat
  dx : Nat
  dy : Nat

/-- The seven passes. -/
def adam7 : List Lattice :=
  [⟨0, 0, 8, 8⟩, ⟨4, 0, 8, 8⟩, ⟨0, 4, 4, 8⟩, ⟨2, 0, 4, 4⟩, ⟨0, 2, 2, 4⟩, ⟨1, 0, 2, 2⟩, ⟨0, 1, 1, 2⟩]

namespace Lattice

/-- The first position is one of the first `dx` by `dy`. -/
structure Proper (p : Lattice) : Prop where
  x0_lt : p.x0 < p.dx
  y0_lt : p.y0 < p.dy

/-- How many of its columns are among the first `width`. -/
def columns (p : Lattice) (width : Nat) : Nat := (width - p.x0 + p.dx - 1) / p.dx

/-- How many of its rows are among the first `height`. -/
def rows (p : Lattice) (height : Nat) : Nat := (height - p.y0 + p.dy - 1) / p.dy

/-- The pixel in a column and a row of the pass. -/
def pixel (p : Lattice) (py px : Nat) : Nat × Nat := (p.x0 + px * p.dx, p.y0 + py * p.dy)

/-- The pixels of a row of the pass. -/
def row (p : Lattice) (width py : Nat) : List (Nat × Nat) := (List.range (p.columns width)).map (p.pixel py)

/-- The pixels of the pass, row by row. -/
def pixels (p : Lattice) (width height : Nat) : List (Nat × Nat) :=
  (List.range (p.rows height)).flatMap (p.row width)

end Lattice

/-- The multiples of `step` behind `start` and below `size`. -/
theorem lt_ceil_iff {start step size i : Nat} (proper : start < step) :
    i < (size - start + step - 1) / step ↔ start + i * step < size := by
  rw [Nat.lt_iff_add_one_le, Nat.le_div_iff_mul_le (Nat.zero_lt_of_lt proper), Nat.add_one_mul]
  omega

namespace Lattice

variable {p : Lattice} {width height x y : Nat}

end Lattice

theorem adam7_proper : ∀ p ∈ adam7, p.Proper := by
  have bounds : ∀ p ∈ adam7, p.x0 < p.dx ∧ p.y0 < p.dy := by decide
  exact fun p member => ⟨(bounds p member).1, (bounds p member).2⟩

end PngFormat
