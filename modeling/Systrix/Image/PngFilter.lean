import Systrix.Lib.PngFormat
import Systrix.Image.Png

/-!
# Filters are undone

`png_unfilter` takes a filtered row back to the row, whatever the filter and the row above; by induction over the rows,
the rows of a pass are those that were filtered.
-/

namespace Systrix.Image

open Fallible PngFormat

/-! ## Neighbours -/

/-- The predictor in `int` is that of the format. -/
theorem paeth_eq (a b c : UInt8) : paeth a.toNat b.toNat c.toNat = (paethPredictor a b c).toNat := by
  have distance : ∀ p x : Int, (if p > x then p - x else x - p) = (p - x).natAbs := by
    intro p x
    split <;> omega
  simp only [paeth, paethPredictor, distance, Int.ofNat_le]
  split
  · rfl
  · split <;> rfl

/-- `prev` points to the row above, or is NULL where there are zeros above. -/
inductive Above (prior : List UInt8) : Option (List UInt8) → Prop
  | row : Above prior (some prior)
  | zeros (zero : ∀ i, prior.getD i 0 = 0) : Above prior none

theorem readByte_getD {d : List UInt8} {i : Nat} (below : i < d.length) : readByte d i = .ok (d.getD i 0) := by
  rw [readByte, List.getD_eq_getElem?_getD, List.getElem?_eq_getElem below]
  rfl

theorem readLeft_eq {row : List UInt8} {bpp i : Nat} (inside : i < row.length) :
    readLeft row bpp i = .ok (left bpp row i) := by
  rw [readLeft, left]
  by_cases first : i < bpp
  · rw [if_neg (Nat.not_le.mpr first), if_pos first]
    rfl
  · rw [if_pos (Nat.not_lt.mp first), if_neg first, readByte_getD (by omega)]

theorem Above.readUp {prior : List UInt8} {prev : Option (List UInt8)} (above : Above prior prev) {i : Nat}
    (inside : i < prior.length) : readUp prev i = .ok (prior.getD i 0) := by
  cases above with
  | row => exact readByte_getD inside
  | zeros zero => rw [zero i]; rfl

theorem Above.readUpLeft {prior : List UInt8} {prev : Option (List UInt8)} (above : Above prior prev) {bpp i : Nat}
    (inside : i < prior.length) : readUpLeft prev bpp i = .ok (left bpp prior i) := by
  cases above with
  | row => exact readLeft_eq inside
  | zeros zero =>
      rw [left, zero (i - bpp), ite_self]
      rfl

/-! ## A row -/

/-- The line when the bytes before index `i` are those of the row. -/
def halfway (row filtered : List UInt8) (i : Nat) : List UInt8 := row.take i ++ filtered.drop i

variable {row filtered prior : List UInt8} {prev : Option (List UInt8)} {i j bpp : Nat}

theorem length_halfway (same : filtered.length = row.length) (i : Nat) :
    (halfway row filtered i).length = row.length := by
  rw [halfway, List.length_append, List.length_take, List.length_drop]
  omega

theorem halfway_getD_of_lt (before : j < i) (inside : j < row.length) :
    (halfway row filtered i).getD j 0 = row.getD j 0 := by
  rw [halfway, List.getD_append _ _ _ _ (by rw [List.length_take]; omega), List.getD_eq_getElem?_getD,
    List.getElem?_take_of_lt before, List.getD_eq_getElem?_getD]

theorem halfway_getD_self (inside : i < row.length) : (halfway row filtered i).getD i 0 = filtered.getD i 0 := by
  have front : (row.take i).length = i := List.length_take_of_le (Nat.le_of_lt inside)
  rw [halfway, List.getD_append_right _ _ _ _ (Nat.le_of_eq front), front, Nat.sub_self, List.getD_eq_getElem?_getD,
    List.getElem?_drop, Nat.add_zero, List.getD_eq_getElem?_getD]

/-- The next byte is put in its place. -/
theorem halfway_set (same : filtered.length = row.length) (inside : i < row.length) :
    (halfway row filtered i).set i (row.getD i 0) = halfway row filtered (i + 1) := by
  have front : (row.take i).length = i := List.length_take_of_le (Nat.le_of_lt inside)
  have next : filtered.drop i = filtered[i] :: filtered.drop (i + 1) := List.drop_eq_getElem_cons (same ▸ inside)
  have byte : row.take (i + 1) = row.take i ++ [row.getD i 0] := by
    rw [List.take_succ_eq_append_getElem inside, List.getD_eq_getElem _ _ inside]
  rw [halfway, halfway, List.set_append_right _ _ (Nat.le_of_eq front), front, Nat.sub_self, next, List.set_cons_zero,
    byte, List.append_assoc]
  rfl

/-- Nothing was done where the filter left the bytes as they are. -/
theorem halfway_eq_filtered (same : filtered.length = row.length)
    (equal : ∀ j < i, j < row.length → filtered.getD j 0 = row.getD j 0) : halfway row filtered i = filtered := by
  have front : row.take i = filtered.take i := by
    apply List.ext_getElem
    · rw [List.length_take, List.length_take, same]
    · intro j inside inside'
      rw [List.length_take] at inside inside'
      rw [List.getElem_take, List.getElem_take, ← List.getD_eq_getElem _ 0, ← List.getD_eq_getElem _ 0]
      exact (equal j (by omega) (by omega)).symm
  rw [halfway, front, List.take_append_drop]

theorem halfway_of_le (same : filtered.length = row.length) (all : row.length ≤ i) : halfway row filtered i = row := by
  rw [halfway, List.take_of_length_le all, List.drop_eq_nil_of_le (same ▸ all), List.append_nil]

theorem ofInt_natCast (n : Nat) : UInt8.ofInt n = UInt8.ofNat n := by
  have low : ((n : Int) % 2 ^ 8).toNat = n % 2 ^ 8 := by omega
  rw [UInt8.ofInt, low]
  exact UInt8.ofNat_mod_size

theorem ofInt_toNat (x : UInt8) : UInt8.ofInt x.toNat = x := by rw [ofInt_natCast, UInt8.ofNat_toNat]

/-- The difference and what is expected give the byte. -/
theorem addByte_eq (same : filtered.length = row.length) (inside : i < row.length) {expected : UInt8} {value : Int}
    (difference : filtered.getD i 0 = row.getD i 0 - expected) (exact : UInt8.ofInt value = expected) :
    addByte (halfway row filtered i) i value = .ok (halfway row filtered (i + 1)) := by
  have room : i < (halfway row filtered i).length := by rwa [length_halfway same]
  rw [addByte, readByte_getD room, halfway_getD_self inside, difference]
  simp only [ok_bind]
  rw [storeByte, if_pos room, UInt8.ofInt_add, ofInt_toNat, exact, UInt8.sub_add_cancel, halfway_set same inside]

/-- The byte on the left is already there. -/
theorem left_halfway (positive : 0 < bpp) (inside : i < row.length) :
    left bpp (halfway row filtered i) i = left bpp row i := by
  rw [left, left]
  by_cases first : i < bpp
  · rw [if_pos first, if_pos first]
  · rw [if_neg first, if_neg first, halfway_getD_of_lt (by omega) (by omega)]

theorem filterRow_eq (kind : Filter) (inside : i < row.length) :
    (filterRow kind bpp prior row).getD i 0 = row.getD i 0 - kind.expected bpp prior row i :=
  filterRow_getD kind bpp prior inside

/-- A loop over the whole row, whose body undoes the filter of one byte. -/
theorem foldRow_eq (kind : Filter) {body : List UInt8 → Nat → Except Stop (List UInt8)}
    (step : ∀ i < row.length, body (halfway row (filterRow kind bpp prior row) i) i =
      .ok (halfway row (filterRow kind bpp prior row) (i + 1))) :
    (List.range row.length).foldlM body (filterRow kind bpp prior row) = .ok row := by
  have same := length_filterRow kind bpp prior row
  have run := foldRange'_eq body (halfway row (filterRow kind bpp prior row)) 0 row.length
    fun i _ below => step i (by omega)
  rw [halfway_eq_filtered same fun j none => absurd none (Nat.not_lt_zero j), Nat.zero_add,
    halfway_of_le same (Nat.le_refl _)] at run
  rw [List.range_eq_range']
  exact run

/-- `png_unfilter` undoes the filter of a row. -/
theorem pngUnfilter_filterRow (kind : Filter) (positive : 0 < bpp) (above : Above prior prev)
    (wide : prior.length = row.length) :
    pngUnfilter kind.code.toNat (filterRow kind bpp prior row) prev row.length bpp = .ok row := by
  have same := length_filterRow kind bpp prior row
  have room : ∀ i < row.length, i < (halfway row (filterRow kind bpp prior row) i).length := fun i inside => by
    rwa [length_halfway same]
  cases kind with
  | none =>
      refine congrArg Except.ok ?_
      rw [← halfway_eq_filtered (i := row.length) same fun j _ inside => ?_, halfway_of_le same (Nat.le_refl _)]
      rw [filterRow_eq .none inside]
      exact UInt8.sub_zero _
  | sub =>
      -- the loop starts behind the first pixel, whose bytes are as they were
      have start : halfway row (filterRow .sub bpp prior row) bpp = filterRow .sub bpp prior row := by
        apply halfway_eq_filtered same
        intro j before inside
        rw [filterRow_eq .sub inside, Filter.expected, Filter.predict, left, if_pos before]
        exact UInt8.sub_zero _
      have run := foldRange'_eq (unfilterSub bpp) (halfway row (filterRow .sub bpp prior row)) bpp
        (row.length - bpp) fun i behind below => by
          have inside : i < row.length := by omega
          have expected : (filterRow .sub bpp prior row).getD i 0 = _ := filterRow_eq .sub inside
          rw [Filter.expected, Filter.predict, left, if_neg (Nat.not_lt.mpr behind)] at expected
          rw [unfilterSub, readByte_getD (Nat.lt_of_le_of_lt (Nat.sub_le i bpp) (room i inside)),
            halfway_getD_of_lt (by omega) (by omega)]
          exact addByte_eq same inside expected (ofInt_toNat _)
      rw [start, halfway_of_le same (by omega)] at run
      exact run
  | up =>
      cases above with
      | zeros zero =>
          refine congrArg Except.ok ?_
          rw [← halfway_eq_filtered (i := row.length) same fun j _ inside => ?_, halfway_of_le same (Nat.le_refl _)]
          rw [filterRow_eq .up inside, Filter.expected, Filter.predict, zero]
          exact UInt8.sub_zero _
      | row =>
          refine foldRow_eq .up fun i inside => ?_
          rw [unfilterUp, readByte_getD (wide.symm ▸ inside)]
          exact addByte_eq same inside (filterRow_eq .up inside) (ofInt_toNat _)
  | average =>
      refine foldRow_eq .average fun i inside => ?_
      rw [unfilterAverage, readLeft_eq (room i inside), left_halfway positive inside]
      simp only [ok_bind]
      rw [above.readUp (wide.symm ▸ inside)]
      refine addByte_eq same inside (filterRow_eq .average inside) ?_
      rw [ofInt_natCast, Nat.shiftRight_eq_div_pow]
      rfl
  | paeth =>
      refine foldRow_eq .paeth fun i inside => ?_
      rw [unfilterPaeth, readLeft_eq (room i inside), left_halfway positive inside]
      simp only [ok_bind]
      rw [above.readUp (wide.symm ▸ inside), above.readUpLeft (wide.symm ▸ inside)]
      refine addByte_eq same inside (filterRow_eq .paeth inside) ?_
      rw [paeth_eq, ofInt_toNat]
      rfl

/-! ## Any line -/

/-- The buffers of both rows have the same size. -/
def Wide (len : Nat) (prev : Option (List UInt8)) : Prop := ∀ row ∈ prev, row.length = len

section

variable {line : List UInt8} {len : Nat} {allowed : Stop → Prop}

theorem ends_addByte (size : line.length = len) (inside : i < len) (value : Int) :
    Ends allowed (fun line => line.length = len) (addByte line i value) := by
  rw [addByte, readByte_getD (size ▸ inside), ok_bind, storeByte, if_pos (size ▸ inside)]
  exact .ok (List.length_set.trans size)

theorem ends_readByte (size : line.length = len) (inside : i < len) :
    Ends allowed (fun _ => True) (readByte line i) := by
  rw [readByte_getD (size ▸ inside)]
  exact .ok trivial

theorem ends_readLeft (size : line.length = len) (inside : i < len) :
    Ends allowed (fun _ => True) (readLeft line bpp i) := by
  rw [readLeft_eq (size ▸ inside)]
  exact .ok trivial

theorem ends_readUp (wide : Wide len prev) (inside : i < len) : Ends allowed (fun _ => True) (readUp prev i) := by
  cases prev with
  | none => exact .ok trivial
  | some prev => exact ends_readByte (wide prev rfl) inside

theorem ends_readUpLeft (wide : Wide len prev) (inside : i < len) :
    Ends allowed (fun _ => True) (readUpLeft prev bpp i) := by
  cases prev with
  | none => exact .ok trivial
  | some prev => exact ends_readLeft (wide prev rfl) inside

/-- Whatever the rows hold, `png_unfilter` stays inside them; it only fails when there is no such filter. -/
theorem ends_pngUnfilter (filter : Nat) (corrupt : allowed errCorrupt) (positive : 0 < bpp) (size : line.length = len)
    (wide : Wide len prev) :
    Ends allowed (fun line => line.length = len) (pngUnfilter filter line prev len bpp) := by
  have loop : ∀ body : List UInt8 → Nat → Except Stop (List UInt8),
      (∀ i < len, ∀ line : List UInt8, line.length = len → Ends allowed (fun line => line.length = len) (body line i)) →
      Ends allowed (fun line => line.length = len) ((List.range len).foldlM body line) := fun body step =>
    Ends.foldRange (fun _ line => List.length line = len) size step
  unfold pngUnfilter
  split
  · exact .ok size
  · refine Ends.foldRange' size fun i behind below line size => ?_
    exact (ends_readByte size (by omega)).bind fun _ _ => ends_addByte size (by omega) _
  · split
    · refine loop _ fun i inside line size => ?_
      exact (ends_readByte (wide _ rfl) inside).bind fun _ _ => ends_addByte size inside _
    · exact .ok size
  · refine loop _ fun i inside line size => ?_
    refine (ends_readLeft size inside).bind fun _ _ => ?_
    exact (ends_readUp wide inside).bind fun _ _ => ends_addByte size inside _
  · refine loop _ fun i inside line size => ?_
    refine (ends_readLeft size inside).bind fun _ _ => ?_
    refine (ends_readUp wide inside).bind fun _ _ => ?_
    exact (ends_readUpLeft wide inside).bind fun _ _ => ends_addByte size inside _
  · exact .error corrupt

end

/-! ## All rows -/

/-- The loop over the rows of a pass gives the rows that were filtered to `put`. -/
theorem rowLoop_filterRows {σ : Type} (put : σ → Nat → List UInt8 → Except Stop σ) {line_len : Nat} (positive : 0 < bpp)
    (rows : List (Filter × List UInt8)) (wide : ∀ row ∈ rows, row.2.length = line_len) {raw rest : List UInt8}
    {rp py : Nat} {prior : List UInt8} (above : prior.length = line_len) (s : σ)
    (here : raw.drop rp = filterRows bpp prior rows ++ rest) :
    rowLoop raw line_len bpp put rows.length py rp prior s =
      ((rows.map Prod.snd).zipIdx py).foldlM (fun s row => put s row.2 row.1) s >>=
        fun s => pure (rp + rows.length * (line_len + 1), s) := by
  induction rows generalizing rp py prior s with
  | nil => rw [List.length_nil, Nat.zero_mul]; rfl
  | cons row rows ih =>
      obtain ⟨kind, row⟩ := row
      have size : row.length = line_len := wide (kind, row) List.mem_cons_self
      have first : raw[rp]? = some kind.code := by
        rw [← List.head?_drop, here]
        rfl
      have next : raw.drop (rp + 1) = filterRow kind bpp prior row ++ (filterRows bpp row rows ++ rest) := by
        rw [← List.drop_drop, here, ← List.append_assoc]
        rfl
      have line : (raw.drop (rp + 1)).take line_len = filterRow kind bpp prior row := by
        rw [next, List.take_left' ((length_filterRow kind bpp prior row).trans size)]
      have later : raw.drop (rp + 1 + line_len) = filterRows bpp row rows ++ rest := by
        rw [← List.drop_drop, next, List.drop_left' ((length_filterRow kind bpp prior row).trans size)]
      have enough : rp + 1 + line_len ≤ raw.length := by
        have length := congrArg List.length next
        rw [List.length_drop, List.length_append, length_filterRow, size] at length
        have inside := (List.getElem?_eq_some_iff.mp first).1
        omega
      have undone := pngUnfilter_filterRow kind positive Above.row (above.trans size.symm)
      rw [size] at undone
      rw [List.length_cons, rowLoop, if_neg (Nat.not_lt.mpr enough), readByte_eq first, line]
      simp only [ok_bind]
      rw [undone]
      simp only [ok_bind, List.map_cons, List.zipIdx_cons, List.foldlM_cons, bind_assoc]
      refine congrArg _ (funext fun s => ?_)
      have total : rp + 1 + line_len + rows.length * (line_len + 1) = rp + (rows.length + 1) * (line_len + 1) := by
        rw [Nat.succ_mul]
        omega
      rw [ih (fun row member => wide row (List.mem_cons_of_mem _ member)) size s later, total]

/-- The rows are collected. -/
def collect (rows : List (List UInt8)) (_ : Nat) (row : List UInt8) : Except Stop (List (List UInt8)) :=
  pure (rows ++ [row])

theorem collect_eq (rows done : List (List UInt8)) (py : Nat) :
    (rows.zipIdx py).foldlM (fun done row => collect done row.2 row.1) done = .ok (done ++ rows) := by
  induction rows generalizing done py with
  | nil => rw [List.append_nil]; rfl
  | cons row rows ih =>
      rw [List.zipIdx_cons, List.foldlM_cons, List.append_cons]
      exact ih (done ++ [row]) (py + 1)

/-- The rows that were filtered come back, in `png_decode`'s loop and for a first row that is called with NULL; and no
line makes `png_unfilter` leave the buffers of the rows. -/
theorem png_rows_restored {line_len : Nat} (positive : 0 < bpp) (rows : List (Filter × List UInt8))
    (wide : ∀ row ∈ rows, row.2.length = line_len) (before after : List UInt8) :
    rowLoop (before ++ (filterRows bpp (List.replicate line_len 0) rows ++ after)) line_len bpp collect rows.length 0
        before.length (List.replicate line_len 0) [] =
      .ok (before.length + rows.length * (line_len + 1), rows.map Prod.snd) ∧
    (∀ row ∈ rows, pngUnfilter row.1.code.toNat (filterRow row.1 bpp (List.replicate line_len 0) row.2) none line_len
      bpp = .ok row.2) ∧
    ∀ (filter : Nat) (line : List UInt8) (prev : Option (List UInt8)), line.length = line_len → Wide line_len prev →
      Inside (fun line => line.length = line_len) (pngUnfilter filter line prev line_len bpp) := by
  refine ⟨?_, fun row member => ?_, fun filter line prev size wide =>
    ends_pngUnfilter filter (by decide) positive size wide⟩
  · rw [rowLoop_filterRows collect positive rows wide List.length_replicate [] (List.drop_left), collect_eq]
    rfl
  · have zero : ∀ i, (List.replicate line_len (0 : UInt8)).getD i 0 = 0 := fun i => by
      rw [List.getD_eq_getElem?_getD, List.getElem?_replicate]
      split <;> rfl
    have size := wide row member
    have undone := pngUnfilter_filterRow row.1 positive (.zeros zero) (List.length_replicate.trans size.symm)
    rwa [size] at undone

/-- Two rows of four bytes, two bytes per pixel. -/
theorem png_rows_restored_two : rowLoop
    ([] ++ (filterRows 2 (List.replicate 4 0) [(.average, [1, 200, 3, 4]), (.paeth, [5, 6, 7, 250])] ++ [])) 4 2
    collect 2 0 0 (List.replicate 4 0) [] = .ok (10, [[1, 200, 3, 4], [5, 6, 7, 250]]) :=
  (png_rows_restored (by decide) [(.average, [1, 200, 3, 4]), (.paeth, [5, 6, 7, 250])] (by decide) [] []).1

end Systrix.Image
