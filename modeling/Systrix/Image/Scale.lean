import Systrix.Image.Format
import Systrix.Lib.Boxes
import Systrix.Lib.Machine

/-!
# Scaling

`image_scale` of `kernel/image.c`.
-/

namespace Systrix.Image

open Machine

/-- `(int)(((i64)i * n) / k)` -/
def scaleEdge (n k i : Nat) : Nat := i * n / k

/-- `y1` and `x1`: the end of a box. -/
def scaleEnd (n k i : Nat) : Nat :=
  let low := scaleEdge n k i
  let high := scaleEdge n k (i + 1)
  let high := if high ≤ low then low + 1 else high
  if n < high then n else high

/-- `src->pixels[i]` -/
def readSource (src : Picture) (i : Nat) : Except Stop UInt8 :=
  if i < src.size then pure (src.pixels i) else throw .outside

/-- `acc` and `cnt` -/
structure BoxSum where
  acc : Nat → Nat
  cnt : Nat

/-- `acc[c] += p[c]` -/
def addChannel (src : Picture) (p : Nat) (acc : Nat → Nat) (c : Nat) : Except Stop (Nat → Nat) := do
  let v ← readSource src (p + c)
  if c < 4 then pure (Function.update acc c (u32 (acc c + v.toNat))) else throw .outside

/-- The body of the loops over a box. -/
def addPixel (src : Picture) (yy xx : Nat) (s : BoxSum) : Except Stop BoxSum := do
  let acc ← (List.range src.channels).foldlM (addChannel src (yy * src.stride + xx * src.channels)) s.acc
  pure ⟨acc, u32 (s.cnt + 1)⟩

/-- The loops over the box from `x0` to `x1` and from `y0` to `y1`. -/
def sumBox (src : Picture) (x0 x1 y0 y1 : Nat) : Except Stop BoxSum :=
  (List.range' y0 (y1 - y0)).foldlM
    (fun s yy => (List.range' x0 (x1 - x0)).foldlM (fun s xx => addPixel src yy xx s) s) ⟨fun _ => 0, 0⟩

/-- A pixel of a smaller image. -/
def shrinkPixel (src : Picture) (w h need y : Nat) (dst : Nat → UInt8) (x : Nat) : Except Stop (Nat → UInt8) := do
  let s ← sumBox src (scaleEdge src.width w x) (scaleEnd src.width w x) (scaleEdge src.height h y)
    (scaleEnd src.height h y)
  let cnt := if s.cnt = 0 then 1 else s.cnt
  (List.range src.channels).foldlM
    (fun dst c => writeByte need dst ((y * w + x) * src.channels + c) (UInt8.ofNat (s.acc c / cnt))) dst

/-- A pixel of a larger image. -/
def growPixel (src : Picture) (w h need y : Nat) (dst : Nat → UInt8) (x : Nat) : Except Stop (Nat → UInt8) :=
  let sy := scaleEdge src.height h y
  let sx := scaleEdge src.width w x
  (List.range src.channels).foldlM (fun dst c => do
    let v ← readSource src (sy * src.stride + sx * src.channels + c)
    writeByte need dst (y * w * src.channels + x * src.channels + c) v) dst

/-- The loops over the target. -/
def scaleLoops (w h : Nat) (body : (y : Nat) → (Nat → UInt8) → (x : Nat) → Except Stop (Nat → UInt8))
    (dst : Nat → UInt8) : Except Stop (Nat → UInt8) :=
  (List.range h).foldlM (fun dst y => (List.range w).foldlM (body y) dst) dst

/-- `memcpy(dst, src->pixels, need)` -/
def copyPixels (src : Picture) (need : Nat) (dst : Nat → UInt8) : Except Stop (Nat → UInt8) :=
  if need ≤ src.size then pure fun i => if i < need then src.pixels i else dst i else throw .outside

/-- What is stored in `dst`. -/
def scalePixels (src : Picture) (w h need : Nat) (dst : Nat → UInt8) : Except Stop (Nat → UInt8) :=
  if w = src.width ∧ h = src.height then copyPixels src need dst
  else if w < src.width ∨ h < src.height then scaleLoops w h (shrinkPixel src w h need) dst
  else scaleLoops w h (growPixel src w h need) dst

/-- `image_scale` of an image that has pixels. -/
def imageScale (heap_malloc : Nat → Option (Nat → UInt8)) (src : Picture) (w h : Int) : Except Stop Picture :=
  if w ≤ 0 ∨ h ≤ 0 then throw errFormat
  else if (imgMaxPixels : Int) < w * h then throw errTooBig
  else
    let need := w.toNat * h.toNat * src.channels
    match heap_malloc need with
    | none => throw errMemory
    | some dst => do
        let dst ← scalePixels src w.toNat h.toNat need dst
        pure ⟨w.toNat, h.toNat, src.channels, src.has_alpha, dst, need, u32 (w.toNat * src.channels)⟩

end Systrix.Image

/-!
## A scaled image is made of averages

Every pixel of the target is the average of a box of the source, in all three ways in which `image_scale` works: the
boxes are never empty, and divide the source when the image becomes smaller.
-/

namespace Systrix.Image

open Fallible Machine Boxes

/-- What the decoders deliver. -/
structure Picture.WellFormed (src : Picture) : Prop where
  width_pos : 0 < src.width
  height_pos : 0 < src.height
  channels : src.channels = 1 ∨ src.channels = 3 ∨ src.channels = 4
  size : src.size = src.width * src.height * src.channels
  stride : src.stride = src.width * src.channels
  area : src.width * src.height ≤ imgMaxPixels

/-! ## Boxes -/

section

variable {n k i : Nat}

theorem scaleEnd_eq (n k i : Nat) :
    scaleEnd n k i =
      if n < (if edge n k (i + 1) ≤ edge n k i then edge n k i + 1 else edge n k (i + 1)) then n
      else if edge n k (i + 1) ≤ edge n k i then edge n k i + 1 else edge n k (i + 1) := rfl

theorem scaleEnd_of_le (fewer : k ≤ n) (inside : i < k) : scaleEnd n k i = edge n k (i + 1) := by
  have some : 0 < k := Nat.zero_lt_of_lt inside
  have next := edge_lt_succ some fewer i
  have last : edge n k (i + 1) ≤ n := (edge_mono inside).trans_eq (edge_last some)
  rw [scaleEnd_eq, if_neg (Nat.not_le.mpr next), if_neg (Nat.not_lt.mpr last)]

theorem scaleEnd_of_ge (some : 0 < n) (more : n ≤ k) (inside : i < k) : scaleEnd n k i = edge n k i + 1 := by
  have next := edge_succ_le (Nat.zero_lt_of_lt inside) more i
  have last := edge_lt some inside
  rw [scaleEnd_eq]
  by_cases same : edge n k (i + 1) ≤ edge n k i
  · rw [if_pos same, if_neg (Nat.not_lt.mpr last)]
  · rw [if_neg same, if_neg (by omega)]
    omega

/-- A box is not empty, and inside the source. -/
theorem scaleEnd_bounds (some : 0 < n) (inside : i < k) : edge n k i < scaleEnd n k i ∧ scaleEnd n k i ≤ n := by
  rcases Nat.le_total k n with fewer | more
  · rw [scaleEnd_of_le fewer inside]
    exact ⟨edge_lt_succ (Nat.zero_lt_of_lt inside) fewer i,
      (edge_mono inside).trans_eq (edge_last (Nat.zero_lt_of_lt inside))⟩
  · rw [scaleEnd_of_ge some more inside]
    exact ⟨Nat.lt_succ_self _, edge_lt some inside⟩

end

/-- The pixels from `x0` to `x1` of a row. -/
def boxRow (x0 x1 yy : Nat) : List (Nat × Nat) := (List.range' x0 (x1 - x0)).map fun xx => (xx, yy)

/-- The pixels of a box, row by row. -/
def box (x0 x1 y0 y1 : Nat) : List (Nat × Nat) := (List.range' y0 (y1 - y0)).flatMap (boxRow x0 x1)

/-- The box of the source that pixel `x` of row `y` is made of. -/
def sourceBox (src : Picture) (w h x y : Nat) : List (Nat × Nat) :=
  box (edge src.width w x) (scaleEnd src.width w x) (edge src.height h y) (scaleEnd src.height h y)

/-- A channel of a pixel of the source. -/
def channelAt (src : Picture) (c : Nat) (q : Nat × Nat) : Nat :=
  (src.pixels (q.2 * src.stride + q.1 * src.channels + c)).toNat

theorem mem_box {x0 x1 y0 y1 : Nat} {q : Nat × Nat} :
    q ∈ box x0 x1 y0 y1 ↔ (x0 ≤ q.1 ∧ q.1 < x1) ∧ y0 ≤ q.2 ∧ q.2 < y1 := by
  obtain ⟨xx, yy⟩ := q
  simp only [box, boxRow, List.mem_flatMap, List.mem_map, List.mem_range'_1, Prod.mk.injEq]
  constructor
  · rintro ⟨_, row, _, column, rfl, rfl⟩
    omega
  · intro inside
    exact ⟨yy, by omega, xx, by omega, rfl, rfl⟩

theorem length_boxRow (x0 x1 yy : Nat) : (boxRow x0 x1 yy).length = x1 - x0 := by
  rw [boxRow, List.length_map, List.length_range']

theorem length_rows (x0 x1 y0 count : Nat) :
    ((List.range' y0 count).flatMap (boxRow x0 x1)).length = count * (x1 - x0) := by
  induction count with
  | zero => rw [Nat.zero_mul]; rfl
  | succ count ih =>
      rw [List.range'_concat, List.flatMap_append, List.length_append, ih, List.flatMap_singleton, length_boxRow,
        Nat.succ_mul]

/-! ## Sums -/

/-- The sums of the channels over some pixels. -/
def sums (src : Picture) (pixels : List (Nat × Nat)) : BoxSum :=
  ⟨fun c => if c < src.channels then (pixels.map (channelAt src c)).sum else 0, pixels.length⟩

variable {src : Picture} {x0 x1 y0 y1 xx yy : Nat}

theorem sum_le (src : Picture) (c : Nat) (pixels : List (Nat × Nat)) :
    (pixels.map (channelAt src c)).sum ≤ 255 * pixels.length := by
  induction pixels with
  | nil => exact Nat.zero_le _
  | cons q pixels ih =>
      have byte : channelAt src c q ≤ 255 := Nat.le_of_lt_succ (UInt8.toNat_lt _)
      rw [List.map_cons, List.sum_cons, List.length_cons]
      omega

/-- A pixel inside the source is added, and no sum overflows. -/
theorem addPixel_eq (wf : src.WellFormed) (column : xx < src.width) (row : yy < src.height)
    {pixels : List (Nat × Nat)} (few : pixels.length < imgMaxPixels) :
    addPixel src yy xx (sums src pixels) = .ok (sums src (pixels ++ [(xx, yy)])) := by
  have small : imgMaxPixels = 2 ^ 24 := rfl
  have four : src.channels ≤ 4 := by
    have channels := wf.channels
    omega
  have place : (yy * src.width + xx + 1) * src.channels ≤ src.size := by
    rw [wf.size]
    refine Nat.mul_le_mul_right _ ?_
    have rows : (yy + 1) * src.width ≤ src.height * src.width := Nat.mul_le_mul_right _ row
    rw [Nat.succ_mul, Nat.mul_comm src.height] at rows
    omega
  have index : yy * src.stride + xx * src.channels = (yy * src.width + xx) * src.channels := by
    rw [wf.stride, Nat.add_mul, Nat.mul_assoc]
  rw [Nat.succ_mul, ← index] at place
  let state (c : Nat) : Nat → Nat := fun j =>
    if j < c then (sums src (pixels ++ [(xx, yy)])).acc j else (sums src pixels).acc j
  have run := foldRange'_eq (addChannel src (yy * src.stride + xx * src.channels)) state 0 src.channels
    fun c _ below => by
      have value : (sums src (pixels ++ [(xx, yy)])).acc c =
          (sums src pixels).acc c + (src.pixels (yy * src.stride + xx * src.channels + c)).toNat := by
        simp only [sums]
        rw [if_pos (by omega), if_pos (by omega), List.map_append, List.sum_append, List.map_singleton,
          List.sum_singleton]
        rfl
      have bound := sum_le src c (pixels ++ [(xx, yy)])
      have exactly : (sums src (pixels ++ [(xx, yy)])).acc c < 2 ^ 32 := by
        simp only [sums]
        rw [if_pos (by omega)]
        rw [List.length_append, List.length_singleton] at bound
        omega
      have old : state c c = (sums src pixels).acc c := if_neg (Nat.lt_irrefl c)
      rw [addChannel, readSource, if_pos (by omega)]
      refine (if_pos (by omega)).trans (congrArg Except.ok (funext fun j => ?_))
      rw [old, ← value, u32_of_lt exactly]
      by_cases here : j = c
      · rw [here, Function.update_self]
        exact (if_pos (Nat.lt_succ_self c)).symm
      · rw [Function.update_of_ne here]
        exact if_congr (by omega) rfl rfl
  have first : state 0 = (sums src pixels).acc := funext fun j => if_neg (Nat.not_lt_zero j)
  have last : state (0 + src.channels) = (sums src (pixels ++ [(xx, yy)])).acc := by
    funext j
    by_cases channel : j < src.channels
    · exact if_pos (by omega)
    · refine (if_neg (by omega)).trans ?_
      simp only [sums]
      rw [if_neg channel, if_neg channel]
  rw [first, last, ← List.range_eq_range'] at run
  have count : u32 (pixels.length + 1) = pixels.length + 1 := u32_of_lt (by omega)
  rw [addPixel, run]
  simp only [ok_bind]
  have total : (sums src (pixels ++ [(xx, yy)])).cnt = u32 ((sums src pixels).cnt + 1) := by
    simp only [sums]
    rw [count, List.length_append, List.length_singleton]
  rw [← total]
  rfl

/-- The loops over a box add up its pixels. -/
theorem sumBox_eq (wf : src.WellFormed) (right : x1 ≤ src.width) (bottom : y1 ≤ src.height) :
    sumBox src x0 x1 y0 y1 = .ok (sums src (box x0 x1 y0 y1)) := by
  have empty : sums src [] = ⟨fun _ => 0, 0⟩ := by
    rw [sums]
    refine congrArg (fun acc => (⟨acc, 0⟩ : BoxSum)) (funext fun c => ?_)
    exact ite_self 0
  have run := foldRange'_eq
    (fun s yy => (List.range' x0 (x1 - x0)).foldlM (fun s xx => addPixel src yy xx s) s)
    (fun yy => sums src ((List.range' y0 (yy - y0)).flatMap (boxRow x0 x1))) y0 (y1 - y0) fun yy above below => by
      have inner := foldRange'_eq (fun s xx => addPixel src yy xx s)
        (fun xx => sums src ((List.range' y0 (yy - y0)).flatMap (boxRow x0 x1) ++
          (List.range' x0 (xx - x0)).map fun xx => (xx, yy))) x0 (x1 - x0) fun xx after before => by
          have few : ((List.range' y0 (yy - y0)).flatMap (boxRow x0 x1) ++
              (List.range' x0 (xx - x0)).map fun xx => (xx, yy)).length < imgMaxPixels := by
            rw [List.length_append, length_rows, List.length_map, List.length_range']
            have rows : (yy - y0 + 1) * (x1 - x0) ≤ src.height * src.width := Nat.mul_le_mul (by omega) (by omega)
            have area := wf.area
            rw [Nat.succ_mul, Nat.mul_comm src.height] at rows
            omega
          have next : xx + 1 - x0 = xx - x0 + 1 := by omega
          have here : x0 + (xx - x0) = xx := by omega
          rw [addPixel_eq wf (by omega) (by omega) few, next, List.range'_concat, List.map_append, List.map_singleton,
            Nat.one_mul, here, List.append_assoc]
      have next : yy + 1 - y0 = yy - y0 + 1 := by omega
      have here : y0 + (yy - y0) = yy := by omega
      rw [Nat.sub_self, List.range'_zero, List.map_nil, List.append_nil, Nat.add_sub_cancel_left] at inner
      rw [inner, next, List.range'_concat, List.flatMap_append, List.flatMap_singleton, Nat.one_mul, here, boxRow]
  rw [Nat.sub_self, List.range'_zero, List.flatMap_nil, empty, Nat.add_sub_cancel_left] at run
  exact run

/-! ## The target -/

/-- The average of a channel over some pixels. -/
def average (src : Picture) (c : Nat) (pixels : List (Nat × Nat)) : Nat :=
  (pixels.map (channelAt src c)).sum / pixels.length

/-- What channel `c` of pixel `x` of row `y` of the target is. -/
def scaledByte (src : Picture) (w h x y c : Nat) : UInt8 := UInt8.ofNat (average src c (sourceBox src w h x y))

/-- The channels of pixel `k` are stored. -/
def paint (ch k : Nat) (v : Nat → UInt8) (dst : Nat → UInt8) : Nat → UInt8 :=
  fun i => if k * ch ≤ i ∧ i < k * ch + ch then v (i - k * ch) else dst i

section

variable {w h need x y : Nat}

theorem writeChannels_eq {ch k : Nat} (room : k * ch + ch ≤ need) (v : Nat → UInt8) (dst : Nat → UInt8) :
    (List.range ch).foldlM (fun dst c => writeByte need dst (k * ch + c) (v c)) dst = .ok (paint ch k v dst) := by
  let state (c : Nat) : Nat → UInt8 := fun i => if k * ch ≤ i ∧ i < k * ch + c then v (i - k * ch) else dst i
  have run := foldRange'_eq (fun dst c => writeByte need dst (k * ch + c) (v c)) state 0 ch fun c _ below => by
    refine (if_pos (by omega)).trans (congrArg Except.ok (funext fun i => ?_))
    by_cases here : i = k * ch + c
    · have stored : state (c + 1) (k * ch + c) = v (k * ch + c - k * ch) := if_pos (by omega)
      rw [here, Function.update_self, stored, Nat.add_sub_cancel_left]
    · rw [Function.update_of_ne here]
      exact if_congr (by omega) rfl rfl
  have first : state 0 = dst := funext fun i => if_neg (by omega)
  rw [first, ← List.range_eq_range', Nat.zero_add] at run
  exact run

theorem paint_self {ch k c : Nat} (channel : c < ch) (v : Nat → UInt8) (dst : Nat → UInt8) :
    paint ch k v dst (k * ch + c) = v c := by
  rw [paint, if_pos (by omega), Nat.add_sub_cancel_left]

theorem paint_of_ne {ch k k' c : Nat} (channel : c < ch) (other : k' < k) (v : Nat → UInt8) (dst : Nat → UInt8) :
    paint ch k v dst (k' * ch + c) = dst (k' * ch + c) := by
  have before : (k' + 1) * ch ≤ k * ch := Nat.mul_le_mul_right ch other
  rw [Nat.succ_mul] at before
  exact if_neg (by omega)

/-- Loops that store every pixel of the target, row by row. -/
theorem scaleLoops_ok {ch : Nat} {value : Nat → Nat → Nat → UInt8}
    {body : Nat → (Nat → UInt8) → Nat → Except Stop (Nat → UInt8)}
    (step : ∀ y < h, ∀ x < w, ∀ dst, body y dst x = .ok (paint ch (y * w + x) (value x y) dst)) (dst : Nat → UInt8) :
    ∃ dst', scaleLoops w h body dst = .ok dst' ∧
      ∀ y < h, ∀ x < w, ∀ c < ch, dst' ((y * w + x) * ch + c) = value x y c := by
  let done (count : Nat) (dst : Nat → UInt8) : Prop :=
    ∀ k < count, ∀ c < ch, dst (k * ch + c) = value (k % w) (k / w) c
  have rows : Ends (fun _ => False) (done (h * w)) (scaleLoops w h body dst) := by
    refine Ends.foldRange (fun y => done (y * w)) (fun k none => ?_) fun y row dst holds => ?_
    · rw [Nat.zero_mul] at none
      exact absurd none (Nat.not_lt_zero k)
    · rw [Nat.succ_mul]
      refine Ends.foldRange (fun x => done (y * w + x)) holds fun x column dst holds => ?_
      rw [step y row x column]
      refine .ok fun k below c channel => ?_
      by_cases here : k = y * w + x
      · have place : (y * w + x) % w = x := Nat.mul_add_mod_of_lt column
        have line : (y * w + x) / w = y := by
          rw [Nat.mul_comm, Nat.mul_add_div (Nat.zero_lt_of_lt column), Nat.div_eq_of_lt column, Nat.add_zero]
        rw [here, paint_self channel, place, line]
      · rw [paint_of_ne channel (by omega)]
        exact holds k (by omega) c channel
  obtain ⟨dst', run, holds⟩ := rows.exists_ok
  refine ⟨dst', run, fun y row x column c channel => ?_⟩
  have inside : (y + 1) * w ≤ h * w := Nat.mul_le_mul_right w row
  rw [Nat.succ_mul] at inside
  have place : (y * w + x) % w = x := Nat.mul_add_mod_of_lt column
  have line : (y * w + x) / w = y := by
    rw [Nat.mul_comm, Nat.mul_add_div (Nat.zero_lt_of_lt column), Nat.div_eq_of_lt column, Nat.add_zero]
  have pixel := holds (y * w + x) (by omega) c channel
  rwa [place, line] at pixel

/-- There is room for every pixel of the target. -/
theorem target_room {ch : Nat} (row : y < h) (column : x < w) : (y * w + x) * ch + ch ≤ w * h * ch := by
  have inside : (y + 1) * w ≤ h * w := Nat.mul_le_mul_right w row
  rw [← Nat.succ_mul]
  refine Nat.mul_le_mul_right ch ?_
  rw [Nat.succ_mul, Nat.mul_comm h] at inside
  omega

theorem sourceBox_ne_nil (wf : src.WellFormed) (row : y < h) (column : x < w) : sourceBox src w h x y ≠ [] := by
  have columns := scaleEnd_bounds wf.width_pos column
  have rows := scaleEnd_bounds wf.height_pos row
  have corner : (edge src.width w x, edge src.height h y) ∈ sourceBox src w h x y :=
    mem_box.mpr ⟨⟨Nat.le_refl _, columns.1⟩, Nat.le_refl _, rows.1⟩
  exact List.ne_nil_of_mem corner

/-- A pixel of a smaller image is the average of its box. -/
theorem shrinkPixel_eq (wf : src.WellFormed) (row : y < h) (column : x < w) (dst : Nat → UInt8) :
    shrinkPixel src w h (w * h * src.channels) y dst x =
      .ok (paint src.channels (y * w + x) (scaledByte src w h x y) dst) := by
  have columns := scaleEnd_bounds wf.width_pos column
  have rows := scaleEnd_bounds wf.height_pos row
  have some : (sums src (sourceBox src w h x y)).cnt ≠ 0 := fun none =>
    sourceBox_ne_nil wf row column (List.eq_nil_of_length_eq_zero none)
  have sum : sumBox src (scaleEdge src.width w x) (scaleEnd src.width w x) (scaleEdge src.height h y)
      (scaleEnd src.height h y) = .ok (sums src (sourceBox src w h x y)) := sumBox_eq wf columns.2 rows.2
  rw [shrinkPixel, sum]
  simp only [ok_bind]
  rw [← writeChannels_eq (target_room row column) (scaledByte src w h x y) dst]
  refine foldRange_congr fun c channel dst => ?_
  have byte : (sums src (sourceBox src w h x y)).acc c / (sourceBox src w h x y).length =
      average src c (sourceBox src w h x y) := by
    simp only [sums]
    rw [if_pos channel, average]
  rw [if_neg some, scaledByte, ← byte]
  rfl

/-- A box of one pixel has its value as average. -/
theorem scaledByte_of_single {q : Nat × Nat} (single : sourceBox src w h x y = [q]) (c : Nat) :
    scaledByte src w h x y c = src.pixels (q.2 * src.stride + q.1 * src.channels + c) := by
  rw [scaledByte, average, single, List.map_singleton, List.sum_singleton, List.length_singleton, Nat.div_one]
  exact UInt8.ofNat_toNat

theorem sourceBox_of_ge (wf : src.WellFormed) (wider : src.width ≤ w) (higher : src.height ≤ h) (row : y < h)
    (column : x < w) : sourceBox src w h x y = [(edge src.width w x, edge src.height h y)] := by
  rw [sourceBox, scaleEnd_of_ge wf.width_pos wider column, scaleEnd_of_ge wf.height_pos higher row, box,
    Nat.add_sub_cancel_left]
  change boxRow _ _ _ ++ [] = _
  rw [boxRow, Nat.add_sub_cancel_left]
  rfl

/-- A pixel of a larger image is one of the source. -/
theorem growPixel_eq (wf : src.WellFormed) (wider : src.width ≤ w) (higher : src.height ≤ h) (row : y < h)
    (column : x < w) (dst : Nat → UInt8) :
    growPixel src w h (w * h * src.channels) y dst x =
      .ok (paint src.channels (y * w + x) (scaledByte src w h x y) dst) := by
  have single := sourceBox_of_ge wf wider higher row column
  have place : y * w * src.channels + x * src.channels = (y * w + x) * src.channels := (Nat.add_mul _ _ _).symm
  have line := edge_lt wf.height_pos row
  have spot := edge_lt wf.width_pos column
  have inside : (edge src.height h y * src.width + edge src.width w x + 1) * src.channels ≤ src.size := by
    rw [wf.size]
    refine Nat.mul_le_mul_right _ ?_
    have rows : (edge src.height h y + 1) * src.width ≤ src.height * src.width := Nat.mul_le_mul_right _ line
    rw [Nat.succ_mul, Nat.mul_comm src.height] at rows
    omega
  have index : edge src.height h y * src.stride + edge src.width w x * src.channels =
      (edge src.height h y * src.width + edge src.width w x) * src.channels := by
    rw [wf.stride, Nat.add_mul, Nat.mul_assoc]
  rw [Nat.succ_mul, ← index] at inside
  rw [growPixel, ← writeChannels_eq (target_room row column) (scaledByte src w h x y) dst]
  refine foldRange_congr fun c channel dst => ?_
  rw [place, scaledByte_of_single single]
  dsimp only [scaleEdge]
  rw [← edge, ← edge, readSource, if_pos (by omega)]
  rfl

/-- In all three ways of working, every byte of the target is an average. -/
theorem scalePixels_ok (wf : src.WellFormed) (w h : Nat) (dst : Nat → UInt8) :
    ∃ dst', scalePixels src w h (w * h * src.channels) dst = .ok dst' ∧
      ∀ y < h, ∀ x < w, ∀ c < src.channels, dst' ((y * w + x) * src.channels + c) = scaledByte src w h x y c := by
  rw [scalePixels]
  by_cases same : w = src.width ∧ h = src.height
  · obtain ⟨rfl, rfl⟩ := same
    rw [if_pos ⟨rfl, rfl⟩, copyPixels, if_pos (Nat.le_of_eq wf.size.symm)]
    refine ⟨_, rfl, fun y row x column c channel => ?_⟩
    have room : (y * src.width + x) * src.channels + src.channels ≤ _ := target_room row column
    have line : edge src.height src.height y = y := Nat.mul_div_cancel y wf.height_pos
    have spot : edge src.width src.width x = x := Nat.mul_div_cancel x wf.width_pos
    have single := sourceBox_of_ge wf (Nat.le_refl _) (Nat.le_refl _) row column
    rw [line, spot] at single
    rw [scaledByte_of_single single, if_pos (by omega), wf.stride, Nat.add_mul, Nat.mul_assoc]
  · rw [if_neg same]
    split
    · exact scaleLoops_ok (fun y row x column dst => shrinkPixel_eq wf row column dst) dst
    · next larger =>
      exact scaleLoops_ok (fun y row x column dst => growPixel_eq wf (by omega) (by omega) row column dst) dst

end

/-- The target is made of averages over boxes of the source. -/
structure ScaledFrom (src : Picture) (w h : Nat) (p : Picture) : Prop where
  width : p.width = w
  height : p.height = h
  channels : p.channels = src.channels
  size : p.size = w * h * src.channels
  nonempty : ∀ y < h, ∀ x < w, sourceBox src w h x y ≠ []
  inside : ∀ y < h, ∀ x < w, ∀ q ∈ sourceBox src w h x y, q.1 < src.width ∧ q.2 < src.height
  sum_lt : ∀ y < h, ∀ x < w, ∀ c < src.channels, ((sourceBox src w h x y).map (channelAt src c)).sum < 2 ^ 32
  averages : ∀ y < h, ∀ x < w, ∀ c < src.channels,
    (p.pixels ((y * w + x) * src.channels + c)).toNat = average src c (sourceBox src w h x y)
  between : ∀ y < h, ∀ x < w, ∀ c < src.channels,
    (∃ q ∈ sourceBox src w h x y, channelAt src c q ≤ (p.pixels ((y * w + x) * src.channels + c)).toNat) ∧
      ∃ q ∈ sourceBox src w h x y, (p.pixels ((y * w + x) * src.channels + c)).toNat ≤ channelAt src c q

/-- The boxes divide the source: every pixel of it is in one box. -/
def BoxesDivide (src : Picture) (w h : Nat) : Prop :=
  ∀ yy < src.height, ∀ xx < src.width, ∃! pixel : Nat × Nat,
    (pixel.1 < w ∧ pixel.2 < h) ∧ (xx, yy) ∈ sourceBox src w h pixel.1 pixel.2

theorem boxesDivide (src : Picture) {w h : Nat} (wide : 0 < w) (high : 0 < h) (narrower : w ≤ src.width)
    (lower : h ≤ src.height) : BoxesDivide src w h := by
  intro yy row xx column
  obtain ⟨x, spot, onlyX⟩ := existsUnique_box wide column
  obtain ⟨y, line, onlyY⟩ := existsUnique_box high row
  have member : ∀ pixel : Nat × Nat, pixel.1 < w → pixel.2 < h →
      ((xx, yy) ∈ sourceBox src w h pixel.1 pixel.2 ↔
        (edge src.width w pixel.1 ≤ xx ∧ xx < edge src.width w (pixel.1 + 1)) ∧
          edge src.height h pixel.2 ≤ yy ∧ yy < edge src.height h (pixel.2 + 1)) := by
    intro pixel column row
    rw [sourceBox, mem_box, scaleEnd_of_le narrower column, scaleEnd_of_le lower row]
  refine ⟨(x, y), ⟨⟨spot.1, line.1⟩, (member _ spot.1 line.1).mpr ⟨spot.2, line.2⟩⟩, ?_⟩
  rintro ⟨x', y'⟩ ⟨⟨column', row'⟩, inBox⟩
  obtain ⟨spot', line'⟩ := (member _ column' row').mp inBox
  rw [onlyX x' ⟨column', spot'⟩, onlyY y' ⟨row', line'⟩]

theorem scaledFrom (wf : src.WellFormed) {w h : Nat} {p : Picture} (width : p.width = w) (height : p.height = h)
    (channels : p.channels = src.channels) (size : p.size = w * h * src.channels)
    (bytes : ∀ y < h, ∀ x < w, ∀ c < src.channels,
      p.pixels ((y * w + x) * src.channels + c) = scaledByte src w h x y c) : ScaledFrom src w h p := by
  have inside : ∀ y < h, ∀ x < w, ∀ q ∈ sourceBox src w h x y, q.1 < src.width ∧ q.2 < src.height := by
    intro y row x column q member
    have columns := (scaleEnd_bounds wf.width_pos column).2
    have rows := (scaleEnd_bounds wf.height_pos row).2
    obtain ⟨spot, line⟩ := mem_box.mp member
    exact ⟨Nat.lt_of_lt_of_le spot.2 columns, Nat.lt_of_lt_of_le line.2 rows⟩
  have between : ∀ y < h, ∀ x < w, ∀ c,
      (∃ q ∈ sourceBox src w h x y, channelAt src c q ≤ average src c (sourceBox src w h x y)) ∧
        ∃ q ∈ sourceBox src w h x y, average src c (sourceBox src w h x y) ≤ channelAt src c q := by
    intro y row x column c
    have some : (sourceBox src w h x y).map (channelAt src c) ≠ [] := fun none =>
      sourceBox_ne_nil wf row column (List.map_eq_nil_iff.mp none)
    have average := average_between some
    rw [List.length_map] at average
    obtain ⟨⟨low, lowMember, below⟩, high, highMember, above⟩ := average
    obtain ⟨q, member, rfl⟩ := List.mem_map.mp lowMember
    obtain ⟨q', member', rfl⟩ := List.mem_map.mp highMember
    exact ⟨⟨q, member, below⟩, q', member', above⟩
  have averages : ∀ y < h, ∀ x < w, ∀ c < src.channels,
      (p.pixels ((y * w + x) * src.channels + c)).toNat = average src c (sourceBox src w h x y) := by
    intro y row x column c channel
    obtain ⟨-, q, -, above⟩ := between y row x column c
    have byte : channelAt src c q < 256 := UInt8.toNat_lt _
    rw [bytes y row x column c channel, scaledByte, UInt8.toNat_ofNat_of_lt' (Nat.lt_of_le_of_lt above byte)]
  refine ⟨width, height, channels, size, fun y row x column => sourceBox_ne_nil wf row column, inside, ?_, averages, ?_⟩
  · intro y row x column c _
    have columns := (scaleEnd_bounds wf.width_pos column).2
    have rows := (scaleEnd_bounds wf.height_pos row).2
    have length : (sourceBox src w h x y).length ≤ src.height * src.width := by
      rw [sourceBox, box, length_rows]
      exact Nat.mul_le_mul (by omega) (by omega)
    have bound := sum_le src c (sourceBox src w h x y)
    have area : src.height * src.width ≤ 2 ^ 24 := Nat.mul_comm src.width src.height ▸ wf.area
    omega
  · intro y row x column c channel
    rw [averages y row x column c channel]
    exact between y row x column c

/-- `image_scale` of an image that a decoder delivers: it is refused for its size or for want of memory, or it stays
inside the source and the target, and every byte of the target is the average of its box, which is between the
smallest and the largest value of the box; when both sides become smaller, the boxes divide the source. -/
theorem image_scale_averages {src : Picture} (wf : src.WellFormed) {w h : Int} (wide : 1 ≤ w) (high : 1 ≤ h)
    (heap_malloc : Nat → Option (Nat → UInt8)) :
    ((imgMaxPixels : Int) < w * h ∧ imageScale heap_malloc src w h = .error errTooBig ∨
      (heap_malloc (w.toNat * h.toNat * src.channels) = none ∧ imageScale heap_malloc src w h = .error errMemory) ∨
      ∃ p, imageScale heap_malloc src w h = .ok p ∧ ScaledFrom src w.toNat h.toNat p) ∧
    (w.toNat ≤ src.width → h.toNat ≤ src.height → BoxesDivide src w.toNat h.toNat) := by
  refine ⟨?_, boxesDivide src (by omega) (by omega)⟩
  have positive : ¬(w ≤ 0 ∨ h ≤ 0) := by omega
  rw [imageScale, if_neg positive]
  by_cases big : (imgMaxPixels : Int) < w * h
  · rw [if_pos big]
    exact .inl ⟨big, rfl⟩
  · rw [if_neg big]
    dsimp only
    cases memory : heap_malloc (w.toNat * h.toNat * src.channels) with
    | none => exact .inr (.inl ⟨rfl, rfl⟩)
    | some dst =>
        obtain ⟨dst', run, bytes⟩ := scalePixels_ok wf w.toNat h.toNat dst
        let p : Picture := ⟨w.toNat, h.toNat, src.channels, src.has_alpha, dst', w.toNat * h.toNat * src.channels,
          u32 (w.toNat * src.channels)⟩
        refine .inr (.inr ⟨p, ?_, scaledFrom wf rfl rfl rfl rfl bytes⟩)
        dsimp only
        rw [run]
        rfl

/-- A grey image of 3 by 2 pixels. -/
def greyTiles : Picture := ⟨3, 2, 1, false, fun i => UInt8.ofNat (10 * i), 6, 3⟩

theorem greyTiles_wellFormed : greyTiles.WellFormed := by constructor <;> decide

theorem image_scale_averages_greyTiles : BoxesDivide greyTiles 2 1 :=
  (image_scale_averages greyTiles_wellFormed (w := 2) (h := 1) (by decide) (by decide) fun _ => some fun _ => 0).2
    (by decide) (by decide)

end Systrix.Image
