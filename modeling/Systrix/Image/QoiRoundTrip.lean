import Systrix.Image.Qoi

/-!
# Round trip of QOI images
-/

namespace Systrix.Image

open Fallible

/-! ## The header -/

section header

variable {w h : Nat} {channels : UInt8}

/-- The bytes of a file one after the other. -/
theorem qoiFile_eq {colorspace : UInt8} {bytes tail : List UInt8} : qoiFile w h channels colorspace bytes tail =
    'q'.toUInt8 :: 'o'.toUInt8 :: 'i'.toUInt8 :: 'f'.toUInt8 ::
      UInt8.ofNat (w / 0x1000000) :: UInt8.ofNat (w / 0x10000) :: UInt8.ofNat (w / 0x100) :: UInt8.ofNat w ::
      UInt8.ofNat (h / 0x1000000) :: UInt8.ofNat (h / 0x10000) :: UInt8.ofNat (h / 0x100) :: UInt8.ofNat h ::
      channels :: colorspace :: (bytes ++ tail) := rfl

/-- Four bytes are the number they are made of. -/
theorem be32_be32Bytes {d rest : List UInt8} {n p : Nat} (small : n < 0x100000000)
    (ahead : d.drop p = be32Bytes n ++ rest) : be32 d p = .ok n := by
  obtain ⟨first, ahead', -⟩ := read_drop ahead
  obtain ⟨second, ahead'', -⟩ := read_drop ahead'
  obtain ⟨third, ahead''', -⟩ := read_drop ahead''
  obtain ⟨fourth, -, -⟩ := read_drop ahead'''
  rw [be32, first, ok_bind, second, ok_bind, third, ok_bind, fourth, ok_bind, UInt8.toNat_ofNat',
    UInt8.toNat_ofNat', UInt8.toNat_ofNat', UInt8.toNat_ofNat']
  have whole : n / 0x1000000 % 2 ^ 8 * 0x1000000 + n / 0x10000 % 2 ^ 8 * 0x10000 + n / 0x100 % 2 ^ 8 * 0x100 +
      n % 2 ^ 8 = n := by omega
  exact congrArg Except.ok whole

/-- The header is read, and the chunks after it. -/
theorem qoiDecode_file (heap_malloc : Nat → Option (Nat → UInt8)) (colorspace : UInt8) (bytes tail : List UInt8)
    (wide : 0 < w) (notTooWide : w ≤ imgMaxDim)
    (high : 0 < h) (notTooHigh : h ≤ imgMaxDim) (known : channels = 3 ∨ channels = 4) :
    qoiDecode heap_malloc (qoiFile w h channels colorspace bytes tail) =
      match heap_malloc (w * h * 4) with
      | none => .error errMemory
      | some px =>
          qoiLoop (qoiFile w h channels colorspace bytes tail) (w * h * 4) (w * h) 0 px qoiStart >>= fun px =>
            pure ⟨w, h, 4, true, px, w * h * 4, w * 4⟩ := by
  have width : be32 (qoiFile w h channels colorspace bytes tail) 4 = .ok w :=
    be32_be32Bytes (Nat.lt_of_le_of_lt notTooWide (by decide)) (by rw [qoiFile_eq]; rfl)
  have height : be32 (qoiFile w h channels colorspace bytes tail) 8 = .ok h :=
    be32_be32Bytes (Nat.lt_of_le_of_lt notTooHigh (by decide)) (by rw [qoiFile_eq]; rfl)
  have long : ¬ (qoiFile w h channels colorspace bytes tail).length < 14 := by
    rw [qoiFile_eq]
    simp only [List.length_cons]
    omega
  have area : w * h ≤ imgMaxPixels := Nat.mul_le_mul notTooWide notTooHigh
  have magic0 : readByte (qoiFile w h channels colorspace bytes tail) 0 = .ok 'q'.toUInt8 := rfl
  have magic1 : readByte (qoiFile w h channels colorspace bytes tail) 1 = .ok 'o'.toUInt8 := rfl
  have magic2 : readByte (qoiFile w h channels colorspace bytes tail) 2 = .ok 'i'.toUInt8 := rfl
  have magic3 : readByte (qoiFile w h channels colorspace bytes tail) 3 = .ok 'f'.toUInt8 := rfl
  have channelByte : readByte (qoiFile w h channels colorspace bytes tail) 12 = .ok channels := rfl
  have noZero : ¬ (w = 0 ∨ h = 0) := by omega
  have small : ¬ (imgMaxDim < w ∨ imgMaxDim < h) := by omega
  have legal : ¬ (channels ≠ 3 ∧ channels ≠ 4) := by
    rintro ⟨no3, no4⟩
    exact known.elim no3 no4
  rw [qoiDecode, if_neg long]
  simp only [magic0, magic1, magic2, magic3, width, height, channelByte, ok_bind, ne_eq, not_true_eq_false,
    or_self, if_false, if_neg noZero, if_neg small, if_neg (Nat.not_lt_of_le area)]
  rw [if_neg legal]
  rfl

end header

/-! ## Buffers -/

section buffers

variable {d : List UInt8} {out_len : Nat} {s : QoiState}

/-- Within the input, at the start of a chunk or in a run. -/
theorem inside_qoiOp (b1 : UInt8) (inside : s.p ≤ d.length) :
    Inside (fun s' => s'.p ≤ d.length) (qoiOp d b1 s) := by
  unfold qoiOp
  split
  · split
    · exact .error (by decide)
    · refine (inside_readByte (by omega)).bind fun r _ => ?_
      refine (inside_readByte (by omega)).bind fun g _ => ?_
      refine (inside_readByte (by omega)).bind fun b _ => ?_
      exact .ok (by dsimp only; omega)
  · split
    · split
      · exact .error (by decide)
      · refine (inside_readByte (by omega)).bind fun r _ => ?_
        refine (inside_readByte (by omega)).bind fun g _ => ?_
        refine (inside_readByte (by omega)).bind fun b _ => ?_
        refine (inside_readByte (by omega)).bind fun a _ => ?_
        exact .ok (by dsimp only; omega)
    · split
      · have below : (b1 &&& 0x3F).toNat < 64 := by
          rw [UInt8.toNat_and]
          exact Nat.lt_of_le_of_lt Nat.and_le_right (by decide)
        rw [readIndex, if_pos below]
        exact .ok inside
      · split
        · exact .ok inside
        · split
          · split
            · exact .error (by decide)
            · exact (inside_readByte (by omega)).bind fun b2 _ => .ok (by dsimp only; omega)
          · exact .ok inside

theorem inside_qoiNext (inside : s.p ≤ d.length) : Inside (fun s' => s'.p ≤ d.length) (qoiNext d s) := by
  unfold qoiNext
  split
  · exact .ok inside
  · split
    · exact .error (by decide)
    · next ahead =>
      refine (inside_readByte (by omega)).bind fun b1 _ => ?_
      refine (inside_qoiOp b1 (by dsimp only; omega)).bind fun s' inside' => ?_
      rw [writeIndex, if_pos (qoiHash_lt _)]
      exact .ok inside'

/-- The loop stays inside the buffers. -/
theorem inside_qoiLoop {left count : Nat} {px : Nat → UInt8} (room : (count + left) * 4 ≤ out_len)
    (inside : s.p ≤ d.length) : Inside (fun _ => True) (qoiLoop d out_len left count px s) := by
  induction left generalizing count px s with
  | zero => exact .ok trivial
  | succ left ih =>
      rw [qoiLoop]
      refine (inside_qoiNext inside).bind fun s' inside' => ?_
      rw [storePixel_eq (by omega), ok_bind]
      dsimp only
      apply ih
      · omega
      · split <;> exact inside'

theorem inside_qoiDecode (heap_malloc : Nat → Option (Nat → UInt8)) (d : List UInt8) :
    Inside (fun _ => True) (qoiDecode heap_malloc d) := by
  unfold qoiDecode
  split
  · exact .error (by decide)
  · next long =>
    refine (inside_readByte (by omega)).bind fun q _ => ?_
    refine (inside_readByte (by omega)).bind fun o _ => ?_
    refine (inside_readByte (by omega)).bind fun i _ => ?_
    refine (inside_readByte (by omega)).bind fun f _ => ?_
    split
    · exact .error (by decide)
    · refine (inside_be32 (by omega)).bind fun w _ => ?_
      refine (inside_be32 (by omega)).bind fun h _ => ?_
      refine (inside_readByte (by omega)).bind fun channels _ => ?_
      dsimp only
      split
      · exact .error (by decide)
      split
      · exact .error (by decide)
      split
      · exact .error (by decide)
      split
      · exact .error (by decide)
      split
      · exact .error (by decide)
      refine (inside_qoiLoop (by omega) ?_).bind fun px _ => .ok trivial
      change 14 ≤ d.length
      omega

end buffers

/-! ## The round trip -/

/-- The picture has these pixels, one after the other, and nothing else. -/
structure Picture.Shows (picture : Picture) (w h : Nat) (pixels : List Pixel) : Prop where
  width : picture.width = w
  height : picture.height = h
  channels : picture.channels = 4
  alpha : picture.has_alpha = true
  size : picture.size = pixels.length * 4
  stride : picture.stride = w * 4
  pixel : ∀ i c, pixels[i]? = some c → pixelAt picture.pixels i = c

/-- The decoder stays inside its buffers, and delivers the pixels of a file unless the heap refuses the memory. -/
theorem qoiDecode_round_trip (heap_malloc : Nat → Option (Nat → UInt8)) :
    (∀ d, qoiDecode heap_malloc d ≠ .error .outside) ∧
    ∀ (w h : Nat) (channels colorspace : UInt8) (pixels : List Pixel) (bytes tail : List UInt8),
      0 < w → w ≤ imgMaxDim → 0 < h → h ≤ imgMaxDim → channels = 3 ∨ channels = 4 → pixels.length = w * h →
      Chunks qoiStart.px_prev qoiStart.index pixels bytes →
      (∀ px, heap_malloc (w * h * 4) = some px →
        ∃ picture, qoiDecode heap_malloc (qoiFile w h channels colorspace bytes tail) = .ok picture ∧
          picture.Shows w h pixels) ∧
      (heap_malloc (w * h * 4) = none →
        qoiDecode heap_malloc (qoiFile w h channels colorspace bytes tail) = .error errMemory) := by
  constructor
  · intro d outside
    have ends := inside_qoiDecode heap_malloc d
    rw [outside] at ends
    exact ends_error.mp ends rfl
  · intro w h channels colorspace pixels bytes tail wide notTooWide high notTooHigh known whole chunks
    have decoded := qoiDecode_file heap_malloc colorspace bytes tail wide notTooWide high notTooHigh known
    constructor
    · intro px given
      have room : (0 + pixels.length) * 4 ≤ w * h * 4 := by omega
      have ahead : (qoiFile w h channels colorspace bytes tail).drop qoiStart.p = bytes ++ tail := rfl
      have loop := qoiLoop_chunks px chunks rfl rfl rfl ahead room
      rw [whole] at loop
      rw [decoded, given]
      dsimp only
      rw [loop, ok_bind]
      refine ⟨_, rfl, rfl, rfl, rfl, rfl, ?_, rfl, fun i c found => ?_⟩
      · rw [whole]
      · have here := pixelAt_putPixels px 0 found
        rwa [Nat.zero_add] at here
    · intro refused
      rw [decoded, refused]

/-- The pixels of `sampleChunks`. -/
def samplePixels : List Pixel :=
  [⟨10, 20, 30, 40⟩, ⟨200, 1, 2, 40⟩, ⟨201, 255, 2, 40⟩, ⟨211, 7, 2, 40⟩, ⟨10, 20, 30, 40⟩, ⟨10, 20, 30, 40⟩,
    ⟨10, 20, 30, 40⟩]

/-- A chunk of each kind. -/
def sampleChunks : List UInt8 := [0xFF, 10, 20, 30, 40, 0xFE, 200, 1, 2, 0x72, 0xA8, 0xA0, 12, 0xC1]

theorem samplePixels_chunks : Chunks qoiStart.px_prev qoiStart.index samplePixels sampleChunks := by
  refine @Chunks.rgba _ ⟨10, 20, 30, 40⟩ _ _ _ ?_
  refine @Chunks.rgb _ ⟨200, 1, 2, 40⟩ _ _ _ rfl ?_
  refine @Chunks.diff _ ⟨201, 255, 2, 40⟩ _ _ _ 3 0 2 (by decide) ?_
  refine @Chunks.luma _ ⟨211, 7, 2, 40⟩ _ _ _ 40 10 0 (by decide) ?_
  refine Chunks.index 12 ?_
  exact Chunks.run 1 .done

theorem qoiDecode_round_trip_sample : ∃ picture,
    qoiDecode (fun _ => some fun _ => 0) (qoiFile 7 1 4 0 sampleChunks []) = .ok picture ∧
      picture.Shows 7 1 samplePixels :=
  ((qoiDecode_round_trip fun _ => some fun _ => 0).2 7 1 4 0 samplePixels sampleChunks [] (by decide) (by decide)
    (by decide) (by decide) (.inr rfl) rfl samplePixels_chunks).1 _ rfl

end Systrix.Image
