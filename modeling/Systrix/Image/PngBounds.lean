import Systrix.Image.PngPasses
import Systrix.Inflate.Stream

/-!
# Where the PNG decoder reads and writes

The chunks, the rows, the palette and the pixels are never left.  Only the copies of IDAT chunks may go outside, because
nothing looks at what `heap_malloc` returns for their buffer.
-/

namespace Systrix.Image

open Fallible PngFormat Machine

/-! ## Samples -/

theorem PngHeader.Legal.depth_mem {h : PngHeader} (legal : h.Legal) : h.bit_depth ∈ [1, 2, 4, 8, 16] := by
  have known := legal.channels ▸ legal.known
  have depth := legal.depth
  unfold legalDepth at depth
  unfold hdrChannels at known
  split at depth <;> simp_all
  all_goals omega

theorem PngHeader.Legal.color_mem {h : PngHeader} (legal : h.Legal) : h.color_type ∈ [0, 2, 3, 4, 6] := by
  have known := legal.channels ▸ legal.known
  unfold hdrChannels at known
  split at known <;> simp_all

theorem inside_byte {row : List UInt8} {i : Nat} (within : i < row.length) : Inside (fun _ => True) (readByte row i) :=
  (inside_readByte within).mono fun _ _ => trivial

/-- A sample of a row is in its bytes. -/
theorem inside_getSample {row : List UInt8} {samples i depth : Nat} (legal : depth ∈ [1, 2, 4, 8, 16])
    (size : row.length = (samples * depth + 7) / 8) (below : i < samples) :
    Inside (fun _ => True) (getSample row i depth) := by
  simp only [List.mem_cons, List.not_mem_nil, or_false] at legal
  unfold getSample
  rcases legal with rfl | rfl | rfl | rfl | rfl
  · exact (inside_byte (by rw [Nat.shiftRight_eq_div_pow]; omega)).bind fun _ _ => .ok trivial
  · exact (inside_byte (by rw [Nat.shiftRight_eq_div_pow]; omega)).bind fun _ _ => .ok trivial
  · exact (inside_byte (by rw [Nat.shiftRight_eq_div_pow]; omega)).bind fun _ _ => .ok trivial
  · exact (inside_byte (by omega)).bind fun _ _ => .ok trivial
  · refine (inside_byte (by omega)).bind fun _ _ => ?_
    exact (inside_byte (by omega)).bind fun _ _ => .ok trivial

theorem outCh_eq (s : PngState) : s.outCh = 3 ∨ s.outCh = 4 := by
  unfold PngState.outCh
  split
  · exact .inl rfl
  · exact .inl rfl
  · split
    · exact .inr rfl
    · exact .inl rfl
  · exact .inr rfl
  · exact .inr rfl

/-- The samples of a pixel are in its row, and its bytes at its place. -/
theorem inside_pixelBytes {s : PngState} (legal : s.h.Legal) {cur : List UInt8} {columns px : Nat}
    (size : cur.length = (columns * s.h.bits_per_px + 7) / 8) (below : px < columns) :
    Inside (fun bytes => bytes.length ≤ s.outCh) (pixelBytes s cur px) := by
  have samples : ∀ c < s.h.channels, Inside (fun _ => True) (getSample cur (px * s.h.channels + c) s.h.bit_depth) := by
    intro c small
    refine @inside_getSample _ (columns * s.h.channels) _ _ legal.depth_mem ?_ ?_
    · rw [size, legal.bits_per_px, Nat.mul_assoc]
    · calc px * s.h.channels + c < (px + 1) * s.h.channels := by rw [Nat.succ_mul]; omega
        _ ≤ columns * s.h.channels := Nat.mul_le_mul_right _ below
  have entry : ∀ (palette : Nat → UInt8) (size i : Nat), i < size →
      Inside (fun _ => True) (readPalette palette size i) := fun palette size i within => by
    rw [readPalette, if_pos within]
    exact .ok trivial
  have channels := legal.channels
  have color := legal.color_mem
  simp only [List.mem_cons, List.not_mem_nil, or_false] at color
  unfold pixelBytes
  rcases color with color | color | color | color | color <;> rw [color] at channels ⊢ <;> rw [channels] at samples <;>
    simp only [hdrChannels, Nat.mul_one] at samples ⊢
  · -- grey
    refine (samples 0 (by decide)).bind fun _ _ => .ok ?_
    rw [PngState.outCh, color]
    exact Nat.le_refl 3
  · -- colours
    refine (samples 0 (by decide)).bind fun _ _ => ?_
    refine (samples 1 (by decide)).bind fun _ _ => ?_
    refine (samples 2 (by decide)).bind fun _ _ => ?_
    have three : s.outCh = 3 := by rw [PngState.outCh, color]; rfl
    rw [three]
    split <;> (split <;> exact .ok (Nat.le_refl 3))
  · -- an index into the palette
    refine (samples 0 (by decide)).bind fun pi _ => ?_
    split
    · exact .ok (Nat.zero_le _)
    refine (entry _ _ _ (by omega)).bind fun _ _ => ?_
    refine (entry _ _ _ (by omega)).bind fun _ _ => ?_
    refine (entry _ _ _ (by omega)).bind fun _ _ => ?_
    split
    next four =>
      rw [four]
      split
      · exact (entry _ _ _ (by omega)).bind fun _ _ => .ok (Nat.le_refl 4)
      · exact .ok (Nat.le_refl 4)
    · rcases outCh_eq s with three | four
      · exact .ok (Nat.le_of_eq three.symm)
      · contradiction
  · -- grey with alpha
    refine (samples 0 (by decide)).bind fun _ _ => ?_
    refine (samples 1 (by decide)).bind fun _ _ => .ok ?_
    rw [PngState.outCh, color]
    exact Nat.le_refl 4
  · -- colours with alpha
    refine (samples 0 (by decide)).bind fun _ _ => ?_
    refine (samples 1 (by decide)).bind fun _ _ => ?_
    refine (samples 2 (by decide)).bind fun _ _ => ?_
    refine (samples 3 (by decide)).bind fun _ _ => .ok ?_
    rw [PngState.outCh, color]
    exact Nat.le_refl 4

theorem inside_storeBytes {out_len : Nat} {bytes : List UInt8} {pixels : Nat → UInt8} {i : Nat}
    (room : i + bytes.length ≤ out_len) : Inside (fun _ => True) (storeBytes out_len pixels i bytes) := by
  induction bytes generalizing pixels i with
  | nil => exact .ok trivial
  | cons b bytes ih =>
      rw [List.length_cons] at room
      rw [storeBytes, writeByte, if_pos (by omega)]
      exact ih (by omega)

/-- The pixels of the passes are pixels of the image. -/
theorem keeps_plotPixel {s : PngState} (legal : s.h.Legal) :
    Keeps (· ≠ .outside) s.h (plotPixel s (s.h.width * s.h.height * s.outCh)) fun _ _ => True := by
  intro p member visited out py px cur line column size _
  have proper := lattices_proper s.h p member
  have x : p.x0 + px * p.dx < s.h.width := (lt_ceil_iff proper.x0_lt).mp column
  have y : p.y0 + py * p.dy < s.h.height := (lt_ceil_iff proper.y0_lt).mp line
  refine (inside_pixelBytes legal size column).bind fun bytes few => inside_storeBytes ?_
  have place : (p.y0 + py * p.dy) * s.h.width + (p.x0 + px * p.dx) + 1 ≤ s.h.width * s.h.height :=
    calc (p.y0 + py * p.dy) * s.h.width + (p.x0 + px * p.dx) + 1 ≤ (p.y0 + py * p.dy + 1) * s.h.width := by
          rw [Nat.succ_mul]; omega
      _ ≤ s.h.height * s.h.width := Nat.mul_le_mul_right _ y
      _ = s.h.width * s.h.height := Nat.mul_comm _ _
  have scaled := Nat.mul_le_mul_right s.outCh place
  rw [Nat.succ_mul] at scaled
  exact Nat.le_trans (Nat.add_le_add_left few _) scaled

/-! ## Behind the chunks -/

/-- `zlib_inflate` reads its input inside, and fails with its own codes only. -/
theorem zlibInflate_ends (idat : List UInt8) (raw : Nat → UInt8) (max_raw : Nat) :
    Ends Inflate.Failure (fun _ => True) (Inflate.zlibInflate idat raw max_raw) := by
  have input : Inflate.Failure Inflate.errInput := .inr (.inr rfl)
  have data : Inflate.Failure Inflate.errData := .inl rfl
  have byte : ∀ i < idat.length, Ends Inflate.Failure (fun _ => True) (Inflate.readAt idat i) := fun i within => by
    rw [Inflate.readAt, List.getElem?_eq_getElem within]
    exact .ok trivial
  unfold Inflate.zlibInflate
  split
  · exact .error input
  next long =>
  refine (byte 0 (by omega)).bind fun cmf _ => ?_
  refine (byte 1 (by omega)).bind fun flg _ => ?_
  dsimp only
  split
  · exact .error data
  split
  · exact .error data
  split
  · exact .error data
  split
  · exact .error data
  exact (Inflate.inflateRaw_ends _ _ _).bind fun _ _ => .ok trivial

theorem inside_inflateIdat (idat : List UInt8) (raw : Nat → UInt8) (max_raw : Nat) :
    Inside (fun _ => True) (inflateIdat idat raw max_raw) := by
  have codes := zlibInflate_ends idat raw max_raw
  unfold inflateIdat
  cases run : Inflate.zlibInflate idat raw max_raw with
  | ok result =>
      dsimp only
      split
      · split <;> exact .error (by rintro ⟨⟩)
      · exact .ok trivial
  | error stop =>
      rw [run] at codes
      rcases ends_error.mp codes with rfl | rfl | rfl <;> dsimp only [Inflate.errData, Inflate.errOutput, Inflate.errInput]
      all_goals split <;> exact .error (by rintro ⟨⟩)

/-- A picture of which every pixel is there. -/
structure Picture.Whole (pic : Picture) : Prop where
  width : 0 < pic.width ∧ pic.width ≤ imgMaxDim
  height : 0 < pic.height ∧ pic.height ≤ imgMaxDim
  channels : pic.channels = if pic.has_alpha then 4 else 3
  size : pic.size = pic.width * pic.height * pic.channels
  stride : pic.stride = pic.width * pic.channels

theorem inside_pngImage (heap_malloc : Heap) {s : PngState} (legal : s.got_ihdr = true → s.h.Legal) :
    Inside Picture.Whole (pngImage heap_malloc s) := by
  unfold pngImage
  split
  · exact .error (by rintro ⟨⟩)
  next got =>
  have legal := legal (Bool.eq_true_of_not_eq_false got)
  split
  · exact .error (by rintro ⟨⟩)
  next idat _ =>
  split
  · exact .error (by rintro ⟨⟩)
  split
  · exact .error (by rintro ⟨⟩)
  unfold pngPixels
  dsimp only
  split
  · exact .error (by rintro ⟨⟩)
  split
  · exact .error (by rintro ⟨⟩)
  split
  · exact .error (by rintro ⟨⟩)
  refine (inside_inflateIdat _ _ _).bind fun raw _ => ?_
  refine (passLoop_ends heap_malloc legal (by rintro ⟨⟩) (by rintro ⟨⟩) (keeps_plotPixel legal) (fun _ => by rintro ⟨⟩)
    (Nat.zero_le _) trivial).bind fun done _ => .ok ?_
  have width := legal.width_le
  have channels := outCh_eq s
  refine ⟨⟨legal.width_pos, width⟩, ⟨legal.height_pos, legal.height_le⟩, ?_, rfl, u32_of_lt ?_⟩
  · rcases channels with three | four
    · rw [three]
      rfl
    · rw [four]
      rfl
  · unfold imgMaxDim at width
    rcases channels with three | four
    · rw [three]
      omega
    · rw [four]
      omega

/-! ## The chunks -/

/-- A chunk of the file, with the right check sum. -/
structure ChunkAt (d : List UInt8) (pos : Nat) (ctype cdata : List UInt8) : Prop where
  length : be32 d pos = .ok cdata.length
  short : cdata.length ≤ 0x7FFFFFFF
  inside : pos + 12 + cdata.length ≤ d.length
  name : ctype = (d.drop (pos + 4)).take 4
  bytes : cdata = (d.drop (pos + 8)).take cdata.length
  crc : be32 d (pos + 8 + cdata.length) = .ok (pngCrc (ctype ++ cdata))

/-- Where the loop over the chunks gets to, and with which variables. -/
inductive Gets (heap_malloc : Heap) (d : List UInt8) (start : PngState) : Nat → PngState → Prop where
  | first : Gets heap_malloc d start 8 start
  | next {pos : Nat} {ctype cdata : List UInt8} {s s' : PngState} (gets : Gets heap_malloc d start pos s)
      (chunk : ChunkAt d pos ctype cdata) (more : ctype ≠ chunkName "IEND")
      (done : pngChunk heap_malloc ctype cdata s = .ok s') : Gets heap_malloc d start (pos + 12 + cdata.length) s'

/-- There is no room for `clen` more bytes of IDAT: a call of `heap_malloc` fails, or the size that it is asked for is
reduced modulo 2^32. -/
def Unserved (heap_malloc : Heap) (s : PngState) (clen : Nat) : Prop :=
  match s.idat with
  | none => clen ≠ 0 ∧ (heap_malloc s.calls (u32 (clen * 2 + 1024)) = none ∨ 2 ^ 31 - 512 ≤ clen)
  | some idat =>
      s.idat_cap < idat.length + clen ∧
        heap_malloc s.calls (growCap (idat.length + clen) (idat.length + clen) (s.idat_cap * 2)) = none

/-- What holds between the chunks. -/
structure Sane (s : PngState) : Prop where
  legal : s.got_ihdr = true → s.h.Legal
  room : s.idat ≠ none → 0 < s.idat_cap

theorem growCap_le {need turns nc : Nat} (positive : 0 < nc) (enough : need ≤ nc * 2 ^ turns) :
    need ≤ growCap need turns nc := by
  induction turns generalizing nc with
  | zero => rwa [pow_zero, Nat.mul_one] at enough
  | succ turns ih =>
      rw [growCap]
      split
      · exact ih (by omega) (by rwa [Nat.mul_assoc, ← pow_succ'])
      · omega

/-- An IDAT chunk is kept, or copied outside. -/
theorem pngIdat_spec {heap_malloc : Heap} {s : PngState} (sane : Sane s) {cdata : List UInt8}
    (short : cdata.length ≤ 0x7FFFFFFF) :
    (Unserved heap_malloc s cdata.length → pngIdat heap_malloc cdata s = .error .outside) ∧
      (¬Unserved heap_malloc s cdata.length → ∃ s', pngIdat heap_malloc cdata s = .ok s' ∧ Sane s') := by
  unfold Unserved pngIdat
  cases here : s.idat with
  | none =>
      dsimp only
      cases answer : heap_malloc s.calls (u32 (cdata.length * 2 + 1024)) with
      | none =>
          dsimp only
          by_cases empty : cdata.length = 0
          · rw [if_pos empty]
            refine ⟨fun unserved => absurd empty unserved.1, fun _ => ⟨_, rfl, sane.legal, fun some_ => absurd rfl some_⟩⟩
          · rw [if_neg empty]
            exact ⟨fun _ => rfl, fun served => absurd ⟨empty, .inl rfl⟩ served⟩
      | some memory =>
          dsimp only
          by_cases wraps : 2 ^ 31 - 512 ≤ cdata.length
          · rw [if_pos (by unfold u32; omega)]
            exact ⟨fun _ => rfl, fun served => absurd ⟨by omega, .inr wraps⟩ served⟩
          · have cap : u32 (cdata.length * 2 + 1024) = cdata.length * 2 + 1024 := u32_of_lt (by omega)
            rw [cap, if_neg (by omega)]
            refine ⟨fun unserved => ?_, fun _ => ⟨_, rfl, sane.legal, fun _ => Nat.succ_pos _⟩⟩
            rcases unserved.2 with failed | wrapped
            · cases failed
            · exact absurd wrapped wraps
  | some idat =>
      have positive := sane.room (by rw [here]; rintro ⟨⟩)
      dsimp only
      by_cases full : s.idat_cap < idat.length + cdata.length
      · rw [if_pos full]
        have grown : idat.length + cdata.length ≤
            growCap (idat.length + cdata.length) (idat.length + cdata.length) (s.idat_cap * 2) := by
          refine growCap_le (by omega) (Nat.le_trans (Nat.le_of_lt Nat.lt_two_pow_self) ?_)
          exact Nat.le_mul_of_pos_left _ (by omega)
        cases answer : heap_malloc s.calls
            (growCap (idat.length + cdata.length) (idat.length + cdata.length) (s.idat_cap * 2)) with
        | none => exact ⟨fun _ => rfl, fun served => absurd ⟨full, rfl⟩ served⟩
        | some memory =>
            dsimp only
            rw [if_neg (Nat.not_lt.mpr grown)]
            refine ⟨fun unserved => ?_, fun _ => ⟨_, rfl, sane.legal, fun _ => Nat.lt_of_lt_of_le ?_ grown⟩⟩
            · cases unserved.2
            · exact Nat.zero_lt_of_lt full
      · rw [if_neg full]
        exact ⟨fun unserved => absurd unserved.1 full, fun _ => ⟨_, rfl, sane.legal, fun _ => positive⟩⟩

theorem pngChunk_idat (heap_malloc : Heap) (cdata : List UInt8) (s : PngState) :
    pngChunk heap_malloc (chunkName "IDAT") cdata s = pngIdat heap_malloc cdata s := by
  rw [pngChunk, if_neg (by decide +kernel), if_neg (by decide +kernel), if_neg (by decide +kernel), if_pos rfl]

/-- The seven fields of the header are read inside. -/
theorem inside_pngIhdr (cdata : List UInt8) (s : PngState) :
    Inside (fun s' => s'.idat = s.idat ∧ s'.idat_cap = s.idat_cap) (pngIhdr cdata s) := by
  unfold pngIhdr
  split
  · exact .error (by rintro ⟨⟩)
  refine (inside_be32 (by omega)).bind fun _ _ => (inside_be32 (by omega)).bind fun _ _ => ?_
  refine (inside_byte (by omega)).bind fun _ _ => (inside_byte (by omega)).bind fun _ _ => ?_
  refine (inside_byte (by omega)).bind fun _ _ => (inside_byte (by omega)).bind fun _ _ => ?_
  refine (inside_byte (by omega)).bind fun _ _ => ?_
  dsimp only
  repeat' split
  all_goals first | exact .error (by rintro ⟨⟩) | exact .ok ⟨rfl, rfl⟩

/-- The other chunks are read within their bytes. -/
theorem inside_pngChunk {heap_malloc : Heap} {s : PngState} (sane : Sane s) {ctype cdata : List UInt8}
    (other : ctype ≠ chunkName "IDAT") : Inside Sane (pngChunk heap_malloc ctype cdata s) := by
  have word : ∀ i, i + 1 < cdata.length → Inside (fun _ => True) (keySample cdata i) := fun i within =>
    (inside_byte (by omega)).bind fun _ _ => (inside_byte within).bind fun _ _ => .ok trivial
  unfold pngChunk
  split
  · have legal := pngIhdr_legal cdata s
    have reads := inside_pngIhdr cdata s
    generalize pngIhdr cdata s = run at legal reads
    cases reads with
    | error notOutside => exact .error notOutside
    | ok kept =>
        cases legal with
        | ok legal => exact .ok ⟨fun _ => legal, fun some_ => kept.2 ▸ sane.room (kept.1 ▸ some_)⟩
  split
  · unfold pngPlte
    split
    · exact .error (by rintro ⟨⟩)
    · exact .ok ⟨sane.legal, sane.room⟩
  split
  · unfold pngTrns
    split
    · split
      · exact .error (by rintro ⟨⟩)
      · exact .ok ⟨sane.legal, sane.room⟩
    split
    next grey => exact (word 0 (by omega)).bind fun _ _ => .ok ⟨sane.legal, sane.room⟩
    split
    next colours =>
      refine (word 0 (by omega)).bind fun _ _ => (word 2 (by omega)).bind fun _ _ => ?_
      exact (word 4 (by omega)).bind fun _ _ => .ok ⟨sane.legal, sane.room⟩
    · exact .ok sane
  exact .ok sane

section Loop

variable {heap_malloc : Heap} {d : List UInt8}

theorem be32_ok {i : Nat} (below : i + 3 < d.length) : ∃ n, be32 d i = .ok n := by
  rw [be32, readByte_getD (by omega), ok_bind, readByte_getD (by omega), ok_bind, readByte_getD (by omega), ok_bind,
    readByte_getD (by omega), ok_bind]
  exact ⟨_, rfl⟩

theorem chunkLoop_chunk {pos : Nat} {ctype cdata : List UInt8} (chunk : ChunkAt d pos ctype cdata) (turns : Nat)
    (s : PngState) :
    chunkLoop heap_malloc d (turns + 1) pos s =
      if ctype = chunkName "IEND" then pure s
      else pngChunk heap_malloc ctype cdata s >>= chunkLoop heap_malloc d turns (pos + 12 + cdata.length) := by
  have inside := chunk.inside
  rw [chunkLoop, if_neg (by omega), chunk.length, ok_bind]
  dsimp only
  rw [← chunk.name, ← chunk.bytes, if_neg (Nat.not_lt.mpr chunk.short), if_neg (Nat.not_lt.mpr inside), chunk.crc, ok_bind,
    if_neg (not_not.mpr rfl)]

/-- A turn of the loop is a chunk, or the last one. -/
theorem chunkLoop_turn (turns pos : Nat) (s : PngState) :
    (∃ ctype cdata, ChunkAt d pos ctype cdata) ∨ chunkLoop heap_malloc d (turns + 1) pos s = .ok s ∨
      ∃ stop, stop ≠ .outside ∧ chunkLoop heap_malloc d (turns + 1) pos s = .error stop := by
  rw [chunkLoop]
  split
  · exact .inr (.inl rfl)
  obtain ⟨clen, length⟩ : ∃ clen, be32 d pos = .ok clen := be32_ok (by omega)
  rw [length, ok_bind]
  dsimp only
  split
  · exact .inr (.inr ⟨errCorrupt, by rintro ⟨⟩, rfl⟩)
  split
  · exact .inr (.inr ⟨errTruncated, by rintro ⟨⟩, rfl⟩)
  obtain ⟨crc, sum⟩ : ∃ crc, be32 d (pos + 8 + clen) = .ok crc := be32_ok (by omega)
  rw [sum, ok_bind]
  split
  · exact .inr (.inr ⟨errCorrupt, by rintro ⟨⟩, rfl⟩)
  next same =>
  have size : ((d.drop (pos + 8)).take clen).length = clen := by
    rw [List.length_take, List.length_drop]
    omega
  refine .inl ⟨(d.drop (pos + 4)).take 4, (d.drop (pos + 8)).take clen, ?_⟩
  refine ⟨by rw [size]; exact length, by rw [size]; omega, by rw [size]; omega, rfl, by rw [size], ?_⟩
  rw [size, sum, not_not.mp same]

variable {start : PngState}

/-- The loop over the chunks, from a place that it gets to. -/
theorem Gets.loop {pos : Nat} {s : PngState} (gets : Gets heap_malloc d start pos s) :
    ∃ turns, d.length ≤ pos + turns ∧
      chunkLoop heap_malloc d d.length 8 start = chunkLoop heap_malloc d turns pos s := by
  induction gets with
  | first => exact ⟨d.length, Nat.le_add_left _ _, rfl⟩
  | @next pos ctype cdata s s' gets chunk more done ih =>
      obtain ⟨turns, enough, same⟩ := ih
      have inside := chunk.inside
      obtain ⟨turns, rfl⟩ : ∃ k, turns = k + 1 := ⟨turns - 1, by omega⟩
      refine ⟨turns, by omega, ?_⟩
      rw [same, chunkLoop_chunk chunk, if_neg more, done, ok_bind]

theorem Gets.sane (initial : Sane start) {pos : Nat} {s : PngState} (gets : Gets heap_malloc d start pos s) : Sane s := by
  induction gets with
  | first => exact initial
  | @next pos ctype cdata s s' gets chunk more done ih =>
      by_cases data : ctype = chunkName "IDAT"
      · rw [data, pngChunk_idat] at done
        have idat := @pngIdat_spec heap_malloc _ ih _ chunk.short
        by_cases unserved : Unserved heap_malloc s cdata.length
        · cases (idat.1 unserved).symm.trans done
        · obtain ⟨s'', run, sane⟩ := idat.2 unserved
          cases run.symm.trans done
          exact sane
      · have ends := @inside_pngChunk heap_malloc _ ih _ cdata data
        rw [done] at ends
        exact ends_ok.mp ends

/-- The loop only goes outside for an IDAT chunk. -/
theorem chunkLoop_inside (initial : Sane start)
    (served : ∀ pos s cdata, Gets heap_malloc d start pos s → ChunkAt d pos (chunkName "IDAT") cdata →
      ¬Unserved heap_malloc s cdata.length) {turns pos : Nat} {s : PngState} (gets : Gets heap_malloc d start pos s) :
    Inside Sane (chunkLoop heap_malloc d turns pos s) := by
  induction turns generalizing pos s with
  | zero => exact .ok (gets.sane initial)
  | succ turns ih =>
      have sane := gets.sane initial
      rcases @chunkLoop_turn heap_malloc d turns pos s with
        ⟨ctype, cdata, chunk⟩ | last | ⟨stop, notOutside, failed⟩
      · rw [chunkLoop_chunk chunk]
        split
        · exact .ok sane
        next more =>
        have ends : Inside Sane (pngChunk heap_malloc ctype cdata s) := by
          by_cases data : ctype = chunkName "IDAT"
          · rw [data] at chunk
            obtain ⟨s', run, sane'⟩ := (pngIdat_spec sane chunk.short).2 (served pos s cdata gets chunk)
            rw [data, pngChunk_idat, run]
            exact .ok sane'
          · exact inside_pngChunk sane data
        cases run : pngChunk heap_malloc ctype cdata s with
        | ok s' => exact ih (gets.next chunk more run)
        | error stop =>
            rw [run] at ends
            cases ends with
            | error notOutside => exact .error notOutside
      · rw [last]
        exact .ok sane
      · rw [failed]
        exact .error notOutside

end Loop

/-- For every file and every memory: `png_decode` reads and writes inside its buffers and returns a whole picture or an
error, exactly when every IDAT chunk that it gets to is served: `heap_malloc` gives memory for it, and the first one of
them has fewer than 2^31 - 512 bytes. -/
theorem pngDecode_inside_iff (heap_malloc : Heap) (palette palette_alpha : Nat → UInt8) (d : List UInt8) :
    Inside Picture.Whole (pngDecode heap_malloc palette palette_alpha d) ↔
      ∀ pos s cdata, Gets heap_malloc d (pngStart palette palette_alpha) pos s → ChunkAt d pos (chunkName "IDAT") cdata →
        ¬Unserved heap_malloc s cdata.length := by
  have initial : Sane (pngStart palette palette_alpha) := ⟨by rintro ⟨⟩, fun some_ => absurd rfl some_⟩
  unfold pngDecode
  constructor
  · intro inside pos s cdata gets chunk unserved
    obtain ⟨turns, enough, same⟩ := gets.loop
    have room := chunk.inside
    obtain ⟨turns, rfl⟩ : ∃ k, turns = k + 1 := ⟨turns - 1, by omega⟩
    have outside := (pngIdat_spec (gets.sane initial) chunk.short).1 unserved
    rw [if_neg (by omega), same, chunkLoop_chunk chunk, if_neg (by decide +kernel), pngChunk_idat, outside] at inside
    exact ends_error.mp inside rfl
  · intro served
    split
    · exact .error (by rintro ⟨⟩)
    · exact (chunkLoop_inside initial served .first).bind fun s sane => inside_pngImage heap_malloc sane.legal

end Systrix.Image
