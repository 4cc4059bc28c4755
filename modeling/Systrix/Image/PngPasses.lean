import Systrix.Image.PngFilter

/-!
# The passes of an image

The loop over the passes goes to every pixel once, and takes as many bytes as the rows of the passes have.
-/

namespace Systrix.Image

open Fallible PngFormat

/-! ## Headers -/

/-- What the IHDR chunk makes sure of. -/
structure PngHeader.Legal (h : PngHeader) : Prop where
  width_pos : 0 < h.width
  height_pos : 0 < h.height
  width_le : h.width ≤ imgMaxDim
  height_le : h.height ≤ imgMaxDim
  interlace_le : h.interlace ≤ 1
  channels : h.channels = hdrChannels h.color_type
  known : h.channels ≠ 0
  depth : legalDepth h.color_type h.bit_depth = true
  bits_per_px : h.bits_per_px = h.channels * h.bit_depth
  filter_bpp : h.filter_bpp = (h.bits_per_px + 7) / 8

theorem legalDepth_pos {color_type bit_depth : Nat} (known : hdrChannels color_type ≠ 0)
    (legal : legalDepth color_type bit_depth = true) : 0 < bit_depth := by
  by_contra zero
  rw [Nat.eq_zero_of_not_pos zero] at legal
  unfold legalDepth at legal
  unfold hdrChannels at known
  split at legal <;> simp_all

theorem PngHeader.Legal.bits_pos {h : PngHeader} (legal : h.Legal) : 0 < h.bits_per_px := by
  rw [legal.bits_per_px]
  exact Nat.mul_pos (Nat.pos_of_ne_zero legal.known) (legalDepth_pos (legal.channels ▸ legal.known) legal.depth)

theorem PngHeader.Legal.filter_pos {h : PngHeader} (legal : h.Legal) : 0 < h.filter_bpp := by
  have bits := legal.bits_pos
  rw [legal.filter_bpp]
  omega

/-- Every header that is accepted is legal. -/
theorem pngIhdr_legal (cdata : List UInt8) (s : PngState) :
    Ends (fun _ => True) (fun s' => s'.h.Legal) (pngIhdr cdata s) := by
  unfold pngIhdr
  split
  · exact .error trivial
  refine (ends_any _).bind fun width _ => ?_
  refine (ends_any _).bind fun height _ => ?_
  refine (ends_any _).bind fun bit_depth _ => ?_
  refine (ends_any _).bind fun color_type _ => ?_
  refine (ends_any _).bind fun compression _ => ?_
  refine (ends_any _).bind fun filter _ => ?_
  refine (ends_any _).bind fun interlace _ => ?_
  dsimp only
  split
  · exact .error trivial
  split
  · exact .error trivial
  split
  · exact .error trivial
  next known =>
  split
  · exact .error trivial
  split
  · exact .error trivial
  split
  · exact .error trivial
  split
  · exact .error trivial
  split
  · exact .error trivial
  next legal =>
  have depth : legalDepth color_type.toNat bit_depth.toNat = true := eq_true_of_ne_false legal
  have bits : 0 < hdrChannels color_type.toNat * bit_depth.toNat :=
    Nat.mul_pos (Nat.pos_of_ne_zero known) (legalDepth_pos known depth)
  refine .ok ⟨?_, ?_, ?_, ?_, ?_, rfl, known, depth, rfl, ?_⟩ <;> dsimp only
  · omega
  · omega
  · omega
  · omega
  · omega
  · rw [if_neg (by omega)]

/-! ## The passes are lattices -/

/-- The lattices of the passes. -/
def PngHeader.lattices (h : PngHeader) : List Lattice := if h.interlace ≠ 0 then adam7 else [⟨0, 0, 1, 1⟩]

/-- A pass over an image. -/
def Pass.over (width height : Nat) (p : Lattice) : Pass := ⟨p.columns width, p.rows height, p.x0, p.y0, p.dx, p.dy⟩

/-- The two ways to round up are the same. -/
theorem ceil_eq (size : Nat) {start step : Nat} (proper : start < step) :
    (size + step - 1 - start) / step = (size - start + step - 1) / step := by
  by_cases inside : start ≤ size
  · congr 1
    omega
  · rw [Nat.div_eq_of_lt (by omega), Nat.div_eq_of_lt (by omega)]

theorem adam7Pass_eq (width height : Nat) :
    (List.range 7).map (adam7Pass width height) = adam7.map (Pass.over width height) := by
  let table (i : Nat) : Lattice :=
    ⟨adam7X0.getD i 0, adam7Y0.getD i 0, adam7Dx.getD i 1, adam7Dy.getD i 1⟩
  have tables : adam7 = (List.range 7).map table := rfl
  rw [tables, List.map_map]
  refine List.map_congr_left fun i member => ?_
  have proper := adam7_proper (table i) (tables ▸ List.mem_map_of_mem member)
  have columns := ceil_eq width proper.x0_lt
  have rows := ceil_eq height proper.y0_lt
  exact congrArg₂ (fun pw ph => (⟨pw, ph, _, _, _, _⟩ : Pass)) columns rows

theorem lattices_proper (h : PngHeader) : ∀ p ∈ h.lattices, p.Proper := by
  unfold PngHeader.lattices
  split
  · exact adam7_proper
  · rintro p member
    rw [List.mem_singleton.mp member]
    exact ⟨Nat.one_pos, Nat.one_pos⟩

theorem passes_eq (h : PngHeader) : h.passes = h.lattices.map (Pass.over h.width h.height) := by
  unfold PngHeader.passes PngHeader.lattices
  split
  · exact adam7Pass_eq h.width h.height
  · have whole : ∀ size : Nat, size = (size - 0 + 1 - 1) / 1 := fun size => by omega
    exact congrArg (fun p => [p])
      (congrArg₂ (fun pw ph => (⟨pw, ph, 0, 0, 1, 1⟩ : Pass)) (whole h.width) (whole h.height))

/-! ## The loops -/

section

variable {σ : Type} {allowed : Stop → Prop} {raw : List UInt8} {h : PngHeader}

/-- The loop over the rows: what `put` keeps from row to row holds behind the last one, and the cursor is behind the
bytes of the rows.  It only fails on a filter that there is not, when `raw` is too short, or when `put` does. -/
theorem rowLoop_ends {put : σ → Nat → List UInt8 → Except Stop σ} {line_len bpp : Nat} (corrupt : allowed errCorrupt)
    (positive : 0 < bpp) {invariant : Nat → σ → Prop} {left py rp : Nat} {prev : List UInt8} {s : σ}
    (short : raw.length < rp + left * (line_len + 1) → allowed errTruncated) (size : prev.length = line_len)
    (step : ∀ row, py ≤ row → row < py + left → ∀ s cur, List.length cur = line_len → invariant row s →
      Ends allowed (invariant (row + 1)) (put s row cur)) (inside : rp ≤ raw.length) (initial : invariant py s) :
    Ends allowed (fun result => result.1 = rp + left * (line_len + 1) ∧ result.1 ≤ raw.length ∧
      invariant (py + left) result.2) (rowLoop raw line_len bpp put left py rp prev s) := by
  induction left generalizing py rp prev s with
  | zero =>
      refine .ok ⟨?_, inside, initial⟩
      rw [Nat.zero_mul]
      rfl
  | succ left ih =>
      have total : rp + (left + 1) * (line_len + 1) = rp + 1 + line_len + left * (line_len + 1) := by
        rw [Nat.succ_mul]
        omega
      rw [total] at short ⊢
      have last : py + (left + 1) = py + 1 + left := by omega
      rw [rowLoop]
      split
      · exact .error (short (by omega))
      · next enough =>
        have line : ((raw.drop (rp + 1)).take line_len).length = line_len := by
          rw [List.length_take, List.length_drop]
          omega
        rw [readByte_getD (by omega), ok_bind]
        refine (ends_pngUnfilter _ corrupt positive line (by rintro row ⟨⟩; exact size)).bind fun cur wide => ?_
        refine (step py (Nat.le_refl py) (by omega) s cur wide initial).bind fun s kept => ?_
        rw [last]
        exact ih short wide (fun row above below => step row (by omega) (by omega)) (by omega) kept

/-- The guard of the loop over the pixels never skips one. -/
theorem pixelLoop_eq {p : Lattice} (proper : p.Proper) (put : σ → Nat → Nat → List UInt8 → Nat → Except Stop σ)
    (out : σ) {py : Nat} (inside : py < p.rows h.height) (cur : List UInt8) :
    pixelLoop h (Pass.over h.width h.height p) put out py cur =
      (List.range (p.columns h.width)).foldlM
        (fun out px => put out (p.pixel py px).1 (p.pixel py px).2 cur px) out := by
  refine foldRange_congr fun px within out => if_neg ?_
  have column := (lt_ceil_iff proper.x0_lt).mp within
  have line := (lt_ceil_iff proper.y0_lt).mp inside
  exact not_or.mpr ⟨Nat.not_le.mpr column, Nat.not_le.mpr line⟩

/-- How many bytes of `raw` the rows of a pass take. -/
def Pass.rawSize (pass : Pass) (bits_per_px : Nat) : Nat :=
  if pass.pw = 0 ∨ pass.ph = 0 then 0 else pass.ph * (pass.lineLen bits_per_px + 1)

/-- How many bytes the rows of all passes take. -/
def PngHeader.rawSize (h : PngHeader) : Nat := (h.passes.map fun pass => pass.rawSize h.bits_per_px).sum

/-- The body of the loop over the pixels keeps an invariant over the pixels that were gone to. -/
def Keeps (allowed : Stop → Prop) (h : PngHeader) (put : σ → Nat → Nat → List UInt8 → Nat → Except Stop σ)
    (invariant : List (Nat × Nat) → σ → Prop) : Prop :=
  ∀ p ∈ h.lattices, ∀ visited out py px cur, py < p.rows h.height → px < p.columns h.width →
    List.length cur = (Pass.over h.width h.height p).lineLen h.bits_per_px → invariant visited out →
    Ends allowed (invariant (visited ++ [p.pixel py px])) (put out (p.pixel py px).1 (p.pixel py px).2 cur px)

theorem lineLen_pos (pass : Pass) {bits_per_px : Nat} (bits : 0 < bits_per_px) (wide : pass.pw ≠ 0) :
    pass.lineLen bits_per_px ≠ 0 := by
  have some : 0 < pass.pw * bits_per_px := Nat.mul_pos (Nat.pos_of_ne_zero wide) bits
  rw [Pass.lineLen]
  omega

variable {heap_malloc : Heap} {put : σ → Nat → Nat → List UInt8 → Nat → Except Stop σ}
  {invariant : List (Nat × Nat) → σ → Prop}

/-- A pass goes to its pixels, row by row. -/
theorem passTurn_ends (legal : h.Legal) (corrupt : allowed errCorrupt) (memory : allowed errMemory)
    (keeps : Keeps allowed h put invariant) {p : Lattice} (member : p ∈ h.lattices) {s : PassState σ}
    (short : raw.length < s.rp + (Pass.over h.width h.height p).rawSize h.bits_per_px → allowed errTruncated)
    (inside : s.rp ≤ raw.length) {visited : List (Nat × Nat)} (holds : invariant visited s.out) :
    Ends allowed (fun s' => s'.rp = s.rp + (Pass.over h.width h.height p).rawSize h.bits_per_px ∧
      s'.rp ≤ raw.length ∧ invariant (visited ++ p.pixels h.width h.height) s'.out)
      (passTurn heap_malloc raw h put s (Pass.over h.width h.height p)) := by
  have proper := lattices_proper h p member
  rw [passTurn]
  rw [Pass.rawSize] at short ⊢
  by_cases empty : (Pass.over h.width h.height p).pw = 0 ∨ (Pass.over h.width h.height p).ph = 0
  · rw [if_pos empty, if_pos empty]
    have nothing : p.pixels h.width h.height = [] := by
      rw [Lattice.pixels, List.flatMap_eq_nil_iff]
      intro py within
      rw [List.mem_range] at within
      have narrow : p.columns h.width = 0 := empty.resolve_right (Nat.ne_of_gt (Nat.zero_lt_of_lt within))
      rw [Lattice.row, narrow]
      rfl
    rw [nothing, List.append_nil]
    exact .ok ⟨rfl, inside, holds⟩
  · rw [if_neg empty] at short ⊢
    have line := lineLen_pos (Pass.over h.width h.height p) legal.bits_pos (not_or.mp empty).1
    simp only
    rw [if_neg empty, if_neg line]
    split
    · exact .error memory
    · have rows : ∀ row, 0 ≤ row → row < 0 + p.rows h.height → ∀ (out : σ) cur,
          List.length cur = (Pass.over h.width h.height p).lineLen h.bits_per_px →
          invariant (visited ++ (List.range row).flatMap (p.row h.width)) out →
          Ends allowed (invariant (visited ++ (List.range (row + 1)).flatMap (p.row h.width)))
            (pixelLoop h (Pass.over h.width h.height p) put out row cur) := by
        intro row _ below out cur size holds
        rw [Nat.zero_add] at below
        rw [pixelLoop_eq proper put out below cur, List.range_succ, List.flatMap_append, List.flatMap_singleton,
          ← List.append_assoc, Lattice.row]
        refine Ends.foldRange (fun count => invariant (visited ++ (List.range row).flatMap (p.row h.width) ++
          (List.range count).map (p.pixel row))) (by rwa [List.range_zero, List.map_nil, List.append_nil]) ?_
        intro px within out holds
        rw [List.range_succ, List.map_append, List.map_singleton, ← List.append_assoc]
        exact keeps p member _ out row px cur below within size holds
      refine (rowLoop_ends corrupt legal.filter_pos short List.length_replicate rows inside ?_).bind ?_
      · rwa [List.range_zero, List.flatMap_nil, List.append_nil]
      · rintro result ⟨cursor, within, holds⟩
        rw [Nat.zero_add] at holds
        exact .ok ⟨cursor, within, holds⟩

/-- The loop over the passes goes to the pixels of all passes and takes the bytes of their rows. -/
theorem passLoop_ends (heap_malloc : Heap) (legal : h.Legal) (corrupt : allowed errCorrupt) (memory : allowed errMemory)
    (keeps : Keeps allowed h put invariant) {s : PassState σ}
    (short : raw.length < s.rp + h.rawSize → allowed errTruncated) (inside : s.rp ≤ raw.length)
    (initial : invariant [] s.out) :
    Ends allowed (fun s' => s'.rp = s.rp + h.rawSize ∧ s'.rp ≤ raw.length ∧
      invariant (h.lattices.flatMap fun p => p.pixels h.width h.height) s'.out) (passLoop heap_malloc raw h put s) := by
  rw [passLoop]
  rw [PngHeader.rawSize, passes_eq] at short ⊢
  have run : ∀ (lattices : List Lattice), (∀ p ∈ lattices, p ∈ h.lattices) → ∀ (s : PassState σ) (visited),
      (raw.length < s.rp + ((lattices.map (Pass.over h.width h.height)).map fun pass =>
        pass.rawSize h.bits_per_px).sum → allowed errTruncated) → s.rp ≤ raw.length → invariant visited s.out →
      Ends allowed (fun s' => s'.rp = s.rp + ((lattices.map (Pass.over h.width h.height)).map fun pass =>
        pass.rawSize h.bits_per_px).sum ∧ s'.rp ≤ raw.length ∧
        invariant (visited ++ lattices.flatMap fun p => p.pixels h.width h.height) s'.out)
        ((lattices.map (Pass.over h.width h.height)).foldlM (passTurn heap_malloc raw h put) s) := by
    intro lattices
    induction lattices with
    | nil =>
        intro _ s visited _ inside holds
        refine .ok ⟨rfl, inside, ?_⟩
        rwa [List.flatMap_nil, List.append_nil]
    | cons p lattices ih =>
        intro members s visited short inside holds
        rw [List.map_cons, List.map_cons, List.sum_cons] at short ⊢
        rw [List.foldlM_cons, List.flatMap_cons, ← List.append_assoc]
        refine (passTurn_ends legal corrupt memory keeps (members p List.mem_cons_self) (fun cut => short (by omega))
          inside holds).bind ?_
        rintro s' ⟨cursor, inside, holds⟩
        rw [← Nat.add_assoc, ← cursor] at short ⊢
        exact ih (fun p member => members p (List.mem_cons_of_mem _ member)) s' _ short inside holds
  exact run h.lattices (fun _ member => member) s [] short inside initial

end

/-! ## Coverage -/

section

variable {σ : Type} (put : σ → Nat → Nat → List UInt8 → Nat → Except Stop σ)

end

section

variable {allowed : Stop → Prop} (outside : allowed .outside)

include outside

end

end Systrix.Image
