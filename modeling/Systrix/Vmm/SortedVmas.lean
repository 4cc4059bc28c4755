import Systrix.Vmm.UserMemory

/-!
# Sorted VMA tables

`vmm_vma_add_enhanced` of `kernel/vmm_enhanced.c` with the insertion and the merging it consists of, and what merging
does to a table of intervals that are apart.
-/

namespace Systrix.Vmm

/-- The slots of a VMA table. -/
abbrev Slots := Nat → VmaEntry

/-! ## Insertion -/

/-- The loop of `vma_insert_sorted` that looks for overlaps, for the place of the new VMA and for the first empty slot;
an error is the table at an early return, or `none` when that is a failure. -/
def scanSlots (table : Slots) (start stop : Word) (flags : BitVec 32) :
    (left i : Nat) → (insert_pos empty_pos : Option Nat) → Except (Option Slots) (Option Nat × Option Nat)
  | 0, _, insert_pos, empty_pos => .ok (insert_pos, empty_pos)
  | left + 1, i, insert_pos, empty_pos =>
      if (table i).start = (table i).stop then
        scanSlots table start stop flags left (i + 1) insert_pos (empty_pos.or (some i))
      else if start < (table i).stop ∧ (table i).start < stop then
        if (table i).flags = flags ∧ (table i).stop = start then
          .error (some (Function.update table i { table i with stop := stop }))
        else if (table i).flags = flags ∧ (table i).start = stop then
          .error (some (Function.update table i { table i with start := start }))
        else .error none
      else
        scanSlots table start stop flags left (i + 1)
          (insert_pos.or (if start < (table i).start then some i else none)) empty_pos

/-- The loop of `vma_insert_sorted` that shifts the slots in front of slot `i`. -/
def shiftSlots : (left i : Nat) → Slots → Slots
  | 0, _, table => table
  | left + 1, i, table => shiftSlots left (i - 1) (Function.update table i (table (i - 1)))

/-- The VMA that is added. -/
def newEntry (start stop : Word) (flags : BitVec 32) : VmaEntry := ⟨⟨start, stop, flags, -1⟩, 0⟩

/-- `vma_insert_sorted`; `none` when it returns -1, which leaves the table alone. -/
def vmaInsertSorted (table : Slots) (start stop : Word) (flags : BitVec 32) : Option Slots :=
  match scanSlots table start stop flags vmaMax 0 none none with
  | .error early => early
  | .ok (_, none) => none
  | .ok (some insert_pos, some empty_pos) =>
      if insert_pos < empty_pos then
        let table := shiftSlots (empty_pos - insert_pos) empty_pos table
        some (Function.update table insert_pos (newEntry start stop flags))
      else some (Function.update table empty_pos (newEntry start stop flags))
  | .ok (none, some empty_pos) => some (Function.update table empty_pos (newEntry start stop flags))

/-! ## Merging -/

/-- Slot `i` takes in slot `j`. -/
def absorb (i j : Nat) (table : Slots) : Slots :=
  Function.update (Function.update table i { table i with stop := (table j).stop }) j
    { table j with start := 0, stop := 0 }

/-- The body of the inner loop of `vma_merge_adjacent`. -/
def mergeSlot (i j : Nat) (table : Slots) : Slots :=
  if (table j).stop ≤ (table j).start then table
  else if (table i).flags ≠ (table j).flags then table
  else if (table i).stop = (table j).start then absorb i j table
  else table

/-- The inner loop of `vma_merge_adjacent`. -/
def mergeRow (i : Nat) : (left j : Nat) → Slots → Slots
  | 0, _, table => table
  | left + 1, j, table => mergeRow i left (j + 1) (mergeSlot i j table)

/-- The outer loop of `vma_merge_adjacent`. -/
def mergeRows : (left i : Nat) → Slots → Slots
  | 0, _, table => table
  | left + 1, i, table =>
      mergeRows left (i + 1)
        (if (table i).stop ≤ (table i).start then table else mergeRow i (vmaMax - (i + 1)) (i + 1) table)

def vmaMergeAdjacent (table : Slots) : Slots := mergeRows (vmaMax - 1) 0 table

/-- `vmm_vma_add_enhanced`; what it returns and the table after it. -/
def vmmVmaAddEnhanced (table : Slots) (start stop : Word) (flags : BitVec 32) : Int × Slots :=
  if stop ≤ start then (-1, table)
  else
    match vmaInsertSorted table start stop flags with
    | none => (-1, table)
    | some table => (0, vmaMergeAdjacent table)

/-! ## What a table maps -/

/-- The slot is in use. -/
def VmaEntry.Live (x : VmaEntry) : Prop := x.start.toNat < x.stop.toNat

/-- What a VMA says of an address: its flags, its descriptor and, with a file, the offset in it. -/
structure Attributes where
  flags : BitVec 32
  fd : Int
  offset : Option Word
  deriving DecidableEq

/-- What a VMA says of its addresses. -/
def VmaEntry.attributes (x : VmaEntry) (a : Word) : Attributes :=
  ⟨x.flags, x.fd, if 0 ≤ x.fd then some (x.file_offset + (a - x.start)) else none⟩

/-- The table maps an address in this way. -/
def Maps (table : Slots) (a : Word) (attributes : Attributes) : Prop :=
  ∃ k < vmaMax, (table k).start.toNat ≤ a.toNat ∧ a.toNat < (table k).stop.toNat ∧ attributes = (table k).attributes a

/-- Two tables map the same addresses in the same way. -/
def SameMaps (table table' : Slots) : Prop := ∀ a attributes, Maps table a attributes ↔ Maps table' a attributes

/-- The slots hold intervals, and no two of them overlap. -/
structure Separate (table : Slots) : Prop where
  valid : ∀ k < vmaMax, (table k).start.toNat ≤ (table k).stop.toNat
  apart : ∀ i j, i < vmaMax → j < vmaMax → i ≠ j → (table i).Live → (table j).Live →
    (table i).stop.toNat ≤ (table j).start.toNat ∨ (table j).stop.toNat ≤ (table i).start.toNat

/-- The second VMA begins where the first one ends, and has its flags. -/
def Adjacent (x y : VmaEntry) : Prop := x.Live ∧ y.Live ∧ x.flags = y.flags ∧ x.stop.toNat = y.start.toNat

/-- The second VMA goes on with the file of the first one, or neither has one. -/
def Continues (x y : VmaEntry) : Prop :=
  x.fd = y.fd ∧ (0 ≤ x.fd → x.file_offset + (y.start - x.start) = y.file_offset)

/-- The slot keeps what it says of its addresses and may get more of them. -/
structure Grown (x x' : VmaEntry) : Prop where
  start : x'.start = x.start
  flags : x'.flags = x.flags
  fd : x'.fd = x.fd
  offset : x'.file_offset = x.file_offset
  stop : x.stop.toNat ≤ x'.stop.toNat

theorem Grown.refl (x : VmaEntry) : Grown x x := ⟨rfl, rfl, rfl, rfl, Nat.le_refl _⟩

theorem Grown.trans {x y z : VmaEntry} (first : Grown x y) (second : Grown y z) : Grown x z where
  start := second.start.trans first.start
  flags := second.flags.trans first.flags
  fd := second.fd.trans first.fd
  offset := second.offset.trans first.offset
  stop := Nat.le_trans first.stop second.stop

theorem Grown.attributes {x x' : VmaEntry} (grown : Grown x x') (a : Word) : x'.attributes a = x.attributes a := by
  rw [VmaEntry.attributes, VmaEntry.attributes, grown.flags, grown.fd, grown.offset, grown.start]

/-- The attributes at the start of the second VMA decide. -/
theorem continues_iff {x y : VmaEntry} (flags : x.flags = y.flags) :
    x.attributes y.start = y.attributes y.start ↔ Continues x y := by
  have zero : y.file_offset + (y.start - y.start) = y.file_offset := by rw [BitVec.sub_self, BitVec.add_zero]
  simp only [VmaEntry.attributes, Continues, Attributes.mk.injEq, flags, true_and, zero]
  refine and_congr_right fun fd => ?_
  rw [fd]
  by_cases file : 0 ≤ y.fd
  · rw [if_pos file, if_pos file, Option.some.injEq]
    exact ⟨fun same _ => same, fun same => same file⟩
  · rw [if_neg file, if_neg file]
    exact ⟨fun _ isFile => absurd isFile file, fun _ => rfl⟩

theorem Continues.attributes {x y : VmaEntry} (continues : Continues x y) (flags : x.flags = y.flags) (a : Word) :
    x.attributes a = y.attributes a := by
  obtain ⟨fd, offset⟩ := continues
  rw [VmaEntry.attributes, VmaEntry.attributes, flags, fd]
  by_cases file : 0 ≤ y.fd
  · have shift : x.file_offset + (a - x.start) = y.file_offset + (a - y.start) := by
      rw [← offset (fd ▸ file)]
      bv_omega
    rw [if_pos file, if_pos file, shift]
  · rw [if_neg file, if_neg file]

theorem Continues.trans {x y z : VmaEntry} (flags : x.flags = y.flags) (flags' : y.flags = z.flags)
    (first : Continues x y) (second : Continues y z) : Continues x z :=
  (continues_iff (flags.trans flags')).mp ((first.attributes flags _).trans (second.attributes flags' _))

/-- What goes on with the first VMA goes on with the second one. -/
theorem Continues.of_trans {x y z : VmaEntry} (flags : x.flags = y.flags) (flags' : y.flags = z.flags)
    (first : Continues x y) (both : Continues x z) : Continues y z :=
  (continues_iff flags').mp ((first.attributes flags _).symm.trans (both.attributes (flags.trans flags') _))

theorem Grown.continues_iff {x x' : VmaEntry} (grown : Grown x x') (y : VmaEntry) : Continues x' y ↔ Continues x y := by
  rw [Continues, Continues, grown.fd, grown.offset, grown.start]

theorem Separate.unique {table : Slots} (separate : Separate table) {a : Word} {one other : Attributes}
    (first : Maps table a one) (second : Maps table a other) : one = other := by
  obtain ⟨i, small, low, high, rfl⟩ := first
  obtain ⟨j, small', low', high', rfl⟩ := second
  by_cases same : i = j
  · rw [same]
  · have apart := separate.apart i j small small' same (Nat.lt_of_le_of_lt low high) (Nat.lt_of_le_of_lt low' high')
    omega

/-! ## One step of merging -/

section Absorb

variable {table : Slots} {i j : Nat}

theorem absorb_left (before : i < j) : absorb i j table i = { table i with stop := (table j).stop } := by
  rw [absorb, Function.update_of_ne (Nat.ne_of_lt before), Function.update_self]

theorem absorb_right : absorb i j table j = { table j with start := 0, stop := 0 } := Function.update_self ..

theorem absorb_other {k : Nat} (left : k ≠ i) (right : k ≠ j) : absorb i j table k = table k := by
  rw [absorb, Function.update_of_ne right, Function.update_of_ne left]

theorem not_live_absorb_right : ¬(absorb i j table j).Live := by
  rw [absorb_right]
  exact Nat.lt_irrefl _

theorem absorb_grown (before : i < j) (adjacent : Adjacent (table i) (table j)) : Grown (table i) (absorb i j table i) := by
  rw [absorb_left before]
  refine ⟨rfl, rfl, rfl, rfl, ?_⟩
  have live := adjacent.2.1
  have touch := adjacent.2.2.2
  unfold VmaEntry.Live at live
  dsimp only
  omega

theorem absorb_live (before : i < j) (adjacent : Adjacent (table i) (table j)) : (absorb i j table i).Live := by
  have grown := absorb_grown before adjacent
  have live := adjacent.1
  have longer := grown.stop
  unfold VmaEntry.Live at live ⊢
  rw [grown.start]
  omega

variable (separate : Separate table) (before : i < j) (inside : j < vmaMax) (adjacent : Adjacent (table i) (table j))

include separate inside adjacent

/-- No other slot begins where the first one ends. -/
theorem adjacent_unique {k : Nat} (small : k < vmaMax) (again : Adjacent (table i) (table k)) : k = j := by
  by_contra other
  have apart := separate.apart k j small inside other again.2.1 adjacent.2.1
  obtain ⟨-, live, -, touch⟩ := adjacent
  obtain ⟨-, live', -, touch'⟩ := again
  unfold VmaEntry.Live at live live'
  omega

include before

/-- No other slot ends where the second one begins. -/
theorem adjacent_unique_left {k : Nat} (small : k < vmaMax) (again : Adjacent (table k) (table j)) : k = i := by
  by_contra other
  have apart := separate.apart k i small (Nat.lt_trans before inside) other again.1 adjacent.1
  obtain ⟨live, -, -, touch⟩ := adjacent
  obtain ⟨live', -, -, touch'⟩ := again
  unfold VmaEntry.Live at live live'
  omega

theorem absorb_separate : Separate (absorb i j table) := by
  obtain ⟨live, live', -, touch⟩ := adjacent
  unfold VmaEntry.Live at live live'
  -- the interval that grows meets no third one
  have third : ∀ k, k < vmaMax → k ≠ i → k ≠ j → (table k).Live →
      (table j).stop.toNat ≤ (table k).start.toNat ∨ (table k).stop.toNat ≤ (table i).start.toNat := by
    intro k small left right liveK
    have first := separate.apart k i small (Nat.lt_trans before inside) left liveK live
    have second := separate.apart k j small inside right liveK live'
    unfold VmaEntry.Live at liveK
    omega
  constructor
  · intro k small
    by_cases left : k = i
    · subst left
      rw [absorb_left before]
      dsimp only
      omega
    · by_cases right : k = j
      · subst right
        rw [absorb_right]
      · rw [absorb_other left right]
        exact separate.valid k small
  · intro k l smallK smallL different liveK liveL
    by_cases rightK : k = j
    · exact absurd (rightK ▸ liveK) not_live_absorb_right
    · by_cases rightL : l = j
      · exact absurd (rightL ▸ liveL) not_live_absorb_right
      · by_cases leftK : k = i
        · have leftL : l ≠ i := fun same => different (leftK.trans same.symm)
          rw [leftK, absorb_left before]
          rw [absorb_other leftL rightL] at liveL ⊢
          exact third l smallL leftL rightL liveL
        · by_cases leftL : l = i
          · rw [leftL, absorb_left before]
            rw [absorb_other leftK rightK] at liveK ⊢
            exact (third k smallK leftK rightK liveK).symm
          · rw [absorb_other leftK rightK] at liveK ⊢
            rw [absorb_other leftL rightL] at liveL ⊢
            exact separate.apart k l smallK smallL different liveK liveL

omit separate in
/-- Taking in a VMA that goes on with the same file changes nothing of what is mapped. -/
theorem absorb_sameMaps (continues : Continues (table i) (table j)) : SameMaps table (absorb i j table) := by
  have grown := absorb_grown before adjacent
  have low : absorb i j table i = { table i with stop := (table j).stop } := absorb_left before
  obtain ⟨live, live', flags, touch⟩ := adjacent
  unfold VmaEntry.Live at live live'
  intro a attributes
  constructor
  · rintro ⟨k, small, from_, below, rfl⟩
    by_cases left : k = i
    · subst left
      refine ⟨k, small, ?_, Nat.lt_of_lt_of_le below grown.stop, (grown.attributes a).symm⟩
      rwa [grown.start]
    · by_cases right : k = j
      · subst right
        refine ⟨i, Nat.lt_trans before inside, ?_, ?_, ?_⟩
        · rw [grown.start]
          omega
        · rw [low]
          exact below
        · rw [grown.attributes, continues.attributes flags]
      · exact ⟨k, small, by rwa [absorb_other left right], by rwa [absorb_other left right],
          by rw [absorb_other left right]⟩
  · rintro ⟨k, small, from_, below, rfl⟩
    by_cases left : k = i
    · subst left
      rw [grown.attributes]
      rw [low] at from_ below
      by_cases first : a.toNat < (table k).stop.toNat
      · exact ⟨k, small, from_, first, rfl⟩
      · exact ⟨j, inside, by omega, below, continues.attributes flags a⟩
    · by_cases right : k = j
      · subst right
        exact absurd (Nat.lt_of_le_of_lt from_ below) not_live_absorb_right
      · rw [absorb_other left right] at from_ below ⊢
        exact ⟨k, small, from_, below, rfl⟩

end Absorb

/-! ## The loops of merging -/

/-- The pairs of slots from a place of the two loops on go on with the same file. -/
def FilesFit (i j : Nat) (table : Slots) : Prop :=
  (∀ z, j ≤ z → z < vmaMax → Adjacent (table i) (table z) → Continues (table i) (table z)) ∧
    ∀ x z, i < x → x < z → z < vmaMax → Adjacent (table x) (table z) → Continues (table x) (table z)

/-- A slot is taken in by one before it, from a place of the two loops on. -/
def Taken (i j : Nat) (table : Slots) (k : Nat) : Prop :=
  ∃ x < k, (i < x ∨ x = i ∧ j ≤ k) ∧ Adjacent (table x) (table k)

/-- What merging from a place of the two loops on makes of a table. -/
structure Merged (i j : Nat) (table table' : Slots) : Prop where
  separate : Separate table'
  before : ∀ k < i, table' k = table k
  grown : Grown (table i) (table' i)
  maps : SameMaps table table' ↔ FilesFit i j table
  live : ∀ k < vmaMax, (table' k).Live ↔ (table k).Live ∧ ¬Taken i j table k
  start : ∀ k < vmaMax, (table' k).Live → (table' k).start = (table k).start

section Merging

variable {table table' : Slots} {i j : Nat}

/-- At the end of the loops nothing changes. -/
theorem Merged.done (separate : Separate table) (last : vmaMax ≤ i + 1) (behind : i < j) : Merged i j table table where
  separate := separate
  before _ _ := rfl
  grown := .refl _
  maps := by
    refine iff_of_true (fun _ _ => Iff.rfl) ⟨fun z from_ small => ?_, fun x z from_ order small => ?_⟩
    · exact absurd small (by omega)
    · exact absurd small (by omega)
  live k small := by
    refine (and_iff_left ?_).symm
    rintro ⟨x, order, place, -⟩
    omega
  start _ _ _ := rfl

/-- A slot that is not adjacent is passed over. -/
theorem Merged.pass (merged : Merged i (j + 1) table table') (apart : ¬Adjacent (table i) (table j)) :
    Merged i j table table' where
  separate := merged.separate
  before := merged.before
  grown := merged.grown
  maps := by
    rw [merged.maps]
    refine and_congr_left fun _ => ⟨fun later z from_ small adjacent => ?_, fun all z from_ => all z (by omega)⟩
    by_cases here : z = j
    · exact absurd (here ▸ adjacent) apart
    · exact later z (by omega) small adjacent
  live k small := by
    rw [merged.live k small]
    refine and_congr_right fun _ => not_congr ⟨?_, ?_⟩
    · rintro ⟨x, order, place, adjacent⟩
      exact ⟨x, order, by omega, adjacent⟩
    · rintro ⟨x, order, place, adjacent⟩
      refine ⟨x, order, ?_, adjacent⟩
      rcases place with later | ⟨rfl, from_⟩
      · exact .inl later
      · by_cases here : k = j
        · exact absurd (here ▸ adjacent) apart
        · exact .inr ⟨rfl, by omega⟩
  start := merged.start

/-- The next row. -/
theorem Merged.row (merged : Merged (i + 1) (i + 2) table table')
    (apart : ∀ z, j ≤ z → z < vmaMax → ¬Adjacent (table i) (table z)) : Merged i j table table' where
  separate := merged.separate
  before k below := merged.before k (by omega)
  grown := by
    rw [merged.before i (Nat.lt_succ_self i)]
    exact .refl _
  maps := by
    rw [merged.maps]
    constructor
    · rintro ⟨first, later⟩
      refine ⟨fun z from_ small adjacent => absurd adjacent (apart z from_ small), fun x z from_ order small adjacent => ?_⟩
      by_cases here : x = i + 1
      · subst here
        exact first z (by omega) small adjacent
      · exact later x z (by omega) order small adjacent
    · rintro ⟨-, all⟩
      exact ⟨fun z from_ small => all (i + 1) z (by omega) (by omega) small, fun x z from_ => all x z (by omega)⟩
  live k small := by
    rw [merged.live k small]
    refine and_congr_right fun _ => not_congr ⟨?_, ?_⟩
    · rintro ⟨x, order, place, adjacent⟩
      exact ⟨x, order, by omega, adjacent⟩
    · rintro ⟨x, order, place, adjacent⟩
      refine ⟨x, order, ?_, adjacent⟩
      rcases place with later | ⟨rfl, from_⟩
      · omega
      · exact absurd adjacent (apart k from_ small)
  start := merged.start

/-- A slot that is adjacent is taken in. -/
theorem Merged.absorb (separate : Separate table) (before : i < j) (inside : j < vmaMax)
    (adjacent : Adjacent (table i) (table j)) (merged : Merged i (j + 1) (absorb i j table) table') :
    Merged i j table table' := by
  have grown := absorb_grown before adjacent
  have left : Vmm.absorb i j table i = { table i with stop := (table j).stop } := absorb_left before
  have other : ∀ {k}, k ≠ i → k ≠ j → Vmm.absorb i j table k = table k := absorb_other
  have unique := fun {k : Nat} => adjacent_unique (k := k) separate inside adjacent
  have uniqueLeft := fun {k : Nat} => adjacent_unique_left (k := k) separate before inside adjacent
  -- what is adjacent to the slot that was taken in is adjacent to the one that took it
  have behind : ∀ z, z ≠ i → z ≠ j →
      (Adjacent (Vmm.absorb i j table i) (Vmm.absorb i j table z) ↔ Adjacent (table j) (table z)) := by
    intro z notLeft notRight
    have live := absorb_live before adjacent
    rw [other notLeft notRight, Adjacent, Adjacent, grown.flags, adjacent.2.2.1, left]
    rw [left] at live
    exact and_congr_left fun _ => iff_of_true live adjacent.2.1
  have flags : ∀ {z}, Adjacent (table j) (table z) → (table j).flags = (table z).flags := fun next => next.2.2.1
  have fits : FilesFit i j table ↔ Continues (table i) (table j) ∧ FilesFit i (j + 1) (Vmm.absorb i j table) := by
    constructor
    · rintro ⟨first, later⟩
      have continues := first j (Nat.le_refl j) inside adjacent
      refine ⟨continues, fun z from_ small next => ?_, fun x z from_ order small next => ?_⟩
      · rw [behind z (by omega) (by omega)] at next
        rw [grown.continues_iff, other (by omega) (by omega)]
        exact continues.trans adjacent.2.2.1 (flags next) (later j z before (by omega) small next)
      · by_cases hereX : x = j
        · exact absurd (hereX ▸ next.1) not_live_absorb_right
        · by_cases hereZ : z = j
          · exact absurd (hereZ ▸ next.2.1) not_live_absorb_right
          · rw [other (by omega) hereX, other (by omega) hereZ] at next ⊢
            exact later x z from_ order small next
    · rintro ⟨continues, first, later⟩
      refine ⟨fun z from_ small next => ?_, fun x z from_ order small next => ?_⟩
      · rw [unique small next]
        exact continues
      · by_cases hereZ : z = j
        · have same := uniqueLeft (by omega) (hereZ ▸ next)
          omega
        · by_cases hereX : x = j
          · subst hereX
            have goesOn := first z (by omega) small ((behind z (by omega) hereZ).mpr next)
            rw [grown.continues_iff, other (by omega) hereZ] at goesOn
            exact continues.of_trans adjacent.2.2.1 (flags next) goesOn
          · have goesOn := later x z from_ order small
            rw [other (by omega) hereX, other (by omega) hereZ] at goesOn
            exact goesOn next
  constructor
  · exact merged.separate
  · intro k below
    rw [merged.before k below, other (by omega) (by omega)]
  · exact grown.trans merged.grown
  · rw [fits, ← merged.maps]
    constructor
    · intro same
      have whole := grown.trans merged.grown
      have continues : Continues (table i) (table j) := by
        obtain ⟨live, live', sameFlags, touch⟩ := adjacent
        unfold VmaEntry.Live at live live'
        have longer := merged.grown.stop
        rw [left] at longer
        dsimp only at longer
        have mine : Maps table' (table j).start ((table' i).attributes (table j).start) := by
          refine ⟨i, Nat.lt_trans before inside, ?_, by omega, rfl⟩
          rw [whole.start]
          omega
        have theirs : Maps table' (table j).start ((table j).attributes (table j).start) :=
          (same _ _).mp ⟨j, inside, Nat.le_refl _, live', rfl⟩
        have agree := merged.separate.unique mine theirs
        rw [whole.attributes] at agree
        exact (continues_iff sameFlags).mp agree
      exact ⟨continues, fun a attributes =>
        (absorb_sameMaps before inside adjacent continues a attributes).symm.trans (same a attributes)⟩
    · rintro ⟨continues, later⟩ a attributes
      exact (absorb_sameMaps before inside adjacent continues a attributes).trans (later a attributes)
  · intro k small
    rw [merged.live k small]
    by_cases right : k = j
    · subst right
      exact iff_of_false (fun both => not_live_absorb_right both.1)
        fun both => both.2 ⟨i, before, .inr ⟨rfl, Nat.le_refl k⟩, adjacent⟩
    · by_cases here : k = i
      · subst here
        refine and_congr (iff_of_true (absorb_live before adjacent) adjacent.1) (not_congr (iff_of_false ?_ ?_))
        · rintro ⟨x, order, place, -⟩
          omega
        · rintro ⟨x, order, place, -⟩
          omega
      · have same := other here right
        rw [same]
        refine and_congr_right fun _ => not_congr ⟨?_, ?_⟩
        · rintro ⟨x, order, place, next⟩
          by_cases hereX : x = i
          · subst hereX
            exact ⟨j, by omega, .inl before, (behind k here right).mp next⟩
          · by_cases rightX : x = j
            · exact absurd (rightX ▸ next.1) not_live_absorb_right
            · rw [other hereX rightX, same] at next
              exact ⟨x, order, by omega, next⟩
        · rintro ⟨x, order, place, next⟩
          by_cases hereX : x = i
          · subst hereX
            exact absurd (unique small next) right
          · by_cases rightX : x = j
            · subst rightX
              exact ⟨i, by omega, .inr ⟨rfl, by omega⟩, (behind k here right).mpr next⟩
            · refine ⟨x, order, by omega, ?_⟩
              rwa [other hereX rightX, same]
  · intro k small live
    rw [merged.start k small live]
    by_cases here : k = i
    · rw [here, grown.start]
    · by_cases right : k = j
      · exact absurd (right ▸ ((merged.live k small).mp live).1) not_live_absorb_right
      · rw [other here right]

/-- The body of the inner loop takes in just the slots that are adjacent. -/
theorem mergeSlot_cases (live : (table i).Live) :
    Adjacent (table i) (table j) ∧ mergeSlot i j table = Vmm.absorb i j table ∨
      ¬Adjacent (table i) (table j) ∧ mergeSlot i j table = table := by
  unfold mergeSlot
  by_cases dead : (table j).stop ≤ (table j).start
  · rw [if_pos dead]
    exact .inr ⟨fun adjacent => Nat.not_lt.mpr dead adjacent.2.1, rfl⟩
  rw [if_neg dead]
  by_cases flags : (table i).flags = (table j).flags
  · rw [if_neg (not_not_intro flags)]
    by_cases touch : (table i).stop = (table j).start
    · rw [if_pos touch]
      exact .inl ⟨⟨live, Nat.not_le.mp dead, flags, congrArg BitVec.toNat touch⟩, rfl⟩
    · rw [if_neg touch]
      exact .inr ⟨fun adjacent => touch (BitVec.eq_of_toNat_eq adjacent.2.2.2), rfl⟩
  · rw [if_pos flags]
    exact .inr ⟨fun adjacent => flags adjacent.2.2.1, rfl⟩

/-- One row, and what comes after it. -/
theorem mergeRow_merged {rest : Slots → Slots}
    (next : ∀ {table}, Separate table → Merged (i + 1) (i + 2) table (rest table)) (left : Nat)
    (last : j + left = vmaMax) (before : i < j) (separate : Separate table) (live : (table i).Live) :
    Merged i j table (rest (mergeRow i left j table)) := by
  induction left generalizing j table with
  | zero => exact (next separate).row fun z from_ small => absurd small (by omega)
  | succ left ih =>
      rw [mergeRow]
      rcases mergeSlot_cases (j := j) live with ⟨adjacent, taken⟩ | ⟨apart, passed⟩
      · have inside : j < vmaMax := by omega
        rw [taken]
        exact .absorb separate before inside adjacent (ih (by omega) (by omega)
          (absorb_separate separate before inside adjacent) (absorb_live before adjacent))
      · rw [passed]
        exact .pass (ih (by omega) (by omega) separate live) apart

/-- The rows from one on. -/
theorem mergeRows_merged (left : Nat) (last : i + left = vmaMax - 1) (separate : Separate table) :
    Merged i (i + 1) table (mergeRows left i table) := by
  induction left generalizing i table with
  | zero => exact .done separate (by omega) (Nat.lt_succ_self i)
  | succ left ih =>
      rw [mergeRows]
      by_cases dead : (table i).stop ≤ (table i).start
      · rw [if_pos dead]
        exact (ih (by omega) separate).row fun z _ _ adjacent => Nat.not_lt.mpr dead adjacent.1
      · rw [if_neg dead]
        exact mergeRow_merged (fun separate => ih (by omega) separate) _ (by omega) (Nat.lt_succ_self i) separate
          (Nat.not_le.mp dead)

end Merging

/-- What `vma_merge_adjacent` makes of a table of intervals that are apart. -/
structure MergesTo (table table' : Slots) : Prop where
  separate : Separate table'
  maps : SameMaps table table' ↔
    ∀ x z, x < z → z < vmaMax → Adjacent (table x) (table z) → Continues (table x) (table z)
  live : ∀ k < vmaMax, (table' k).Live ↔ (table k).Live ∧ ¬∃ x < k, Adjacent (table x) (table k)
  start : ∀ k < vmaMax, (table' k).Live → (table' k).start = (table k).start

theorem vmaMergeAdjacent_mergesTo {table : Slots} (separate : Separate table) :
    MergesTo table (vmaMergeAdjacent table) := by
  have merged : Merged 0 1 table (vmaMergeAdjacent table) := mergeRows_merged _ (Nat.zero_add _) separate
  refine ⟨merged.separate, merged.maps.trans ⟨?_, ?_⟩, fun k small => (merged.live k small).trans ?_, merged.start⟩
  · rintro ⟨first, later⟩ x z order small adjacent
    cases x with
    | zero => exact first z order small adjacent
    | succ x => exact later (x + 1) z (Nat.succ_pos x) order small adjacent
  · intro all
    exact ⟨fun z from_ => all 0 z from_, fun x z _ => all x z⟩
  · refine and_congr_right fun _ => not_congr ⟨?_, ?_⟩
    · rintro ⟨x, order, -, adjacent⟩
      exact ⟨x, order, adjacent⟩
    · rintro ⟨x, order, adjacent⟩
      exact ⟨x, order, by omega, adjacent⟩

end Systrix.Vmm
