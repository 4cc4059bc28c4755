import Systrix.Heap.SlabRun
import Systrix.HeapEnhanced.BlockTier
import Systrix.HeapEnhanced.SlabSlots

/-!
# Runs of the enhanced slab tier

Small allocations and frees, double frees among them, with clients writing into their slots.  Three
kinds of calls do damage: one that gets a page for a class whose slots do not fit a page, one that links
a page behind 4 GB, and one that empties the first of several pages.
-/

namespace Systrix.HeapEnhanced

open ByteMemory Machine LinkedList
open Heap (PhysicalPage noteAdded noteAdded_same noteAdded_page)

/-- The largest request a size class serves. -/
def slabLimit : Nat := 8184

/-- The heap, the pages each class owns and the slots clients hold. -/
structure SlabState where
  heap : EnhancedHeap
  pages : Nat → List Nat
  live : List Nat

/-- A small allocation (`page` is what `pmm_alloc` answers if it is asked), a free, a write of a client
into its slot or of anybody outside the slab pages. -/
inductive SlabOp where
  | malloc (page n : Nat)
  | free (ptr : Nat)
  | write (ptr : Nat) (memory : Memory)
  | elsewhere (memory : Memory)

/-- The state after a call; one that does not finish is left out. -/
def SlabOp.run (s : SlabState) : SlabOp → SlabState
  | .malloc page n =>
      match heapEnhancedMalloc s.heap page n with
      | none => s
      | some (heap, ptr) =>
          ⟨heap, noteAdded s.heap.slabCache heap.slabCache s.pages, if ptr = 0 then s.live else ptr :: s.live⟩
  | .free ptr =>
      match heapEnhancedFree s.heap ptr with
      | none => s
      | some (heap, reaped) => ⟨heap, dropPage s.pages reaped, s.live.erase ptr⟩
  | .write _ memory => { s with heap := ⟨memory, s.heap.slabCache⟩ }
  | .elsewhere memory => { s with heap := ⟨memory, s.heap.slabCache⟩ }

/-- The call returns. -/
def SlabOp.Finishes (s : SlabState) : SlabOp → Prop
  | .malloc page n => heapEnhancedMalloc s.heap page n ≠ none
  | .free ptr => heapEnhancedFree s.heap ptr ≠ none
  | .write _ _ => True
  | .elsewhere _ => True

/-- `pmm_alloc` hands out physical pages that are not in use, clients free slots, be it twice, and write
what they hold, and nobody else writes into slab pages. -/
def SlabOp.Permitted (s : SlabState) : SlabOp → Prop
  | .malloc page n => n ≤ slabLimit ∧ (page ≠ 0 → PhysicalPage page ∧ ∀ c < slabNumClasses, page ∉ s.pages c)
  | .free ptr => ∃ c p j, IsSlot s.pages c p j ∧ ptr = slotPtr p (slabSize c) j
  | .write ptr memory => ptr ∈ s.live ∧
      SameOutside memory s.heap.memory ptr (ptr + SlabHdr.get s.heap.memory (pageBase ptr) .objSize)
  | .elsewhere memory => ∀ c < slabNumClasses, ∀ p ∈ s.pages c, SameOn memory s.heap.memory p (p + pageSize)

/-- A call needs a page only for a class that fits slots into it, before a page below 4 GB; one that
empties a page finds it and its predecessor where they can be unlinked. -/
def SlabOp.LinkFits (s : SlabState) : SlabOp → Prop
  | .malloc page n => ∀ c, n ≠ 0 → sizeClass n = some c → page ≠ 0 → NeedsPage s.heap.memory s.pages c →
      c < firstHollow ∧ s.heap.slabCache c < 2 ^ 32
  | .free ptr => ∀ c < slabNumClasses, pageBase ptr ∈ s.pages c → ptr ∈ s.live →
      SlabHdr.get s.heap.memory (pageBase ptr) .freeCount + 1 = SlabHdr.get s.heap.memory (pageBase ptr) .total →
        ReapFits s.heap s.pages c (pageBase ptr)
  | .write _ _ => True
  | .elsewhere _ => True

/-- The slots handed out lie in pages of the tier and are different, the free lists have the lengths
the headers say, and all pages are reachable from the head of their class. -/
structure SlabSound (s : SlabState) : Prop where
  reachable : ∀ c < slabNumClasses, ∀ p ∈ s.pages c, Reaches (nextSlab s.heap.memory) 0 (s.heap.slabCache c) p
  distinct : s.live.Nodup
  inside : ∀ ptr ∈ s.live, ∃ c < slabNumClasses, ∃ p ∈ s.pages c, SlabHdr.get s.heap.memory p .objSize = slabSize c ∧
    p + slabHdrSz ≤ ptr ∧ ptr + slabSize c ≤ p + pageSize
  counted : ∀ c < slabNumClasses, ∀ p ∈ s.pages c, ∃ freeSlots : List Nat,
    Chain (slotNext s.heap.memory p (slabSize c)) slabNil (SlabHdr.get s.heap.memory p .freeHead) freeSlots ∧
      freeSlots.Nodup ∧ SlabHdr.get s.heap.memory p .freeCount = freeSlots.length ∧
      freeSlots.length ≤ SlabHdr.get s.heap.memory p .total

/-- The page a call gives back has no slot that is still held. -/
def SlabOp.ReapsEmpty (s : SlabState) : SlabOp → Prop
  | .free ptr => ∀ heap p, heapEnhancedFree s.heap ptr = some (heap, some p) →
      ∀ held ∈ s.live.erase ptr, held < p ∨ p + pageSize ≤ held
  | _ => True

/-- A call returns, gives back only pages without slots that are held, and afterwards the tier is in
order. -/
def SlabOp.Sound (s : SlabState) (op : SlabOp) : Prop :=
  op.Finishes s ∧ op.ReapsEmpty s ∧ SlabSound (op.run s)

/-! ## The invariant -/

/-- Clients hold exactly the slots that are not free. -/
structure SlabHeld (s : SlabState) (free : Nat → List Nat) : Prop where
  inv : SlabInv s.heap s.pages free
  held : ∀ ptr, ptr ∈ s.live ↔ UsedSlot s.pages free ptr
  distinct : s.live.Nodup

namespace SlabHeld

variable {s : SlabState} {free : Nat → List Nat}

theorem sound (kept : SlabHeld s free) : SlabSound s where
  reachable c isClass _ member := (kept.inv.chains c isClass).reaches member
  distinct := kept.distinct
  inside ptr isLive := by
    obtain ⟨c, p, j, slot, -, rfl⟩ := (kept.held ptr).mp isLive
    have bounds := slotPtr_bounds p slot.2.2
    exact ⟨c, slot.1, p, slot.2.1, (kept.inv.page c slot.1 p slot.2.1).objSize_eq, bounds⟩
  counted c isClass p member := by
    have isPage := kept.inv.page c isClass p member
    refine ⟨free p, isPage.chain, isPage.nodup, isPage.freeCount_eq, ?_⟩
    rw [isPage.total_eq]
    exact isPage.length_le

/-! ## Allocation -/

theorem sizeClass_small {n : Nat} (small : n ≤ slabLimit) : ∃ c < slabNumClasses, sizeClass n = some c := by
  have served : (List.range slabNumClasses).find? (fun c => n ≤ slabSize c - redzoneSize) ≠ none := by
    intro none
    have tooLarge := List.find?_eq_none.mp none 9 (List.mem_range.mpr (by decide))
    exact tooLarge (decide_eq_true small)
  obtain ⟨c, found⟩ := Option.ne_none_iff_exists'.mp served
  exact ⟨c, List.mem_range.mp (List.mem_of_find?_eq_some found), found⟩

theorem malloc (kept : SlabHeld s free) {page n : Nat} (permitted : (SlabOp.malloc page n).Permitted s)
    (fits : (SlabOp.malloc page n).LinkFits s) :
    (SlabOp.malloc page n).Finishes s ∧ ∃ free', SlabHeld ((SlabOp.malloc page n).run s) free' := by
  obtain ⟨small, supply⟩ := permitted
  obtain ⟨c, isClass, found⟩ := sizeClass_small small
  unfold SlabOp.Finishes SlabOp.run
  dsimp only
  have unchanged : SlabHeld ⟨s.heap, noteAdded s.heap.slabCache s.heap.slabCache s.pages,
      if (0 : Nat) = 0 then s.live else 0 :: s.live⟩ free := by
    rw [noteAdded_same, if_pos rfl]
    exact kept
  by_cases empty : n = 0
  · rw [heapEnhancedMalloc, if_pos empty]
    exact ⟨Option.some_ne_none _, free, unchanged⟩
  rw [heapEnhancedMalloc, if_neg empty, found]
  dsimp only
  rcases slabAlloc_spec kept.inv isClass supply (fits c empty found) with
    none | ⟨heap', pages', free', slot, run, nonzero, taken⟩
  · rw [none]
    exact ⟨Option.some_ne_none _, free, unchanged⟩
  · rw [run]
    refine ⟨Option.some_ne_none _, free', ?_⟩
    dsimp only
    rw [if_neg nonzero]
    have noted : noteAdded s.heap.slabCache heap'.slabCache s.pages = pages' := by
      rcases taken.grown with ⟨pages, cache⟩ | ⟨isPage, pages, cache⟩
      · rw [cache, pages, noteAdded_same]
      · rw [cache, pages]
        exact noteAdded_page (kept.inv.chains c isClass) isPage ((supply isPage).2 c isClass)
    rw [noted]
    refine ⟨taken.inv, fun ptr => ?_, ?_⟩
    · rw [taken.exactly ptr, ← kept.held ptr]
      exact List.mem_cons
    · exact List.nodup_cons.mpr ⟨fun isLive => taken.unused ((kept.held slot).mp isLive), kept.distinct⟩

/-! ## Frees -/

theorem heapEnhancedFree_slot (inv : SlabInv s.heap s.pages free) {c p j : Nat} (slot : IsSlot s.pages c p j) :
    heapEnhancedFree s.heap (slotPtr p (slabSize c) j) = slabFree s.heap (slotPtr p (slabSize c) j) c p := by
  have nonzero : slotPtr p (slabSize c) j ≠ 0 := by
    unfold slotPtr slabHdrSz
    omega
  rw [heapEnhancedFree, if_neg nonzero, ptrInSlab_slot inv slot, inv.slot_page slot]

theorem release (kept : SlabHeld s free) {ptr : Nat} (permitted : (SlabOp.free ptr).Permitted s)
    (fits : (SlabOp.free ptr).LinkFits s) :
    (SlabOp.free ptr).Finishes s ∧ (SlabOp.free ptr).ReapsEmpty s ∧
      ∃ free', SlabHeld ((SlabOp.free ptr).run s) free' := by
  obtain ⟨c, p, j, slot, rfl⟩ := permitted
  have isPage := kept.inv.page c slot.1 p slot.2.1
  have reapFits : j ∉ free p → (free p).length + 1 = slotCount (slabSize c) → ReapFits s.heap s.pages c p := by
    intro used last
    have needed := fits c slot.1
    rw [kept.inv.slot_page slot, isPage.freeCount_eq, isPage.total_eq, kept.held, kept.inv.used_iff slot] at needed
    exact needed slot.2.1 used last
  obtain ⟨heap', pages', free', reaped, run, given⟩ := slabFree_spec kept.inv slot reapFits
  have after : SlabHeld ⟨heap', pages', s.live.erase (slotPtr p (slabSize c) j)⟩ free' := by
    refine ⟨given.inv, fun ptr => ?_, kept.distinct.erase _⟩
    rw [given.exactly ptr, ← kept.held ptr, kept.distinct.mem_erase_iff, and_comm]
  unfold SlabOp.Finishes SlabOp.ReapsEmpty SlabOp.run
  dsimp only
  rw [heapEnhancedFree_slot kept.inv slot, run]
  refine ⟨Option.some_ne_none _, fun heap q isReaped held isHeld => ?_, free', ?_⟩
  · obtain ⟨-, isReaped⟩ := Prod.mk.inj (Option.some.inj isReaped)
    obtain ⟨isPtrPage, gone⟩ := given.gone q isReaped
    rw [kept.inv.slot_page slot] at isPtrPage
    subst isPtrPage
    obtain ⟨d, r, i, heldSlot, -, rfl⟩ := (after.held held).mp isHeld
    have bounds := slotPtr_bounds r heldSlot.2.2
    have large := (slabSize_bounds (given.inv.served d heldSlot.1 r heldSlot.2.1)).1
    have other : r ≠ q := by
      rintro rfl
      exact gone d heldSlot.1 heldSlot.2.1
    have apart := (given.inv.physical d heldSlot.1 r heldSlot.2.1).apart (kept.inv.physical c slot.1 q slot.2.1) other
    omega
  · dsimp only
    rw [← given.dropped]
    exact after

/-! ## Writes -/

theorem write (kept : SlabHeld s free) {ptr : Nat} {memory : Memory}
    (permitted : (SlabOp.write ptr memory).Permitted s) :
    SlabHeld ((SlabOp.write ptr memory).run s) free := by
  obtain ⟨isLive, same⟩ := permitted
  obtain ⟨c, p, j, slot, used, rfl⟩ := (kept.held ptr).mp isLive
  rw [kept.inv.slot_page slot, (kept.inv.page c slot.1 p slot.2.1).objSize_eq] at same
  exact ⟨kept.inv.write_slot slot.1 slot.2.1 slot.2.2 used same, kept.held, kept.distinct⟩

theorem elsewhere (kept : SlabHeld s free) {memory : Memory} (permitted : (SlabOp.elsewhere memory).Permitted s) :
    SlabHeld ((SlabOp.elsewhere memory).run s) free :=
  ⟨kept.inv.elsewhere permitted, kept.held, kept.distinct⟩

/-! ## Runs -/

theorem step (kept : SlabHeld s free) {op : SlabOp} (permitted : op.Permitted s) (fits : op.LinkFits s) :
    op.Finishes s ∧ op.ReapsEmpty s ∧ ∃ free', SlabHeld (op.run s) free' := by
  cases op with
  | malloc page n =>
      obtain ⟨finishes, kept'⟩ := kept.malloc permitted fits
      exact ⟨finishes, trivial, kept'⟩
  | free ptr => exact kept.release permitted fits
  | write ptr memory => exact ⟨trivial, trivial, free, kept.write permitted⟩
  | elsewhere memory => exact ⟨trivial, trivial, free, kept.elsewhere permitted⟩

end SlabHeld

/-- No class has a page. -/
def SlabState.start (memory : Memory) : SlabState := ⟨⟨memory, fun _ => 0⟩, fun _ => [], []⟩

theorem SlabHeld.start (memory : Memory) : SlabHeld (.start memory) fun _ => [] where
  inv := ⟨fun _ _ => rfl, fun _ _ => trivial, fun _ _ _ member => absurd member List.not_mem_nil,
    fun _ _ _ member => absurd member List.not_mem_nil, fun _ _ _ member => absurd member List.not_mem_nil,
    fun _ _ => List.nodup_nil⟩
  held _ := iff_of_false List.not_mem_nil fun ⟨_, _, _, slot, _⟩ => List.not_mem_nil slot.2.1
  distinct := List.nodup_nil

/-- In a run without calls that do damage, every slot handed out lies in its page and is not held
otherwise, the counts are right, no page is lost and none is given back too early. -/
theorem enhancedSlabs_sound (memory : Memory) {ops : List SlabOp}
    (permitted : Run.Meets SlabOp.run SlabOp.Permitted (.start memory) ops)
    (fits : Run.Meets SlabOp.run SlabOp.LinkFits (.start memory) ops) :
    Run.Meets SlabOp.run SlabOp.Sound (.start memory) ops := by
  refine (permitted.and fits).imp (I := fun s => ∃ free, SlabHeld s free) ?_ ?_ ⟨_, SlabHeld.start memory⟩
  · rintro s op ⟨free, kept⟩ ⟨permitted, fits⟩
    exact (kept.step permitted fits).2.2
  · rintro s op ⟨free, kept⟩ ⟨permitted, fits⟩
    obtain ⟨finishes, empty, free', kept'⟩ := kept.step permitted fits
    exact ⟨finishes, empty, kept'.sound⟩

/-- Two pages of one slot each.  The older one is given back, the other is not, and its slot is freed
twice. -/
def twoPages : List SlabOp :=
  [.malloc 0x700000 2000, .malloc 0x701000 2000, .free 0x700030, .free 0x701030, .free 0x701030]

/-- The state of a run that starts with empty memory. -/
def slabAfter (ops : List SlabOp) : SlabState := Run.final SlabOp.run (.start fun _ => 0) ops

theorem malloc_permitted {s : SlabState} {page n : Nat} (small : n ≤ slabLimit) (physical : PhysicalPage page)
    (fresh : ∀ c < slabNumClasses, page ∉ s.pages c) : (SlabOp.malloc page n).Permitted s :=
  ⟨small, fun _ => ⟨physical, fresh⟩⟩

theorem malloc_linkFits {s : SlabState} {page n c : Nat} (found : sizeClass n = some c)
    (fits : c < firstHollow ∧ s.heap.slabCache c < 2 ^ 32) : (SlabOp.malloc page n).LinkFits s := by
  intro d _ same _ _
  obtain rfl : c = d := Option.some.inj (found.symm.trans same)
  exact fits

theorem free_permitted {s : SlabState} (c p j : Nat) (slot : IsSlot s.pages c p j) :
    (SlabOp.free (slotPtr p (slabSize c) j)).Permitted s := ⟨c, p, j, slot, rfl⟩

theorem twoPages_permitted : Run.Meets SlabOp.run SlabOp.Permitted (.start fun _ => 0) twoPages := by
  refine ⟨?_, ?_, ?_, ?_, ?_, trivial⟩
  · exact malloc_permitted (by decide) ⟨by decide, by decide, by decide⟩ fun _ _ => List.not_mem_nil
  · refine malloc_permitted (by decide) ⟨by decide, by decide, by decide⟩ ?_
    change ∀ c < slabNumClasses, 0x701000 ∉ (slabAfter (twoPages.take 1)).pages c
    decide +kernel
  · refine free_permitted 7 0x700000 0 ⟨by decide, ?_, by decide⟩
    change 0x700000 ∈ (slabAfter (twoPages.take 2)).pages 7
    decide +kernel
  · refine free_permitted 7 0x701000 0 ⟨by decide, ?_, by decide⟩
    change 0x701000 ∈ (slabAfter (twoPages.take 3)).pages 7
    decide +kernel
  · refine free_permitted 7 0x701000 0 ⟨by decide, ?_, by decide⟩
    change 0x701000 ∈ (slabAfter (twoPages.take 4)).pages 7
    decide +kernel

instance (s : SlabState) (ptr : Nat) : Decidable ((SlabOp.free ptr).LinkFits s) :=
  inferInstanceAs (Decidable (∀ c < slabNumClasses, pageBase ptr ∈ s.pages c → ptr ∈ s.live →
    SlabHdr.get s.heap.memory (pageBase ptr) .freeCount + 1 = SlabHdr.get s.heap.memory (pageBase ptr) .total →
      ReapFits s.heap s.pages c (pageBase ptr)))

theorem twoPages_linkFits : Run.Meets SlabOp.run SlabOp.LinkFits (.start fun _ => 0) twoPages := by
  have found : sizeClass 2000 = some 7 := by decide
  refine ⟨malloc_linkFits found (by decide), malloc_linkFits found ?_, ?_, ?_, ?_, trivial⟩
  · change 7 < firstHollow ∧ (slabAfter (twoPages.take 1)).heap.slabCache 7 < 2 ^ 32
    decide +kernel
  · change (SlabOp.free 0x700030).LinkFits (slabAfter (twoPages.take 2))
    decide +kernel
  · change (SlabOp.free 0x701030).LinkFits (slabAfter (twoPages.take 3))
    decide +kernel
  · change (SlabOp.free 0x701030).LinkFits (slabAfter (twoPages.take 4))
    decide +kernel

theorem twoPages_sound : Run.Meets SlabOp.run SlabOp.Sound (.start fun _ => 0) twoPages :=
  enhancedSlabs_sound (fun _ => 0) twoPages_permitted twoPages_linkFits

/-! ## Damage -/

/-- A class of 4096 bytes has a page without slots: the allocation passes its end. -/
theorem hollowClass_unsound :
    Run.Meets SlabOp.run SlabOp.Permitted (.start fun _ => 0) [.malloc 0x700000 4000] ∧
      ¬Run.Meets SlabOp.run SlabOp.Sound (.start fun _ => 0) [.malloc 0x700000 4000] := by
  refine ⟨⟨malloc_permitted (by decide) ⟨by decide, by decide, by decide⟩ fun _ _ => List.not_mem_nil, trivial⟩, ?_⟩
  rintro ⟨⟨-, -, sound⟩, -⟩
  have isLive : 0x700030 ∈ (slabAfter [.malloc 0x700000 4000]).live := by decide +kernel
  have only : ∀ c < slabNumClasses, ∀ p ∈ (slabAfter [.malloc 0x700000 4000]).pages c,
      p = 0x700000 ∧ slabSize c = 4096 := by
    decide +kernel
  obtain ⟨c, isClass, p, member, -, -, upper⟩ := sound.inside 0x700030 isLive
  obtain ⟨rfl, size⟩ := only c isClass p member
  rw [size] at upper
  exact absurd upper (by decide)

end Systrix.HeapEnhanced
