import Systrix.Heap.Api
import Systrix.Lib.Run

/-!
# Runs of the slab tier

Small allocations and frees, with clients writing into their slots.  A page that
gets a successor is linked through 32 bits: the tier keeps its promises exactly
as long as such a page lies below 4 GB.
-/

namespace Systrix.Heap

open ByteMemory Machine LinkedList

def slabMaxSize : Nat := 2048

/-- The heap, the pages added to each class so far and the slots clients hold. -/
structure SlabState where
  heap : KernelHeap
  added : Nat → List Nat
  live : List Nat

/-- A small allocation (`page` is what `pmm_alloc` answers if it is asked), a free, a write of
a client into its slot or of anybody outside the slab pages. -/
inductive SlabOp where
  | malloc (page n : Nat)
  | free (ptr : Nat)
  | write (ptr : Nat) (memory : Memory)
  | elsewhere (memory : Memory)

/-- Pages added so far, when the class heads were `old` and are now `new`. -/
def noteAdded (old new : Nat → Nat) (added : Nat → List Nat) (c : Nat) : List Nat :=
  if new c = old c then added c else new c :: added c

theorem noteAdded_same (cache : Nat → Nat) (added : Nat → List Nat) : noteAdded cache cache added = added := by
  funext d
  exact if_pos rfl

/-- A page that was not added before is noted. -/
theorem noteAdded_page {cache next : Nat → Nat} {added : Nat → List Nat} {c page : Nat}
    (chain : Chain next 0 (cache c) (added c)) (nonzero : page ≠ 0) (fresh : page ∉ added c) :
    noteAdded cache (Function.update cache c page) added = Function.update added c (page :: added c) := by
  have differs : page ≠ cache c := by
    intro same
    refine fresh ?_
    rw [same] at nonzero ⊢
    exact chain.head_mem nonzero
  funext d
  unfold noteAdded
  by_cases here : d = c
  · subst here
    rw [Function.update_self, Function.update_self, if_neg differs]
  · rw [Function.update_of_ne here, Function.update_of_ne here, if_pos rfl]

/-- The state after a call; one that does not finish is left out. -/
def SlabOp.run (s : SlabState) : SlabOp → SlabState
  | .malloc page n =>
      match heapMalloc s.heap page n with
      | none => s
      | some (heap, ptr) =>
          ⟨heap, noteAdded s.heap.slabCache heap.slabCache s.added, if ptr = 0 then s.live else ptr :: s.live⟩
  | .free ptr =>
      match heapFree s.heap ptr with
      | none => s
      | some heap => { s with heap := heap, live := s.live.erase ptr }
  | .write _ memory => { s with heap := ⟨memory, s.heap.slabCache⟩ }
  | .elsewhere memory => { s with heap := ⟨memory, s.heap.slabCache⟩ }

/-- The call returns. -/
def SlabOp.Finishes (s : SlabState) : SlabOp → Prop
  | .malloc page n => heapMalloc s.heap page n ≠ none
  | .free ptr => heapFree s.heap ptr ≠ none
  | .write _ _ => True
  | .elsewhere _ => True

/-- `pmm_alloc` hands out physical pages that are not in use, clients free and write what they
hold, and nobody else writes into slab pages. -/
def SlabOp.Permitted (s : SlabState) : SlabOp → Prop
  | .malloc page n => 0 < n ∧ n ≤ slabMaxSize ∧
      (page ≠ 0 → PhysicalPage page ∧ ∀ c < slabNumClasses, page ∉ s.added c)
  | .free ptr => ptr ∈ s.live
  | .write ptr memory => ptr ∈ s.live ∧
      SameOutside memory s.heap.memory ptr (ptr + objSize s.heap.memory (pageBase ptr))
  | .elsewhere memory => ∀ c < slabNumClasses, ∀ p ∈ s.added c, SameOn memory s.heap.memory p (p + pageSize)

/-- No page was lost, and the slots handed out and the free lists are in order. -/
structure SlabSound (s : SlabState) : Prop where
  reachable : ∀ c < slabNumClasses, ∀ p ∈ s.added c, Reaches (nextSlab s.heap.memory) 0 (s.heap.slabCache c) p
  distinct : s.live.Nodup
  inside : ∀ ptr ∈ s.live, ∃ c < slabNumClasses, ∃ p ∈ s.added c, objSize s.heap.memory p = slabSize c ∧
    p + slabHdrSz ≤ ptr ∧ ptr + slabSize c ≤ p + pageSize
  counted : ∀ c < slabNumClasses, ∀ p ∈ s.added c, ∃ freeSlots,
    Chain (slotNext s.heap.memory p (slabSize c)) slabNil (freeHead s.heap.memory p) freeSlots ∧
      freeCount s.heap.memory p = freeSlots.length

/-- A call returns, and afterwards the tier is in order. -/
def SlabOp.Sound (s : SlabState) (op : SlabOp) : Prop := op.Finishes s ∧ SlabSound (op.run s)

/-- A page that gets a successor in its class has an address of 32 bits. -/
def SlabOp.LinkFits (s : SlabState) : SlabOp → Prop
  | .malloc page n => ∀ c, sizeClass n = some c → page ≠ 0 →
      (∀ p ∈ s.added c, freeCount s.heap.memory p = 0) → s.heap.slabCache c < 2 ^ 32
  | _ => True

/-! ## The invariant -/

/-- The pages added are the chains in memory, and clients hold the slots that are not free. -/
structure SlabHeld (s : SlabState) (free : Nat → List Nat) : Prop where
  inv : SlabInv s.heap s.added free
  held : ∀ ptr ∈ s.live, ∃ c p j, UsedSlot s.added free c p j ∧ ptr = slotPtr p (slabSize c) j
  complete : ∀ c p j, UsedSlot s.added free c p j → slotPtr p (slabSize c) j ∈ s.live
  distinct : s.live.Nodup

namespace SlabHeld

variable {s : SlabState} {free : Nat → List Nat}

theorem sound (kept : SlabHeld s free) : SlabSound s where
  reachable c isClass _ member := (kept.inv.chains c isClass).reaches member
  distinct := kept.distinct
  inside ptr isLive := by
    obtain ⟨c, p, j, used, rfl⟩ := kept.held ptr isLive
    have bounds := slotPtr_bounds p used.2.2.1
    exact ⟨c, used.1, p, used.2.1, (kept.inv.page c used.1 p used.2.1).objSize_eq, bounds⟩
  counted c isClass p member :=
    ⟨free p, (kept.inv.page c isClass p member).chain, (kept.inv.page c isClass p member).freeCount_eq⟩

theorem needsPage_iff (kept : SlabHeld s free) {c : Nat} (isClass : c < slabNumClasses) :
    NeedsPage s.added free c ↔ ∀ p ∈ s.added c, freeCount s.heap.memory p = 0 := by
  refine forall₂_congr fun p member => ?_
  rw [(kept.inv.page c isClass p member).freeCount_eq, List.length_eq_zero_iff]

/-! ## Allocation -/

theorem heapMalloc_small (heap : KernelHeap) (page : Nat) {n c : Nat} (positive : 0 < n)
    (found : sizeClass n = some c) : heapMalloc heap page n = slabAlloc heap page c := by
  rw [heapMalloc, if_neg (by omega), found]

theorem sizeClass_small {n : Nat} (small : n ≤ slabMaxSize) : ∃ c, sizeClass n = some c := by
  refine Option.isSome_iff_exists.mp (List.find?_isSome.mpr ⟨7, List.mem_range.mpr (by decide), ?_⟩)
  exact decide_eq_true small

/-- A slot that is taken joins those held. -/
theorem take (kept : SlabHeld s free) {heap' : KernelHeap} {pages' free' : Nat → List Nat} {c slot : Nat}
    (taken : SlotTaken s.heap heap' s.added free pages' free' c slot) :
    SlabHeld ⟨heap', pages', slot :: s.live⟩ free' := by
  obtain ⟨p, j, slotEq, used, unused, exactly⟩ := taken.taken
  refine ⟨taken.inv, ?_, ?_, ?_⟩
  · intro ptr isLive
    rcases List.mem_cons.mp isLive with rfl | old
    · exact ⟨c, p, j, used, slotEq⟩
    · obtain ⟨d, q, i, used', ptrEq⟩ := kept.held ptr old
      exact ⟨d, q, i, (exactly d q i).mpr (.inl used'), ptrEq⟩
  · intro d q i used'
    rcases (exactly d q i).mp used' with old | ⟨rfl, rfl, rfl⟩
    · exact List.mem_cons_of_mem _ (kept.complete d q i old)
    · rw [slotEq]
      exact List.mem_cons_self
  · refine List.nodup_cons.mpr ⟨fun isLive => ?_, kept.distinct⟩
    obtain ⟨d, q, i, used', ptrEq⟩ := kept.held slot isLive
    obtain ⟨rfl, rfl, rfl⟩ := taken.inv.slot_unique ((exactly d q i).mpr (.inl used')) used
      (ptrEq.symm.trans slotEq)
    exact unused used'

theorem malloc (kept : SlabHeld s free) {page n : Nat} (permitted : (SlabOp.malloc page n).Permitted s)
    (fits : (SlabOp.malloc page n).LinkFits s) :
    (SlabOp.malloc page n).Finishes s ∧ ∃ free', SlabHeld ((SlabOp.malloc page n).run s) free' := by
  obtain ⟨positive, small, supply⟩ := permitted
  obtain ⟨c, found⟩ := sizeClass_small small
  have isClass := (sizeClass_some found).1
  have link : page ≠ 0 → NeedsPage s.added free c → s.heap.slabCache c < 2 ^ 32 := fun nonzero needs =>
    fits c found nonzero ((kept.needsPage_iff isClass).mp needs)
  unfold SlabOp.Finishes SlabOp.run
  dsimp only
  rw [heapMalloc_small s.heap page positive found]
  rcases slabAlloc_grown kept.inv isClass supply link with
    none | ⟨heap', pages', free', slot, run, nonzero, taken, grown⟩
  · rw [none]
    refine ⟨Option.some_ne_none _, free, ?_⟩
    dsimp only
    rw [noteAdded_same, if_pos rfl]
    exact kept
  · rw [run]
    refine ⟨Option.some_ne_none _, free', ?_⟩
    dsimp only
    rw [if_neg nonzero]
    have noted : noteAdded s.heap.slabCache heap'.slabCache s.added = pages' := by
      rcases grown with ⟨pages, cache⟩ | ⟨isPage, -, pages, cache⟩
      · rw [cache, pages, noteAdded_same]
      · rw [cache, pages]
        exact noteAdded_page (kept.inv.chains c isClass) isPage ((supply isPage).2 c isClass)
    rw [noted]
    exact kept.take taken

/-- Links of 32 bits do not reach a page from 4 GB on. -/
theorem nextSlab_lt (memory : Memory) (page : Nat) : nextSlab memory page < 2 ^ 32 :=
  load_lt memory (page + 20) 4

/-- A page from 4 GB on that gets a successor is lost. -/
theorem not_sound (kept : SlabHeld s free) {page n : Nat} (permitted : (SlabOp.malloc page n).Permitted s)
    (overflow : ¬(SlabOp.malloc page n).LinkFits s) : ¬SlabSound ((SlabOp.malloc page n).run s) := by
  obtain ⟨positive, small, supply⟩ := permitted
  obtain ⟨c, found, nonzero, full, large⟩ : ∃ c, sizeClass n = some c ∧ page ≠ 0 ∧
      (∀ p ∈ s.added c, freeCount s.heap.memory p = 0) ∧ 2 ^ 32 ≤ s.heap.slabCache c := by
    simpa only [SlabOp.LinkFits, not_forall, exists_prop, Nat.not_lt] using overflow
  have isClass := (sizeClass_some found).1
  have walk : findSlab s.heap.memory slabFuel (s.heap.slabCache c) = some 0 := by
    rcases findSlab_spec (kept.inv.chains c isClass) (fun p member => (kept.inv.page c isClass p member).freeCount_eq)
      (kept.inv.length_lt isClass) with ⟨walk, -⟩ | ⟨p, member, -, available⟩
    · exact walk
    · exact absurd ((kept.needsPage_iff isClass).mpr full p member) available
  obtain ⟨memory', slot, run⟩ : ∃ memory' slot, slabAlloc s.heap page c =
      some (⟨memory', Function.update s.heap.slabCache c page⟩, slot) := by
    rw [slabAlloc, walk]
    dsimp only
    rw [if_neg nonzero]
    exact ⟨_, _, rfl⟩
  have isHead := (kept.inv.chains c isClass).head_mem (by omega)
  intro sound
  have reached := sound.reachable c isClass (s.heap.slabCache c)
  unfold SlabOp.run at reached
  dsimp only at reached
  rw [heapMalloc_small s.heap page positive found, run] at reached
  dsimp only at reached
  rw [noteAdded_page (kept.inv.chains c isClass) nonzero ((supply nonzero).2 c isClass), Function.update_self,
    Function.update_self] at reached
  have same := (reached (List.mem_cons_of_mem _ isHead)).eq_head fun other named => by
    have narrow := nextSlab_lt memory' other
    omega
  refine (supply nonzero).2 c isClass ?_
  rw [same]
  exact isHead

/-! ## Other calls -/

theorem heapFree_slot (kept : SlabHeld s free) {c p j : Nat} (used : UsedSlot s.added free c p j) :
    heapFree s.heap (slotPtr p (slabSize c) j) =
      some ⟨slabFree s.heap.memory (slotPtr p (slabSize c) j) p, s.heap.slabCache⟩ := by
  have above := kept.inv.slot_above used
  have limit : 0 < heapLimit := by decide
  rw [heapFree, if_neg (by omega), kept.inv.ptrInSlab_slot used, kept.inv.slot_page used]

theorem release (kept : SlabHeld s free) {ptr : Nat} (isLive : ptr ∈ s.live) :
    (SlabOp.free ptr).Finishes s ∧ ∃ free', SlabHeld ((SlabOp.free ptr).run s) free' := by
  obtain ⟨c, p, j, used, rfl⟩ := kept.held ptr isLive
  obtain ⟨slab, -, -⟩ := slabFree_spec kept.inv used.1 used.2.1 used.2.2.1 used.2.2.2
  have exactly := usedSlot_release (j := j) kept.inv used.1 used.2.1
  unfold SlabOp.Finishes SlabOp.run
  dsimp only
  rw [kept.heapFree_slot used]
  refine ⟨Option.some_ne_none _, Function.update free p (j :: free p), slab, ?_, ?_, kept.distinct.erase _⟩
  · intro ptr stillLive
    obtain ⟨d, q, i, used', rfl⟩ := kept.held ptr (List.mem_of_mem_erase stillLive)
    refine ⟨d, q, i, (exactly d q i).mpr ⟨used', ?_⟩, rfl⟩
    rintro ⟨rfl, rfl, rfl⟩
    exact List.Nodup.not_mem_erase kept.distinct stillLive
  · intro d q i used'
    obtain ⟨before, other⟩ := (exactly d q i).mp used'
    refine (List.mem_erase_of_ne fun same => ?_).mpr (kept.complete d q i before)
    exact other (kept.inv.slot_unique before used same)

theorem write (kept : SlabHeld s free) {ptr : Nat} {memory : Memory}
    (permitted : (SlabOp.write ptr memory).Permitted s) :
    SlabHeld ((SlabOp.write ptr memory).run s) free := by
  obtain ⟨isLive, same⟩ := permitted
  obtain ⟨c, p, j, used, rfl⟩ := kept.held ptr isLive
  rw [kept.inv.slot_size used] at same
  exact ⟨kept.inv.write_slot used.1 used.2.1 used.2.2.1 used.2.2.2 same, kept.held, kept.complete, kept.distinct⟩

theorem elsewhere (kept : SlabHeld s free) {memory : Memory} (permitted : (SlabOp.elsewhere memory).Permitted s) :
    SlabHeld ((SlabOp.elsewhere memory).run s) free := by
  have sizes : pageSize = 4096 ∧ slabHdrSz = 32 := ⟨rfl, rfl⟩
  refine ⟨kept.inv.congr ?_ ?_, kept.held, kept.complete, kept.distinct⟩
  · intro c isClass p member address lower upper
    exact permitted c isClass p member address lower (by omega)
  · intro c isClass p member idx isFree address lower upper
    have bounds := slotPtr_bounds p ((kept.inv.page c isClass p member).bounded idx isFree)
    have large := (slabSize_bounds isClass).1
    exact permitted c isClass p member address (by omega) (by omega)

/-! ## Runs -/

theorem step (kept : SlabHeld s free) {op : SlabOp} (permitted : op.Permitted s) (fits : op.LinkFits s) :
    op.Finishes s ∧ ∃ free', SlabHeld (op.run s) free' := by
  cases op with
  | malloc page n => exact kept.malloc permitted fits
  | free ptr => exact kept.release permitted
  | write ptr memory => exact ⟨trivial, free, kept.write permitted⟩
  | elsewhere memory => exact ⟨trivial, free, kept.elsewhere permitted⟩

theorem sound_iff (kept : SlabHeld s free) {op : SlabOp} (permitted : op.Permitted s) : op.Sound s ↔ op.LinkFits s := by
  constructor
  · intro sound
    by_contra overflow
    cases op with
    | malloc page n => exact kept.not_sound permitted overflow sound.2
    | free => exact overflow trivial
    | write => exact overflow trivial
    | elsewhere => exact overflow trivial
  · intro fits
    obtain ⟨finishes, free', kept'⟩ := kept.step permitted fits
    exact ⟨finishes, kept'.sound⟩

end SlabHeld

/-- No class has a page. -/
def SlabState.start (memory : Memory) : SlabState := ⟨⟨memory, fun _ => 0⟩, fun _ => [], []⟩

theorem SlabHeld.start (memory : Memory) : SlabHeld (.start memory) fun _ => [] where
  inv := ⟨fun _ _ => rfl, fun _ _ _ member => absurd member List.not_mem_nil,
    fun _ _ _ member => absurd member List.not_mem_nil, fun _ _ => List.nodup_nil⟩
  held _ isLive := absurd isLive List.not_mem_nil
  complete _ _ _ used := absurd used.2.1 List.not_mem_nil
  distinct := List.nodup_nil

/-- The tier keeps its promises in exactly the runs in which every page that gets a successor
lies below 4 GB. -/
theorem slabTier_iff (memory : Memory) {ops : List SlabOp}
    (permitted : Run.Meets SlabOp.run SlabOp.Permitted (.start memory) ops) :
    Run.Meets SlabOp.run SlabOp.Sound (.start memory) ops ↔
      Run.Meets SlabOp.run SlabOp.LinkFits (.start memory) ops :=
  Run.meets_iff (I := fun s => ∃ free, SlabHeld s free)
    (fun _ _ ⟨_, kept⟩ permitted => kept.sound_iff permitted)
    (fun _ _ ⟨_, kept⟩ permitted fits => (kept.step permitted fits).2) ⟨_, SlabHeld.start memory⟩ permitted

/-- A slot is taken from a new page and given back. -/
def oneSlot : List SlabOp := [.malloc 0x400000 24, .free 0x400020]

theorem oneSlot_permitted : Run.Meets SlabOp.run SlabOp.Permitted (.start fun _ => 0) oneSlot := by
  refine ⟨⟨by decide, by decide, fun _ => ⟨⟨by decide, by decide, by decide⟩, ?_⟩⟩, ?_, trivial⟩
  · exact fun c isClass => List.not_mem_nil
  · show 0x400020 ∈ ((SlabOp.malloc 0x400000 24).run (.start fun _ => 0)).live
    decide +kernel

theorem slabTier_iff_oneSlot :
    Run.Meets SlabOp.run SlabOp.Sound (.start fun _ => 0) oneSlot ↔
      Run.Meets SlabOp.run SlabOp.LinkFits (.start fun _ => 0) oneSlot :=
  slabTier_iff (fun _ => 0) oneSlot_permitted

/-! ## A page behind 4 GB -/

/-- Two allocations of 2048 bytes, for each of which a page is needed. -/
def highPages : List SlabOp := [.malloc 0x100000000 2048, .malloc 0x100001000 2048]

/-- The first page is full when it gets a successor. -/
theorem highPages_permitted : Run.Meets SlabOp.run SlabOp.Permitted (.start fun _ => 0) highPages := by
  refine ⟨⟨by decide, by decide, fun _ => ⟨⟨by decide, by decide, by decide⟩, ?_⟩⟩,
    ⟨by decide, by decide, fun _ => ⟨⟨by decide, by decide, by decide⟩, ?_⟩⟩, trivial⟩
  · exact fun c isClass => List.not_mem_nil
  · show ∀ c < slabNumClasses, 0x100001000 ∉ ((SlabOp.malloc 0x100000000 2048).run (.start fun _ => 0)).added c
    decide +kernel

/-- The class head moves to the second page, and the link that should name the first is 0. -/
theorem highPage_lost :
    Run.Meets SlabOp.run SlabOp.Permitted (.start fun _ => 0) highPages ∧
      ¬Run.Meets SlabOp.run SlabOp.Sound (.start fun _ => 0) highPages := by
  refine ⟨highPages_permitted, fun sound => ?_⟩
  have fits : (SlabOp.malloc 0x100000000 2048).LinkFits (.start fun _ => 0) :=
    fun _ _ _ _ => (by decide : 0 < 2 ^ 32)
  obtain ⟨-, free, kept⟩ := (SlabHeld.start fun _ => 0).malloc highPages_permitted.1 fits
  refine kept.not_sound highPages_permitted.2.1 (fun narrow => ?_) sound.2.1.2
  have full : ∀ p ∈ ((SlabOp.malloc 0x100000000 2048).run (.start fun _ => 0)).added 7,
      freeCount ((SlabOp.malloc 0x100000000 2048).run (.start fun _ => 0)).heap.memory p = 0 := by
    decide +kernel
  have small := narrow 7 (by decide) (by decide) full
  revert small
  decide +kernel

end Systrix.Heap
