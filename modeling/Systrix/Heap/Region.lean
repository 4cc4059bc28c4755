import Systrix.Heap.ApiRun
import Systrix.Lib.ClearRegion

/-!
# A region inside the block arena that the heap leaves alone

The first free block with room for a request is taken from its low end.  A region of the arena stays clear
of headers and payloads, and keeps its bytes, as long as a request that is served from the block around it
ends before it.
-/

namespace Systrix.Heap

open ByteMemory Machine ImplicitList LinkedList

/-- A request of `n` bytes, rounded up already, that is served from the free block around a region leaves
room for itself and the next header before it. -/
def ServedBefore (memory : Memory) (n low high : Nat) : Prop :=
  ∀ before block after, Tiles memory heapLimit heapBase (before ++ block :: after) →
    (∀ earlier ∈ before, earlier.free = true → earlier.size < n) → block.free = true → n ≤ block.size →
    heapBase + extent blockHdr before + blockHdr ≤ low →
    high ≤ heapBase + extent blockHdr before + blockHdr + block.size →
      heapBase + extent blockHdr before + blockHdr + n + blockHdr ≤ low

/-! ## The block tier -/

section Blocks

variable {memory memory' : Memory} {low high : Nat} {blocks : List Block}

/-- Bytes outside all headers belong to payloads. -/
theorem PayloadsKept.sameOn (kept : PayloadsKept memory' memory heapBase blocks)
    (clear : Clear blockHdr heapBase low high blocks) (lower : heapBase ≤ low)
    (upper : high ≤ heapBase + extent blockHdr blocks) : SameOn memory' memory low high := by
  intro address above below
  obtain ⟨start, block, placed, front, back⟩ := At.cover (Nat.le_trans lower above) (Nat.lt_of_lt_of_le below upper)
  refine kept.payload placed address ?_ back
  rcases clear.headers placed with past | before
  · omega
  · omega

/-- Taking memory from the block around a region changes bytes below the region only. -/
theorem takeBlock_below {limit n b : Nat} {block : Block} {after : List Block}
    (tiles : Tiles memory limit b (block :: after)) (bound : limit + 64 < 2 ^ 64)
    (room : n + blockHdr + 16 ≤ block.size) :
    SameOutside (takeBlock memory n b) memory b (b + blockHdr + n + blockHdr) := by
  have total := tiles.limit_eq
  rw [extent_cons] at total
  have hdr : blockHdr = 16 := rfl
  have roomEq : u64 (n + blockHdr + 16) = n + blockHdr + 16 := u64_of_lt (by omega)
  have nextEq : u64 (b + blockHdr + n) = b + blockHdr + n := u64_of_lt (by omega)
  have fits : n ≤ block.size := by omega
  have restEq : sub64 (sub64 block.size n) blockHdr = block.size - n - blockHdr := by
    rw [sub64_of_le fits (by omega), sub64_of_le (by omega) (by omega)]
  unfold takeBlock
  simp only [roomEq, tiles.1]
  rw [if_pos room, nextEq, restEq]
  obtain ⟨splitTiles, -⟩ := splitTail_tiles (n := n) tiles (by omega) (by omega)
  obtain ⟨-, claimed⟩ := claim_tiles splitTiles
  have tailWritten := (setBlockFlags_sameOutside (setBlockSize memory (b + blockHdr + n) (block.size - n - blockHdr))
    (b + blockHdr + n) 1).trans (setBlockSize_sameOutside memory (b + blockHdr + n) (block.size - n - blockHdr))
  have resized := setBlockSize_sameOutside (setBlockFlags (setBlockSize memory (b + blockHdr + n)
    (block.size - n - blockHdr)) (b + blockHdr + n) 1) b n
  exact (claimed.mono (Nat.le_refl _) (Nat.le_add_right _ _)).trans
    ((resized.mono (Nat.le_refl _) (by omega)).trans (tailWritten.mono (by omega) (Nat.le_refl _)))

/-- `block_malloc` keeps a region clear, and its bytes. -/
theorem blockMalloc_clear {n ptr : Nat} (tiles : Tiles memory heapLimit heapBase blocks)
    (enough : blocks.length < blockFuel) (clear : Clear blockHdr heapBase low high blocks) (wide : low + 16 ≤ high)
    (upper : high ≤ heapLimit) (served : ServedBefore memory (roundUp16 n) low high)
    (run : blockMalloc memory n = some (memory', ptr)) :
    SameOn memory' memory low high ∧
      ∀ blocks', Tiles memory' heapLimit heapBase blocks' → Clear blockHdr heapBase low high blocks' := by
  obtain ⟨result, run', outcome⟩ := blockMallocLoop_spec (n := roundUp16 n) tiles enough
  have same : some result = some (memory', ptr) := run'.symm.trans run
  have total := tiles.limit_eq
  cases outcome with
  | exhausted =>
      cases same
      refine ⟨.refl _ _ _, fun blocks' tiles' => ?_⟩
      rwa [tiles'.unique tiles]
  | found before after block shape first isFree fits =>
      cases same
      subst shape
      have behind := served before block after tiles first isFree fits
      obtain ⟨beforeTiles, tailTiles⟩ := Tiles.append_iff.mp tiles
      obtain ⟨takenTiles, changed⟩ := takeBlock_tiles tailTiles (by decide) fits
      have place := clear.contains_or_apart (at_middle ..) (total ▸ upper)
      have cleared := clear.carve (total ▸ upper) wide fits behind
      generalize startDef : heapBase + extent blockHdr before = start at *
      have bounds := (at_middle blockHdr heapBase before after block).bounds
      rw [startDef] at bounds
      have tiles' : Tiles (takeBlock memory (roundUp16 n) start) heapLimit heapBase
          (before ++ (carve blockHdr 16 (roundUp16 n) block ++ after)) := by
        rw [Tiles.append_iff, startDef]
        exact ⟨beforeTiles.of_sameOutside changed (.inl (by omega)), takenTiles⟩
      refine ⟨?_, fun blocks' other => ?_⟩
      · rcases place with ⟨above, within⟩ | apart | apart
        · have far := behind above within
          have hdr : blockHdr = 16 := rfl
          exact (takeBlock_below tailTiles (by decide) (by omega)).sameOn (.inr far)
        · exact changed.sameOn (.inr apart)
        · exact changed.sameOn (.inl apart)
      · rwa [other.unique tiles']

/-- `block_free` keeps a region clear, and its bytes. -/
theorem BlockInv.free_clear {live : List Allocation} {allocation : Allocation} (inv : BlockInv memory live blocks)
    (isLive : allocation ∈ live) (clear : Clear blockHdr heapBase low high blocks) (lower : heapBase ≤ low)
    (upper : high ≤ heapLimit) (run : blockFree memory allocation.ptr = some memory') :
    SameOn memory' memory low high ∧
      ∀ blocks', Tiles memory' heapLimit heapBase blocks' → Clear blockHdr heapBase low high blocks' := by
  obtain ⟨start, block, holds⟩ := inv.held _ isLive
  obtain ⟨before, after, shape, startDef⟩ := holds.2.1.split
  subst shape
  obtain ⟨memory'', run', tiles', kept⟩ := blockFree_spec inv.tiles
  rw [← startDef, ← holds.1, run] at run'
  cases run'
  refine ⟨kept.sameOn clear lower (inv.tiles.limit_eq ▸ upper), fun blocks' other => ?_⟩
  rw [other.unique tiles']
  exact clear.release

end Blocks

/-! ## The whole heap -/

/-- A region of the arena that is wide enough for the smallest block. -/
structure InArena (low high : Nat) : Prop where
  lower : heapBase ≤ low
  upper : high ≤ heapLimit
  wide : low + 16 ≤ high

/-- A well-formed heap that keeps out of a region of the arena. -/
structure RegionInv (low high : Nat) (state : KernelState) (blocks : List Block) (pages free : Nat → List Nat) :
    Prop where
  inv : HeapInv state blocks pages free
  clear : Clear blockHdr heapBase low high blocks

namespace RegionInv

variable {low high : Nat} {state : KernelState} {blocks : List Block} {pages free : Nat → List Nat}
  {tier : Tier} {allocation : Allocation} {memory' : Memory} {page n : Nat}

theorem header_apart {start : Nat} {block : Block} (kept : RegionInv low high state blocks pages free)
    (placed : At blockHdr heapBase blocks start block) : Apart start (start + blockHdr) low high :=
  kept.clear.headers placed

theorem payload_apart (kept : RegionInv low high state blocks pages free) (region : InArena low high)
    (isLive : allocation ∈ state.live tier) :
    Apart allocation.ptr (allocation.ptr + capacity state.heap.memory tier allocation.ptr) low high := by
  cases tier with
  | slab =>
      obtain ⟨c, p, j, used, ptrEq, -⟩ := kept.inv.held allocation isLive
      have above := kept.inv.slab.slot_above used
      exact .inr (by rw [ptrEq]; exact Nat.le_trans region.upper above)
  | block =>
      obtain ⟨start, block, holds⟩ := kept.inv.block.held allocation isLive
      rw [capacity_block, kept.inv.block.payloadSize_eq holds, holds.1]
      exact kept.clear.payloads holds.2.1 holds.2.2.1

/-- A heap whose block tier did not change. -/
theorem of_arena {heap' : KernelHeap} {live' : Tier → List Allocation} {pages' free' : Nat → List Nat}
    (kept : RegionInv low high state blocks pages free) (region : InArena low high)
    (inv' : HeapInv ⟨heap', live'⟩ blocks pages' free')
    (same : SameOn heap'.memory state.heap.memory heapBase heapLimit) :
    RegionInv low high ⟨heap', live'⟩ blocks pages' free' ∧ SameOn heap'.memory state.heap.memory low high :=
  ⟨⟨inv', kept.clear⟩, same.mono region.lower region.upper⟩

/-- `heap_malloc` on the block route, when what it takes ends before the region. -/
theorem malloc_block (kept : RegionInv low high state blocks pages free) (page : Nat) (region : InArena low high)
    (safe : MallocSafe state.heap n) (positive : 0 < n) (large : sizeClass n = none)
    (served : ServedBefore state.heap.memory (roundUp16 n) low high) :
    heapMalloc state.heap page n = some (state.heap, 0) ∨
      ∃ memory' ptr blocks', heapMalloc state.heap page n = some (⟨memory', state.heap.slabCache⟩, ptr) ∧ ptr ≠ 0 ∧
        RegionInv low high ⟨⟨memory', state.heap.slabCache⟩, hold state.live .block ⟨ptr, n⟩⟩ blocks' pages free ∧
        PayloadsSame memory' state.heap.memory state.live ∧ SameOn memory' state.heap.memory low high := by
  rw [heapMalloc, if_neg (Nat.ne_of_gt positive), large]
  rcases kept.inv.malloc_block safe positive with run | ⟨memory', ptr, blocks', run, nonzero, inv', payloads⟩
  · exact .inl (by rw [run]; rfl)
  · obtain ⟨same, clear⟩ := blockMalloc_clear kept.inv.block.tiles kept.inv.block.length_lt kept.clear region.wide
      region.upper served run
    refine .inr ⟨_, ptr, blocks', by rw [run]; rfl, nonzero, ⟨inv', ?_⟩, payloads, same⟩
    exact clear blocks' inv'.block.tiles

/-- `heap_malloc`, when what is served by the block tier ends before the region. -/
theorem malloc (kept : RegionInv low high state blocks pages free) (region : InArena low high)
    (supply : Supply state.heap page) (safe : MallocSafe state.heap n)
    (served : sizeClass n = none → ServedBefore state.heap.memory (roundUp16 n) low high) :
    heapMalloc state.heap page n = some (state.heap, 0) ∨
      ∃ heap' ptr blocks' pages' free', heapMalloc state.heap page n = some (heap', ptr) ∧ ptr ≠ 0 ∧
        RegionInv low high ⟨heap', hold state.live (tierFor n) ⟨ptr, n⟩⟩ blocks' pages' free' ∧
        PayloadsSame heap'.memory state.heap.memory state.live ∧
        SameOn heap'.memory state.heap.memory low high := by
  by_cases isZero : n = 0
  · exact .inl (by rw [heapMalloc, if_pos isZero])
  unfold tierFor
  cases route : sizeClass n with
  | some c =>
      rw [heapMalloc, if_neg isZero, route]
      rcases kept.inv.malloc_slab supply safe route with
        run | ⟨heap', ptr, pages', free', run, nonzero, inv', payloads, arena⟩
      · exact .inl run
      · obtain ⟨kept', same⟩ := kept.of_arena region inv' arena
        exact .inr ⟨heap', ptr, blocks, pages', free', run, nonzero, kept', payloads, same⟩
  | none =>
      rcases kept.malloc_block page region safe (Nat.pos_of_ne_zero isZero) route (served route) with
        run | ⟨memory', ptr, blocks', run, rest⟩
      · exact .inl run
      · exact .inr ⟨_, ptr, blocks', pages, free, run, rest⟩

/-- `heap_free` of a held pointer. -/
theorem release (kept : RegionInv low high state blocks pages free) (region : InArena low high)
    (isLive : allocation ∈ state.live tier) (safe : FreeSafe state.heap.memory tier allocation.ptr) :
    ∃ heap' blocks' free', heapFree state.heap allocation.ptr = some heap' ∧
      RegionInv low high ⟨heap', drop state.live tier allocation⟩ blocks' pages free' ∧
      PayloadsSame heap'.memory state.heap.memory (drop state.live tier allocation) ∧
      SameOn heap'.memory state.heap.memory low high := by
  cases tier with
  | slab =>
      obtain ⟨heap', free', run, inv', payloads, arena⟩ := kept.inv.free_slab isLive
      obtain ⟨kept', same⟩ := kept.of_arena region inv' arena
      exact ⟨heap', blocks, free', run, kept', payloads, same⟩
  | block =>
      obtain ⟨heap', blocks', run, inv', payloads, freed⟩ := kept.inv.free_block isLive (safe rfl)
      obtain ⟨same, clear⟩ := kept.inv.block.free_clear isLive kept.clear region.lower region.upper freed
      exact ⟨heap', blocks', free, run, ⟨inv', clear blocks' inv'.block.tiles⟩, payloads, same⟩

/-- A client writes into a payload it holds. -/
theorem write (kept : RegionInv low high state blocks pages free) (region : InArena low high)
    (isLive : allocation ∈ state.live tier)
    (same : SameOutside memory' state.heap.memory allocation.ptr
      (allocation.ptr + capacity state.heap.memory tier allocation.ptr)) :
    RegionInv low high ⟨⟨memory', state.heap.slabCache⟩, state.live⟩ blocks pages free ∧
      SameOn memory' state.heap.memory low high :=
  ⟨⟨kept.inv.write isLive same, kept.clear⟩, same.sameOn (kept.payload_apart region isLive).symm⟩

/-- Somebody writes outside the arena and the slab pages. -/
theorem elsewhere (kept : RegionInv low high state blocks pages free) (region : InArena low high)
    (arena : SameOn memory' state.heap.memory heapBase heapLimit)
    (slabs : ∀ c < slabNumClasses, ∀ p ∈ pages c, SameOn memory' state.heap.memory p (p + pageSize)) :
    RegionInv low high ⟨⟨memory', state.heap.slabCache⟩, state.live⟩ blocks pages free ∧
      SameOn memory' state.heap.memory low high :=
  kept.of_arena region (kept.inv.write_elsewhere arena slabs) arena

/-- The region and the block list of a memory are as `RegionInv` wants them. -/
theorem of_clear {heap' : KernelHeap} {live' : Tier → List Allocation} {blocks' : List Block}
    {pages' free' : Nat → List Nat} (inv' : HeapInv ⟨heap', live'⟩ blocks' pages' free')
    (clear : ∀ blocks, Tiles heap'.memory heapLimit heapBase blocks → Clear blockHdr heapBase low high blocks) :
    RegionInv low high ⟨heap', live'⟩ blocks' pages' free' := ⟨inv', clear blocks' inv'.block.tiles⟩

theorem clear_unique (kept : RegionInv low high state blocks pages free) {blocks' : List Block}
    (tiles : Tiles state.heap.memory heapLimit heapBase blocks') : Clear blockHdr heapBase low high blocks' := by
  rw [tiles.unique kept.inv.block.tiles]
  exact kept.clear

theorem realloc_clear {heap' : KernelHeap} {ptr : Nat} (kept : RegionInv low high state blocks pages free)
    (region : InArena low high) (isLive : allocation ∈ state.live tier) (supply : Supply state.heap page)
    (safe : ReallocSafe state.heap page tier allocation.ptr n)
    (served : oldSize state.heap.memory allocation.ptr < n → sizeClass n = none →
      ServedBefore state.heap.memory (roundUp16 n) low high)
    (run : heapRealloc state.heap page allocation.ptr n = some (heap', ptr)) :
    SameOn heap'.memory state.heap.memory low high ∧
      ∀ blocks', Tiles heap'.memory heapLimit heapBase blocks' → Clear blockHdr heapBase low high blocks' := by
  have size := kept.inv.oldSize_eq isLive safe.1
  rw [heapRealloc, if_neg (kept.inv.ptr_ne_zero isLive)] at run
  by_cases isZero : n = 0
  · obtain ⟨heap₁, blocks₁, free₁, freed, kept₁, -, same⟩ := kept.release region isLive safe.1
    rw [if_pos isZero, freed] at run
    cases run
    exact ⟨same, fun _ => kept₁.clear_unique⟩
  rw [if_neg isZero] at run
  dsimp only at run
  by_cases fits : n ≤ oldSize state.heap.memory allocation.ptr
  · rw [if_pos fits] at run
    cases run
    exact ⟨.refl _ _ _, fun _ => kept.clear_unique⟩
  rw [if_neg fits] at run
  obtain ⟨mallocSafe, freeSafe⟩ := safe.2 (Nat.lt_of_not_le fits)
  rcases kept.malloc region supply mallocSafe (served (Nat.lt_of_not_le fits)) with
    none | ⟨heap₁, new, blocks₁, pages₁, free₁, some, nonzero, kept₁, payloads, same₁⟩
  · rw [none] at run
    cases run
    exact ⟨.refl _ _ _, fun _ => kept.clear_unique⟩
  · rw [some] at run
    dsimp only at run
    rw [if_neg nonzero] at run
    have isNew : (⟨new, n⟩ : Allocation) ∈ hold state.live (tierFor n) ⟨new, n⟩ (tierFor n) := mem_hold_self _ _ _
    have newFits : n ≤ capacity heap₁.memory (tierFor n) new := kept₁.inv.wanted_le isNew
    have copied := copy_sameOutside heap₁.memory new allocation.ptr (oldSize state.heap.memory allocation.ptr)
    obtain ⟨kept₂, same₂⟩ := kept₁.write region isNew (copied.mono (Nat.le_refl _) (by dsimp only; omega))
    obtain ⟨heap₃, blocks₃, free₃, freed, kept₃, -, same₃⟩ :=
      kept₂.release region (mem_hold_of_mem isLive) (freeSafe heap₁ new some nonzero)
    rw [freed] at run
    cases run
    exact ⟨(same₃.trans same₂).trans same₁, fun _ => kept₃.clear_unique⟩

/-- `heap_realloc` of a held pointer. -/
theorem realloc (kept : RegionInv low high state blocks pages free) (region : InArena low high)
    (isLive : allocation ∈ state.live tier) (supply : Supply state.heap page)
    (safe : ReallocSafe state.heap page tier allocation.ptr n)
    (served : oldSize state.heap.memory allocation.ptr < n → sizeClass n = none →
      ServedBefore state.heap.memory (roundUp16 n) low high) :
    ∃ heap' ptr blocks' pages' free', heapRealloc state.heap page allocation.ptr n = some (heap', ptr) ∧
      RegionInv low high ⟨heap', reallocLive state.live tier allocation n ptr⟩ blocks' pages' free' ∧
      SameOn heap'.memory state.heap.memory low high := by
  obtain ⟨heap', ptr, blocks', pages', free', run, inv', -⟩ := kept.inv.realloc isLive supply safe
  obtain ⟨same, clear⟩ := kept.realloc_clear region isLive supply safe served run
  exact ⟨heap', ptr, blocks', pages', free', run, of_clear inv' clear, same⟩

end RegionInv

/-! ## The owner of the region -/

/-- The pages of the slab tier. -/
def SlabMember (heap : KernelHeap) (p : Nat) : Prop :=
  ∃ c < slabNumClasses, ∃ members, Chain (nextSlab heap.memory) 0 (heap.slabCache c) members ∧ p ∈ members

theorem RegionInv.slabMember_iff {low high p : Nat} {state : KernelState} {blocks : List Block}
    {pages free : Nat → List Nat} (kept : RegionInv low high state blocks pages free) :
    SlabMember state.heap p ↔ ∃ c < slabNumClasses, p ∈ pages c := by
  constructor
  · rintro ⟨c, isClass, members, chain, member⟩
    rw [chain.unique (kept.inv.slab.chains c isClass)] at member
    exact ⟨c, isClass, member⟩
  · rintro ⟨c, isClass, member⟩
    exact ⟨c, isClass, _, kept.inv.slab.chains c isClass, member⟩

/-- The headers, the held payloads and the slab pages did not change. -/
structure HeapDataSame (memory' : Memory) (state : KernelState) : Prop where
  headers : ∀ blocks, Tiles state.heap.memory heapLimit heapBase blocks → Tiles memory' heapLimit heapBase blocks
  payloads : PayloadsSame memory' state.heap.memory state.live
  slabs : ∀ p, SlabMember state.heap p → SameOn memory' state.heap.memory p (p + pageSize)

/-- Whoever owns the region writes into it. -/
theorem RegionInv.write_region {low high : Nat} {state : KernelState} {blocks : List Block}
    {pages free : Nat → List Nat} {memory' : Memory} (kept : RegionInv low high state blocks pages free)
    (region : InArena low high) (same : SameOutside memory' state.heap.memory low high) :
    RegionInv low high ⟨⟨memory', state.heap.slabCache⟩, state.live⟩ blocks pages free ∧
      HeapDataSame memory' state := by
  have tiles : Tiles memory' heapLimit heapBase blocks :=
    kept.inv.block.tiles.congr fun start block placed => same.sameOn (kept.header_apart placed)
  have inArena := same.mono region.lower region.upper
  have slab := kept.inv.slab.write_arena inArena
  have block : BlockInv memory' (state.live .block) blocks := { kept.inv.block with tiles := tiles }
  refine ⟨⟨{ kept.inv with block := block, slab := slab }, kept.clear⟩, ?_, ?_, ?_⟩
  · intro blocks' tiles'
    rwa [tiles'.unique kept.inv.block.tiles]
  · intro tier allocation isLive
    refine ⟨same.sameOn (kept.payload_apart region isLive), ?_⟩
    cases tier with
    | slab =>
        obtain ⟨c, p, j, used, ptrEq, -⟩ := kept.inv.held allocation isLive
        rw [capacity_slab, capacity_slab, ptrEq, slab.slot_size used, kept.inv.slab.slot_size used]
    | block =>
        obtain ⟨start, held, holds⟩ := kept.inv.block.held allocation isLive
        rw [capacity_block, capacity_block, kept.inv.block.payloadSize_eq holds, block.payloadSize_eq holds]
  · intro p isMember
    obtain ⟨c, isClass, member⟩ := kept.slabMember_iff.mp isMember
    exact inArena.sameOn (.inr (kept.inv.slab.physical c isClass p member).above_arena)

end Systrix.Heap
