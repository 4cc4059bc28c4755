import Systrix.Heap.ApiRun

/-!
# The size of an allocation

What `heap_malloc` returns is large enough for the request, unless rounding the request up wraps around: then the first
free block is taken, whatever its size.
-/

namespace Systrix.Heap

open ByteMemory Machine ImplicitList LinkedList

/-- What a call that returned `ptr` has to leave: the allocation is large enough, it is apart from the other allocations
and from the headers of the other blocks, and these headers and those of the other slab pages are as they were. -/
structure Serves (state : KernelState) (blocks : List Block) (pages : Nat → List Nat) (heap : KernelHeap)
    (n ptr : Nat) : Prop where
  enough : n ≤ capacity heap.memory (tierFor n) ptr
  alone : ∀ tier, ∀ other ∈ state.live tier, Apart ptr (ptr + capacity heap.memory (tierFor n) ptr)
    other.ptr (other.ptr + capacity state.heap.memory tier other.ptr)
  outside : ∀ start block, At blockHdr heapBase blocks start block → start + blockHdr ≠ ptr →
    Apart ptr (ptr + capacity heap.memory (tierFor n) ptr) start (start + blockHdr)
  headers : ∀ start block, At blockHdr heapBase blocks start block → start + blockHdr ≠ ptr →
    SameOn heap.memory state.heap.memory start (start + blockHdr)
  slabHeaders : ∀ c < slabNumClasses, ∀ p ∈ pages c, p ≠ pageBase ptr →
    SameOn heap.memory state.heap.memory p (p + slabHdrSz)

/-! ## The block tier -/

/-- An allocation takes a free block, whose payload does not grow, and changes nothing outside. -/
theorem BlockInv.malloc_inside {memory memory' : Memory} {live : List Allocation} {blocks : List Block} {n ptr : Nat}
    (inv : BlockInv memory live blocks) (run : blockMalloc memory n = some (memory', ptr)) (nonzero : ptr ≠ 0) :
    ∃ start block, At blockHdr heapBase blocks start block ∧ block ∈ blocks ∧ block.free = true ∧
      ptr = start + blockHdr ∧ SameOutside memory' memory start (start + blockHdr + block.size) ∧ payloadSize memory' ptr ≤ block.size := by
  obtain ⟨result, found, outcome⟩ := blockMallocLoop_spec (n := roundUp16 n) inv.tiles inv.length_lt
  rw [blockMalloc, found, Option.some.injEq] at run
  subst run
  cases outcome with
  | found before after block shape first isFree fits =>
    subst shape
    obtain ⟨-, tailTiles⟩ := Tiles.append_iff.mp inv.tiles
    obtain ⟨takenTiles, same⟩ := takeBlock_tiles tailTiles (by decide) fits
    obtain ⟨size, rest, carved, -, shorter⟩ := carve_head blockHdr 16 fits
    rw [carved] at takenTiles
    have payload : payloadSize (takeBlock memory (roundUp16 n) (heapBase + extent blockHdr before))
        (heapBase + extent blockHdr before + blockHdr) = size := by
      unfold payloadSize
      rw [Nat.add_sub_cancel]
      exact takenTiles.1
    refine ⟨_, block, at_middle .., List.mem_append_right _ List.mem_cons_self, isFree, rfl, same, ?_⟩
    rw [payload]
    exact shorter
  | exhausted noFit => exact absurd rfl nonzero

/-- What follows for the headers of the other blocks. -/
theorem BlockInv.malloc_headers {memory memory' : Memory} {live : List Allocation} {blocks : List Block} {n ptr : Nat}
    (inv : BlockInv memory live blocks) (run : blockMalloc memory n = some (memory', ptr)) (nonzero : ptr ≠ 0)
    {start : Nat} {block : Block} (placed : At blockHdr heapBase blocks start block) (other : start + blockHdr ≠ ptr) :
    Apart ptr (ptr + payloadSize memory' ptr) start (start + blockHdr) ∧ SameOn memory' memory start (start + blockHdr) := by
  obtain ⟨taken, block', placed', -, -, ptrEq, same, shorter⟩ := inv.malloc_inside run nonzero
  have apart : taken + blockHdr + block'.size ≤ start ∨ start + blockHdr + block.size ≤ taken := by
    rcases placed'.eq_or_apart placed with ⟨equal, -⟩ | apart
    · exact absurd (equal ▸ ptrEq.symm) other
    · exact apart
  refine ⟨?_, same.sameOn ?_⟩
  · unfold Apart
    omega
  · omega

/-! ## The slab tier -/

/-- Taking the first free slot of a page. -/
theorem takeSlot_page {memory : Memory} {p c j : Nat} {rest : List Nat}
    (isPage : SlabPage memory p c (j :: rest)) :
    (takeSlot memory p (slabSize c)).2 = slotPtr p (slabSize c) j ∧
      SameOutside (takeSlot memory p (slabSize c)).1 memory p (p + pageSize) ∧
      objSize (takeSlot memory p (slabSize c)).1 p = slabSize c := by
  have sizes : pageSize = 4096 ∧ slabHdrSz = 32 := ⟨rfl, rfl⟩
  have bounds := slotPtr_bounds p (isPage.bounded j List.mem_cons_self)
  have headEq : freeHead memory p = j := isPage.chain.1
  have result : takeSlot memory p (slabSize c) =
      (fill (setFreeList memory p (slotNext memory p (slabSize c) j)
        (freeCount (setFreeHead memory p (slotNext memory p (slabSize c) j)) p - 1))
        (slotPtr p (slabSize c) j) (slabSize c) 0, slotPtr p (slabSize c) j) := by
    rw [takeSlot, headEq]
    rfl
  rw [result]
  generalize freeCount _ p - 1 = count
  have listSame := setFreeList_sameOutside memory p (slotNext memory p (slabSize c) j) count
  have cleared := fill_sameOutside (setFreeList memory p (slotNext memory p (slabSize c) j) count)
    (slotPtr p (slabSize c) j) (slabSize c) 0
  refine ⟨rfl, ?_, ?_⟩
  · exact (cleared.mono (by omega) (by omega)).trans (listSame.mono (Nat.le_refl _) (by omega))
  · have kept : objSize (fill (setFreeList memory p (slotNext memory p (slabSize c) j) count)
        (slotPtr p (slabSize c) j) (slabSize c) 0) p =
        objSize (setFreeList memory p (slotNext memory p (slabSize c) j) count) p :=
      load_congr (cleared.sameOn (by omega))
    rw [kept, ← isPage.objSize_eq]
    exact setFreeList_field (by decide)

/-- `slab_alloc` fails, or hands out a slot of its class that was not in use, and writes only to its page. -/
theorem slabAlloc_takes {heap : KernelHeap} {pages free : Nat → List Nat} {c page : Nat}
    (inv : SlabInv heap pages free) (isClass : c < slabNumClasses)
    (supply : page ≠ 0 → PhysicalPage page ∧ ∀ d < slabNumClasses, page ∉ pages d) :
    slabAlloc heap page c = some (heap, 0) ∨
      ∃ heap' p j, slabAlloc heap page c = some (heap', slotPtr p (slabSize c) j) ∧ PhysicalPage p ∧
        j < slotCount (slabSize c) ∧ SameOutside heap'.memory heap.memory p (p + pageSize) ∧
        objSize heap'.memory p = slabSize c ∧ ∀ d i, UsedSlot pages free d p i → d = c ∧ i ≠ j := by
  rcases findSlab_spec (inv.chains c isClass)
    (fun p member => (inv.page c isClass p member).freeCount_eq) (inv.length_lt isClass)
    with ⟨found, full⟩ | ⟨p, member, found, available⟩
  · by_cases noPage : page = 0
    · left
      simp [slabAlloc, found, noPage]
    · right
      obtain ⟨physical, fresh⟩ := supply noPage
      obtain ⟨rest, restEq⟩ : ∃ rest, List.range (slotCount (slabSize c)) = 0 :: rest := by
        obtain ⟨n, count⟩ : ∃ n, slotCount (slabSize c) = n + 1 :=
          ⟨slotCount (slabSize c) - 1, by have := (slotCount_bounds isClass).1; omega⟩
        rw [count, List.range_succ_eq_map]
        exact ⟨_, rfl⟩
      have isPage := freshSlab_page heap.memory page (u32 (heap.slabCache c)) isClass
      rw [restEq] at isPage
      obtain ⟨slot, same, size⟩ := takeSlot_page isPage
      refine ⟨⟨(takeSlot (freshSlab heap.memory page c (u32 (heap.slabCache c))) page (slabSize c)).1,
        Function.update heap.slabCache c page⟩, page, 0, ?_, physical, (slotCount_bounds isClass).1,
        same.trans (freshSlab_sameOutside _ _ _ isClass), size, ?_⟩
      · rw [← slot]
        simp only [slabAlloc, found, noPage, if_false]
        rfl
      · intro d i used
        exact absurd used.2.1 (fresh d used.1)
  · right
    obtain ⟨j, rest, shape⟩ := List.exists_cons_of_ne_nil available
    have isPage := inv.page c isClass p member
    rw [shape] at isPage
    have physical := inv.physical c isClass p member
    obtain ⟨slot, same, size⟩ := takeSlot_page isPage
    refine ⟨⟨(takeSlot heap.memory p (slabSize c)).1, heap.slabCache⟩, p, j, ?_, physical,
      isPage.bounded j List.mem_cons_self, same, size, ?_⟩
    · rw [← slot]
      simp only [slabAlloc, found]
      split
      next impossible => cases impossible
      next isZero => exact absurd (Option.some.inj isZero) physical.ne_zero
      next phys isSome =>
        cases isSome
        rfl
    · intro d i used
      refine ⟨inv.class_unique used.1 isClass used.2.1 member, fun equal => used.2.2.2 ?_⟩
      rw [equal, shape]
      exact List.mem_cons_self

/-! ## The public interface -/

section Serves

variable {state : KernelState} {blocks : List Block} {pages free : Nat → List Nat} {page n c : Nat}

/-- A call on the slab route serves its request. -/
theorem HeapInv.serves_slab (inv : HeapInv state blocks pages free) (supply : Supply state.heap page)
    (route : sizeClass n = some c) :
    slabAlloc state.heap page c = some (state.heap, 0) ∨
      ∃ heap' ptr, slabAlloc state.heap page c = some (heap', ptr) ∧ ptr ≠ 0 ∧ Serves state blocks pages heap' n ptr := by
  obtain ⟨isClass, fits⟩ := sizeClass_some route
  have tier : tierFor n = .slab := by rw [tierFor, route]; rfl
  have supply' : page ≠ 0 → PhysicalPage page ∧ ∀ d < slabNumClasses, page ∉ pages d :=
    fun nonzero => ⟨(supply nonzero).1,
      fun d isClass' => (supply nonzero).2 d isClass' _ (inv.slab.chains d isClass')⟩
  rcases slabAlloc_takes inv.slab isClass supply' with failed | ⟨heap', p, j, run, physical, inside, same, size, unused⟩
  · exact .inl failed
  · have bounds := slotPtr_bounds p inside
    have above := physical.above_arena
    have positive := (slabSize_bounds isClass).1
    have base : pageBase (slotPtr p (slabSize c) j) = p := pageBase_slotPtr physical.aligned inside (by omega)
    have large : capacity heap'.memory (tierFor n) (slotPtr p (slabSize c) j) = slabSize c := by
      rw [tier, capacity_slab, base, size]
    have hdr : slabHdrSz = 32 := rfl
    have arena : ∀ {start block}, At blockHdr heapBase blocks start block → start + blockHdr ≤ heapLimit := by
      intro start block placed
      have placed' := placed.bounds
      have limit := inv.block.tiles.limit_eq
      omega
    refine .inr ⟨heap', _, run, by omega, ⟨?_, ?_, ?_, ?_, ?_⟩⟩
    · rw [large]
      exact fits
    · intro tier' other isLive
      rw [large]
      unfold Apart
      cases tier' with
      | slab =>
        obtain ⟨d, q, i, used, ptrEq, -⟩ := inv.held other isLive
        rw [capacity_slab, ptrEq, inv.slab.slot_size used]
        by_cases here : q = p
        · subst here
          obtain ⟨rfl, different⟩ := unused d i used
          exact slotPtr_apart q (slabSize d) (Ne.symm different)
        · have far := (inv.slab.physical d used.1 q used.2.1).apart physical here
          have bounds' := slotPtr_bounds q used.2.2.1
          omega
      | block =>
        have payload := inv.block.payload_in_arena isLive
        rw [capacity_block]
        omega
    · intro start block placed _
      have below := arena placed
      unfold Apart
      omega
    · intro start block placed _
      have below := arena placed
      exact same.sameOn (by omega)
    · intro d isClass' q member other
      rw [base] at other
      have far := (inv.slab.physical d isClass' q member).apart physical other
      have pages : pageSize = 4096 := rfl
      exact same.sameOn (by omega)

/-- A call on the block route serves its request when rounding it does not wrap around. -/
theorem HeapInv.serves_block (inv : HeapInv state blocks pages free) (route : sizeClass n = none) (positive : 0 < n)
    (small : n + 15 < 2 ^ 64) :
    blockMalloc state.heap.memory n = some (state.heap.memory, 0) ∨
      ∃ memory' ptr, blockMalloc state.heap.memory n = some (memory', ptr) ∧ ptr ≠ 0 ∧
        Serves state blocks pages ⟨memory', state.heap.slabCache⟩ n ptr := by
  have tier : tierFor n = .block := by rw [tierFor, route]; rfl
  have safe : MallocSafe state.heap n := by
    refine ⟨small, fun c found => ?_⟩
    rw [route] at found
    cases found
  rcases inv.malloc_block safe positive with failed | ⟨memory', ptr, blocks', run, nonzero, inv', kept⟩
  · exact .inl failed
  · obtain ⟨state', after⟩ : ∃ state', state' =
        KernelState.mk ⟨memory', state.heap.slabCache⟩ (hold state.live .block ⟨ptr, n⟩) := ⟨_, rfl⟩
    rw [← after] at inv'
    have live : state'.live = hold state.live .block ⟨ptr, n⟩ := by rw [after]
    have memory : state'.heap.memory = memory' := by rw [after]
    have taken : (⟨ptr, n⟩ : Allocation) ∈ state'.live .block := by
      rw [live]
      exact mem_hold_self ..
    refine .inr ⟨memory', ptr, run, nonzero, ⟨?_, ?_, ?_, ?_, ?_⟩⟩
    · rw [tier]
      have wanted := inv'.wanted_le taken
      rwa [memory] at wanted
    · intro tier' other isLive
      have still : other ∈ state'.live tier' := by
        rw [live]
        exact mem_hold_of_mem isLive
      rw [tier, ← (kept tier' other isLive).2]
      dsimp only
      rw [← memory]
      refine inv'.payloads_apart taken still ?_
      cases tier' with
      | slab => exact .inl (by decide)
      | block =>
        refine .inr fun same => ?_
        have distinct := inv'.block.distinct
        rw [live, hold, Function.update_self, List.map_cons, List.nodup_cons] at distinct
        exact distinct.1 (List.mem_map.mpr ⟨other, isLive, same.symm⟩)
    · intro start block placed other
      rw [tier]
      exact (inv.block.malloc_headers run nonzero placed other).1
    · intro start block placed other
      exact (inv.block.malloc_headers run nonzero placed other).2
    · intro c isClass p member _
      obtain ⟨start, block, placed, -, -, -, same, -⟩ := inv.block.malloc_inside run nonzero
      have bounds := placed.bounds
      have limit := inv.block.tiles.limit_eq
      have above := (inv.slab.physical c isClass p member).above_arena
      exact same.sameOn (.inr (by omega))

end Serves

/-- In a consistent heap every call returns, and what it returns serves the request exactly when rounding the request up
does not wrap around or no block is free. -/
theorem heapMalloc_serves_iff {state : KernelState} {blocks : List Block} {pages free : Nat → List Nat} {page n : Nat}
    (inv : HeapInv state blocks pages free) (supply : Supply state.heap page) (word : n < 2 ^ 64) :
    ∃ heap' ptr, heapMalloc state.heap page n = some (heap', ptr) ∧
      ((ptr ≠ 0 → Serves state blocks pages heap' n ptr) ↔ (n + 15 < 2 ^ 64 ∨ ∀ block ∈ blocks, block.free = false)) := by
  unfold heapMalloc
  by_cases isZero : n = 0
  · rw [if_pos isZero]
    exact ⟨_, _, rfl, iff_of_true (fun some => absurd rfl some) (.inl (by omega))⟩
  · rw [if_neg isZero]
    cases route : sizeClass n with
    | some c =>
      have small : n + 15 < 2 ^ 64 := by
        obtain ⟨isClass, fits⟩ := sizeClass_some route
        have largest := (slabSize_bounds isClass).2
        omega
      rcases inv.serves_slab supply route with failed | ⟨heap', ptr, run, -, serves⟩
      · exact ⟨_, _, failed, iff_of_true (fun some => absurd rfl some) (.inl small)⟩
      · exact ⟨_, _, run, iff_of_true (fun _ => serves) (.inl small)⟩
    | none =>
      dsimp only
      by_cases small : n + 15 < 2 ^ 64
      · rcases inv.serves_block route (Nat.pos_of_ne_zero isZero) small with failed | ⟨memory', ptr, run, -, serves⟩
        · rw [failed]
          exact ⟨_, _, rfl, iff_of_true (fun some => absurd rfl some) (.inl small)⟩
        · rw [run]
          exact ⟨_, _, rfl, iff_of_true (fun _ => serves) (.inl small)⟩
      · have wrapped : roundUp16 n = 0 := by
          unfold roundUp16 alignDown u64
          omega
        rcases inv.block.malloc n with ⟨failed, noFit⟩ | ⟨memory', blocks', ptr, run, nonzero, inv', -⟩
        · rw [failed]
          refine ⟨_, _, rfl, iff_of_true (fun some => absurd rfl some) (.inr fun block member => ?_)⟩
          by_contra isFree
          have none := noFit block member (by simpa using isFree)
          rw [wrapped] at none
          exact absurd none (Nat.not_lt_zero _)
        · rw [run]
          refine ⟨_, _, rfl, iff_of_false (fun serves => ?_) ?_⟩
          · -- no block of the arena is as large as the request
            have enough := (serves nonzero).enough
            have inside := inv'.payload_in_arena List.mem_cons_self
            have limit : heapLimit = 0x400000 := rfl
            rw [tierFor, route] at enough
            change n ≤ payloadSize memory' ptr at enough
            dsimp only at inside
            omega
          · rintro (less | used)
            · exact small less
            · obtain ⟨start, block, -, member, isFree, -⟩ := inv.block.malloc_inside run nonzero
              rw [used block member] at isFree
              cases isFree

theorem heapMalloc_serves_iff_emptyHeap :
    ∃ heap' ptr, heapMalloc emptyHeap 0 5000 = some (heap', ptr) ∧
      ((ptr ≠ 0 → Serves ⟨emptyHeap, fun _ => []⟩ freshArena (fun _ => []) heap' 5000 ptr) ↔
        (5000 + 15 < 2 ^ 64 ∨ ∀ block ∈ freshArena, block.free = false)) :=
  heapMalloc_serves_iff (HeapInv.fresh fun _ => 0) (fun nonzero => absurd rfl nonzero) (by decide)

/-- A request for `2 ^ 64 - 1` bytes gets a block of no bytes. -/
theorem heapMalloc_serves_nothing :
    ∃ heap', heapMalloc emptyHeap 0 (2 ^ 64 - 1) = some (heap', 0x200010) ∧
      capacity heap'.memory (tierFor (2 ^ 64 - 1)) 0x200010 = 0 ∧
      ¬Serves ⟨emptyHeap, fun _ => []⟩ freshArena (fun _ => []) heap' (2 ^ 64 - 1) 0x200010 := by
  have size : capacity (takeBlock emptyHeap.memory 0 heapBase) (tierFor (2 ^ 64 - 1)) 0x200010 = 0 := by decide +kernel
  refine ⟨⟨takeBlock emptyHeap.memory 0 heapBase, fun _ => 0⟩, rfl, size, fun serves => ?_⟩
  have enough := serves.enough
  dsimp only at enough
  rw [size] at enough
  omega

end Systrix.Heap
