import Systrix.Heap.Api

/-!
# Runs of the kernel heap

A run interleaves calls of the public interface with clients writing into their
payloads and the rest of the kernel writing elsewhere.  Runs whose calls are all
safe keep every promise of the interface; one forged page start is enough to
break the promise of `heap_free`.
-/

namespace Systrix.Heap

open ByteMemory Machine ImplicitList LinkedList

/-- What memory itself says is handed out: block payloads whose header is not
free, and slots of chained slab pages that are on no free list. -/
def Allocated (heap : KernelHeap) : Tier → (ptr : Nat) → Prop
  | .slab, ptr => ∃ c p j, c < slabNumClasses ∧
      (∃ members, Chain (nextSlab heap.memory) 0 (heap.slabCache c) members ∧ p ∈ members) ∧
      j < slotCount (slabSize c) ∧
      (∃ freeSlots, Chain (slotNext heap.memory p (slabSize c)) slabNil
        (freeHead heap.memory p) freeSlots ∧ j ∉ freeSlots) ∧
      ptr = slotPtr p (slabSize c) j
  | .block, ptr => ∃ blocks start block, Tiles heap.memory heapLimit heapBase blocks ∧
      At blockHdr heapBase blocks start block ∧ block.free = false ∧ ptr = start + blockHdr

/-- Memory determines the block list. -/
theorem Tiles.unique {memory : Memory} {limit start : Nat} {left right : List Block}
    (leftTiles : Tiles memory limit start left) (rightTiles : Tiles memory limit start right) :
    left = right := by
  have positive : 0 < blockHdr := by decide
  induction left generalizing start right with
  | nil =>
      cases right with
      | nil => rfl
      | cons block right =>
          have total := rightTiles.limit_eq
          have done : start = limit := leftTiles
          simp only [extent_cons] at total
          omega
  | cons block left ih =>
      cases right with
      | nil =>
          have total := leftTiles.limit_eq
          have done : start = limit := rightTiles
          simp only [extent_cons] at total
          omega
      | cons other right =>
          obtain ⟨size, flags, tail⟩ := leftTiles
          obtain ⟨size', flags', tail'⟩ := rightTiles
          have sameSize : block.size = other.size := by rw [← size, size']
          have sameFlags := flags.symm.trans flags'
          have sameBlock : block = other := by
            cases block with
            | mk size free =>
              cases other with
              | mk size' free' =>
                simp only at sameSize sameFlags
                cases free <;> cases free' <;> simp_all
          subst sameBlock
          rw [ih tail tail']

theorem HeapInv.allocated_iff {state : KernelState} {blocks : List Block}
    {pages free : Nat → List Nat} (inv : HeapInv state blocks pages free) (tier : Tier)
    (ptr : Nat) :
    Allocated state.heap tier ptr ↔ ptr ∈ (state.live tier).map Allocation.ptr := by
  cases tier with
  | slab =>
      constructor
      · rintro ⟨c, p, j, isClass, ⟨members, chain, member⟩, inside, ⟨freeSlots, list, notFree⟩,
          rfl⟩
        have samePages := chain.unique (inv.slab.chains c isClass)
        subst samePages
        have sameSlots := list.unique (inv.slab.page c isClass p member).chain
        subst sameSlots
        exact inv.complete ⟨isClass, member, inside, notFree⟩
      · intro member
        obtain ⟨allocation, isLive, rfl⟩ := List.mem_map.mp member
        obtain ⟨c, p, j, used, ptrEq, -⟩ := inv.held allocation isLive
        exact ⟨c, p, j, used.1, ⟨_, inv.slab.chains c used.1, used.2.1⟩, used.2.2.1,
          ⟨_, (inv.slab.page c used.1 p used.2.1).chain, used.2.2.2⟩, ptrEq⟩
  | block =>
      constructor
      · rintro ⟨blocks', start, block, tiles, placed, used, rfl⟩
        have sameBlocks := tiles.unique inv.block.tiles
        subst sameBlocks
        exact inv.block.complete start block placed used
      · intro member
        obtain ⟨allocation, isLive, rfl⟩ := List.mem_map.mp member
        obtain ⟨start, block, holds⟩ := inv.block.held allocation isLive
        exact ⟨blocks, start, block, inv.block.tiles, holds.2.1, holds.2.2.1, holds.1⟩

/-! ## Calls -/

/-- A call of the interface, or a write by a client or by the rest of the kernel.
`page` is what `pmm_alloc` answers if the call asks it. -/
inductive Call where
  | malloc (page n : Nat)
  | free (tier : Tier) (allocation : Allocation)
  | realloc (page : Nat) (tier : Tier) (allocation : Allocation) (n : Nat)
  | write (tier : Tier) (allocation : Allocation) (memory : Memory)
  | elsewhere (memory : Memory)

/-- Clients use only what they hold; others stay out of the heap. -/
def Call.Permitted (state : KernelState) : Call → Prop
  | .malloc page n => n < 2 ^ 64 ∧ Supply state.heap page
  | .free tier allocation => allocation ∈ state.live tier
  | .realloc page tier allocation n =>
      n < 2 ^ 64 ∧ Supply state.heap page ∧ allocation ∈ state.live tier
  | .write tier allocation memory => allocation ∈ state.live tier ∧
      SameOutside memory state.heap.memory allocation.ptr
        (allocation.ptr + capacity state.heap.memory tier allocation.ptr)
  | .elsewhere memory => SameOn memory state.heap.memory heapBase heapLimit ∧
      ∀ c < slabNumClasses, ∀ members,
        Chain (nextSlab state.heap.memory) 0 (state.heap.slabCache c) members →
        ∀ p ∈ members, SameOn memory state.heap.memory p (p + pageSize)

/-- The conditions under which a call keeps its promises. -/
def Call.Safe (heap : KernelHeap) : Call → Prop
  | .malloc _ n => MallocSafe heap n
  | .free tier allocation => FreeSafe heap.memory tier allocation.ptr
  | .realloc page tier allocation n => ReallocSafe heap page tier allocation.ptr n
  | .write _ _ _ => True
  | .elsewhere _ => True

/-- Effect of a call, with the pointer it returns. -/
inductive HeapStep (state : KernelState) : Call → (result : Nat) → KernelState → Prop
  | malloc {page n ptr : Nat} {heap : KernelHeap}
      (run : heapMalloc state.heap page n = some (heap, ptr)) :
      HeapStep state (.malloc page n) ptr
        ⟨heap, if ptr = 0 then state.live else hold state.live (tierFor n) ⟨ptr, n⟩⟩
  | free {tier : Tier} {allocation : Allocation} {heap : KernelHeap}
      (run : heapFree state.heap allocation.ptr = some heap) :
      HeapStep state (.free tier allocation) 0 ⟨heap, drop state.live tier allocation⟩
  | realloc {page n ptr : Nat} {tier : Tier} {allocation : Allocation} {heap : KernelHeap}
      (run : heapRealloc state.heap page allocation.ptr n = some (heap, ptr)) :
      HeapStep state (.realloc page tier allocation n) ptr
        ⟨heap, reallocLive state.live tier allocation n ptr⟩
  | write {tier : Tier} {allocation : Allocation} {memory : Memory} :
      HeapStep state (.write tier allocation memory) 0
        ⟨⟨memory, state.heap.slabCache⟩, state.live⟩
  | elsewhere {memory : Memory} :
      HeapStep state (.elsewhere memory) 0 ⟨⟨memory, state.heap.slabCache⟩, state.live⟩

/-- States reached from `heap_init` by permitted calls that meet `condition`. -/
inductive HeapRun (condition : KernelHeap → Call → Prop) : KernelState → Prop
  | start (memory : Memory) :
      HeapRun condition ⟨⟨heapInit memory, fun _ => 0⟩, fun _ => []⟩
  | step {state state' : KernelState} {call : Call} {result : Nat}
      (run : HeapRun condition state) (permitted : call.Permitted state)
      (met : condition state.heap call) (next : HeapStep state call result state') :
      HeapRun condition state'

/-- Held payloads are large enough and disjoint, and what is held is exactly what
memory says is handed out. -/
structure StateSafe (state : KernelState) : Prop where
  large : ∀ tier, ∀ allocation ∈ state.live tier,
    allocation.wanted ≤ capacity state.heap.memory tier allocation.ptr
  apart : ∀ tier tier', ∀ left ∈ state.live tier, ∀ right ∈ state.live tier',
    tier ≠ tier' ∨ left.ptr ≠ right.ptr →
    Apart left.ptr (left.ptr + capacity state.heap.memory tier left.ptr)
      right.ptr (right.ptr + capacity state.heap.memory tier' right.ptr)
  distinct : ∀ tier, ((state.live tier).map Allocation.ptr).Nodup
  allocated : ∀ tier ptr,
    Allocated state.heap tier ptr ↔ ptr ∈ (state.live tier).map Allocation.ptr

/-- What a call promises: `heap_free` releases exactly the allocation it is given,
`heap_realloc` returns a payload that starts with the old bytes. -/
def Call.Kept (state : KernelState) (result : Nat) (state' : KernelState) : Call → Prop
  | .malloc _ n => result ≠ 0 → n ≤ capacity state'.heap.memory (tierFor n) result
  | .free tier allocation => ∀ tier' ptr, Allocated state'.heap tier' ptr ↔
      Allocated state.heap tier' ptr ∧ ¬(tier' = tier ∧ ptr = allocation.ptr)
  | .realloc _ tier allocation n => n ≠ 0 → result ≠ 0 →
      n ≤ capacity state'.heap.memory (reallocTier tier allocation n result) result ∧
      ∀ i < min (capacity state.heap.memory tier allocation.ptr) n,
        state'.heap.memory (result + i) = state.heap.memory (allocation.ptr + i)
  | .write _ _ _ => True
  | .elsewhere _ => True

/-! ## Safety of runs -/

theorem HeapInv.stateSafe {state : KernelState} {blocks : List Block}
    {pages free : Nat → List Nat} (inv : HeapInv state blocks pages free) : StateSafe state where
  large _ _ isLive := inv.wanted_le isLive
  apart _ _ _ isLive _ isLive' different := inv.payloads_apart isLive isLive' different
  distinct tier := by
    cases tier with
    | slab => exact inv.distinct
    | block => exact inv.block.distinct
  allocated := inv.allocated_iff

/-- Dropping an allocation removes exactly its pointer. -/
theorem mem_map_drop {live : Tier → List Allocation} {tier : Tier} {allocation : Allocation}
    (isLive : allocation ∈ live tier)
    (distinct : ∀ tier, ((live tier).map Allocation.ptr).Nodup) (tier' : Tier) (ptr : Nat) :
    ptr ∈ (drop live tier allocation tier').map Allocation.ptr ↔
      ptr ∈ (live tier').map Allocation.ptr ∧ ¬(tier' = tier ∧ ptr = allocation.ptr) := by
  constructor
  · intro member
    obtain ⟨other, isOther, rfl⟩ := List.mem_map.mp member
    refine ⟨List.mem_map.mpr ⟨other, mem_drop isOther, rfl⟩, ?_⟩
    rintro ⟨rfl, samePtr⟩
    have sameAllocation : other = allocation :=
      List.inj_on_of_nodup_map (distinct tier') (mem_drop isOther) isLive samePtr
    subst sameAllocation
    simp only [drop, Function.update_self] at isOther
    exact List.Nodup.not_mem_erase ((distinct tier').of_map _) isOther
  · rintro ⟨member, different⟩
    obtain ⟨other, isOther, rfl⟩ := List.mem_map.mp member
    refine List.mem_map.mpr ⟨other, ?_, rfl⟩
    by_cases sameTier : tier' = tier
    · subst sameTier
      refine mem_drop_of_ne ?_ isOther
      rintro rfl
      exact different ⟨rfl, rfl⟩
    · simpa [drop, Function.update_of_ne sameTier] using isOther

/-- A permitted safe call finishes, keeps the invariant and its promise. -/
theorem HeapInv.step {state : KernelState} {blocks : List Block} {pages free : Nat → List Nat}
    {call : Call} (inv : HeapInv state blocks pages free) (permitted : call.Permitted state)
    (safe : call.Safe state.heap) :
    (∃ result state', HeapStep state call result state') ∧
      ∀ result state', HeapStep state call result state' →
        (∃ blocks' pages' free', HeapInv state' blocks' pages' free') ∧
          call.Kept state result state' := by
  cases call with
  | malloc page n =>
      rcases inv.malloc permitted.2 safe with
        run | ⟨heap', ptr, blocks', pages', free', run, nonzero, inv', -⟩
      · refine ⟨⟨_, _, .malloc run⟩, ?_⟩
        rintro result state' ⟨run'⟩
        rw [run] at run'
        cases run'
        exact ⟨⟨blocks, pages, free, inv⟩, fun isNull => absurd rfl isNull⟩
      · refine ⟨⟨_, _, .malloc run⟩, ?_⟩
        rintro result state' ⟨run'⟩
        rw [run] at run'
        cases run'
        rw [if_neg nonzero]
        exact ⟨⟨blocks', pages', free', inv'⟩, fun _ => inv'.wanted_le (mem_hold_self _ _ _)⟩
  | free tier allocation =>
      obtain ⟨heap', blocks', free', run, inv', -⟩ := inv.free permitted safe
      refine ⟨⟨_, _, .free run⟩, ?_⟩
      intro result state' next
      cases next with
      | free run' =>
          rw [run] at run'
          cases run'
          refine ⟨⟨blocks', pages, free', inv'⟩, fun tier' ptr => ?_⟩
          rw [inv'.allocated_iff, inv.allocated_iff]
          exact mem_map_drop permitted inv.stateSafe.distinct tier' ptr
  | realloc page tier allocation n =>
      obtain ⟨heap', ptr, blocks', pages', free', run, inv', kept⟩ :=
        inv.realloc permitted.2.2 permitted.2.1 safe
      refine ⟨⟨_, _, .realloc run⟩, ?_⟩
      intro result state' next
      cases next with
      | realloc run' =>
          rw [run] at run'
          cases run'
          exact ⟨⟨blocks', pages', free', inv'⟩, kept⟩
  | write tier allocation memory =>
      refine ⟨⟨_, _, .write⟩, ?_⟩
      rintro result state' ⟨⟩
      exact ⟨⟨blocks, pages, free, inv.write permitted.1 permitted.2⟩, trivial⟩
  | elsewhere memory =>
      refine ⟨⟨_, _, .elsewhere⟩, ?_⟩
      rintro result state' ⟨⟩
      refine ⟨⟨blocks, pages, free, inv.write_elsewhere permitted.1 fun c isClass p member => ?_⟩,
        trivial⟩
      exact permitted.2 c isClass _ (inv.slab.chains c isClass) p member

theorem HeapRun.inv {state : KernelState} (run : HeapRun Call.Safe state) :
    ∃ blocks pages free, HeapInv state blocks pages free := by
  induction run with
  | start memory => exact ⟨_, _, _, HeapInv.fresh memory⟩
  | step run permitted met next ih =>
      obtain ⟨blocks, pages, free, inv⟩ := ih
      exact ((inv.step permitted met).2 _ _ next).1

/-- Every state of a run of safe calls is safe, and every further safe call
finishes and keeps its promise. -/
theorem heapApi_safe {state : KernelState} (run : HeapRun Call.Safe state) :
    StateSafe state ∧ ∀ call : Call, call.Permitted state → call.Safe state.heap →
      (∃ result state', HeapStep state call result state') ∧
        ∀ result state', HeapStep state call result state' →
          StateSafe state' ∧ call.Kept state result state' := by
  obtain ⟨blocks, pages, free, inv⟩ := run.inv
  refine ⟨inv.stateSafe, fun call permitted safe => ?_⟩
  obtain ⟨finishes, keeps⟩ := inv.step permitted safe
  refine ⟨finishes, fun result state' next => ?_⟩
  obtain ⟨⟨blocks', pages', free', inv'⟩, kept⟩ := keeps result state' next
  exact ⟨inv'.stateSafe, kept⟩

/-! ## A run of safe calls -/

/-- The heap `heap_init` leaves in zeroed memory. -/
def emptyHeap : KernelHeap := ⟨heapInit fun _ => 0, fun _ => 0⟩

theorem heapApi_safe_malloc :
    ∃ result state', HeapStep ⟨emptyHeap, fun _ => []⟩ (.malloc 0 5000) result state' ∧
      StateSafe state' ∧ (Call.malloc 0 5000).Kept ⟨emptyHeap, fun _ => []⟩ result state' := by
  obtain ⟨-, further⟩ := heapApi_safe (HeapRun.start fun _ => 0)
  obtain ⟨⟨result, state', next⟩, keeps⟩ := further (.malloc 0 5000)
    ⟨by decide, fun nonzero => absurd rfl nonzero⟩ ⟨by decide, by decide⟩
  exact ⟨result, state', next, keeps result state' next⟩

/-! ## A forged slab header -/

/-- Two block payloads; the page of the second starts inside the first. -/
def twoBlocks : KernelState :=
  ⟨⟨takeBlock (takeBlock emptyHeap.memory 8208 0x200000) 2064 0x202020, fun _ => 0⟩,
    hold (hold (fun _ => []) .block ⟨0x200010, 8208⟩) .block ⟨0x202030, 2064⟩⟩

/-- The owner of the first payload writes a 16 where `SlabHdr` keeps `obj_size`. -/
def forged : KernelState :=
  ⟨⟨store twoBlocks.heap.memory 0x20200C 4 16, fun _ => 0⟩, twoBlocks.live⟩

/-- A successful `heap_malloc` that needs no new page extends a run. -/
theorem HeapRun.malloc {condition : KernelHeap → Call → Prop} {state : KernelState} {n ptr : Nat}
    {heap : KernelHeap} (run : HeapRun condition state) (bound : n < 2 ^ 64)
    (met : condition state.heap (.malloc 0 n))
    (found : heapMalloc state.heap 0 n = some (heap, ptr)) (nonzero : ptr ≠ 0) :
    HeapRun condition ⟨heap, hold state.live (tierFor n) ⟨ptr, n⟩⟩ := by
  have next := HeapStep.malloc found
  rw [if_neg nonzero] at next
  have permitted : (Call.malloc 0 n).Permitted state :=
    ⟨bound, fun isPage => absurd rfl isPage⟩
  exact run.step permitted met next

theorem twoBlocks_run : HeapRun (fun _ _ => True) twoBlocks := by
  have start : HeapRun (fun _ _ => True) ⟨emptyHeap, fun _ => []⟩ := .start fun _ => 0
  have first := start.malloc (n := 8208) (by decide) trivial rfl (by decide)
  exact first.malloc (n := 2064) (by decide) trivial rfl (by decide)

theorem forged_run : HeapRun (fun _ _ => True) forged := by
  have permitted : (Call.write .block ⟨0x200010, 8208⟩ forged.heap.memory).Permitted twoBlocks :=
    ⟨.tail _ (.head _), (store_sameOutside _ _ _ _).mono (by decide) (by decide)⟩
  exact twoBlocks_run.step permitted trivial .write

/-- `heap_free` of the second payload threads it into the forged slab page and
leaves its block allocated. -/
theorem heapFree_misses_forged :
    HeapRun (fun _ _ => True) forged ∧
      (Call.free .block ⟨0x202030, 2064⟩).Permitted forged ∧
      ∀ result state', HeapStep forged (.free .block ⟨0x202030, 2064⟩) result state' →
        ¬(Call.free .block ⟨0x202030, 2064⟩).Kept forged result state' := by
  refine ⟨forged_run, .head _, ?_⟩
  intro result state' next kept
  cases next with
  | @free _ _ heap run =>
      have found : heapFree forged.heap 0x202030 =
        some ⟨slabFree forged.heap.memory 0x202030 0x202000, fun _ => 0⟩ := rfl
      have sameHeap := Option.some.inj (found.symm.trans run)
      subst sameHeap
      have still : Allocated ⟨slabFree forged.heap.memory 0x202030 0x202000, fun _ => 0⟩
          .block 0x202030 := by
        exact ⟨[⟨8208, false⟩, ⟨2064, false⟩, ⟨2086832, true⟩], 0x202020, ⟨2064, false⟩,
          ⟨rfl, rfl, rfl, rfl, rfl, rfl, rfl⟩, .inr (.inl ⟨rfl, rfl⟩), rfl, rfl⟩
      exact ((kept .block 0x202030).mp still).2 ⟨rfl, rfl⟩

end Systrix.Heap
