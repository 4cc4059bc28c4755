import Systrix.Heap.BlockInvariant
import Systrix.Heap.SlabAlloc

/-!
# Public interface of the kernel heap

`HeapInv` joins the invariants of the two tiers with the allocations clients
hold.  `ptr_in_slab` recognises a slab pointer by what it reads at the start of
the pointer's page; for a block pointer these bytes may belong to another
object, so what a call does depends on what clients wrote there.
-/

namespace Systrix.Heap

open ByteMemory Machine ImplicitList LinkedList

/-- The tier an allocation was taken from. -/
inductive Tier where
  | slab
  | block
  deriving DecidableEq, Repr

/-- State of a run: the heap and what clients hold in each tier. -/
structure KernelState where
  heap : KernelHeap
  live : Tier → List Allocation

/-- Bytes a client may use behind a pointer. -/
def capacity (memory : Memory) : Tier → (ptr : Nat) → Nat
  | .slab, ptr => objSize memory (pageBase ptr)
  | .block, ptr => payloadSize memory ptr

@[simp] theorem capacity_slab (memory : Memory) (ptr : Nat) :
    capacity memory .slab ptr = objSize memory (pageBase ptr) := rfl

@[simp] theorem capacity_block (memory : Memory) (ptr : Nat) :
    capacity memory .block ptr = payloadSize memory ptr := rfl

/-- The tier `heap_malloc` serves a request from. -/
def tierFor (n : Nat) : Tier := if (sizeClass n).isSome then .slab else .block

theorem sizeClass_some {n c : Nat} (found : sizeClass n = some c) :
    c < slabNumClasses ∧ n ≤ slabSize c := by
  unfold sizeClass at found
  refine ⟨?_, by simpa using List.find?_some found⟩
  exact List.mem_range.mp (List.mem_of_find?_eq_some found)

/-! ## The joint invariant -/

/-- Both tiers are well formed and clients hold exactly what is handed out. -/
structure HeapInv (state : KernelState) (blocks : List Block) (pages free : Nat → List Nat) :
    Prop where
  block : BlockInv state.heap.memory (state.live .block) blocks
  slab : SlabInv state.heap pages free
  held : ∀ allocation ∈ state.live .slab, ∃ c p j, UsedSlot pages free c p j ∧
    allocation.ptr = slotPtr p (slabSize c) j ∧ allocation.wanted ≤ slabSize c
  complete : ∀ {c p j}, UsedSlot pages free c p j →
    slotPtr p (slabSize c) j ∈ (state.live .slab).map Allocation.ptr
  distinct : ((state.live .slab).map Allocation.ptr).Nodup
  enough : ∀ allocation ∈ state.live .block,
    0 < allocation.wanted ∧ allocation.wanted ≤ roundUp16 allocation.wanted

/-- The bytes of the held payloads, and how many there are, did not change. -/
def PayloadsSame (memory' memory : Memory) (live : Tier → List Allocation) : Prop :=
  ∀ tier, ∀ allocation ∈ live tier,
    SameOn memory' memory allocation.ptr
      (allocation.ptr + capacity memory tier allocation.ptr) ∧
    capacity memory' tier allocation.ptr = capacity memory tier allocation.ptr

namespace HeapInv

variable {state : KernelState} {blocks : List Block} {pages free : Nat → List Nat}
  {allocation : Allocation}

/-- A held payload is large enough for what was asked. -/
theorem wanted_le (inv : HeapInv state blocks pages free) {tier : Tier}
    (isLive : allocation ∈ state.live tier) :
    allocation.wanted ≤ capacity state.heap.memory tier allocation.ptr := by
  cases tier with
  | slab =>
      obtain ⟨c, p, j, used, ptrEq, fits⟩ := inv.held allocation isLive
      rwa [capacity_slab, ptrEq, inv.slab.slot_size used]
  | block =>
      obtain ⟨start, block, holds⟩ := inv.block.held allocation isLive
      rw [capacity_block, inv.block.payloadSize_eq holds]
      exact Nat.le_trans (inv.enough allocation isLive).2 holds.2.2.2

/-- Held payloads do not meet, whatever their tiers. -/
theorem payloads_apart (inv : HeapInv state blocks pages free) {tier tier' : Tier}
    {other : Allocation} (isLive : allocation ∈ state.live tier)
    (isLive' : other ∈ state.live tier')
    (different : tier ≠ tier' ∨ allocation.ptr ≠ other.ptr) :
    Apart allocation.ptr (allocation.ptr + capacity state.heap.memory tier allocation.ptr)
      other.ptr (other.ptr + capacity state.heap.memory tier' other.ptr) := by
  unfold Apart
  cases tier with
  | slab =>
      obtain ⟨c, p, j, used, ptrEq, -⟩ := inv.held allocation isLive
      have above := inv.slab.slot_above used
      rw [capacity_slab, ptrEq, inv.slab.slot_size used]
      cases tier' with
      | slab =>
          obtain ⟨d, q, i, used', ptrEq', -⟩ := inv.held other isLive'
          rw [capacity_slab, ptrEq', inv.slab.slot_size used']
          refine inv.slab.slots_apart used used' ?_
          rw [← ptrEq, ← ptrEq']
          simpa using different
      | block =>
          have inside := inv.block.payload_in_arena isLive'
          rw [capacity_block]
          omega
  | block =>
      have inside := inv.block.payload_in_arena isLive
      rw [capacity_block]
      cases tier' with
      | slab =>
          obtain ⟨d, q, i, used', ptrEq', -⟩ := inv.held other isLive'
          have above := inv.slab.slot_above used'
          omega
      | block =>
          have apart := inv.block.apart isLive isLive' (by simpa using different)
          rw [capacity_block]
          omega

/-- The bytes of slots in use are the payloads clients hold there. -/
theorem slot_payload (inv : HeapInv state blocks pages free) {memory' : Memory}
    (kept : ∀ {c p j}, UsedSlot pages free c p j →
      SameOn memory' state.heap.memory (slotPtr p (slabSize c) j)
        (slotPtr p (slabSize c) j + slabSize c))
    (isLive : allocation ∈ state.live .slab) :
    SameOn memory' state.heap.memory allocation.ptr
      (allocation.ptr + capacity state.heap.memory .slab allocation.ptr) := by
  obtain ⟨c, p, j, used, ptrEq, -⟩ := inv.held allocation isLive
  rw [capacity_slab, ptrEq, inv.slab.slot_size used]
  exact kept used

/-- An unchanged arena keeps block payloads and their sizes. -/
theorem block_payload (inv : HeapInv state blocks pages free) {memory' : Memory}
    (kept : SameOn memory' state.heap.memory heapBase heapLimit)
    (isLive : allocation ∈ state.live .block) :
    SameOn memory' state.heap.memory allocation.ptr
        (allocation.ptr + capacity state.heap.memory .block allocation.ptr) ∧
      capacity memory' .block allocation.ptr =
        capacity state.heap.memory .block allocation.ptr := by
  have inside := inv.block.payload_in_arena isLive
  have header : blockHdr = 16 := rfl
  rw [capacity_block, capacity_block]
  refine ⟨fun address lower upper => kept address (by omega) (by omega), ?_⟩
  exact load_congr fun address lower upper => kept address (by omega) (by omega)

theorem fresh (memory : Memory) :
    HeapInv ⟨⟨heapInit memory, fun _ => 0⟩, fun _ => []⟩ freshArena (fun _ => []) fun _ => [] where
  block := BlockInv.fresh memory
  slab := ⟨fun _ _ => rfl, by simp, by simp, by simp⟩
  held := by simp
  complete used := absurd used.2.1 (by simp)
  distinct := List.nodup_nil
  enough := by simp

end HeapInv

/-! ## Allocation -/

/-- Hold one more allocation. -/
def hold (live : Tier → List Allocation) (tier : Tier) (allocation : Allocation) :
    Tier → List Allocation := Function.update live tier (allocation :: live tier)

/-- Give one allocation up. -/
def drop (live : Tier → List Allocation) (tier : Tier) (allocation : Allocation) :
    Tier → List Allocation := Function.update live tier ((live tier).erase allocation)

/-- What `pmm_alloc` may answer: nothing, or a physical page the heap does not
already own. -/
def Supply (heap : KernelHeap) (page : Nat) : Prop :=
  page ≠ 0 → PhysicalPage page ∧ ∀ c < slabNumClasses, ∀ members,
    Chain (nextSlab heap.memory) 0 (heap.slabCache c) members → page ∉ members

/-- The conditions under which `heap_malloc(n)` keeps its promises: rounding the
request does not overflow, and a page that gets a successor in its class chain
has an address that fits the 32-bit link. -/
def MallocSafe (heap : KernelHeap) (n : Nat) : Prop :=
  n + 15 < 2 ^ 64 ∧ ∀ c, sizeClass n = some c →
    findSlab heap.memory slabFuel (heap.slabCache c) = some 0 → heap.slabCache c < 2 ^ 32

/-- `heap_malloc` on the slab route. -/
theorem HeapInv.malloc_slab {state : KernelState} {blocks : List Block}
    {pages free : Nat → List Nat} {page n c : Nat} (inv : HeapInv state blocks pages free)
    (supply : Supply state.heap page) (safe : MallocSafe state.heap n)
    (route : sizeClass n = some c) :
    slabAlloc state.heap page c = some (state.heap, 0) ∨
      ∃ heap' ptr pages' free', slabAlloc state.heap page c = some (heap', ptr) ∧ ptr ≠ 0 ∧
        HeapInv ⟨heap', hold state.live .slab ⟨ptr, n⟩⟩ blocks pages' free' ∧
        PayloadsSame heap'.memory state.heap.memory state.live ∧
        SameOn heap'.memory state.heap.memory heapBase heapLimit := by
  obtain ⟨isClass, fits⟩ := sizeClass_some route
  have link : NeedsPage pages free c → state.heap.slabCache c < 2 ^ 32 := by
    intro full
    refine safe.2 c route ?_
    rcases findSlab_spec (inv.slab.chains c isClass)
      (fun p member => (inv.slab.page c isClass p member).freeCount_eq)
      (inv.slab.length_lt isClass) with ⟨found, -⟩ | ⟨p, member, -, available⟩
    · exact found
    · exact absurd (full p member) available
  have supply' : page ≠ 0 → PhysicalPage page ∧ ∀ d < slabNumClasses, page ∉ pages d :=
    fun nonzero => ⟨(supply nonzero).1,
      fun d isClass' => (supply nonzero).2 d isClass' _ (inv.slab.chains d isClass')⟩
  rcases slabAlloc_spec inv.slab isClass supply' link with
    run | ⟨heap', pages', free', slot, run, nonzero, taken⟩
  · exact .inl run
  · right
    obtain ⟨p, j, slotEq, used, unused, exactly⟩ := taken.taken
    have block := inv.block.arena taken.kept.arena
    refine ⟨heap', slot, pages', free', run, nonzero, ⟨?_, taken.inv, ?_, ?_, ?_, ?_⟩, ?_,
      taken.kept.arena⟩
    · simpa [hold] using block
    · intro allocation member
      simp only [hold, Function.update_self, List.mem_cons] at member
      rcases member with rfl | member
      · exact ⟨c, p, j, used, slotEq, fits⟩
      · obtain ⟨d, q, i, used', rest⟩ := inv.held allocation member
        exact ⟨d, q, i, (exactly d q i).mpr (.inl used'), rest⟩
    · intro d q i used'
      simp only [hold, Function.update_self, List.map_cons, List.mem_cons]
      rcases (exactly d q i).mp used' with old | ⟨rfl, rfl, rfl⟩
      · exact .inr (inv.complete old)
      · exact .inl slotEq.symm
    · simp only [hold, Function.update_self, List.map_cons]
      refine List.nodup_cons.mpr ⟨?_, inv.distinct⟩
      intro member
      obtain ⟨allocation, isLive, ptrEq⟩ := List.mem_map.mp member
      obtain ⟨d, q, i, used', ptrEq', -⟩ := inv.held allocation isLive
      have same := taken.inv.slot_unique ((exactly d q i).mpr (.inl used')) used
        (by rw [← ptrEq', ptrEq, slotEq])
      obtain ⟨rfl, rfl, rfl⟩ := same
      exact unused used'
    · simpa [hold] using inv.enough
    · intro tier allocation isLive
      cases tier with
      | slab =>
          refine ⟨inv.slot_payload (fun usedOld => taken.kept.slot usedOld) isLive, ?_⟩
          obtain ⟨d, q, i, used', ptrEq', -⟩ := inv.held allocation isLive
          rw [capacity_slab, capacity_slab, ptrEq', inv.slab.slot_size used',
            taken.inv.slot_size ((exactly d q i).mpr (.inl used'))]
      | block => exact inv.block_payload taken.kept.arena isLive

/-- `heap_malloc` on the block route. -/
theorem HeapInv.malloc_block {state : KernelState} {blocks : List Block}
    {pages free : Nat → List Nat} {n : Nat} (inv : HeapInv state blocks pages free)
    (safe : MallocSafe state.heap n) (positive : 0 < n) :
    blockMalloc state.heap.memory n = some (state.heap.memory, 0) ∨
      ∃ memory' ptr blocks', blockMalloc state.heap.memory n = some (memory', ptr) ∧ ptr ≠ 0 ∧
        HeapInv ⟨⟨memory', state.heap.slabCache⟩, hold state.live .block ⟨ptr, n⟩⟩
          blocks' pages free ∧
        PayloadsSame memory' state.heap.memory state.live := by
  rcases inv.block.malloc n with ⟨run, -⟩ | ⟨memory', blocks', ptr, run, nonzero, block, kept⟩
  · exact .inl run
  · right
    have slab := inv.slab.write_arena kept.outside
    have rounded : n ≤ roundUp16 n := by
      have small := safe.1
      unfold roundUp16 alignDown
      rw [u64_of_lt small]
      omega
    refine ⟨memory', ptr, blocks', run, nonzero, ⟨?_, slab, ?_, ?_, ?_, ?_⟩, ?_⟩
    · simpa [hold] using block
    · simpa [hold] using inv.held
    · exact fun used => by simpa [hold] using inv.complete used
    · simpa [hold] using inv.distinct
    · intro allocation member
      simp only [hold, Function.update_self, List.mem_cons] at member
      rcases member with rfl | member
      · exact ⟨positive, rounded⟩
      · exact inv.enough allocation member
    · intro tier allocation isLive
      cases tier with
      | slab =>
          obtain ⟨c, p, j, used, ptrEq, -⟩ := inv.held allocation isLive
          have above := inv.slab.slot_above used
          refine ⟨inv.slot_payload (fun used' => ?_) isLive, ?_⟩
          · have above' := inv.slab.slot_above used'
            exact kept.outside.sameOn (.inr above')
          · rw [capacity_slab, capacity_slab, ptrEq, inv.slab.slot_size used,
              slab.slot_size used]
      | block => exact ⟨kept.payload allocation isLive, kept.size allocation isLive⟩

/-- `heap_malloc` finishes; it fails without an effect or hands out a payload
large enough for the request. -/
theorem HeapInv.malloc {state : KernelState} {blocks : List Block} {pages free : Nat → List Nat}
    {page n : Nat} (inv : HeapInv state blocks pages free) (supply : Supply state.heap page)
    (safe : MallocSafe state.heap n) :
    heapMalloc state.heap page n = some (state.heap, 0) ∨
      ∃ heap' ptr blocks' pages' free', heapMalloc state.heap page n = some (heap', ptr) ∧
        ptr ≠ 0 ∧
        HeapInv ⟨heap', hold state.live (tierFor n) ⟨ptr, n⟩⟩ blocks' pages' free' ∧
        PayloadsSame heap'.memory state.heap.memory state.live := by
  unfold heapMalloc tierFor
  by_cases isZero : n = 0
  · simp [isZero]
  simp only [isZero, if_false]
  cases route : sizeClass n with
  | some c =>
      rcases inv.malloc_slab supply safe route with
        run | ⟨heap', ptr, pages', free', run, nonzero, inv', same, -⟩
      · exact .inl run
      · exact .inr ⟨heap', ptr, blocks, pages', free', run, nonzero, inv', same⟩
  | none =>
      rcases inv.malloc_block safe (Nat.pos_of_ne_zero isZero) with
        run | ⟨memory', ptr, blocks', run, nonzero, inv', same⟩
      · exact .inl (by simp [run])
      · exact .inr ⟨_, ptr, blocks', pages, free, by simp [run], nonzero, inv', same⟩

/-! ## Release -/

/-- `heap_free` recognises the tier of a pointer: the start of a block pointer's
page does not look like a slab header. -/
def FreeSafe (memory : Memory) (tier : Tier) (ptr : Nat) : Prop :=
  tier = .block → ptrInSlab memory ptr = none

/-- Nothing is held in any tier that was not held before, and the released
allocation is gone. -/
theorem mem_drop {live : Tier → List Allocation} {tier tier' : Tier}
    {allocation other : Allocation} (member : other ∈ drop live tier allocation tier') :
    other ∈ live tier' := by
  unfold drop at member
  by_cases same : tier' = tier
  · subst same
    rw [Function.update_self] at member
    exact List.mem_of_mem_erase member
  · rwa [Function.update_of_ne same] at member

/-- `heap_free` of a slab pointer gives its slot back to its page. -/
theorem HeapInv.free_slab {state : KernelState} {blocks : List Block}
    {pages free : Nat → List Nat} {allocation : Allocation} (inv : HeapInv state blocks pages free)
    (isLive : allocation ∈ state.live .slab) :
    ∃ heap' free', heapFree state.heap allocation.ptr = some heap' ∧
      HeapInv ⟨heap', drop state.live .slab allocation⟩ blocks pages free' ∧
      PayloadsSame heap'.memory state.heap.memory (drop state.live .slab allocation) ∧
      SameOn heap'.memory state.heap.memory heapBase heapLimit := by
  obtain ⟨c, p, j, used, ptrEq, -⟩ := inv.held allocation isLive
  obtain ⟨isClass, member, inside, notFree⟩ := used
  have used : UsedSlot pages free c p j := ⟨isClass, member, inside, notFree⟩
  obtain ⟨slab, same, others⟩ := slabFree_spec inv.slab isClass member inside notFree
  have above := inv.slab.slot_above used
  have limit : 0 < heapLimit := by decide
  have run : heapFree state.heap allocation.ptr =
      some ⟨slabFree state.heap.memory (slotPtr p (slabSize c) j) p, state.heap.slabCache⟩ := by
    rw [ptrEq, heapFree, if_neg (by omega), inv.slab.ptrInSlab_slot used, inv.slab.slot_page used]
  generalize slabFree state.heap.memory (slotPtr p (slabSize c) j) p = memory' at *
  have used_iff : ∀ d q i, UsedSlot pages (Function.update free p (j :: free p)) d q i ↔
      UsedSlot pages free d q i ∧ ¬(d = c ∧ q = p ∧ i = j) := usedSlot_release inv.slab isClass member
  have keptSlot : ∀ {d q i}, UsedSlot pages (Function.update free p (j :: free p)) d q i →
      SameOn memory' state.heap.memory (slotPtr q (slabSize d) i)
        (slotPtr q (slabSize d) i + slabSize d) := by
    intro d q i usedAfter
    obtain ⟨usedBefore, different⟩ := (used_iff d q i).mp usedAfter
    by_cases here : q = p
    · subst here
      have sameClass := inv.slab.class_unique usedBefore.1 isClass usedBefore.2.1 member
      subst sameClass
      exact others i usedBefore.2.2.1 fun equal => different ⟨rfl, rfl, equal⟩
    · have far := (inv.slab.physical d usedBefore.1 q usedBefore.2.1).apart
        (inv.slab.physical c isClass p member) here
      have bounds := slotPtr_bounds q usedBefore.2.2.1
      exact same.sameOn (by omega)
  have arena : SameOn memory' state.heap.memory heapBase heapLimit :=
    same.sameOn (.inl (inv.slab.physical c isClass p member).above_arena)
  have stillUsed : ∀ other ∈ (state.live .slab).erase allocation, ∃ d q i,
      UsedSlot pages (Function.update free p (j :: free p)) d q i ∧
        other.ptr = slotPtr q (slabSize d) i ∧ other.wanted ≤ slabSize d := by
    intro other isOther
    obtain ⟨d, q, i, usedBefore, ptrEq', fits⟩ := inv.held other (List.mem_of_mem_erase isOther)
    refine ⟨d, q, i, (used_iff d q i).mpr ⟨usedBefore, ?_⟩, ptrEq', fits⟩
    rintro ⟨rfl, rfl, rfl⟩
    have sameAllocation : other = allocation := List.inj_on_of_nodup_map inv.distinct
      (List.mem_of_mem_erase isOther) isLive (ptrEq'.trans ptrEq.symm)
    subst sameAllocation
    exact List.Nodup.not_mem_erase (inv.distinct.of_map _) isOther
  refine ⟨_, _, run, ⟨?_, slab, ?_, ?_, ?_, ?_⟩, ?_, arena⟩
  · have block := inv.block.arena arena
    simpa [drop] using block
  · simpa [drop] using stillUsed
  · intro d q i usedAfter
    obtain ⟨usedBefore, different⟩ := (used_iff d q i).mp usedAfter
    obtain ⟨other, isOther, ptrEq'⟩ := List.mem_map.mp (inv.complete usedBefore)
    refine List.mem_map.mpr ⟨other, ?_, ptrEq'⟩
    simp only [drop, Function.update_self]
    refine (List.mem_erase_of_ne ?_).mpr isOther
    rintro rfl
    exact different (inv.slab.slot_unique usedBefore used (ptrEq'.symm.trans ptrEq))
  · simpa [drop] using inv.distinct.sublist ((List.erase_sublist).map _)
  · simpa [drop] using inv.enough
  · intro tier other isOther
    cases tier with
    | slab =>
        obtain ⟨d, q, i, usedAfter, ptrEq', -⟩ :=
          stillUsed other (by simpa [drop] using isOther)
        have usedBefore := ((used_iff d q i).mp usedAfter).1
        rw [capacity_slab, capacity_slab, ptrEq', inv.slab.slot_size usedBefore,
          slab.slot_size usedAfter]
        exact ⟨keptSlot usedAfter, rfl⟩
    | block => exact inv.block_payload arena (mem_drop isOther)

/-- `heap_free` of a block pointer gives its block back. -/
theorem HeapInv.free_block {state : KernelState} {blocks : List Block}
    {pages free : Nat → List Nat} {allocation : Allocation} (inv : HeapInv state blocks pages free)
    (isLive : allocation ∈ state.live .block)
    (safe : ptrInSlab state.heap.memory allocation.ptr = none) :
    ∃ heap' blocks', heapFree state.heap allocation.ptr = some heap' ∧
      HeapInv ⟨heap', drop state.live .block allocation⟩ blocks' pages free ∧
      PayloadsSame heap'.memory state.heap.memory (drop state.live .block allocation) ∧
      blockFree state.heap.memory allocation.ptr = some heap'.memory := by
  obtain ⟨memory', blocks', run, block, kept, -⟩ := inv.block.free isLive
  have slab := inv.slab.write_arena kept.outside
  have inside := inv.block.payload_in_arena isLive
  obtain ⟨start, held, holds⟩ := inv.block.held allocation isLive
  have bounds := holds.2.1.bounds
  have total := inv.block.tiles.limit_eq
  have header : blockHdr = 16 := rfl
  have base : heapBase = 0x200000 := rfl
  -- a held payload is not empty, so it does not start at the end of the arena
  have below : allocation.ptr < heapLimit := by
    have enough := inv.enough allocation isLive
    have fits := holds.2.2.2
    have ptrEq := holds.1
    omega
  refine ⟨⟨memory', state.heap.slabCache⟩, blocks', ?_, ⟨?_, slab, ?_, ?_, ?_, ?_⟩, ?_, run⟩
  · rw [heapFree, if_neg (by omega), safe]
    simp only
    rw [if_pos ⟨by omega, below⟩, run]
    rfl
  · simpa [drop] using block
  · simpa [drop] using inv.held
  · exact fun used => by simpa [drop] using inv.complete used
  · simpa [drop] using inv.distinct
  · intro other isOther
    have isLive' : other ∈ state.live .block := List.mem_of_mem_erase (by simpa [drop] using isOther)
    exact inv.enough other isLive'
  · intro tier other isOther
    cases tier with
    | slab =>
        have isLive' := mem_drop isOther
        obtain ⟨c, p, j, used, ptrEq, -⟩ := inv.held other isLive'
        refine ⟨inv.slot_payload (fun used' => ?_) isLive', ?_⟩
        · exact kept.outside.sameOn (.inr (inv.slab.slot_above used'))
        · rw [capacity_slab, capacity_slab, ptrEq, inv.slab.slot_size used, slab.slot_size used]
    | block =>
        have isOther' : other ∈ (state.live .block).erase allocation := by
          simpa [drop] using isOther
        exact ⟨kept.payload other isOther', kept.size other isOther'⟩

/-- `heap_free` of a held pointer finishes and gives up exactly that allocation. -/
theorem HeapInv.free {state : KernelState} {blocks : List Block} {pages free : Nat → List Nat}
    {tier : Tier} {allocation : Allocation} (inv : HeapInv state blocks pages free)
    (isLive : allocation ∈ state.live tier)
    (safe : FreeSafe state.heap.memory tier allocation.ptr) :
    ∃ heap' blocks' free', heapFree state.heap allocation.ptr = some heap' ∧
      HeapInv ⟨heap', drop state.live tier allocation⟩ blocks' pages free' ∧
      PayloadsSame heap'.memory state.heap.memory (drop state.live tier allocation) := by
  cases tier with
  | slab =>
      obtain ⟨heap', free', run, inv', same, -⟩ := inv.free_slab isLive
      exact ⟨heap', blocks, free', run, inv', same⟩
  | block =>
      obtain ⟨heap', blocks', run, inv', same, -⟩ := inv.free_block isLive (safe rfl)
      exact ⟨heap', blocks', free, run, inv', same⟩

/-! ## Writes -/

/-- A client may write anything into a payload it holds. -/
theorem HeapInv.write {state : KernelState} {blocks : List Block} {pages free : Nat → List Nat}
    {tier : Tier} {allocation : Allocation} {memory' : Memory}
    (inv : HeapInv state blocks pages free) (isLive : allocation ∈ state.live tier)
    (same : SameOutside memory' state.heap.memory allocation.ptr
      (allocation.ptr + capacity state.heap.memory tier allocation.ptr)) :
    HeapInv ⟨⟨memory', state.heap.slabCache⟩, state.live⟩ blocks pages free := by
  cases tier with
  | slab =>
      obtain ⟨c, p, j, used, ptrEq, -⟩ := inv.held allocation isLive
      rw [capacity_slab, ptrEq, inv.slab.slot_size used] at same
      have above := inv.slab.slot_above used
      exact { inv with
        block := inv.block.write_outside same (.inl above)
        slab := inv.slab.write_slot used.1 used.2.1 used.2.2.1 used.2.2.2 same }
  | block =>
      have inside := inv.block.payload_in_arena isLive
      rw [capacity_block] at same
      exact { inv with
        block := inv.block.write isLive same
        slab := inv.slab.write_arena (same.mono (by omega) (by omega)) }

/-- The rest of the kernel may write anything outside the memory of the heap. -/
theorem HeapInv.write_elsewhere {state : KernelState} {blocks : List Block}
    {pages free : Nat → List Nat} {memory' : Memory} (inv : HeapInv state blocks pages free)
    (arena : SameOn memory' state.heap.memory heapBase heapLimit)
    (slabs : ∀ c < slabNumClasses, ∀ p ∈ pages c,
      SameOn memory' state.heap.memory p (p + pageSize)) :
    HeapInv ⟨⟨memory', state.heap.slabCache⟩, state.live⟩ blocks pages free := by
  have sizes : pageSize = 4096 ∧ slabHdrSz = 32 := ⟨rfl, rfl⟩
  refine { inv with block := inv.block.arena arena, slab := inv.slab.congr ?_ ?_ }
  · intro c isClass p member address lower upper
    exact slabs c isClass p member address lower (by omega)
  · intro c isClass p member idx isFree address lower upper
    have bounds := slotPtr_bounds p ((inv.slab.page c isClass p member).bounded idx isFree)
    have large := (slabSize_bounds isClass).1
    exact slabs c isClass p member address (by omega) (by omega)

/-! ## Reallocation -/

/-- Every held payload has at least one byte. -/
theorem HeapInv.capacity_pos {state : KernelState} {blocks : List Block}
    {pages free : Nat → List Nat} {tier : Tier} {allocation : Allocation}
    (inv : HeapInv state blocks pages free) (isLive : allocation ∈ state.live tier) :
    0 < capacity state.heap.memory tier allocation.ptr := by
  cases tier with
  | slab =>
      obtain ⟨c, p, j, used, ptrEq, -⟩ := inv.held allocation isLive
      have large := (slabSize_bounds used.1).1
      rw [capacity_slab, ptrEq, inv.slab.slot_size used]
      omega
  | block =>
      exact Nat.lt_of_lt_of_le (inv.enough allocation isLive).1 (inv.wanted_le isLive)

theorem HeapInv.ptr_ne_zero {state : KernelState} {blocks : List Block} {pages free : Nat → List Nat}
    {tier : Tier} {allocation : Allocation} (inv : HeapInv state blocks pages free)
    (isLive : allocation ∈ state.live tier) : allocation.ptr ≠ 0 := by
  intro isNull
  cases tier with
  | slab =>
      obtain ⟨c, p, j, used, ptrEq, -⟩ := inv.held allocation isLive
      have above := inv.slab.slot_above used
      have limit : 0 < heapLimit := by decide
      omega
  | block =>
      have inside := inv.block.payload_in_arena isLive
      have base : 0 < heapBase := by decide
      omega

/-- The old size `heap_realloc` finds is the capacity of the payload. -/
theorem HeapInv.oldSize_eq {state : KernelState} {blocks : List Block}
    {pages free : Nat → List Nat} {tier : Tier} {allocation : Allocation}
    (inv : HeapInv state blocks pages free) (isLive : allocation ∈ state.live tier)
    (safe : FreeSafe state.heap.memory tier allocation.ptr) :
    oldSize state.heap.memory allocation.ptr =
      capacity state.heap.memory tier allocation.ptr := by
  cases tier with
  | slab =>
      obtain ⟨c, p, j, used, ptrEq, -⟩ := inv.held allocation isLive
      rw [capacity_slab, ptrEq, inv.slab.slot_size used, oldSize, inv.slab.ptrInSlab_slot used]
  | block =>
      obtain ⟨start, block, holds⟩ := inv.block.held allocation isLive
      have bounds := holds.2.1.bounds
      have total := inv.block.tiles.limit_eq
      have header : blockHdr = 16 := rfl
      have limit : heapLimit < 2 ^ 32 := by decide
      have front : sub64 allocation.ptr blockHdr = start := by
        rw [holds.1, sub64_of_le (by omega) (by omega), Nat.add_sub_cancel]
      unfold oldSize
      rw [safe rfl, capacity_block, inv.block.payloadSize_eq holds]
      simp only [front]
      rw [if_pos (by omega)]
      exact (inv.block.tiles.block_of_at holds.2.1).1

/-- The conditions under which `heap_realloc` keeps its promises: each
`heap_malloc` and `heap_free` it makes does. -/
def ReallocSafe (heap : KernelHeap) (page : Nat) (tier : Tier) (old n : Nat) : Prop :=
  FreeSafe heap.memory tier old ∧
    (oldSize heap.memory old < n → MallocSafe heap n ∧
      ∀ heap' new, heapMalloc heap page n = some (heap', new) → new ≠ 0 →
        FreeSafe (copy heap'.memory new old (oldSize heap.memory old)) tier old)

/-- What clients hold after `heap_realloc` returned `ptr`. -/
def reallocLive (live : Tier → List Allocation) (tier : Tier) (allocation : Allocation)
    (n ptr : Nat) : Tier → List Allocation :=
  if n = 0 then drop live tier allocation
  else if ptr = 0 ∨ ptr = allocation.ptr then live
  else drop (hold live (tierFor n) ⟨ptr, n⟩) tier allocation

/-- The tier of the payload `heap_realloc` returned. -/
def reallocTier (tier : Tier) (allocation : Allocation) (n ptr : Nat) : Tier :=
  if ptr = allocation.ptr then tier else tierFor n

theorem mem_hold_of_mem {live : Tier → List Allocation} {tier tier' : Tier}
    {allocation other : Allocation} (member : other ∈ live tier') :
    other ∈ hold live tier allocation tier' := by
  unfold hold
  by_cases same : tier' = tier
  · subst same
    rw [Function.update_self]
    exact List.mem_cons_of_mem _ member
  · rwa [Function.update_of_ne same]

theorem mem_hold_self (live : Tier → List Allocation) (tier : Tier) (allocation : Allocation) :
    allocation ∈ hold live tier allocation tier := by
  simp [hold]

theorem mem_drop_of_ne {live : Tier → List Allocation} {tier tier' : Tier}
    {allocation other : Allocation} (different : other ≠ allocation)
    (member : other ∈ live tier') : other ∈ drop live tier allocation tier' := by
  unfold drop
  by_cases same : tier' = tier
  · subst same
    rw [Function.update_self]
    exact (List.mem_erase_of_ne different).mpr member
  · rwa [Function.update_of_ne same]

/-- `heap_realloc` finishes.  A non-null result is a payload large enough for the
request that starts with the old bytes. -/
theorem HeapInv.realloc {state : KernelState} {blocks : List Block} {pages free : Nat → List Nat}
    {tier : Tier} {allocation : Allocation} {page n : Nat}
    (inv : HeapInv state blocks pages free) (isLive : allocation ∈ state.live tier)
    (supply : Supply state.heap page)
    (safe : ReallocSafe state.heap page tier allocation.ptr n) :
    ∃ heap' ptr blocks' pages' free',
      heapRealloc state.heap page allocation.ptr n = some (heap', ptr) ∧
      HeapInv ⟨heap', reallocLive state.live tier allocation n ptr⟩ blocks' pages' free' ∧
      (n ≠ 0 → ptr ≠ 0 →
        n ≤ capacity heap'.memory (reallocTier tier allocation n ptr) ptr ∧
        ∀ i < min (capacity state.heap.memory tier allocation.ptr) n,
          heap'.memory (ptr + i) = state.heap.memory (allocation.ptr + i)) := by
  have size := inv.oldSize_eq isLive safe.1
  have nonNull := inv.ptr_ne_zero isLive
  unfold heapRealloc reallocLive
  rw [if_neg nonNull]
  by_cases isZero : n = 0
  · obtain ⟨heap', blocks', free', run, inv', -⟩ := inv.free isLive safe.1
    refine ⟨heap', 0, blocks', pages, free', ?_, ?_, fun nonzero => absurd isZero nonzero⟩
    · rw [if_pos isZero, run]
      rfl
    · simpa [isZero] using inv'
  simp only [if_neg isZero]
  by_cases fits : n ≤ oldSize state.heap.memory allocation.ptr
  · refine ⟨state.heap, allocation.ptr, blocks, pages, free, by rw [if_pos fits], ?_, ?_⟩
    · simpa using inv
    · intro _ _
      rw [size] at fits
      exact ⟨by simpa [reallocTier] using fits, fun _ _ => rfl⟩
  · rw [if_neg fits]
    obtain ⟨mallocSafe, freeSafe⟩ := safe.2 (Nat.lt_of_not_le fits)
    rcases inv.malloc supply mallocSafe with
      run | ⟨heap₁, new, blocks₁, pages₁, free₁, run, nonzero, inv₁, same₁⟩
    · refine ⟨state.heap, 0, blocks, pages, free, by rw [run]; rfl, ?_, fun _ isNull =>
        absurd rfl isNull⟩
      simpa using inv
    · have isNew : (⟨new, n⟩ : Allocation) ∈ hold state.live (tierFor n) ⟨new, n⟩ (tierFor n) :=
        mem_hold_self _ _ _
      have isOld : allocation ∈ hold state.live (tierFor n) ⟨new, n⟩ tier := mem_hold_of_mem isLive
      have newFits : n ≤ capacity heap₁.memory (tierFor n) new := inv₁.wanted_le isNew
      have different : new ≠ allocation.ptr := by
        intro samePtr
        have small : capacity state.heap.memory tier allocation.ptr < n := by omega
        by_cases sameTier : tierFor n = tier
        · -- the same pointer would have both the old and the new capacity
          have oldCapacity := (same₁ tier allocation isLive).2
          rw [sameTier, samePtr, oldCapacity] at newFits
          omega
        · have apart := inv₁.payloads_apart isNew isOld (.inl sameTier)
          have positive := inv₁.capacity_pos isNew
          have positive' := inv₁.capacity_pos isOld
          unfold Apart at apart
          simp only at apart positive positive'
          omega
      have copied := copy_sameOutside heap₁.memory new allocation.ptr
        (oldSize state.heap.memory allocation.ptr)
      have inv₂ := inv₁.write isNew (copied.mono (Nat.le_refl _) (by simp only; omega))
      obtain ⟨heap₃, blocks₃, free₃, run₃, inv₃, same₃⟩ :=
        inv₂.free isOld (freeSafe heap₁ new run nonzero)
      have stillNew : (⟨new, n⟩ : Allocation) ∈
          drop (hold state.live (tierFor n) ⟨new, n⟩) tier allocation (tierFor n) :=
        mem_drop_of_ne (fun equal => different (by rw [← equal])) isNew
      refine ⟨heap₃, new, blocks₃, pages₁, free₃, ?_, ?_, ?_⟩
      · rw [run]
        simp only [if_neg nonzero]
        rw [run₃]
        rfl
      · simpa [nonzero, different] using inv₃
      · intro _ _
        refine ⟨?_, ?_⟩
        · have final := inv₃.wanted_le stillNew
          simpa [reallocTier, different] using final
        · intro i inside
          rw [← size, Nat.min_eq_left (by omega)] at inside
          have enough := inv₂.wanted_le isNew
          have kept := (same₃ (tierFor n) ⟨new, n⟩ stillNew).1 (new + i) (by simp)
            (Nat.add_lt_add_left (Nat.lt_of_lt_of_le (by simp only at *; omega) enough) new)
          rw [kept]
          simp only
          rw [copy_apply _ inside]
          exact (same₁ tier allocation isLive).1 _ (by omega) (by omega)

end Systrix.Heap
