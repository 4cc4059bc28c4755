import Systrix.Heap.BlockTiling
import Mathlib.Data.List.Nodup
import Mathlib.Logic.Relation

/-!
# Runs of the block tier

The state of a run is the memory together with the allocations clients hold.
`BlockInv` ties both to the block list; it holds of a fresh arena, is kept by
every call and by every write of a client into its own payload, and gives the
safety of the tier over whole runs.
-/

namespace Systrix.Heap

open ByteMemory Machine ImplicitList

/-- A held allocation: the address `block_malloc` returned and the bytes asked for. -/
structure Allocation where
  ptr : Nat
  wanted : Nat
  deriving DecidableEq, Repr

/-- Payload bytes the header in front of `ptr` records. -/
def payloadSize (memory : Memory) (ptr : Nat) : Nat := blockSize memory (ptr - blockHdr)

/-- The block of `blocks` that holds an allocation. -/
def Holds (blocks : List Block) (allocation : Allocation) (start : Nat) (block : Block) : Prop :=
  allocation.ptr = start + blockHdr ∧ At blockHdr heapBase blocks start block ∧
    block.free = false ∧ roundUp16 allocation.wanted ≤ block.size

/-- Nothing outside the arena changed, and no held payload changed. -/
structure LiveKept (memory' memory : Memory) (live : List Allocation) : Prop where
  outside : SameOutside memory' memory heapBase heapLimit
  payload : ∀ allocation ∈ live, SameOn memory' memory allocation.ptr
    (allocation.ptr + payloadSize memory allocation.ptr)
  size : ∀ allocation ∈ live, payloadSize memory' allocation.ptr = payloadSize memory allocation.ptr

/-- The `size` bytes at `ptr` lie in the payload of a free block or in a header
that was merged into it. -/
def InFreeBlock (blocks : List Block) (ptr size : Nat) : Prop :=
  ∃ start block, At blockHdr heapBase blocks start block ∧ block.free = true ∧
    start + blockHdr ≤ ptr ∧ ptr + size ≤ start + blockHdr + block.size

/-- Memory and held allocations agree with a block list. -/
structure BlockInv (memory : Memory) (live : List Allocation) (blocks : List Block) : Prop where
  tiles : Tiles memory heapLimit heapBase blocks
  separated : NoAdjacentFree blocks
  held : ∀ allocation ∈ live, ∃ start block, Holds blocks allocation start block
  complete : ∀ start block, At blockHdr heapBase blocks start block → block.free = false →
    start + blockHdr ∈ live.map Allocation.ptr
  distinct : (live.map Allocation.ptr).Nodup

namespace BlockInv

variable {memory memory' : Memory} {live : List Allocation} {blocks : List Block}
  {allocation : Allocation}

theorem fresh (memory : Memory) : BlockInv (heapInit memory) [] freshArena where
  tiles := heapInit_tiles memory
  separated := by simp [NoAdjacentFree, freshArena]
  held := by simp
  complete := by
    rintro start block (⟨-, rfl⟩ | impossible) used
    · simp at used
    · exact impossible.elim
  distinct := List.nodup_nil

/-- The blocks are kept when the bytes of the arena are. -/
theorem arena (inv : BlockInv memory live blocks)
    (same : ∀ address, heapBase ≤ address → address < heapLimit → memory' address = memory address) :
    BlockInv memory' live blocks :=
  { inv with
    tiles := inv.tiles.congr fun position block placed => by
      have bounds := placed.bounds
      have total := inv.tiles.limit_eq
      intro address lower upper
      exact same address (by omega) (by omega) }

theorem total (inv : BlockInv memory live blocks) : extent blockHdr blocks = heapSize := by
  have limit := inv.tiles.limit_eq
  have split : heapLimit = heapBase + heapSize := rfl
  omega

theorem length_lt (inv : BlockInv memory live blocks) : blocks.length < blockFuel := by
  have count : blocks.length * 16 ≤ _ := length_mul_le_extent blockHdr blocks
  have total := inv.total
  have size : heapSize = 0x200000 := rfl
  have fuel : blockFuel = 131073 := rfl
  omega

/-- The header of a held allocation records its block's size. -/
theorem payloadSize_eq (inv : BlockInv memory live blocks) {start : Nat} {block : Block}
    (holds : Holds blocks allocation start block) :
    payloadSize memory allocation.ptr = block.size := by
  unfold payloadSize
  rw [holds.1, Nat.add_sub_cancel]
  exact (inv.tiles.block_of_at holds.2.1).1

/-- Distinct held allocations sit in different blocks. -/
theorem apart (inv : BlockInv memory live blocks) {left right : Allocation}
    (leftLive : left ∈ live) (rightLive : right ∈ live) (different : left.ptr ≠ right.ptr) :
    left.ptr + payloadSize memory left.ptr + blockHdr ≤ right.ptr ∨
      right.ptr + payloadSize memory right.ptr + blockHdr ≤ left.ptr := by
  obtain ⟨start, block, holds⟩ := inv.held left leftLive
  obtain ⟨start', block', holds'⟩ := inv.held right rightLive
  rw [inv.payloadSize_eq holds, inv.payloadSize_eq holds', holds.1, holds'.1]
  rcases holds.2.1.eq_or_apart holds'.2.1 with ⟨same, -⟩ | before | after
  · rw [holds.1, holds'.1, same] at different
    exact absurd rfl different
  · omega
  · omega

/-- A held payload meets no header. -/
theorem payload_apart_header (inv : BlockInv memory live blocks) (isLive : allocation ∈ live)
    {start : Nat} {block : Block} (placed : At blockHdr heapBase blocks start block) :
    allocation.ptr + payloadSize memory allocation.ptr ≤ start ∨
      start + blockHdr ≤ allocation.ptr := by
  obtain ⟨position, held, holds⟩ := inv.held allocation isLive
  rw [inv.payloadSize_eq holds, holds.1]
  rcases holds.2.1.eq_or_apart placed with ⟨rfl, -⟩ | before | after
  all_goals omega

theorem payload_in_arena (inv : BlockInv memory live blocks) (isLive : allocation ∈ live) :
    heapBase + blockHdr ≤ allocation.ptr ∧
      allocation.ptr + payloadSize memory allocation.ptr ≤ heapLimit := by
  obtain ⟨start, block, holds⟩ := inv.held allocation isLive
  have bounds := holds.2.1.bounds
  rw [inv.payloadSize_eq holds, holds.1, inv.tiles.limit_eq]
  omega

/-- Clients may write anything into their own payloads. -/
theorem write (inv : BlockInv memory live blocks) (isLive : allocation ∈ live)
    (same : SameOutside memory' memory allocation.ptr
      (allocation.ptr + payloadSize memory allocation.ptr)) :
    BlockInv memory' live blocks := by
  obtain ⟨start, block, holds⟩ := inv.held allocation isLive
  rw [inv.payloadSize_eq holds, holds.1] at same
  exact { inv with
    tiles := inv.tiles.of_payload holds.2.1 same ⟨Nat.le_refl _, Nat.le_refl _⟩ }

/-- Writes outside the arena are not seen. -/
theorem write_outside {low high : Nat} (inv : BlockInv memory live blocks)
    (same : SameOutside memory' memory low high) (apart : heapLimit ≤ low ∨ high ≤ heapBase) :
    BlockInv memory' live blocks := by
  have limit := inv.tiles.limit_eq
  exact { inv with tiles := inv.tiles.of_sameOutside same (by omega) }

/-- `block_malloc` finishes.  It fails without an effect when no free block is
large enough, and otherwise hands out a new block. -/
theorem malloc (inv : BlockInv memory live blocks) (wanted : Nat) :
    (blockMalloc memory wanted = some (memory, 0) ∧
      ∀ block ∈ blocks, block.free → block.size < roundUp16 wanted) ∨
    ∃ memory' blocks' ptr, blockMalloc memory wanted = some (memory', ptr) ∧ ptr ≠ 0 ∧
      BlockInv memory' (⟨ptr, wanted⟩ :: live) blocks' ∧ LiveKept memory' memory live := by
  obtain ⟨result, run, outcome⟩ := blockMallocLoop_spec (n := roundUp16 wanted)
    inv.tiles inv.length_lt
  cases outcome with
  | exhausted noFit => exact .inl ⟨run, noFit⟩
  | found before after block shape _ isFree fits =>
      subst shape
      right
      generalize startDef : heapBase + extent blockHdr before = start at *
      obtain ⟨beforeTiles, tailTiles⟩ := Tiles.append_iff.mp inv.tiles
      rw [startDef] at beforeTiles tailTiles
      obtain ⟨takenTiles, same⟩ := takeBlock_tiles tailTiles (by decide) fits
      have placed : At blockHdr heapBase (before ++ block :: after) start block :=
        startDef ▸ at_middle ..
      have bounds := placed.bounds
      have total := inv.tiles.limit_eq
      have tiles' : Tiles (takeBlock memory (roundUp16 wanted) start) heapLimit heapBase
          (before ++ (carve blockHdr 16 (roundUp16 wanted) block ++ after)) := by
        rw [Tiles.append_iff, startDef]
        exact ⟨beforeTiles.of_sameOutside same (.inl (by omega)), takenTiles⟩
      obtain ⟨size, rest, carved, large, -⟩ := carve_head blockHdr 16 fits
      have sameExtent : extent blockHdr [block] =
          extent blockHdr (carve blockHdr 16 (roundUp16 wanted) block) := by
        rw [extent_carve]; simp
      -- a held block is in use, so it is not the one that was carved
      have moved : ∀ {position other}, At blockHdr heapBase (before ++ block :: after)
          position other → other.free = false →
          At blockHdr heapBase
            (before ++ (carve blockHdr 16 (roundUp16 wanted) block ++ after)) position other ∧
          (position + blockHdr + other.size ≤ start ∨
            start + blockHdr + block.size ≤ position) := by
        intro position other otherPlaced used
        have apart : (position + blockHdr + other.size ≤ start ∨
            start + blockHdr + block.size ≤ position) := by
          rcases otherPlaced.eq_or_apart placed with ⟨-, rfl⟩ | apart
          · simp [used] at isFree
          · exact apart
        refine ⟨?_, apart⟩
        have exchanged := at_exchange sameExtent (by simpa using otherPlaced)
        rcases exchanged with (⟨-, rfl⟩ | impossible) | kept
        · simp [used] at isFree
        · exact impossible.elim
        · simpa using kept
      refine ⟨_, _, _, run, by simp [blockHdr], ⟨tiles', ?_, ?_, ?_, ?_⟩, ⟨?_, ?_, ?_⟩⟩
      · exact inv.separated.carve isFree
      · intro allocation member
        rcases List.mem_cons.mp member with rfl | member
        · refine ⟨start, ⟨size, false⟩, rfl, ?_, rfl, large⟩
          rw [carved, ← startDef]
          exact at_middle ..
        · obtain ⟨position, other, ptrEq, otherPlaced, used, holds⟩ := inv.held _ member
          exact ⟨position, other, ptrEq, (moved otherPlaced used).1, used, holds⟩
      · intro position other otherPlaced used
        have exchanged := at_exchange sameExtent.symm (by simpa using otherPlaced)
        rcases exchanged with inCarve | inOld
        · rw [startDef] at inCarve
          rw [at_carve_of_used used inCarve]
          simp
        · have member := inv.complete position other (by simpa using inOld) used
          exact List.mem_cons_of_mem _ member
      · refine List.nodup_cons.mpr ⟨?_, inv.distinct⟩
        intro member
        obtain ⟨allocation, isLive, ptrEq⟩ := List.mem_map.mp member
        obtain ⟨position, other, ptrEq', otherPlaced, used, -⟩ := inv.held _ isLive
        have apart := (moved otherPlaced used).2
        have positive : 0 < blockHdr := by decide
        have samePtr : position + blockHdr = start + blockHdr := ptrEq'.symm.trans ptrEq
        omega
      · exact same.mono (by omega) (by omega)
      · intro allocation isLive
        obtain ⟨position, other, holds⟩ := inv.held _ isLive
        have apart := (moved holds.2.1 holds.2.2.1).2
        rw [inv.payloadSize_eq holds, holds.1]
        exact same.sameOn (by omega)
      · intro allocation isLive
        obtain ⟨position, other, holds⟩ := inv.held _ isLive
        have kept := (tiles'.block_of_at (moved holds.2.1 holds.2.2.1).1).1
        rw [inv.payloadSize_eq holds, holds.1]
        unfold payloadSize
        rw [Nat.add_sub_cancel, kept]

/-- `block_free` of a held allocation finishes and gives back exactly that block. -/
theorem free (inv : BlockInv memory live blocks) (isLive : allocation ∈ live) :
    ∃ memory' blocks', blockFree memory allocation.ptr = some memory' ∧
      BlockInv memory' (live.erase allocation) blocks' ∧
      LiveKept memory' memory (live.erase allocation) ∧
      InFreeBlock blocks' allocation.ptr (payloadSize memory allocation.ptr) := by
  obtain ⟨start, block, holds⟩ := inv.held _ isLive
  obtain ⟨before, after, shape, startDef⟩ := holds.2.1.split
  subst shape
  obtain ⟨memory', run, tiles', kept⟩ := blockFree_spec inv.tiles
  rw [← startDef, ← holds.1] at run
  have distinct : (live.erase allocation).map Allocation.ptr |>.Nodup :=
    inv.distinct.sublist ((List.erase_sublist).map _)
  -- two held allocations in one block would share their pointer
  have elsewhere : ∀ {other position held}, other ∈ live.erase allocation →
      Holds (before ++ block :: after) other position held → position ≠ start := by
    intro other position held member holds' same
    have ptrEq : other.ptr = allocation.ptr := by rw [holds.1, holds'.1, same]
    have sameAllocation : other = allocation :=
      List.inj_on_of_nodup_map inv.distinct (List.mem_of_mem_erase member) isLive ptrEq
    subst sameAllocation
    exact List.Nodup.not_mem_erase (inv.distinct.of_map _) member
  have stays : ∀ {other position held}, other ∈ live.erase allocation →
      Holds (before ++ block :: after) other position held →
      At blockHdr heapBase (release blockHdr block.size before after) position held := by
    intro other position held member holds'
    refine (at_release_of_used holds'.2.2.1).mpr ?_
    rcases at_append.mp holds'.2.1 with inBefore | ⟨same, -⟩ | inAfter
    · exact .inl inBefore
    · exact absurd (same.trans startDef.symm) (elsewhere member holds')
    · exact .inr inAfter
  refine ⟨memory', _, run, ⟨tiles', inv.separated.release, ?_, ?_, distinct⟩, ⟨?_, ?_, ?_⟩, ?_⟩
  · intro other member
    obtain ⟨position, held, holds'⟩ := inv.held other (List.mem_of_mem_erase member)
    exact ⟨position, held, holds'.1, stays member holds', holds'.2.2⟩
  · intro position other placed used
    have placed' := (at_release_of_used used).mp placed
    have inOld : At blockHdr heapBase (before ++ block :: after) position other :=
      at_append.mpr (placed'.imp_right .inr)
    obtain ⟨owner, isOwner, ptrEq⟩ := List.mem_map.mp (inv.complete position other inOld used)
    refine List.mem_map.mpr ⟨owner, (List.mem_erase_of_ne ?_).mpr isOwner, ptrEq⟩
    rintro rfl
    have same : position = start := by
      have samePtr := ptrEq.symm.trans holds.1
      omega
    subst same
    rcases placed' with inBefore | inAfter
    · have bounds := inBefore.bounds
      have positive : 0 < blockHdr := by decide
      omega
    · have bounds := inAfter.bounds
      have positive : 0 < blockHdr := by decide
      omega
  · have total := inv.tiles.limit_eq
    rw [total]
    exact kept.outside
  · intro other member
    obtain ⟨position, held, holds'⟩ := inv.held other (List.mem_of_mem_erase member)
    rw [inv.payloadSize_eq holds', holds'.1]
    exact kept.payload holds'.2.1
  · intro other member
    obtain ⟨position, held, holds'⟩ := inv.held other (List.mem_of_mem_erase member)
    have same := (tiles'.block_of_at (stays member holds')).1
    rw [inv.payloadSize_eq holds', holds'.1]
    unfold payloadSize
    rw [Nat.add_sub_cancel, same]
  · obtain ⟨position, merged, placed, isFree, low, high⟩ :=
      release_covers blockHdr heapBase block.size before after
    refine ⟨position, merged, placed, isFree, ?_, ?_⟩
    · rw [holds.1, startDef]
      omega
    · rw [inv.payloadSize_eq holds, holds.1, startDef]
      omega

end BlockInv

/-! ## Runs -/

/-- State of a run: memory and the allocations clients hold. -/
structure BlockHeap where
  memory : Memory
  live : List Allocation

/-- One call of the tier, or one client writing into its payload. -/
inductive BlockStep : BlockHeap → BlockHeap → Prop
  | malloc {heap : BlockHeap} {wanted ptr : Nat} {memory : Memory}
      (small : wanted ≤ heapSize) (run : blockMalloc heap.memory wanted = some (memory, ptr)) :
      BlockStep heap ⟨memory, if ptr = 0 then heap.live else ⟨ptr, wanted⟩ :: heap.live⟩
  | free {heap : BlockHeap} {allocation : Allocation} {memory : Memory}
      (isLive : allocation ∈ heap.live)
      (run : blockFree heap.memory allocation.ptr = some memory) :
      BlockStep heap ⟨memory, heap.live.erase allocation⟩
  | write {heap : BlockHeap} {allocation : Allocation} {memory : Memory}
      (isLive : allocation ∈ heap.live)
      (same : SameOutside memory heap.memory allocation.ptr
        (allocation.ptr + payloadSize heap.memory allocation.ptr)) :
      BlockStep heap ⟨memory, heap.live⟩

/-- States reached from a freshly initialised arena. -/
def BlockReachable (heap : BlockHeap) : Prop :=
  ∃ memory, Relation.ReflTransGen BlockStep ⟨heapInit memory, []⟩ heap

theorem BlockStep.inv {heap heap' : BlockHeap} {blocks : List Block}
    (step : BlockStep heap heap') (inv : BlockInv heap.memory heap.live blocks) :
    ∃ blocks', BlockInv heap'.memory heap'.live blocks' := by
  cases step with
  | malloc small run =>
      rcases inv.malloc _ with ⟨run', -⟩ | ⟨memory', blocks', ptr', run', nonzero, inv', -⟩
      · rw [run'] at run
        cases run
        exact ⟨blocks, inv⟩
      · rw [run'] at run
        cases run
        simp only [nonzero, if_false]
        exact ⟨blocks', inv'⟩
  | free isLive run =>
      obtain ⟨memory', blocks', run', inv', -⟩ := inv.free isLive
      rw [run'] at run
      cases run
      exact ⟨blocks', inv'⟩
  | write isLive same => exact ⟨blocks, inv.write isLive same⟩

theorem BlockReachable.inv {heap : BlockHeap} (reachable : BlockReachable heap) :
    ∃ blocks, BlockInv heap.memory heap.live blocks := by
  obtain ⟨memory, run⟩ := reachable
  induction run with
  | refl => exact ⟨_, BlockInv.fresh memory⟩
  | tail _ step ih =>
      obtain ⟨blocks, inv⟩ := ih
      exact step.inv inv

theorem BlockReachable.small {heap : BlockHeap} (reachable : BlockReachable heap) :
    ∀ allocation ∈ heap.live, allocation.wanted ≤ heapSize := by
  obtain ⟨memory, run⟩ := reachable
  induction run with
  | refl => simp
  | tail _ step ih =>
      cases step with
      | malloc small run =>
          split
          · exact ih
          · exact List.forall_mem_cons.mpr ⟨small, ih⟩
      | free isLive run => exact fun other member => ih other (List.mem_of_mem_erase member)
      | write isLive same => exact ih

theorem roundUp16_ge {wanted : Nat} (small : wanted ≤ heapSize) : wanted ≤ roundUp16 wanted := by
  have size : heapSize = 0x200000 := rfl
  unfold roundUp16 alignDown
  rw [u64_of_lt (by omega)]
  omega

/-- In every state a run can reach, the headers tile the arena with no two free
neighbours, every held payload is large enough and lies inside the arena, and
payloads meet neither each other nor any header; every further call finishes. -/
theorem blockTier_safe {heap : BlockHeap} (reachable : BlockReachable heap) :
    ∃ blocks, Tiles heap.memory heapLimit heapBase blocks ∧ NoAdjacentFree blocks ∧
      (∀ allocation ∈ heap.live,
        allocation.wanted ≤ roundUp16 allocation.wanted ∧
        roundUp16 allocation.wanted ≤ payloadSize heap.memory allocation.ptr ∧
        heapBase + blockHdr ≤ allocation.ptr ∧
        allocation.ptr + payloadSize heap.memory allocation.ptr ≤ heapLimit) ∧
      (heap.live.Pairwise fun left right => left.ptr ≠ right.ptr ∧
        Apart left.ptr (left.ptr + payloadSize heap.memory left.ptr)
          right.ptr (right.ptr + payloadSize heap.memory right.ptr)) ∧
      (∀ allocation ∈ heap.live, ∀ start block, At blockHdr heapBase blocks start block →
        Apart allocation.ptr (allocation.ptr + payloadSize heap.memory allocation.ptr)
          start (start + blockHdr)) ∧
      (∀ wanted, (blockMalloc heap.memory wanted).isSome) ∧
      ∀ allocation ∈ heap.live, (blockFree heap.memory allocation.ptr).isSome := by
  obtain ⟨blocks, inv⟩ := reachable.inv
  refine ⟨blocks, inv.tiles, inv.separated, ?_, ?_, ?_, ?_, ?_⟩
  · intro allocation isLive
    obtain ⟨start, block, holds⟩ := inv.held allocation isLive
    refine ⟨roundUp16_ge (reachable.small allocation isLive), ?_, inv.payload_in_arena isLive⟩
    rw [inv.payloadSize_eq holds]
    exact holds.2.2.2
  · have different := List.pairwise_map.mp inv.distinct
    refine different.imp_of_mem fun leftLive rightLive ne => ⟨ne, ?_⟩
    have apart := inv.apart leftLive rightLive ne
    unfold Apart
    omega
  · intro allocation isLive start block placed
    exact inv.payload_apart_header isLive placed
  · intro wanted
    rcases inv.malloc wanted with ⟨run, -⟩ | ⟨memory', blocks', ptr, run, -⟩
    all_goals simp [run]
  · intro allocation isLive
    obtain ⟨memory', blocks', run, -⟩ := inv.free isLive
    simp [run]

/-- One allocation of 5000 bytes in a fresh arena. -/
def oneAllocation : BlockHeap :=
  ⟨takeBlock (heapInit fun _ => 0) 5008 heapBase, [⟨heapBase + blockHdr, 5000⟩]⟩

theorem oneAllocation_run : blockMalloc (heapInit fun _ => 0) 5000 =
    some (oneAllocation.memory, heapBase + blockHdr) := rfl

theorem oneAllocation_reachable : BlockReachable oneAllocation := by
  have step := @BlockStep.malloc ⟨heapInit fun _ => 0, []⟩ 5000 _ _ (by decide) oneAllocation_run
  rw [if_neg (by decide)] at step
  exact ⟨fun _ => 0, .single step⟩

theorem blockTier_safe_oneAllocation :
    ∃ blocks, Tiles oneAllocation.memory heapLimit heapBase blocks := by
  obtain ⟨blocks, tiles, -⟩ := blockTier_safe oneAllocation_reachable
  exact ⟨blocks, tiles⟩

end Systrix.Heap
