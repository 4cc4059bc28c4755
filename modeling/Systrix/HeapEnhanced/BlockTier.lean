import Systrix.HeapEnhanced.SlabTier
import Systrix.Lib.Run

/-!
# Block tier and public interface of the enhanced kernel heap

Objects of more than 8184 bytes live in `[HEAP_BASE, HEAP_BASE + HEAP_SIZE)`.  `struct Block` has
four words, `[size:8][flags:8][magic:8][alloc_size:8]`, while `BLOCK_HDR` leaves room for two: the
magic number and the requested size are kept in the first 16 bytes of the payload.
-/

namespace Systrix.HeapEnhanced

open ByteMemory Machine

def blockHdr : Nat := 16

def flagFree : Nat := 1

def blockMagicFree : Nat := 0xB10CF001

def blockMagicUsed : Nat := 0xB10C0001

def blockMagicCorrupt : Nat := 0xDEADDEAD

/-- End of the block arena, `HEAP_BASE + HEAP_SIZE`. -/
def heapLimit : Nat := heapBase + heapSize

/-- The fields of `struct Block`, each a `u64`. -/
inductive Block where
  | size
  | flags
  | magic
  | allocSize
  deriving DecidableEq, Repr

namespace Block

/-- Offset of a field in the block. -/
def offset : Block → Nat
  | size => 0
  | flags => 8
  | magic => 16
  | allocSize => 24

/-- `b->field` -/
def get (memory : Memory) (b : Nat) (field : Block) : Nat := load memory (b + field.offset) 8

/-- `b->field = value` -/
def set (memory : Memory) (b : Nat) (field : Block) (value : Nat) : Memory :=
  store memory (b + field.offset) 8 value

end Block

def blockIsValid (memory : Memory) (b : Nat) : Bool :=
  if b < heapBase ∨ heapLimit ≤ b then false
  else if Block.get memory b .magic ≠ blockMagicFree ∧ Block.get memory b .magic ≠ blockMagicUsed then false
  else if Block.get memory b .size = 0 ∨ heapSize < Block.get memory b .size then false
  else true

/-- `b->flags & FLAG_FREE` -/
def blockFree? (memory : Memory) (b : Nat) : Bool := Block.get memory b .flags &&& flagFree ≠ 0

/-- `block_next`; `0` stands for `NULL`. -/
def blockNext (memory : Memory) (b : Nat) : Nat :=
  let next := u64 (b + blockHdr + Block.get memory b .size)
  if heapLimit ≤ next then 0 else next

/-- Upper bound on the headers a walk through the arena can visit. -/
def blockFuel : Nat := heapSize / blockHdr + 1

/-- The loop of `block_prev`. -/
def blockPrevLoop (memory : Memory) (target : Nat) : (fuel prev b : Nat) → Option Nat
  | 0, _, _ => none
  | fuel + 1, prev, b =>
      if b < target ∧ b < heapLimit then
        if blockIsValid memory b then
          let next := blockNext memory b
          if next = 0 then some b else blockPrevLoop memory target fuel b next
        else some prev
      else some prev

/-- `block_prev`; `0` stands for `NULL`. -/
def blockPrev (memory : Memory) (target : Nat) : Option Nat :=
  blockPrevLoop memory target blockFuel 0 heapBase

/-- The best-fit loop of `block_malloc`: the smallest free block with enough room, `0` when there
is none. -/
def bestFit (memory : Memory) (needed : Nat) : (fuel best b : Nat) → Option Nat
  | 0, _, _ => none
  | fuel + 1, best, b =>
      if b < heapLimit then
        if blockIsValid memory b then
          let fits := blockFree? memory b ∧ needed ≤ Block.get memory b .size ∧
            (best = 0 ∨ Block.get memory b .size < Block.get memory best .size)
          if fits ∧ Block.get memory b .size = needed then some b
          else
            let best := if fits then b else best
            let next := blockNext memory b
            if next = 0 then some best else bestFit memory needed fuel best next
        else some best
      else some best

/-- `block_malloc` takes block `best`: it splits off the tail if it can hold another block, marks
the block used, zeroes its payload and writes the red zone. -/
def takeBlock (memory : Memory) (n needed best : Nat) : Memory :=
  let memory :=
    if u64 (needed + blockHdr + 32) ≤ Block.get memory best .size then
      let remainder := u64 (best + blockHdr + needed)
      let memory' := Block.set memory remainder .size
        (sub64 (sub64 (Block.get memory best .size) needed) blockHdr)
      let memory' := Block.set memory' remainder .flags flagFree
      let memory' := Block.set memory' remainder .magic blockMagicFree
      let memory' := Block.set memory' remainder .allocSize 0
      Block.set memory' best .size needed
    else memory
  let memory := Block.set memory best .flags 0
  let memory := Block.set memory best .magic blockMagicUsed
  let memory := Block.set memory best .allocSize n
  let memory := fill memory (best + blockHdr) n 0
  store memory (best + blockHdr + n) 2 redzoneMagic

/-- `block_malloc`; a result address of `0` is `NULL`. -/
def blockMalloc (memory : Memory) (n : Nat) : Option (Memory × Nat) :=
  let n := alignDown (u64 (n + 15)) 16
  let needed := u64 (n + redzoneSize)
  match bestFit memory needed blockFuel 0 heapBase with
  | none => none
  | some best =>
      if best = 0 then some (memory, 0) else some (takeBlock memory n needed best, best + blockHdr)

/-- The forward coalescing loop of `block_free`. -/
def coalesceForward : (fuel : Nat) → Memory → (b : Nat) → Option Memory
  | 0, _, _ => none
  | fuel + 1, memory, b =>
      let next := blockNext memory b
      if next = 0 then some memory
      else if blockIsValid memory next ∧ blockFree? memory next then
        let memory := Block.set memory b .size
          (u64 (Block.get memory b .size + (blockHdr + Block.get memory next .size)))
        coalesceForward fuel (Block.set memory next .magic blockMagicCorrupt) b
      else some memory

/-- The backward coalescing of `block_free`. -/
def coalesceBackward (memory : Memory) (b : Nat) : Option Memory :=
  match blockPrev memory b with
  | none => none
  | some prev =>
      if prev ≠ 0 ∧ blockFree? memory prev ∧ blockIsValid memory prev then
        let memory := Block.set memory prev .size
          (u64 (Block.get memory prev .size + (blockHdr + Block.get memory b .size)))
        some (Block.set memory b .magic blockMagicCorrupt)
      else some memory

def blockFree (memory : Memory) (ptr : Nat) : Option Memory :=
  if ptr = 0 then some memory
  else
    let b := sub64 ptr blockHdr
    if b < heapBase ∨ heapLimit ≤ b then some memory
    else if Block.get memory b .magic = blockMagicFree then some memory
    else if Block.get memory b .magic ≠ blockMagicUsed then some memory
    else
      let memory := Block.set memory b .flags flagFree
      let memory := Block.set memory b .magic blockMagicFree
      let memory := fill memory ptr (Block.get memory b .allocSize) 0xAA
      match coalesceForward blockFuel memory b with
      | none => none
      | some memory => coalesceBackward memory b

/-- `block_heap_init`: the zeroing starts `BLOCK_HDR` bytes behind the block. -/
def blockHeapInit (memory : Memory) : Memory :=
  let b := heapBase
  let memory := Block.set memory b .size (heapSize - blockHdr)
  let memory := Block.set memory b .flags flagFree
  let memory := Block.set memory b .magic blockMagicFree
  let memory := Block.set memory b .allocSize 0
  fill memory (b + blockHdr) (Block.get memory b .size) 0

/-! ## Public interface -/

def heapEnhancedInit (memory : Memory) : EnhancedHeap := ⟨blockHeapInit memory, fun _ => 0⟩

/-- The size class `heap_enhanced_malloc` routes a request to. -/
def sizeClass (n : Nat) : Option Nat :=
  (List.range slabNumClasses).find? fun c => n ≤ slabSize c - redzoneSize

def heapEnhancedMalloc (heap : EnhancedHeap) (page n : Nat) : Option (EnhancedHeap × Nat) :=
  if n = 0 then some (heap, 0)
  else
    match sizeClass n with
    | some c => slabAlloc heap page c
    | none => (blockMalloc heap.memory n).map fun (memory, ptr) => (⟨memory, heap.slabCache⟩, ptr)

/-- `heap_enhanced_free`, and the page it hands to `pmm_free`. -/
def heapEnhancedFree (heap : EnhancedHeap) (ptr : Nat) : Option (EnhancedHeap × Option Nat) :=
  if ptr = 0 then some (heap, none)
  else
    match ptrInSlab heap.memory ptr with
    | some c => slabFree heap ptr c (pageBase ptr)
    | none =>
        if heapBase ≤ ptr ∧ ptr < heapLimit then
          (blockFree heap.memory ptr).map fun memory => (⟨memory, heap.slabCache⟩, none)
        else some (heap, none)

/-- The loop of `heap_check_integrity`; it ends at the first block that is not valid. -/
def checkBlocks (memory : Memory) : (fuel b : Nat) → Option Nat
  | 0, _ => none
  | fuel + 1, b =>
      if b < heapLimit then
        if blockIsValid memory b then
          let next := blockNext memory b
          if next = 0 then some 0 else checkBlocks memory fuel next
        else some 1
      else some 0

def heapCheckIntegrity (heap : EnhancedHeap) : Option Nat := checkBlocks heap.memory blockFuel heapBase

end Systrix.HeapEnhanced

/-!
## Runs of the enhanced block tier

Large allocations, their release and writes of the clients into their payloads.  The zeroing at
the end of `block_heap_init` wipes the magic number that `block_heap_init` has just written, so
the only block of the arena is not valid and none is ever handed out.
-/

namespace Systrix.HeapEnhanced

open ByteMemory Machine Run

/-- A payload a client holds, and how many bytes were asked for. -/
structure Payload where
  ptr : Nat
  wanted : Nat
  deriving DecidableEq, Repr

/-- The heap and the payloads of the block tier that clients hold. -/
structure BlockClients where
  heap : EnhancedHeap
  live : List Payload

/-- What clients do: allocate, release, and write a byte of a payload. -/
inductive BlockCall where
  | malloc (page n : Nat)
  | free (ptr : Nat)
  | write (ptr offset : Nat) (byte : UInt8)

/-- Requests are too large for a slab, what is released is held or `NULL`, and clients write inside
the payloads they hold. -/
def BlockCall.Valid (state : BlockClients) : BlockCall → Prop
  | malloc _ n => slabSize 9 - redzoneSize < n
  | free ptr => ptr = 0 ∨ ptr ∈ state.live.map Payload.ptr
  | write ptr offset _ => ∃ payload ∈ state.live, payload.ptr = ptr ∧ offset < payload.wanted

/-- One call; a call that does not return leaves everything as it is. -/
def BlockClients.step (state : BlockClients) : BlockCall → BlockClients
  | .malloc page n =>
      match heapEnhancedMalloc state.heap page n with
      | none => state
      | some (heap, ptr) => ⟨heap, if ptr = 0 then state.live else ⟨ptr, n⟩ :: state.live⟩
  | .free ptr =>
      match heapEnhancedFree state.heap ptr with
      | none => state
      | some (heap, _) => ⟨heap, state.live.filter (·.ptr ≠ ptr)⟩
  | .write ptr offset byte =>
      ⟨⟨Function.update state.heap.memory (ptr + offset) byte, state.heap.slabCache⟩, state.live⟩

/-- The state `heap_enhanced_init` leaves. -/
def BlockClients.boot (memory : Memory) : BlockClients := ⟨heapEnhancedInit memory, []⟩

/-- The arena is one free block. -/
def OneFreeBlock (memory : Memory) : Prop :=
  blockIsValid memory heapBase ∧ blockFree? memory heapBase ∧
    Block.get memory heapBase .size = heapSize - blockHdr

/-- What the block tier promises: the check finds no error, payloads are large enough and do not
meet, and when nothing is held the arena is one free block. -/
structure BlockClients.Intact (state : BlockClients) : Prop where
  check : heapCheckIntegrity state.heap = some 0
  large : ∀ payload ∈ state.live,
    payload.wanted ≤ Block.get state.heap.memory (payload.ptr - blockHdr) .size
  apart : state.live.Pairwise fun payload other =>
    Apart payload.ptr (payload.ptr + payload.wanted) other.ptr (other.ptr + other.wanted)
  whole : state.live = [] → OneFreeBlock state.heap.memory

/-! ## A wiped arena -/

/-- The first block of the arena has no magic number. -/
def Wiped (memory : Memory) : Prop := Block.get memory heapBase .magic = 0

theorem wiped_blockHeapInit (memory : Memory) : Wiped (blockHeapInit memory) := by
  have size : ∀ memory' : Memory, Block.get (Block.set (Block.set (Block.set (Block.set memory' heapBase .size
      (heapSize - blockHdr)) heapBase .flags flagFree) heapBase .magic blockMagicFree)
      heapBase .allocSize 0) heapBase .size = heapSize - blockHdr := by
    intro memory'
    unfold Block.get Block.set Block.offset
    rw [load_store_of_apart _ _ (by decide), load_store_of_apart _ _ (by decide),
      load_store_of_apart _ _ (by decide)]
    exact load_store_of_lt _ _ (by decide)
  unfold Wiped blockHeapInit
  simp only [size]
  exact load_fill_zero _ (by decide)

namespace Wiped

variable {memory : Memory}

theorem not_valid (wiped : Wiped memory) : blockIsValid memory heapBase = false := by
  have noMagic : Block.get memory heapBase .magic ≠ blockMagicFree ∧
      Block.get memory heapBase .magic ≠ blockMagicUsed := by
    rw [show Block.get memory heapBase .magic = 0 from wiped]
    decide
  unfold blockIsValid
  rw [if_neg (by decide), if_pos noMagic]

theorem bestFit_eq (wiped : Wiped memory) (needed : Nat) :
    bestFit memory needed blockFuel 0 heapBase = some 0 := by
  have inside : heapBase < heapLimit := by decide
  unfold blockFuel bestFit
  rw [if_pos inside, wiped.not_valid]
  rfl

/-- Nothing can be allocated. -/
theorem blockMalloc_eq (wiped : Wiped memory) (n : Nat) : blockMalloc memory n = some (memory, 0) := by
  unfold blockMalloc
  simp only [wiped.bestFit_eq]
  rfl

/-- The check reports an error. -/
theorem checkBlocks_eq (wiped : Wiped memory) : checkBlocks memory blockFuel heapBase = some 1 := by
  have inside : heapBase < heapLimit := by decide
  unfold blockFuel checkBlocks
  rw [if_pos inside, wiped.not_valid]
  rfl

end Wiped

theorem sizeClass_large {n : Nat} (large : slabSize 9 - redzoneSize < n) : sizeClass n = none := by
  refine List.find?_eq_none.mpr fun c isClass => ?_
  have fits : ∀ c ∈ List.range slabNumClasses, slabSize c - redzoneSize ≤ slabSize 9 - redzoneSize := by decide
  have below := fits c isClass
  simpa using Nat.lt_of_le_of_lt below large

/-- Nobody holds a block and the arena stays wiped. -/
def BlockClients.Barren (state : BlockClients) : Prop := Wiped state.heap.memory ∧ state.live = []

theorem BlockClients.Barren.step {state : BlockClients} (barren : state.Barren) {call : BlockCall}
    (valid : call.Valid state) : (state.step call).Barren := by
  obtain ⟨wiped, none⟩ := barren
  cases call with
  | malloc page n =>
      have positive : n ≠ 0 := by
        rintro rfl
        exact absurd valid (Nat.not_lt_zero _)
      have run : heapEnhancedMalloc state.heap page n = some (state.heap, 0) := by
        unfold heapEnhancedMalloc
        rw [if_neg positive, sizeClass_large valid]
        simp only [wiped.blockMalloc_eq]
        rfl
      unfold BlockClients.step
      simp only [run, if_true]
      exact ⟨wiped, none⟩
  | free ptr =>
      have isNull : ptr = 0 := by
        rcases valid with isNull | held
        · exact isNull
        · rw [none] at held
          exact absurd held List.not_mem_nil
      have run : heapEnhancedFree state.heap ptr = some (state.heap, Option.none) := if_pos isNull
      unfold BlockClients.step
      simp only [run]
      refine ⟨wiped, ?_⟩
      rw [none]
      rfl
  | write ptr offset byte =>
      obtain ⟨payload, held, -⟩ := valid
      rw [none] at held
      exact absurd held List.not_mem_nil

theorem BlockClients.barren_run (memory : Memory) {calls : List BlockCall}
    (valid : Meets BlockClients.step (fun state call => call.Valid state) (boot memory) calls) :
    (final BlockClients.step (boot memory) calls).Barren :=
  valid.invariant (fun _ _ barren valid => barren.step valid) ⟨wiped_blockHeapInit memory, rfl⟩

/-- No state that valid calls reach after `heap_enhanced_init`, the first one included, is intact:
`heap_check_integrity` counts an error, nothing was ever handed out, and what is left with nothing
held is not one free block. -/
theorem blocks_not_intact (memory : Memory) (calls : List BlockCall)
    (valid : Meets BlockClients.step (fun state call => call.Valid state) (.boot memory) calls) :
    heapCheckIntegrity (final BlockClients.step (.boot memory) calls).heap = some 1 ∧
      (final BlockClients.step (.boot memory) calls).live = [] ∧
      ¬(final BlockClients.step (.boot memory) calls).Intact := by
  obtain ⟨wiped, none⟩ := BlockClients.barren_run memory valid
  refine ⟨wiped.checkBlocks_eq, none, fun intact => ?_⟩
  have isValid := (intact.whole none).1
  rw [wiped.not_valid] at isValid
  exact absurd isValid (by decide)

theorem blocks_not_intact_malloc :
    ¬(final BlockClients.step (.boot fun _ => 0) [.malloc 0 10000, .free 0]).Intact :=
  (blocks_not_intact (fun _ => 0) [.malloc 0 10000, .free 0]
    ⟨by unfold BlockCall.Valid; decide, Or.inl rfl, trivial⟩).2.2

/-- One allocation of 10000 bytes after `heap_enhanced_init`. -/
theorem integrity_error_after_malloc : ¬∀ memory calls,
    Meets BlockClients.step (fun state call => call.Valid state) (.boot memory) calls →
      (final BlockClients.step (.boot memory) calls).Intact := by
  intro promise
  have valid : Meets BlockClients.step (fun state call => call.Valid state) (.boot fun _ => 0)
      [.malloc 0 10000] := ⟨by unfold BlockCall.Valid; decide, trivial⟩
  have check := (promise (fun _ => 0) [.malloc 0 10000] valid).check
  unfold heapCheckIntegrity at check
  rw [(BlockClients.barren_run (fun _ => 0) valid).1.checkBlocks_eq] at check
  exact absurd check (by decide)

end Systrix.HeapEnhanced
