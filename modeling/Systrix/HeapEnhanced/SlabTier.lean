import Systrix.Kernel.Layout

/-!
# Slab tier of the enhanced kernel heap

`heap_enhanced.c` serves objects of up to 8184 bytes from slab pages, one doubly linked chain of
pages per size class.  Every slot ends in a red zone of eight bytes.  A page whose last object is
released goes back to the page allocator.
-/

namespace Systrix.HeapEnhanced

open ByteMemory Machine

/-- All of memory and the head page of each size class. -/
structure EnhancedHeap where
  memory : Memory
  slabCache : Nat → Nat

def slabNumClasses : Nat := 10

def slabSizes : List Nat := [16, 32, 64, 128, 256, 512, 1024, 2048, 4096, 8192]

/-- `slab_sizes[c]` -/
def slabSize (class_idx : Nat) : Nat := slabSizes.getD class_idx 0

def slabNil : Nat := 0xFFFFFFFF

/-- `SLAB_HDR_SZ`, the 36 bytes of `SlabHdr` rounded up to 16. -/
def slabHdrSz : Nat := 48

def redzoneMagic : Nat := 0xDEAD

def redzoneSize : Nat := 8

/-- The fields of `SlabHdr`, each a `u32`. -/
inductive SlabHdr where
  | freeHead
  | freeCount
  | total
  | objSize
  | classIdx
  | nextSlab
  | prevSlab
  | allocCount
  | colorOffset
  deriving DecidableEq, Repr

namespace SlabHdr

/-- Offset of a field in the header. -/
def offset : SlabHdr → Nat
  | freeHead => 0
  | freeCount => 4
  | total => 8
  | objSize => 12
  | classIdx => 16
  | nextSlab => 20
  | prevSlab => 24
  | allocCount => 28
  | colorOffset => 32

/-- `h->field` -/
def get (memory : Memory) (h : Nat) (field : SlabHdr) : Nat := load memory (h + field.offset) 4

/-- `h->field = value` -/
def set (memory : Memory) (h : Nat) (field : SlabHdr) (value : Nat) : Memory :=
  store memory (h + field.offset) 4 value

end SlabHdr

def slotPtr (slab_phys obj_size idx : Nat) : Nat := slab_phys + slabHdrSz + idx * obj_size

/-- Slots of a page of the given object size. -/
def slotCount (obj_size : Nat) : Nat := (pageSize - slabHdrSz) / obj_size

/-- Thread the free list of a fresh page through its first `count` slots. -/
def threadSlots (memory : Memory) (phys obj_size n : Nat) : (count : Nat) → Memory
  | 0 => memory
  | i + 1 =>
      store (threadSlots memory phys obj_size n i) (slotPtr phys obj_size i) 4
        (if i + 1 < n then i + 1 else slabNil)

def slabPageInit (memory : Memory) (phys class_idx : Nat) : Memory :=
  let obj_size := slabSize class_idx
  let memory := fill memory phys pageSize 0
  let n := slotCount obj_size
  let memory := SlabHdr.set memory phys .objSize obj_size
  let memory := SlabHdr.set memory phys .classIdx class_idx
  let memory := SlabHdr.set memory phys .total n
  let memory := SlabHdr.set memory phys .freeCount n
  let memory := SlabHdr.set memory phys .allocCount 0
  let memory := SlabHdr.set memory phys .nextSlab 0
  let memory := SlabHdr.set memory phys .prevSlab 0
  let memory := SlabHdr.set memory phys .colorOffset 0
  let memory := threadSlots memory phys obj_size n n
  SlabHdr.set memory phys .freeHead 0

/-- The page walk of `slab_alloc`: the first page of the chain with a free slot, `0` when there is
none. -/
def findSlab (memory : Memory) : (fuel phys : Nat) → Option Nat
  | 0, _ => none
  | fuel + 1, phys =>
      if phys = 0 then some 0
      else if 0 < SlabHdr.get memory phys .freeCount then some phys
      else findSlab memory fuel (SlabHdr.get memory phys .nextSlab)

/-- Upper bound on the pages of physical memory, and so on every chain. -/
def slabFuel : Nat := ramEndMax / pageSize + 1

/-- The `found:` part of `slab_alloc`. -/
def takeSlot (memory : Memory) (phys obj_size : Nat) : Memory × Nat :=
  let usable_size := obj_size - redzoneSize
  let idx := SlabHdr.get memory phys .freeHead
  let slot := slotPtr phys obj_size idx
  let memory := SlabHdr.set memory phys .freeHead (load memory slot 4)
  let memory := SlabHdr.set memory phys .freeCount (sub32 (SlabHdr.get memory phys .freeCount) 1)
  let memory := SlabHdr.set memory phys .allocCount (u32 (SlabHdr.get memory phys .allocCount + 1))
  let memory := fill memory slot usable_size 0
  (store memory (slot + usable_size) 2 redzoneMagic, slot)

/-- The new page of `slab_alloc` becomes the head of its class. -/
def linkPage (memory : Memory) (phys head : Nat) : Memory :=
  let memory := SlabHdr.set memory phys .nextSlab (u32 head)
  if head ≠ 0 then SlabHdr.set memory head .prevSlab (u32 phys) else memory

/-- `slab_alloc`; `page` is what `pmm_alloc` returns if it is called. -/
def slabAlloc (heap : EnhancedHeap) (page class_idx : Nat) : Option (EnhancedHeap × Nat) :=
  let obj_size := slabSize class_idx
  match findSlab heap.memory slabFuel (heap.slabCache class_idx) with
  | none => none
  | some 0 =>
      if page = 0 then some (heap, 0)
      else
        let memory := slabPageInit heap.memory page class_idx
        let memory := linkPage memory page (heap.slabCache class_idx)
        let cache := Function.update heap.slabCache class_idx page
        let (memory, slot) := takeSlot memory page obj_size
        some (⟨memory, cache⟩, slot)
  | some phys =>
      let (memory, slot) := takeSlot heap.memory phys obj_size
      some (⟨memory, heap.slabCache⟩, slot)

/-- Page base of a pointer. -/
def pageBase (ptr : Nat) : Nat := alignDown ptr pageSize

/-- `ptr_in_slab`: the class recorded at the start of the pointer's page, when that looks like a
slab header. -/
def ptrInSlab (memory : Memory) (ptr : Nat) : Option Nat :=
  (List.range slabNumClasses).find? fun c =>
    SlabHdr.get memory (pageBase ptr) .objSize = slabSize c ∧
      SlabHdr.get memory (pageBase ptr) .classIdx = c

/-- The double-free walk of `slab_free`: whether a slot is on the free list from `check` on. -/
def onFreeList (memory : Memory) (slab_phys obj_size idx : Nat) : (fuel check : Nat) → Option Bool
  | 0, _ => none
  | fuel + 1, check =>
      if check = slabNil then some false
      else if check = idx then some true
      else onFreeList memory slab_phys obj_size idx fuel (load memory (slotPtr slab_phys obj_size check) 4)

/-- Upper bound on the slots of a page, and so on every free list. -/
def slotFuel : Nat := pageSize / 16 + 1

/-- The slot goes back to the free list of its page, poisoned. -/
def returnSlot (memory : Memory) (ptr slab_phys idx : Nat) : Memory :=
  let usable_size := SlabHdr.get memory slab_phys .objSize - redzoneSize
  let memory := fill memory ptr usable_size 0xAA
  let memory := store memory ptr 4 (SlabHdr.get memory slab_phys .freeHead)
  let memory := SlabHdr.set memory slab_phys .freeHead idx
  let memory := SlabHdr.set memory slab_phys .freeCount (u32 (SlabHdr.get memory slab_phys .freeCount + 1))
  SlabHdr.set memory slab_phys .allocCount (sub32 (SlabHdr.get memory slab_phys .allocCount) 1)

/-- `slab_free` unlinks a page: only `SLAB_NIL` stands for no neighbour here. -/
def unlinkPage (heap : EnhancedHeap) (class_idx slab_phys : Nat) : EnhancedHeap :=
  let prev := SlabHdr.get heap.memory slab_phys .prevSlab
  let next := SlabHdr.get heap.memory slab_phys .nextSlab
  let heap' : EnhancedHeap :=
    if prev ≠ slabNil then ⟨SlabHdr.set heap.memory prev .nextSlab next, heap.slabCache⟩
    else ⟨heap.memory, Function.update heap.slabCache class_idx next⟩
  let next' := SlabHdr.get heap'.memory slab_phys .nextSlab
  if next' ≠ slabNil then
    ⟨SlabHdr.set heap'.memory next' .prevSlab (SlabHdr.get heap'.memory slab_phys .prevSlab),
      heap'.slabCache⟩
  else heap'

/-- `slab_free`, and the page it hands to `pmm_free`. -/
def slabFree (heap : EnhancedHeap) (ptr class_idx slab_phys : Nat) :
    Option (EnhancedHeap × Option Nat) :=
  let h := slab_phys
  let obj_size := SlabHdr.get heap.memory h .objSize
  let idx := u32 (sub64 ptr (slab_phys + slabHdrSz)) / obj_size
  match onFreeList heap.memory slab_phys obj_size idx slotFuel (SlabHdr.get heap.memory h .freeHead) with
  | none => none
  | some true => some (heap, none)
  | some false =>
      let memory := returnSlot heap.memory ptr slab_phys idx
      if SlabHdr.get memory h .freeCount = SlabHdr.get memory h .total ∧
          SlabHdr.get memory h .allocCount = 0 ∧
          (SlabHdr.get memory h .nextSlab ≠ 0 ∨ heap.slabCache class_idx ≠ slab_phys) then
        let heap := unlinkPage ⟨memory, heap.slabCache⟩ class_idx slab_phys
        some (⟨fill heap.memory slab_phys pageSize 0xAA, heap.slabCache⟩, some slab_phys)
      else some (⟨memory, heap.slabCache⟩, none)

end Systrix.HeapEnhanced
