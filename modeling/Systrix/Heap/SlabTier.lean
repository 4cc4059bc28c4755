import Systrix.Heap.BlockTier

/-!
# Slab tier and public interface of the kernel heap

Objects of at most 2048 bytes live in slots of slab pages, one page chain per
size class.  A slab page starts with a `SlabHdr`; its free slots form a list
through the first four bytes of each slot.
-/

namespace Systrix.Heap

open ByteMemory Machine

/-- Kernel heap state: all of memory and the head page of each size class. -/
structure KernelHeap where
  memory : Memory
  slabCache : Nat → Nat

def slabSizes : List Nat := [16, 32, 64, 128, 256, 512, 1024, 2048]

/-- `slab_sizes[c]` -/
def slabSize (class_idx : Nat) : Nat := slabSizes.getD class_idx 0

def slabNil : Nat := 0xFFFFFFFF

def slabHdrSz : Nat := 32

/-! ## `SlabHdr` fields -/

section SlabHdr

variable (memory : Memory) (h : Nat)

def freeHead : Nat := load memory h 4
def freeCount : Nat := load memory (h + 4) 4
def slabTotal : Nat := load memory (h + 8) 4
def objSize : Nat := load memory (h + 12) 4
def classIdx : Nat := load memory (h + 16) 4
def nextSlab : Nat := load memory (h + 20) 4

def setFreeHead (value : Nat) : Memory := store memory h 4 value
def setFreeCount (value : Nat) : Memory := store memory (h + 4) 4 value
def setTotal (value : Nat) : Memory := store memory (h + 8) 4 value
def setObjSize (value : Nat) : Memory := store memory (h + 12) 4 value
def setClassIdx (value : Nat) : Memory := store memory (h + 16) 4 value
def setNextSlab (value : Nat) : Memory := store memory (h + 20) 4 value

end SlabHdr

def slotPtr (slab_phys obj_size idx : Nat) : Nat := slab_phys + slabHdrSz + idx * obj_size

/-- Slots of a page of the given object size. -/
def slotCount (obj_size : Nat) : Nat := (pageSize - slabHdrSz) / obj_size

/-- Thread the free list of a fresh page through its first `count` slots. -/
def threadSlots (memory : Memory) (phys obj_size n : Nat) : (count : Nat) → Memory
  | 0 => memory
  | i + 1 =>
      store (threadSlots memory phys obj_size n i) (slotPtr phys obj_size i) 4
        (if i + 1 < n then i + 1 else slabNil)

def slabPageInit (memory : Memory) (phys class_idx : Nat) : Memory :=
  let obj_size := slabSize class_idx
  let memory := fill memory phys pageSize 0
  let n := slotCount obj_size
  let memory := setObjSize memory phys obj_size
  let memory := setClassIdx memory phys class_idx
  let memory := setTotal memory phys n
  let memory := setFreeCount memory phys n
  let memory := setNextSlab memory phys 0
  let memory := threadSlots memory phys obj_size n n
  setFreeHead memory phys 0

/-- The page walk of `slab_alloc`: the first page of the chain with a free slot,
`0` when there is none. -/
def findSlab (memory : Memory) : (fuel phys : Nat) → Option Nat
  | 0, _ => none
  | fuel + 1, phys =>
      if phys = 0 then some 0
      else if 0 < freeCount memory phys then some phys
      else findSlab memory fuel (nextSlab memory phys)

/-- Upper bound on the pages of physical memory, and so on every chain. -/
def slabFuel : Nat := ramEndMax / pageSize + 1

/-- The `found:` part of `slab_alloc`. -/
def takeSlot (memory : Memory) (phys obj_size : Nat) : Memory × Nat :=
  let idx := freeHead memory phys
  let slot := slotPtr phys obj_size idx
  let memory := setFreeHead memory phys (load memory slot 4)
  let memory := setFreeCount memory phys (freeCount memory phys - 1)
  (fill memory slot obj_size 0, slot)

/-- `slab_alloc`; `page` is what `pmm_alloc` returns if it is called. -/
def slabAlloc (heap : KernelHeap) (page class_idx : Nat) : Option (KernelHeap × Nat) :=
  let obj_size := slabSize class_idx
  match findSlab heap.memory slabFuel (heap.slabCache class_idx) with
  | none => none
  | some 0 =>
      if page = 0 then some (heap, 0)
      else
        let memory := slabPageInit heap.memory page class_idx
        let memory := setNextSlab memory page (u32 (heap.slabCache class_idx))
        let cache := Function.update heap.slabCache class_idx page
        let (memory, slot) := takeSlot memory page obj_size
        some (⟨memory, cache⟩, slot)
  | some phys =>
      let (memory, slot) := takeSlot heap.memory phys obj_size
      some (⟨memory, heap.slabCache⟩, slot)

/-- Page base of a pointer. -/
def pageBase (ptr : Nat) : Nat := alignDown ptr pageSize

/-- `ptr_in_slab`: the class recorded at the start of the pointer's page, when
that looks like a slab header. -/
def ptrInSlab (memory : Memory) (ptr : Nat) : Option Nat :=
  (List.range slabSizes.length).find? fun c =>
    objSize memory (pageBase ptr) = slabSize c ∧ classIdx memory (pageBase ptr) = c

def slabFree (memory : Memory) (ptr slab_phys : Nat) : Memory :=
  let obj_size := objSize memory slab_phys
  let idx := u32 (sub64 ptr (slab_phys + slabHdrSz)) / obj_size
  let memory := store memory ptr 4 (freeHead memory slab_phys)
  let memory := setFreeHead memory slab_phys idx
  setFreeCount memory slab_phys (freeCount memory slab_phys + 1)

/-! ## Public interface -/

/-- The size class `heap_malloc` routes a request to. -/
def sizeClass (n : Nat) : Option Nat :=
  (List.range slabSizes.length).find? fun c => n ≤ slabSize c

def heapMalloc (heap : KernelHeap) (page n : Nat) : Option (KernelHeap × Nat) :=
  if n = 0 then some (heap, 0)
  else
    match sizeClass n with
    | some c => slabAlloc heap page c
    | none => (blockMalloc heap.memory n).map fun (memory, ptr) => (⟨memory, heap.slabCache⟩, ptr)

def heapFree (heap : KernelHeap) (ptr : Nat) : Option KernelHeap :=
  if ptr = 0 then some heap
  else
    match ptrInSlab heap.memory ptr with
    | some _ => some ⟨slabFree heap.memory ptr (pageBase ptr), heap.slabCache⟩
    | none =>
        if heapBase ≤ ptr ∧ ptr < heapLimit then
          (blockFree heap.memory ptr).map fun memory => ⟨memory, heap.slabCache⟩
        else some heap

/-- The old size `heap_realloc` works with. -/
def oldSize (memory : Memory) (old : Nat) : Nat :=
  match ptrInSlab memory old with
  | some c => slabSize c
  | none =>
      let b := sub64 old blockHdr
      if heapBase ≤ b ∧ b < heapLimit then blockSize memory b else 0

def heapRealloc (heap : KernelHeap) (page old new_sz : Nat) : Option (KernelHeap × Nat) :=
  if old = 0 then heapMalloc heap page new_sz
  else if new_sz = 0 then (heapFree heap old).map fun heap => (heap, 0)
  else
    let old_sz := oldSize heap.memory old
    if new_sz ≤ old_sz then some (heap, old)
    else
      match heapMalloc heap page new_sz with
      | none => none
      | some (heap', n) =>
          if n = 0 then some (heap', 0)
          else
            (heapFree ⟨copy heap'.memory n old old_sz, heap'.slabCache⟩ old).map
              fun heap => (heap, n)

end Systrix.Heap
