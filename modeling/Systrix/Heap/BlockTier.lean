import Systrix.Kernel.Layout

/-!
# Block tier of the kernel heap

Large objects live in `[HEAP_BASE, HEAP_BASE + HEAP_SIZE)` behind a 16-byte
header `[size:8][flags:8]`.  The headers form an implicit list: the next header
is found by adding the header and the payload size.  Loops carry fuel; a `none`
result is a loop that has not finished.
-/

namespace Systrix.Heap

open ByteMemory Machine

def blockHdr : Nat := 16

/-- End of the block arena, `HEAP_BASE + HEAP_SIZE`. -/
def heapLimit : Nat := heapBase + heapSize

/-- `b->size` -/
def blockSize (memory : Memory) (b : Nat) : Nat := load memory b 8

/-- `b->flags & FLAG_FREE` -/
def blockFree? (memory : Memory) (b : Nat) : Bool := load memory (b + 8) 8 % 2 = 1

/-- `b->size = size` -/
def setBlockSize (memory : Memory) (b size : Nat) : Memory := store memory b 8 size

/-- `b->flags = flags` -/
def setBlockFlags (memory : Memory) (b flags : Nat) : Memory := store memory (b + 8) 8 flags

/-- The header that follows `b` in the implicit list. -/
def nextBlock (memory : Memory) (b : Nat) : Nat := u64 (b + blockHdr + blockSize memory b)

/-- Upper bound on the headers the arena can hold, and so on every list walk. -/
def blockFuel : Nat := heapSize / blockHdr + 1

/-- The block part of `heap_init`. -/
def heapInit (memory : Memory) : Memory :=
  let memory := setBlockSize memory heapBase (heapSize - blockHdr)
  let memory := setBlockFlags memory heapBase 1
  fill memory (heapBase + blockHdr) (heapSize - blockHdr) 0

/-- `n = (n + 15) & ~15UL` -/
def roundUp16 (n : Nat) : Nat := alignDown (u64 (n + 15)) 16

/-- Take block `b` for `n` bytes: split off the tail if it can hold another
block, mark it used and zero its payload. -/
def takeBlock (memory : Memory) (n b : Nat) : Memory :=
  let memory :=
    if u64 (n + blockHdr + 16) ≤ blockSize memory b then
      let next := u64 (b + blockHdr + n)
      let memory' := setBlockSize memory next
        (sub64 (sub64 (blockSize memory b) n) blockHdr)
      setBlockSize (setBlockFlags memory' next 1) b n
    else memory
  let memory := setBlockFlags memory b 0
  fill memory (b + blockHdr) (blockSize memory b) 0

/-- The first-fit loop of `block_malloc`; a result address of `0` is `NULL`. -/
def blockMallocLoop (n : Nat) : (fuel : Nat) → Memory → (b : Nat) → Option (Memory × Nat)
  | 0, _, _ => none
  | fuel + 1, memory, b =>
      if b < heapLimit then
        if blockFree? memory b ∧ n ≤ blockSize memory b then
          some (takeBlock memory n b, b + blockHdr)
        else
          blockMallocLoop n fuel memory (nextBlock memory b)
      else
        some (memory, 0)

def blockMalloc (memory : Memory) (n : Nat) : Option (Memory × Nat) :=
  blockMallocLoop (roundUp16 n) blockFuel memory heapBase

/-- The backward search of `block_free`: the block whose successor is `target`,
`0` when `target` is the first. -/
def findPrev (memory : Memory) (target : Nat) : (fuel prev cur : Nat) → Option Nat
  | 0, _, _ => none
  | fuel + 1, prev, cur =>
      if cur < target then findPrev memory target fuel cur (nextBlock memory cur)
      else some prev

/-- The forward coalescing loop of `block_free`. -/
def coalesceForward : (fuel : Nat) → Memory → (b : Nat) → Option Memory
  | 0, _, _ => none
  | fuel + 1, memory, b =>
      let next := nextBlock memory b
      if heapLimit ≤ next then some memory
      else if blockFree? memory next then
        coalesceForward fuel
          (setBlockSize memory b (u64 (blockSize memory b + (blockHdr + blockSize memory next)))) b
      else some memory

def blockFree (memory : Memory) (ptr : Nat) : Option Memory :=
  if ptr = 0 then some memory
  else
    let b := sub64 ptr blockHdr
    if b < heapBase ∨ heapLimit ≤ b then some memory
    else
      let memory := setBlockFlags memory b 1
      match findPrev memory b blockFuel 0 heapBase with
      | none => none
      | some prev =>
          if prev ≠ 0 ∧ blockFree? memory prev then
            coalesceForward blockFuel
              (setBlockSize memory prev
                (u64 (blockSize memory prev + (blockHdr + blockSize memory b)))) prev
          else
            coalesceForward blockFuel memory b

end Systrix.Heap
