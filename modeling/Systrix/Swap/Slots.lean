import Systrix.Jfs.Volume

/-!
# Swap space

The swap space of `kernel/swap.c`: a table of the pages that are swapped out, and slots of
eight sectors on disk with a bitmap in the header sector.
-/

namespace Systrix.Swap

open ByteMemory Machine

def swapMagic : Nat := 0x57415053

def swapMaxPages : Nat := 4096

def swapDiskSectors : Nat := 8192

def swapStartLba : Nat := 130000

def pageSize : Nat := 4096

/-- Offset of `used_sectors` in `swap_header_t`. -/
def usedOffset : Nat := 12

/-- Offset of `bitmap` in `swap_header_t`. -/
def bitmapOffset : Nat := 16

/-- `sizeof(swap_header_t)` -/
def headerSize : Nat := bitmapOffset + swapDiskSectors / 8

/-- `swap_entry_t` -/
structure SwapEntry where
  virt : Nat
  swap_sector : Nat
  pid : Nat
  deriving DecidableEq

/-- An entry that was cleared. -/
def zeroEntry : SwapEntry := ⟨0, 0, 0⟩

/-- The static state of `swap.c` and the disk. The first 512 bytes at `swap_buf` are the
buffer, the others what follows it in memory. -/
structure SwapState where
  disk : Disk
  swap_table : Nat → SwapEntry
  swap_next_free : Nat
  swap_buf : Memory

variable (s : SwapState)

/-- Assign to an entry of the table. -/
def SwapState.setEntry (i : Nat) (entry : SwapEntry) : SwapState :=
  { s with swap_table := Function.update s.swap_table i entry }

/-- Read the header sector into the buffer. -/
def SwapState.loadHeader : SwapState :=
  { s with swap_buf := fun i => if i < sectorSize then ataReadSector s.disk swapStartLba i else s.swap_buf i }

/-- Write the buffer to the header sector. -/
def SwapState.storeHeader : SwapState :=
  { s with disk := ataWriteSector s.disk swapStartLba s.swap_buf }

/-- Assign to `used_sectors`. -/
def setUsed (buf : Memory) (used : Nat) : Memory := store buf usedOffset 4 used

/-- The header `swap_init` writes. -/
def freshHeader (buf : Memory) : Memory :=
  let buf := fill buf 0 sectorSize 0
  let buf := store buf 0 8 swapMagic
  let buf := store buf 8 4 swapDiskSectors
  setUsed buf 0

def swapInit : SwapState :=
  let s := { s with swap_table := fun _ => zeroEntry }.loadHeader
  if load s.swap_buf 0 8 ≠ swapMagic then { s with swap_buf := freshHeader s.swap_buf }.storeHeader else s

/-- The bit of a slot in the header that `swap_buf` points to. -/
def slotBit (buf : Memory) (idx : Nat) : Bool := BitTable.bit buf bitmapOffset idx

/-- `swap_alloc_sector`; `none` is `(u32)-1`. -/
def swapAllocSector : Option Nat × SwapState :=
  let s := s.loadHeader
  match (List.range swapDiskSectors).find? fun i => !slotBit s.swap_buf ((s.swap_next_free + i) % swapDiskSectors) with
  | none => (none, s)
  | some i =>
      let idx := (s.swap_next_free + i) % swapDiskSectors
      let buf := BitTable.set s.swap_buf bitmapOffset idx
      let buf := setUsed buf (u32 (load buf usedOffset 4 + 1))
      (some idx, { { s with swap_buf := buf }.storeHeader with swap_next_free := (idx + 1) % swapDiskSectors })

def swapFreeSector (sector : Nat) : SwapState :=
  if swapDiskSectors ≤ sector then s
  else
    let s := s.loadHeader
    let buf := BitTable.clear s.swap_buf bitmapOffset sector
    let buf := setUsed buf (sub32 (load buf usedOffset 4) 1)
    { s with swap_buf := buf }.storeHeader

/-- The first sector of a slot. -/
def slotLba (sector : Nat) : Nat := swapStartLba + sector * 8

/-- Write the first sectors of a page to consecutive sectors. -/
def writeSectors (disk : Disk) (lba : Nat) (page : Memory) : (count : Nat) → Disk
  | 0 => disk
  | i + 1 => ataWriteSector (writeSectors disk lba page i) (lba + i) fun b => page (i * sectorSize + b)

/-- The bytes of the eight sectors from `lba` on. -/
def readSectors (disk : Disk) (lba : Nat) : Memory :=
  fun b => ataReadSector disk (lba + b / sectorSize) (b % sectorSize)

/-- The entry `swap_out` takes. -/
def freeEntry : Option Nat := (List.range swapMaxPages).find? fun i => (s.swap_table i).virt = 0

/-- `swap_out`, where `phys` is what `vmm_virt_to_phys` returns for the page and `page` are the
bytes there. -/
def swapOut (virt pid phys : Nat) (page : Memory) : Int × SwapState :=
  if phys = 0 then (efault, s)
  else
    match swapAllocSector s with
    | (none, s) => (enomem, s)
    | (some sector, s) =>
        let s := { s with disk := writeSectors s.disk (slotLba sector) page 8 }
        match freeEntry s with
        | some i => (0, s.setEntry i ⟨alignDown virt pageSize, sector, pid⟩)
        | none => (enomem, swapFreeSector s sector)

/-- The entry `swap_in` finds. -/
def findEntry (virt pid : Nat) : Option Nat :=
  (List.range swapMaxPages).find? fun i =>
    (s.swap_table i).virt = alignDown virt pageSize && (s.swap_table i).pid = pid

/-- Free the slot of an entry and clear the entry. -/
def dropEntry (i : Nat) : SwapState := (swapFreeSector s (s.swap_table i).swap_sector).setEntry i zeroEntry

/-- `swap_in`, where `phys` is what `pmm_alloc` returns: the result, and the bytes it puts into
the page that `vmm_map` then maps. -/
def swapIn (virt pid phys : Nat) : Int × Option Memory × SwapState :=
  match findEntry s virt pid with
  | none => (enoent, none, s)
  | some i =>
      if phys = 0 then (enomem, none, s)
      else (0, some (readSectors s.disk (slotLba (s.swap_table i).swap_sector)), dropEntry s i)

/-- The loop of `swap_invalidate_pid` over the first entries. -/
def invalidateEntries (pid : Nat) : (count : Nat) → SwapState
  | 0 => s
  | i + 1 =>
      let s := invalidateEntries pid i
      if (s.swap_table i).pid = pid then dropEntry s i else s

def swapInvalidatePid (pid : Nat) : SwapState := invalidateEntries s pid swapMaxPages

end Systrix.Swap
