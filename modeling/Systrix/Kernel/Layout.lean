import Systrix.Lib.ByteMemory
import Systrix.Lib.Machine

/-!
# Memory layout constants

The address constants of `include/kernel.h` that the modelled subsystems use.
-/

namespace Systrix

def heapBase : Nat := 0x200000

def heapSize : Nat := 0x200000

def pmmBitmap : Nat := 0x600000

def pageSize : Nat := 4096

def ramStart : Nat := 0x400000

def ramEndMax : Nat := 0x1000000000

end Systrix

/-!
## Error numbers

The error codes of `include/kernel.h` that the modelled subsystems return.
-/

namespace Systrix

def eperm : Int := -1

def enoent : Int := -2

def esrch : Int := -3

def ebadf : Int := -9

def eagain : Int := -11

def enomem : Int := -12

def efault : Int := -14

def ebusy : Int := -16

def enotdir : Int := -20

def einval : Int := -22

def enospc : Int := -28

def enametoolong : Int := -36

def eopnotsupp : Int := -95

def eisconn : Int := -106

def enotconn : Int := -107

def etimedout : Int := -110

def ealready : Int := -114

def einprogress : Int := -115

end Systrix

/-!
## Disk

The ATA disk as the file systems see it: sectors of 512 bytes that can be read
and written whole.
-/

namespace Systrix

open ByteMemory

/-- Bytes of a sector buffer; only the first 512 are transferred. -/
abbrev Sector := Memory

abbrev Disk := Nat → Sector

/-- Bytes of a sector. -/
def sectorSize : Nat := 512

def ataReadSector (disk : Disk) (lba : Nat) : Sector := disk lba

def ataWriteSector (disk : Disk) (lba : Nat) (buf : Sector) : Disk := Function.update disk lba buf

@[simp] theorem ataWriteSector_self (disk : Disk) (lba : Nat) (buf : Sector) :
    ataWriteSector disk lba buf lba = buf := Function.update_self _ _ _

theorem ataWriteSector_of_ne (disk : Disk) {lba other : Nat} (buf : Sector) (ne : other ≠ lba) :
    ataWriteSector disk lba buf other = disk other := Function.update_of_ne ne _ _

/-- `memcpy(buf + offset, data, n)` for the bytes of `data`. -/
def patch (buf : Sector) (offset : Nat) (data : List UInt8) : Sector := fun i =>
  if offset ≤ i ∧ i < offset + data.length then data.getD (i - offset) 0 else buf i

theorem patch_inside (buf : Sector) {offset i : Nat} {data : List UInt8} (inside : i < data.length) :
    patch buf offset data (offset + i) = data[i] := by
  have position : offset + i - offset = i := Nat.add_sub_cancel_left offset i
  rw [patch, if_pos (by omega), position, List.getD_eq_getElem _ _ inside]

end Systrix
