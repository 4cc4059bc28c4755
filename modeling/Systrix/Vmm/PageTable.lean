import Mathlib.Logic.Function.Basic
import Systrix.Lib.TableTree

/-!
# Page tables

The page table walker of `kernel/vmm.c`, with the part of `kernel/pmm.c` it uses, and the
walk of the processor.
-/

namespace Systrix.Vmm

abbrev Word := BitVec 64

/-- An index into a table of 512 entries. -/
abbrev Index := BitVec 9

/-- Memory by the address of a page and the index of a word in it. -/
abbrev Pages := Word → Index → Word

/-! ## Entries -/

def ptePresent : Word := 1

def pteWrite : Word := 2

def pteUser : Word := 4

def pteNx : Word := 0x8000000000000000

def ptePhysMask : Word := 0x000ffffffffff000

/-- The test of `PTE_PRESENT`. -/
def present (e : Word) : Bool := e.getLsbD 0

/-- The test of `PTE_WRITE`. -/
def writable (e : Word) : Bool := e.getLsbD 1

/-- The test of `PTE_USER`. -/
def user (e : Word) : Bool := e.getLsbD 2

/-- The test of bit 7, a page of 2 MB. -/
def huge (e : Word) : Bool := e.getLsbD 7

/-- The test of `PTE_NX`. -/
def noExecute (e : Word) : Bool := e.getLsbD 63

/-- The page an entry refers to. -/
def frame (e : Word) : Word := e &&& ptePhysMask

def i4 (virt : Word) : Index := virt.extractLsb' 39 9

def i3 (virt : Word) : Index := virt.extractLsb' 30 9

def i2 (virt : Word) : Index := virt.extractLsb' 21 9

def i1 (virt : Word) : Index := virt.extractLsb' 12 9

/-- The entry for a new table. -/
def tableEntry (p : Word) : Word := p ||| ptePresent ||| pteWrite ||| pteUser

/-- The offset in a page of 2 MB of page `k` of 4 KB. -/
def pageOffset (k : Index) : Word := k.setWidth 64 * 0x1000

/-- Entry `k` of the table that replaces the entry of a huge page. -/
def splitEntry (e : Word) (k : Index) : Word :=
  let huge_phys := e &&& ~~~(0x1fffff : Word)
  let huge_flags := e &&& 0xfff &&& ~~~(0x80 : Word)
  (huge_phys + pageOffset k) ||| huge_flags

/-! ## Memory -/

/-- Physical memory and what the physical memory manager knows of it. -/
structure Vm where
  mem : Pages
  /-- The pages `pmm_alloc` will return; after them it returns 0. -/
  supply : List Word
  /-- `PMM_REFCNT`, by the address of the page. -/
  refcnt : Word → Nat
  /-- `ram_end_actual` -/
  ram_end : Word
  /-- The pages `pmm_free` was called with, the last one first. -/
  freed : List Word
  /-- The list links `pmm_free` leaves at the start of a page. -/
  node : Word → Word

def ramStart : Word := 0x400000

/-- `pmm_alloc`; the page is zeroed. -/
def pmmAlloc (vm : Vm) : Option (Word × Vm) :=
  match vm.supply with
  | [] => none
  | p :: rest =>
      some (p, { vm with
        mem := Function.update vm.mem p fun _ => 0
        supply := rest
        refcnt := Function.update vm.refcnt p 1 })

/-- The test of `phys_to_idx`: the page is managed. -/
def inRam (vm : Vm) (p : Word) : Bool := ramStart ≤ p && p < vm.ram_end

def pmmFree (vm : Vm) (p : Word) : Vm :=
  if inRam vm p then
    { vm with mem := TableTree.setEntry vm.mem p 0 (vm.node p), freed := p :: vm.freed }
  else vm

def pmmRefcount (vm : Vm) (p : Word) : Nat := if inRam vm p then vm.refcnt p else 0

def pmmUnref (vm : Vm) (p : Word) : Vm :=
  if pmmRefcount vm p = 0 then vm
  else
    let vm := { vm with refcnt := Function.update vm.refcnt p (vm.refcnt p - 1) }
    if vm.refcnt p = 0 then pmmFree vm p else vm

/-- Store an entry of a table. -/
def Vm.setEntry (vm : Vm) (t : Word) (i : Index) (e : Word) : Vm :=
  { vm with mem := TableTree.setEntry vm.mem t i e }

/-- Fill a page of memory. -/
def Vm.setPage (vm : Vm) (p : Word) (contents : Index → Word) : Vm :=
  { vm with mem := Function.update vm.mem p contents }

/-- One level of `pte_get`: the table an entry refers to, a new one when there is none. -/
def nextTable (vm : Vm) (t : Word) (i : Index) (alloc : Bool) : Option Word × Vm :=
  if present (vm.mem t i) then (some (frame (vm.mem t i)), vm)
  else if alloc then
    match pmmAlloc vm with
    | none => (none, vm)
    | some (p, vm) =>
        let vm := vm.setEntry t i (tableEntry p)
        (some (frame (vm.mem t i)), vm)
  else (none, vm)

/-- The part of `pte_get` that splits the huge page of an entry. -/
def splitHuge (vm : Vm) (pd : Word) (i : Index) : Option Word × Vm :=
  match pmmAlloc vm with
  | none => (none, vm)
  | some (pt, vm') =>
      let filled := { vm' with mem := Function.update vm'.mem pt (splitEntry (vm.mem pd i)) }
      (some pt, filled.setEntry pd i (tableEntry pt))

/-- `pte_get`; the table and the index of the entry. -/
def pteGet (vm : Vm) (cr3 virt : Word) (alloc : Bool) : Option (Word × Index) × Vm :=
  match nextTable vm cr3 (i4 virt) alloc with
  | (none, vm) => (none, vm)
  | (some pdpt, vm) =>
      match nextTable vm pdpt (i3 virt) alloc with
      | (none, vm) => (none, vm)
      | (some pd, vm) =>
          match
            if huge (vm.mem pd (i2 virt)) then
              if alloc then splitHuge vm pd (i2 virt) else (none, vm)
            else nextTable vm pd (i2 virt) alloc with
          | (none, vm) => (none, vm)
          | (some pt, vm) => (some (pt, i1 virt), vm)

def vmmMap (vm : Vm) (cr3 virt phys flags : Word) : Vm :=
  match pteGet vm cr3 virt true with
  | (none, vm) => vm
  | (some (pt, i), vm) => vm.setEntry pt i (phys &&& ptePhysMask ||| flags ||| ptePresent)

def vmmUnmap (vm : Vm) (cr3 virt : Word) : Vm :=
  match pteGet vm cr3 virt false with
  | (none, vm) => vm
  | (some (pt, i), vm) => vm.setEntry pt i 0

def vmmVirtToPhys (vm : Vm) (cr3 virt : Word) : Word :=
  match pteGet vm cr3 virt false with
  | (none, _) => 0
  | (some (pt, i), vm) =>
      if present (vm.mem pt i) then (vm.mem pt i &&& ptePhysMask) ||| (virt &&& 0xfff) else 0

/-! ## The walk of the processor -/

/-- What may be done with a page. -/
structure Perms where
  write : Bool
  ring3 : Bool
  nx : Bool
  deriving DecidableEq

/-- The permissions of one entry. -/
def Perms.ofEntry (e : Word) : Perms := ⟨writable e, user e, noExecute e⟩

/-- What two entries allow together. -/
def Perms.and (a b : Perms) : Perms := ⟨a.write && b.write, a.ring3 && b.ring3, a.nx || b.nx⟩

/-- Nothing is forbidden. -/
def Perms.full : Perms := ⟨true, true, false⟩

/-- What an address is mapped to: the page of 4 KB, and the permissions of all levels. -/
structure Mapping where
  frame : Word
  perms : Perms
  deriving DecidableEq

/-- The page of 4 KB in a page of 2 MB. -/
def hugeFrame (e virt : Word) : Word := (e &&& 0x000fffffffe00000) ||| pageOffset (i1 virt)

/-- The page of 4 KB in a page of 1 GB. -/
def giantFrame (e virt : Word) : Word := (e &&& 0x000fffffc0000000) ||| (virt &&& 0x3ffff000)

/-- The walk of the processor; bit 7 is reserved in the entries of the first level. -/
def walk (mem : Pages) (cr3 virt : Word) : Option Mapping :=
  let e4 := mem cr3 (i4 virt)
  if present e4 && !huge e4 then
    let e3 := mem (frame e4) (i3 virt)
    if present e3 then
      if huge e3 then some ⟨giantFrame e3 virt, (Perms.ofEntry e4).and (.ofEntry e3)⟩
      else
        let e2 := mem (frame e3) (i2 virt)
        if present e2 then
          if huge e2 then
            some ⟨hugeFrame e2 virt, (Perms.ofEntry e4).and ((Perms.ofEntry e3).and (.ofEntry e2))⟩
          else
            let e1 := mem (frame e2) (i1 virt)
            if present e1 then
              some ⟨frame e1, (Perms.ofEntry e4).and
                ((Perms.ofEntry e3).and ((Perms.ofEntry e2).and (.ofEntry e1)))⟩
            else none
        else none
    else none
  else none

end Systrix.Vmm
