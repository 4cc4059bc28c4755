import Systrix.Heap.SlabTier
import Systrix.Proc.State

/-!
# The process table in memory

`PROC_TABLE` is an array of 64 blocks of 128 bytes at a fixed address.  `process_create` and
`process_destroy` are followed here down to the bytes they store in it, with the kernel stack they take
from the heap; what they call in `vmm.c` works elsewhere and is a parameter.
-/

namespace Systrix.ProcTable

open ByteMemory Machine Heap
open Proc (procMax procKstackSz procStackTop brkBase)

def procTable : Nat := 0x300000

def procPcbSize : Nat := 128

/-- End of the table. -/
def procTableEnd : Nat := procTable + procPcbSize * procMax

/-- Address of a slot. -/
def pcb (slot : Nat) : Nat := procTable + slot * procPcbSize

/-- The fields of `PCB` that are `u64`. -/
inductive Field where
  | state
  | kstack
  | ursp
  | entry
  | pid
  | cr3
  | brk
  | kbase
  | vmaTable
  deriving DecidableEq, Repr

namespace Field

/-- Offset of a field. -/
def offset : Field → Nat
  | state => 0
  | kstack => 8
  | ursp => 16
  | entry => 24
  | pid => 32
  | cr3 => 40
  | brk => 48
  | kbase => 72
  | vmaTable => 80

end Field

/-- `t->field` -/
def get (memory : Memory) (slot : Nat) (field : Field) : Nat := load memory (pcb slot + field.offset) 8

/-- `t->field = value` -/
def set (memory : Memory) (slot : Nat) (field : Field) (value : Nat) : Memory :=
  store memory (pcb slot + field.offset) 8 value

/-- Offset of `name`. -/
def nameOffset : Nat := 56

/-- The copy of a name, given by its characters before the NUL, into `t->name`. -/
def setName (memory : Memory) (slot : Nat) (name : List UInt8) : Memory :=
  let memory := paste memory (pcb slot + nameOffset) (min 15 name.length) fun i => name.getD i 0
  store memory (pcb slot + nameOffset + 15) 1 0

def processInit (memory : Memory) : Memory := fill memory procTable (procPcbSize * procMax) 0

/-- What the functions of `vmm.c` answer and leave in memory. -/
structure VmmCalls where
  vmmCreateSpace : Memory → Memory × Nat
  vmmMapKernel : Memory → (cr3 : Nat) → Memory
  vmmDestroy : Memory → (cr3 : Nat) → Memory
  vmmVmaAlloc : Memory → Memory × Nat
  vmmVmaFree : Memory → (vmas : Nat) → Memory

/-- The first slot whose state is `PSTATE_EMPTY`. -/
def emptySlot (memory : Memory) : Option Nat := (List.range procMax).find? fun i => get memory i .state = 0

/-- The stores of `process_create` before it asks for a VMA table. -/
def newPcb (memory : Memory) (slot entry cr3 kstack_base : Nat) : Memory :=
  let memory := fill memory (pcb slot) procPcbSize 0
  let memory := set memory slot .pid (slot + 1)
  let memory := set memory slot .entry entry
  let memory := set memory slot .cr3 cr3
  let memory := set memory slot .kbase kstack_base
  let memory := set memory slot .kstack (u64 (kstack_base + procKstackSz))
  let memory := set memory slot .ursp procStackTop
  set memory slot .brk brkBase

/-- `process_create` fills in the PCB. -/
def fillPcb (vmm : VmmCalls) (memory : Memory) (slot entry cr3 kstack_base : Nat) (name : List UInt8) : Memory :=
  let vmas := vmm.vmmVmaAlloc (newPcb memory slot entry cr3 kstack_base)
  let memory := set vmas.1 slot .vmaTable vmas.2
  let memory := set memory slot .state 0
  setName memory slot name

/-- `process_create` with a slot and an address space; if it does not fail, with the pid it returns and the
kernel stack it took. -/
def createIn (vmm : VmmCalls) (heap : KernelHeap) (page slot entry cr3 : Nat) (name : List UInt8) :
    Option (KernelHeap × Option (Nat × Nat)) :=
  match heapMalloc ⟨vmm.vmmMapKernel heap.memory cr3, heap.slabCache⟩ page procKstackSz with
  | none => none
  | some (heap, kstack_base) =>
      if kstack_base = 0 then some (⟨vmm.vmmDestroy heap.memory cr3, heap.slabCache⟩, none)
      else
        let memory := fillPcb vmm heap.memory slot entry cr3 kstack_base name
        some (⟨memory, heap.slabCache⟩, some (slot + 1, kstack_base))

def processCreate (vmm : VmmCalls) (heap : KernelHeap) (page entry : Nat) (name : List UInt8) :
    Option (KernelHeap × Option (Nat × Nat)) :=
  match emptySlot heap.memory with
  | none => some (heap, none)
  | some slot =>
      let space := vmm.vmmCreateSpace heap.memory
      if space.2 = 0 then some (⟨space.1, heap.slabCache⟩, none)
      else createIn vmm ⟨space.1, heap.slabCache⟩ page slot entry space.2 name

/-- `process_destroy` gives the VMA table back. -/
def dropVmas (vmm : VmmCalls) (memory : Memory) (slot : Nat) : Memory :=
  let vmas := get memory slot .vmaTable
  if vmas ≠ 0 then set (vmm.vmmVmaFree memory vmas) slot .vmaTable 0 else memory

/-- `process_destroy` gives the address space back. -/
def dropSpace (vmm : VmmCalls) (memory : Memory) (slot : Nat) : Memory :=
  let cr3 := get memory slot .cr3
  if cr3 ≠ 0 then set (vmm.vmmDestroy memory cr3) slot .cr3 0 else memory

def processDestroy (vmm : VmmCalls) (heap : KernelHeap) (slot : Nat) : Option KernelHeap :=
  let memory := dropSpace vmm (dropVmas vmm heap.memory slot) slot
  let kbase := get memory slot .kbase
  if kbase ≠ 0 then
    (heapFree ⟨memory, heap.slabCache⟩ kbase).map fun heap =>
      ⟨set (set heap.memory slot .kbase 0) slot .state 0, heap.slabCache⟩
  else some ⟨set memory slot .state 0, heap.slabCache⟩

/-! ## Stores into a slot -/

section Stores

variable {memory : Memory} {slot : Nat}

theorem pcb_bounds (inside : slot < procMax) : procTable ≤ pcb slot ∧ pcb slot + procPcbSize ≤ procTableEnd := by
  have slots : procMax = 64 := rfl
  unfold procTableEnd pcb procPcbSize
  omega

/-- The slots do not overlap. -/
theorem pcb_apart {other : Nat} (different : other ≠ slot) :
    Apart (pcb other) (pcb other + procPcbSize) (pcb slot) (pcb slot + procPcbSize) := by
  unfold Apart pcb procPcbSize
  omega

theorem emptySlot_lt (found : emptySlot memory = some slot) : slot < procMax :=
  List.mem_range.mp (List.mem_of_find?_eq_some found)

theorem get_set_of_ne {field other : Field} (memory : Memory) (slot value : Nat) (different : field ≠ other) :
    get (set memory slot other value) slot field = get memory slot field := by
  have apart : field.offset + 8 ≤ other.offset ∨ other.offset + 8 ≤ field.offset := by
    revert different
    cases field <;> cases other <;> decide
  exact load_store_of_apart _ _ (by omega)

theorem get_congr {memory' : Memory} {field : Field}
    (same : SameOn memory' memory (pcb slot) (pcb slot + procPcbSize)) :
    get memory' slot field = get memory slot field := by
  have fits : field.offset + 8 ≤ procPcbSize := by cases field <;> decide
  exact load_congr fun address lower upper => same address (by omega) (by omega)

/-- Every field lies in its slot. -/
theorem set_sameOutside (memory : Memory) (slot : Nat) (field : Field) (value : Nat) :
    SameOutside (set memory slot field value) memory (pcb slot) (pcb slot + procPcbSize) := by
  have fits : field.offset + 8 ≤ procPcbSize := by cases field <;> decide
  exact (store_sameOutside memory (pcb slot + field.offset) 8 value).mono (by omega) (by omega)

theorem setName_sameOutside (memory : Memory) (slot : Nat) (name : List UInt8) :
    SameOutside (setName memory slot name) memory (pcb slot) (pcb slot + procPcbSize) := by
  have sizes : procPcbSize = 128 ∧ nameOffset = 56 := ⟨rfl, rfl⟩
  have terminated := store_sameOutside (paste memory (pcb slot + nameOffset) (min 15 name.length)
    fun i => name.getD i 0) (pcb slot + nameOffset + 15) 1 0
  have copied : SameOutside (paste memory (pcb slot + nameOffset) (min 15 name.length) fun i => name.getD i 0) memory
      (pcb slot) (pcb slot + procPcbSize) := by
    intro address outside
    exact if_neg (by omega)
  exact (terminated.mono (by omega) (by omega)).trans copied

theorem newPcb_sameOutside (memory : Memory) (slot entry cr3 kstack_base : Nat) :
    SameOutside (newPcb memory slot entry cr3 kstack_base) memory (pcb slot) (pcb slot + procPcbSize) := by
  have cleared := fill_sameOutside memory (pcb slot) procPcbSize 0
  unfold newPcb
  exact (set_sameOutside _ _ _ _).trans ((set_sameOutside _ _ _ _).trans ((set_sameOutside _ _ _ _).trans
    ((set_sameOutside _ _ _ _).trans ((set_sameOutside _ _ _ _).trans ((set_sameOutside _ _ _ _).trans
      ((set_sameOutside _ _ _ _).trans cleared))))))

end Stores

end Systrix.ProcTable
