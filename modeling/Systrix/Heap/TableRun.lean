import Systrix.Heap.ProcTable
import Systrix.Heap.Region

/-!
# The heap and the process table

`[HEAP_BASE, HEAP_BASE + HEAP_SIZE)` contains `PROC_TABLE`.  The two keep out of each other's way as long
as every large request that is served from the free block around the table ends before it.
-/

namespace Systrix.ProcTable

open ByteMemory Machine Heap ImplicitList LinkedList
open Proc (procMax procKstackSz)

/-- The table lies in the arena of the block tier. -/
theorem tableInArena : InArena procTable procTableEnd := ⟨by decide, by decide, by decide⟩

/-! ## Calls -/

/-- A call of the heap, of `process_create` or `process_destroy`, or stores into one PCB. -/
inductive TableOp where
  | heap (call : Call)
  | create (vmm : VmmCalls) (page entry : Nat) (name : List UInt8)
  | destroy (vmm : VmmCalls) (slot : Nat)
  | store (slot : Nat) (memory : Memory)

/-- One of the functions of `vmm.c` turns `memory` into `memory'`. -/
inductive VmmCalls.Leaves (vmm : VmmCalls) (memory : Memory) : Memory → Prop
  | createSpace : Leaves vmm memory (vmm.vmmCreateSpace memory).1
  | mapKernel (cr3 : Nat) : Leaves vmm memory (vmm.vmmMapKernel memory cr3)
  | destroy (cr3 : Nat) : Leaves vmm memory (vmm.vmmDestroy memory cr3)
  | vmaAlloc : Leaves vmm memory (vmm.vmmVmaAlloc memory).1
  | vmaFree (vmas : Nat) : Leaves vmm memory (vmm.vmmVmaFree memory vmas)

/-- `vmm.c` works outside the arena and outside the slab pages. -/
def VmmCalls.StaysOut (vmm : VmmCalls) (heap : KernelHeap) : Prop :=
  ∀ memory memory', vmm.Leaves memory memory' → SameOn memory' memory heapBase heapLimit ∧
    ∀ p, SlabMember heap p → SameOn memory' memory p (p + pageSize)

/-- The same, for known pages. -/
def VmmCalls.Quiet (vmm : VmmCalls) (pages : Nat → List Nat) : Prop :=
  ∀ memory memory', vmm.Leaves memory memory' → SameOn memory' memory heapBase heapLimit ∧
    ∀ c < slabNumClasses, ∀ p ∈ pages c, SameOn memory' memory p (p + pageSize)

/-- Clients use what they hold, a PCB names a kernel stack that is held, and stores stay in their PCB. -/
def TableOp.Permitted (state : KernelState) : TableOp → Prop
  | .heap call => call.Permitted state
  | .create vmm page _ _ => vmm.StaysOut state.heap ∧ Supply state.heap page
  | .destroy vmm slot => slot < procMax ∧ vmm.StaysOut state.heap ∧
      (get state.heap.memory slot .kbase ≠ 0 →
        ∃ allocation ∈ state.live .block, allocation.ptr = get state.heap.memory slot .kbase)
  | .store slot memory => slot < procMax ∧
      SameOutside memory state.heap.memory (pcb slot) (pcb slot + procPcbSize)

/-- A large request that is served from the block around the table ends before it. -/
def FitsBefore (memory : Memory) (n : Nat) : Prop :=
  sizeClass n = none → ServedBefore memory (roundUp16 n) procTable procTableEnd

/-- The conditions under which the table and the heap stay apart: the calls of the heap keep their
promises, and what they take ends before the table. -/
def TableOp.Fits (heap : KernelHeap) : TableOp → Prop
  | .heap (.malloc _ n) => MallocSafe heap n ∧ FitsBefore heap.memory n
  | .heap (.realloc page tier allocation n) => ReallocSafe heap page tier allocation.ptr n ∧
      (oldSize heap.memory allocation.ptr < n → FitsBefore heap.memory n)
  | .heap call => call.Safe heap
  | .create _ _ _ _ => FitsBefore heap.memory procKstackSz
  | .destroy _ slot => get heap.memory slot .kbase ≠ 0 →
      FreeSafe heap.memory .block (get heap.memory slot .kbase)
  | .store _ _ => True

/-- Effect of an operation on memory and on what clients hold. -/
inductive TableStep (state : KernelState) : TableOp → KernelState → Prop
  | heap {call : Call} {result : Nat} {state' : KernelState} (next : HeapStep state call result state') :
      TableStep state (.heap call) state'
  | createFailed {vmm : VmmCalls} {page entry : Nat} {name : List UInt8} {heap : KernelHeap}
      (run : processCreate vmm state.heap page entry name = some (heap, none)) :
      TableStep state (.create vmm page entry name) ⟨heap, state.live⟩
  | created {vmm : VmmCalls} {page entry pid kstack : Nat} {name : List UInt8} {heap : KernelHeap}
      (run : processCreate vmm state.heap page entry name = some (heap, some (pid, kstack))) :
      TableStep state (.create vmm page entry name) ⟨heap, hold state.live .block ⟨kstack, procKstackSz⟩⟩
  | destroyed {vmm : VmmCalls} {slot : Nat} {allocation : Allocation} {heap : KernelHeap}
      (isLive : allocation ∈ state.live .block) (named : allocation.ptr = get state.heap.memory slot .kbase)
      (run : processDestroy vmm state.heap slot = some heap) :
      TableStep state (.destroy vmm slot) ⟨heap, drop state.live .block allocation⟩
  | destroyedBare {vmm : VmmCalls} {slot : Nat} {heap : KernelHeap} (bare : get state.heap.memory slot .kbase = 0)
      (run : processDestroy vmm state.heap slot = some heap) :
      TableStep state (.destroy vmm slot) ⟨heap, state.live⟩
  | store {slot : Nat} {memory : Memory} :
      TableStep state (.store slot memory) ⟨⟨memory, state.heap.slabCache⟩, state.live⟩

/-! ## What is promised -/

/-- No block header and no held payload meets the table. -/
structure Separated (state : KernelState) : Prop where
  headers : ∃ blocks, Tiles state.heap.memory heapLimit heapBase blocks ∧
    ∀ start block, At blockHdr heapBase blocks start block → Apart start (start + blockHdr) procTable procTableEnd
  payloads : ∀ tier, ∀ allocation ∈ state.live tier,
    Apart allocation.ptr (allocation.ptr + capacity state.heap.memory tier allocation.ptr) procTable procTableEnd

/-- Only one PCB may have changed, and no held payload. -/
structure OnlySlot (memory' memory : Memory) (slot : Option Nat) (live : Tier → List Allocation) : Prop where
  others : ∀ other < procMax, slot ≠ some other → SameOn memory' memory (pcb other) (pcb other + procPcbSize)
  payloads : PayloadsSame memory' memory live

/-- The heap changes no PCB, stores into a PCB change nothing of the heap, and the two calls of `process.c`
change one PCB and no payload that is held before and after. -/
def TableOp.Isolated (state state' : KernelState) : TableOp → Prop
  | .heap _ => SameOn state'.heap.memory state.heap.memory procTable procTableEnd
  | .create _ _ _ _ => OnlySlot state'.heap.memory state.heap.memory (emptySlot state.heap.memory) state.live
  | .destroy _ slot => OnlySlot state'.heap.memory state.heap.memory (some slot) state'.live
  | .store _ _ => HeapDataSame state'.heap.memory state

namespace OnlySlot

variable {first second third memory memory' : Memory} {slot : Option Nat} {live live' : Tier → List Allocation}

theorem refl (memory : Memory) (slot : Option Nat) (live : Tier → List Allocation) :
    OnlySlot memory memory slot live :=
  ⟨fun _ _ _ => .refl _ _ _, fun _ _ _ => ⟨.refl _ _ _, rfl⟩⟩

theorem trans (left : OnlySlot first second slot live) (right : OnlySlot second third slot live) :
    OnlySlot first third slot live where
  others other inside different := (left.others other inside different).trans (right.others other inside different)
  payloads tier allocation isLive := by
    obtain ⟨same, size⟩ := left.payloads tier allocation isLive
    obtain ⟨same', size'⟩ := right.payloads tier allocation isLive
    rw [size'] at same size
    exact ⟨same.trans same', size⟩

theorem mono (only : OnlySlot memory' memory slot live)
    (fewer : ∀ tier, ∀ allocation ∈ live' tier, allocation ∈ live tier) : OnlySlot memory' memory slot live' where
  others := only.others
  payloads tier allocation isLive := only.payloads tier allocation (fewer tier allocation isLive)

/-- A change outside the table. -/
theorem of_table (same : SameOn memory' memory procTable procTableEnd) (payloads : PayloadsSame memory' memory live) :
    OnlySlot memory' memory slot live where
  others _ inside _ := same.mono (pcb_bounds inside).1 (pcb_bounds inside).2
  payloads := payloads

end OnlySlot

/-- Nothing of the arena changed outside one PCB, which names the same kernel stack. -/
structure SlotEdit (memory' memory : Memory) (slot : Nat) : Prop where
  arena : ∀ address, heapBase ≤ address → address < heapLimit →
    address < pcb slot ∨ pcb slot + procPcbSize ≤ address → memory' address = memory address
  kbase : get memory' slot .kbase = get memory slot .kbase

theorem SlotEdit.trans {first second third : Memory} {slot : Nat} (left : SlotEdit first second slot)
    (right : SlotEdit second third slot) : SlotEdit first third slot where
  arena address lower upper outside :=
    (left.arena address lower upper outside).trans (right.arena address lower upper outside)
  kbase := left.kbase.trans right.kbase

/-! ## Parts of a call -/

/-- A well-formed heap that keeps out of the table. -/
abbrev TableInv (state : KernelState) (blocks : List Block) (pages free : Nat → List Nat) : Prop :=
  RegionInv procTable procTableEnd state blocks pages free

namespace TableInv

variable {memory memory' : Memory} {cache : Nat → Nat} {live : Tier → List Allocation} {blocks : List Block}
  {pages free : Nat → List Nat} {vmm : VmmCalls} {slot : Option Nat}

theorem separated {state : KernelState} (kept : TableInv state blocks pages free) : Separated state where
  headers := ⟨blocks, kept.inv.block.tiles, fun _ _ placed => kept.header_apart placed⟩
  payloads _ _ isLive := kept.payload_apart tableInArena isLive

theorem quiet {state : KernelState} (kept : TableInv state blocks pages free) (out : vmm.StaysOut state.heap) :
    vmm.Quiet pages := by
  intro memory memory' leaves
  obtain ⟨arena, slabs⟩ := out memory memory' leaves
  exact ⟨arena, fun c isClass p member => slabs p (kept.slabMember_iff.mpr ⟨c, isClass, member⟩)⟩

/-- A call of `vmm.c`. -/
theorem vmmCall (kept : TableInv ⟨⟨memory, cache⟩, live⟩ blocks pages free) (slot : Option Nat)
    (quiet : vmm.Quiet pages) (leaves : vmm.Leaves memory memory') :
    TableInv ⟨⟨memory', cache⟩, live⟩ blocks pages free ∧ OnlySlot memory' memory slot live := by
  obtain ⟨arena, slabs⟩ := quiet memory memory' leaves
  obtain ⟨kept', same⟩ := kept.elsewhere tableInArena arena slabs
  refine ⟨kept', .of_table same fun tier allocation isLive => ?_⟩
  cases tier with
  | slab =>
      obtain ⟨c, p, j, used, ptrEq, -⟩ := kept.inv.held allocation isLive
      have bounds := slotPtr_bounds p used.2.2.1
      rw [capacity_slab, capacity_slab, ptrEq, kept.inv.slab.slot_size used, kept'.inv.slab.slot_size used]
      exact ⟨(slabs c used.1 p used.2.1).mono (by omega) bounds.2, rfl⟩
  | block => exact kept.inv.block_payload arena isLive

/-- A request that fits still does when the arena did not change. -/
theorem fitsBefore {n : Nat} (fits : FitsBefore memory n) (arena : SameOn memory' memory heapBase heapLimit) :
    FitsBefore memory' n := by
  intro large before block after tiles
  refine fits large before block after (tiles.congr fun start other placed => ?_)
  have bounds := placed.bounds
  have total := tiles.limit_eq
  exact fun address lower upper => (arena address (by omega) (by omega)).symm

/-- Stores into one PCB. -/
theorem stores {slot : Nat} (kept : TableInv ⟨⟨memory, cache⟩, live⟩ blocks pages free) (inside : slot < procMax)
    (same : SameOutside memory' memory (pcb slot) (pcb slot + procPcbSize)) :
    TableInv ⟨⟨memory', cache⟩, live⟩ blocks pages free ∧ OnlySlot memory' memory (some slot) live := by
  have bounds := pcb_bounds inside
  obtain ⟨kept', data⟩ := kept.write_region tableInArena (same.mono bounds.1 bounds.2)
  refine ⟨kept', fun other _ different => ?_, data.payloads⟩
  exact same.sameOn (pcb_apart fun equal => different (by rw [equal]))

/-! ## The two calls of `process.c` -/

theorem kstack_large : sizeClass procKstackSz = none := by decide

theorem fillPcb {slot : Nat} (kept : TableInv ⟨⟨memory, cache⟩, live⟩ blocks pages free) (entry cr3 kstack : Nat)
    (name : List UInt8) (quiet : vmm.Quiet pages) (inside : slot < procMax) :
    TableInv ⟨⟨ProcTable.fillPcb vmm memory slot entry cr3 kstack name, cache⟩, live⟩ blocks pages free ∧
      OnlySlot (ProcTable.fillPcb vmm memory slot entry cr3 kstack name) memory (some slot) live := by
  obtain ⟨kept₁, only₁⟩ := kept.stores inside (newPcb_sameOutside memory slot entry cr3 kstack)
  obtain ⟨kept₂, only₂⟩ := kept₁.vmmCall (some slot) quiet .vmaAlloc
  obtain ⟨kept₃, only₃⟩ := kept₂.stores inside ((setName_sameOutside _ slot name).trans
    ((set_sameOutside _ slot .state 0).trans (set_sameOutside _ slot .vmaTable _)))
  exact ⟨kept₃, only₃.trans (only₂.trans only₁)⟩

/-- Either nothing was taken, or a kernel stack that ends before the table. -/
theorem createIn {slot : Nat} (kept : TableInv ⟨⟨memory, cache⟩, live⟩ blocks pages free) (page entry cr3 : Nat)
    (name : List UInt8) (quiet : vmm.Quiet pages) (inside : slot < procMax)
    (fits : FitsBefore memory procKstackSz) :
    (∃ memory', ProcTable.createIn vmm ⟨memory, cache⟩ page slot entry cr3 name = some (⟨memory', cache⟩, none) ∧
        TableInv ⟨⟨memory', cache⟩, live⟩ blocks pages free ∧ OnlySlot memory' memory (some slot) live) ∨
      ∃ memory' pid kstack blocks',
        ProcTable.createIn vmm ⟨memory, cache⟩ page slot entry cr3 name =
          some (⟨memory', cache⟩, some (pid, kstack)) ∧
        TableInv ⟨⟨memory', cache⟩, hold live .block ⟨kstack, procKstackSz⟩⟩ blocks' pages free ∧
        OnlySlot memory' memory (some slot) live := by
  obtain ⟨kept₁, only₁⟩ := kept.vmmCall (some slot) quiet (.mapKernel cr3)
  have fits₁ := fitsBefore fits (quiet memory _ (.mapKernel cr3)).1
  have safe : MallocSafe ⟨vmm.vmmMapKernel memory cr3, cache⟩ procKstackSz :=
    ⟨by decide, fun c found => by rw [kstack_large] at found; cases found⟩
  unfold ProcTable.createIn
  rcases kept₁.malloc_block page tableInArena safe (by decide) kstack_large (fits₁ kstack_large) with
    run | ⟨memory₂, kstack, blocks₂, run, nonzero, kept₂, payloads, same⟩
  · left
    obtain ⟨kept₂, only₂⟩ := kept₁.vmmCall (some slot) quiet (.destroy cr3)
    exact ⟨_, by rw [run]; rfl, kept₂, only₂.trans only₁⟩
  · right
    have only₂ : OnlySlot memory₂ (vmm.vmmMapKernel memory cr3) (some slot) live := .of_table same payloads
    obtain ⟨kept₃, only₃⟩ := TableInv.fillPcb kept₂ entry cr3 kstack name quiet inside
    refine ⟨_, slot + 1, kstack, blocks₂, ?_, kept₃, ?_⟩
    · rw [run]
      dsimp only
      rw [if_neg nonzero]
    · exact (only₃.mono fun _ _ isLive => mem_hold_of_mem isLive).trans (only₂.trans only₁)

theorem create (kept : TableInv ⟨⟨memory, cache⟩, live⟩ blocks pages free) (page entry : Nat) (name : List UInt8)
    (quiet : vmm.Quiet pages) (fits : FitsBefore memory procKstackSz) :
    (∃ memory', processCreate vmm ⟨memory, cache⟩ page entry name = some (⟨memory', cache⟩, none) ∧
        TableInv ⟨⟨memory', cache⟩, live⟩ blocks pages free ∧ OnlySlot memory' memory (emptySlot memory) live) ∨
      ∃ memory' pid kstack blocks',
        processCreate vmm ⟨memory, cache⟩ page entry name = some (⟨memory', cache⟩, some (pid, kstack)) ∧
        TableInv ⟨⟨memory', cache⟩, hold live .block ⟨kstack, procKstackSz⟩⟩ blocks' pages free ∧
        OnlySlot memory' memory (emptySlot memory) live := by
  cases found : emptySlot memory with
  | none => exact .inl ⟨memory, by rw [processCreate, found], kept, .refl _ _ _⟩
  | some slot =>
      have inside := emptySlot_lt found
      obtain ⟨kept₁, only₁⟩ := kept.vmmCall (some slot) quiet .createSpace
      have fits₁ := fitsBefore fits (quiet memory _ .createSpace).1
      unfold processCreate
      rw [found]
      dsimp only
      by_cases noSpace : (vmm.vmmCreateSpace memory).2 = 0
      · exact .inl ⟨_, if_pos noSpace, kept₁, only₁⟩
      rw [if_neg noSpace]
      rcases kept₁.createIn page entry (vmm.vmmCreateSpace memory).2 name quiet inside fits₁ with
        ⟨memory', run, kept', only⟩ | ⟨memory', pid, kstack, blocks', run, kept', only⟩
      · exact .inl ⟨memory', run, kept', only.trans only₁⟩
      · exact .inr ⟨memory', pid, kstack, blocks', run, kept', only.trans only₁⟩

/-- A resource that a PCB names is given back and its field cleared. -/
theorem clearField {slot : Nat} {field : Field} {memory₁ : Memory} (condition : Prop) [Decidable condition]
    (kept : TableInv ⟨⟨memory, cache⟩, live⟩ blocks pages free) (quiet : vmm.Quiet pages) (inside : slot < procMax)
    (leaves : vmm.Leaves memory memory₁) (notKbase : Field.kbase ≠ field) :
    TableInv ⟨⟨if condition then set memory₁ slot field 0 else memory, cache⟩, live⟩ blocks pages free ∧
      OnlySlot (if condition then set memory₁ slot field 0 else memory) memory (some slot) live ∧
      SlotEdit (if condition then set memory₁ slot field 0 else memory) memory slot := by
  split
  · obtain ⟨kept₁, only₁⟩ := kept.vmmCall (some slot) quiet leaves
    obtain ⟨kept₂, only₂⟩ := kept₁.stores inside (set_sameOutside memory₁ slot field 0)
    have arena := (quiet memory memory₁ leaves).1
    have bounds := pcb_bounds inside
    have wide : heapBase ≤ procTable ∧ procTableEnd ≤ heapLimit := ⟨tableInArena.lower, tableInArena.upper⟩
    refine ⟨kept₂, only₂.trans only₁, fun address lower upper outside => ?_, ?_⟩
    · exact (set_sameOutside memory₁ slot field 0 address outside).trans (arena address lower upper)
    · rw [get_set_of_ne memory₁ slot 0 notKbase]
      exact get_congr (arena.mono (by omega) (by omega))
  · exact ⟨kept, .refl _ _ _, fun _ _ _ _ => rfl, rfl⟩

theorem dropResources {slot : Nat} (kept : TableInv ⟨⟨memory, cache⟩, live⟩ blocks pages free) (quiet : vmm.Quiet pages)
    (inside : slot < procMax) :
    TableInv ⟨⟨dropSpace vmm (dropVmas vmm memory slot) slot, cache⟩, live⟩ blocks pages free ∧
      OnlySlot (dropSpace vmm (dropVmas vmm memory slot) slot) memory (some slot) live ∧
      SlotEdit (dropSpace vmm (dropVmas vmm memory slot) slot) memory slot := by
  obtain ⟨kept₁, only₁, edit₁⟩ := kept.clearField (get memory slot .vmaTable ≠ 0) quiet inside
    (.vmaFree (get memory slot .vmaTable)) (by decide : Field.kbase ≠ .vmaTable)
  obtain ⟨kept₂, only₂, edit₂⟩ := kept₁.clearField (get (dropVmas vmm memory slot) slot .cr3 ≠ 0) quiet inside
    (.destroy (get (dropVmas vmm memory slot) slot .cr3)) (by decide : Field.kbase ≠ .cr3)
  exact ⟨kept₂, only₂.trans only₁, edit₂.trans edit₁⟩

/-- A payload that is held is recognised the same after stores into a PCB. -/
theorem freeSafe {slot : Nat} {allocation : Allocation} (kept : TableInv ⟨⟨memory, cache⟩, live⟩ blocks pages free)
    (isLive : allocation ∈ live .block) (inside : slot < procMax) (edit : SlotEdit memory' memory slot)
    (safe : FreeSafe memory .block allocation.ptr) : FreeSafe memory' .block allocation.ptr := by
  have apart := kept.payload_apart tableInArena isLive
  have positive := kept.inv.capacity_pos isLive
  have arena := kept.inv.block.payload_in_arena isLive
  have bounds := pcb_bounds inside
  have fields : ∀ offset, offset + 4 ≤ pageSize →
      load memory' (pageBase allocation.ptr + offset) 4 = load memory (pageBase allocation.ptr + offset) 4 := by
    intro offset small
    have layout : pageSize = 4096 ∧ heapBase = 0x200000 ∧ heapLimit = 0x400000 ∧ procTable = 0x300000 ∧
      procTableEnd = 0x302000 ∧ blockHdr = 16 := ⟨rfl, rfl, rfl, rfl, rfl, rfl⟩
    rw [capacity_block] at positive apart
    unfold Apart at apart
    dsimp only at apart positive arena
    unfold pageBase alignDown pageSize
    refine load_congr fun address lower upper => edit.arena address ?_ ?_ ?_
    · omega
    · omega
    · omega
  intro isBlock
  have before := safe isBlock
  unfold ptrInSlab at before ⊢
  rw [← before]
  unfold objSize classIdx
  rw [fields 12 (by decide), fields 16 (by decide)]

/-- `process_destroy` gives the kernel stack back, and changes one PCB. -/
theorem destroy {slot : Nat} {allocation : Allocation} (kept : TableInv ⟨⟨memory, cache⟩, live⟩ blocks pages free)
    (quiet : vmm.Quiet pages) (inside : slot < procMax) (isLive : allocation ∈ live .block)
    (named : allocation.ptr = get memory slot .kbase) (safe : FreeSafe memory .block allocation.ptr) :
    ∃ heap' blocks' free', processDestroy vmm ⟨memory, cache⟩ slot = some heap' ∧
      TableInv ⟨heap', drop live .block allocation⟩ blocks' pages free' ∧
      OnlySlot heap'.memory memory (some slot) (drop live .block allocation) := by
  obtain ⟨kept₁, only₁, edit⟩ := kept.dropResources quiet inside
  have safe₁ := kept.freeSafe isLive inside edit safe
  have nonzero := kept.inv.ptr_ne_zero isLive
  unfold processDestroy
  dsimp only
  rw [edit.kbase, ← named, if_pos nonzero]
  generalize dropSpace vmm (dropVmas vmm memory slot) slot = memory₁ at *
  obtain ⟨⟨memory₂, cache₂⟩, blocks₂, free₂, run, kept₂, payloads, same⟩ :=
    kept₁.release tableInArena isLive safe₁
  have cleared : SameOutside (set (set memory₂ slot .kbase 0) slot .state 0) memory₂ (pcb slot)
      (pcb slot + procPcbSize) :=
    (set_sameOutside (set memory₂ slot .kbase 0) slot .state 0).trans (set_sameOutside memory₂ slot .kbase 0)
  obtain ⟨kept₃, only₃⟩ := TableInv.stores kept₂ inside cleared
  have only₂ : OnlySlot memory₂ memory₁ (some slot) (drop live .block allocation) := .of_table same payloads
  have fewer : ∀ tier, ∀ other ∈ drop live .block allocation tier, other ∈ live tier := fun _ _ => mem_drop
  refine ⟨⟨set (set memory₂ slot .kbase 0) slot .state 0, cache₂⟩, blocks₂, free₂, ?_, kept₃,
    only₃.trans (only₂.trans (only₁.mono fewer))⟩
  rw [run]
  rfl

/-- `process_destroy` of a process without a kernel stack. -/
theorem destroyBare {slot : Nat} (kept : TableInv ⟨⟨memory, cache⟩, live⟩ blocks pages free) (quiet : vmm.Quiet pages)
    (inside : slot < procMax) (bare : get memory slot .kbase = 0) :
    ∃ memory', processDestroy vmm ⟨memory, cache⟩ slot = some ⟨memory', cache⟩ ∧
      TableInv ⟨⟨memory', cache⟩, live⟩ blocks pages free ∧ OnlySlot memory' memory (some slot) live := by
  obtain ⟨kept₁, only₁, edit⟩ := kept.dropResources quiet inside
  obtain ⟨kept₂, only₂⟩ := TableInv.stores kept₁ inside (set_sameOutside _ slot .state 0)
  refine ⟨_, ?_, kept₂, only₂.trans only₁⟩
  unfold processDestroy
  dsimp only
  rw [edit.kbase, bare, if_neg (not_not_intro rfl)]

/-! ## Runs -/

/-- A call of the heap. -/
theorem heapCall {state : KernelState} {call : Call} (kept : TableInv state blocks pages free)
    (permitted : call.Permitted state) (fits : (TableOp.heap call).Fits state.heap) :
    (∃ result state', HeapStep state call result state') ∧ ∀ result state', HeapStep state call result state' →
      (∃ blocks' pages' free', TableInv state' blocks' pages' free') ∧
        SameOn state'.heap.memory state.heap.memory procTable procTableEnd := by
  cases call with
  | malloc page n =>
      rcases kept.malloc tableInArena permitted.2 fits.1 fits.2 with
        run | ⟨heap', ptr, blocks', pages', free', run, nonzero, kept', -, same⟩
      · refine ⟨⟨_, _, .malloc run⟩, ?_⟩
        rintro result state' ⟨run'⟩
        cases run.symm.trans run'
        exact ⟨⟨blocks, pages, free, kept⟩, .refl _ _ _⟩
      · refine ⟨⟨_, _, .malloc run⟩, ?_⟩
        rintro result state' ⟨run'⟩
        cases run.symm.trans run'
        rw [if_neg nonzero]
        exact ⟨⟨blocks', pages', free', kept'⟩, same⟩
  | free tier allocation =>
      obtain ⟨heap', blocks', free', run, kept', -, same⟩ := kept.release tableInArena permitted fits
      refine ⟨⟨_, _, .free run⟩, ?_⟩
      intro result state' next
      cases next with
      | free run' =>
          cases run.symm.trans run'
          exact ⟨⟨blocks', pages, free', kept'⟩, same⟩
  | realloc page tier allocation n =>
      obtain ⟨heap', ptr, blocks', pages', free', run, kept', same⟩ :=
        kept.realloc tableInArena permitted.2.2 permitted.2.1 fits.1 fits.2
      refine ⟨⟨_, _, .realloc run⟩, ?_⟩
      intro result state' next
      cases next with
      | realloc run' =>
          cases run.symm.trans run'
          exact ⟨⟨blocks', pages', free', kept'⟩, same⟩
  | write tier allocation memory =>
      obtain ⟨kept', same⟩ := kept.write tableInArena permitted.1 permitted.2
      refine ⟨⟨_, _, .write⟩, ?_⟩
      rintro result state' ⟨⟩
      exact ⟨⟨blocks, pages, free, kept'⟩, same⟩
  | elsewhere memory =>
      obtain ⟨kept', same⟩ := kept.elsewhere tableInArena permitted.1 fun c isClass p member =>
        permitted.2 c isClass _ (kept.inv.slab.chains c isClass) p member
      refine ⟨⟨_, _, .elsewhere⟩, ?_⟩
      rintro result state' ⟨⟩
      exact ⟨⟨blocks, pages, free, kept'⟩, same⟩

/-- An operation that fits finishes, keeps the invariant and changes only what is its own. -/
theorem step {state : KernelState} {op : TableOp} (kept : TableInv state blocks pages free)
    (permitted : op.Permitted state) (fits : op.Fits state.heap) :
    (∃ state', TableStep state op state') ∧ ∀ state', TableStep state op state' →
      (∃ blocks' pages' free', TableInv state' blocks' pages' free') ∧ op.Isolated state state' := by
  cases op with
  | heap call =>
      obtain ⟨⟨result, state', next⟩, after⟩ := kept.heapCall permitted fits
      refine ⟨⟨state', .heap next⟩, ?_⟩
      rintro state' ⟨next⟩
      exact after _ _ next
  | create vmm page entry name =>
      rcases kept.create page entry name (kept.quiet permitted.1) fits with
        ⟨memory', run, kept', only⟩ | ⟨memory', pid, kstack, blocks', run, kept', only⟩
      · refine ⟨⟨_, .createFailed run⟩, ?_⟩
        intro state' next
        cases next with
        | createFailed run' =>
            cases run.symm.trans run'
            exact ⟨⟨_, _, _, kept'⟩, only⟩
        | created run' => cases run.symm.trans run'
      · refine ⟨⟨_, .created run⟩, ?_⟩
        intro state' next
        cases next with
        | createFailed run' => cases run.symm.trans run'
        | created run' =>
            cases run.symm.trans run'
            exact ⟨⟨_, _, _, kept'⟩, only⟩
  | destroy vmm slot =>
      obtain ⟨inside, out, holds⟩ := permitted
      have quiet := kept.quiet out
      by_cases bare : get state.heap.memory slot .kbase = 0
      · obtain ⟨memory', run, kept', only⟩ := kept.destroyBare quiet inside bare
        refine ⟨⟨_, .destroyedBare bare run⟩, ?_⟩
        intro state' next
        cases next with
        | destroyed isLive named => exact absurd (named.trans bare) (kept.inv.ptr_ne_zero isLive)
        | destroyedBare _ run' =>
            cases run.symm.trans run'
            exact ⟨⟨_, _, _, kept'⟩, only⟩
      · have safe := fits bare
        obtain ⟨allocation, isLive, named⟩ := holds bare
        obtain ⟨heap', blocks', free', run, -⟩ := kept.destroy quiet inside isLive named (named ▸ safe)
        refine ⟨⟨_, .destroyed isLive named run⟩, ?_⟩
        intro state' next
        cases next with
        | destroyed isLive' named' run' =>
            obtain ⟨heap'', blocks'', free'', run'', kept', only⟩ :=
              kept.destroy quiet inside isLive' named' (named' ▸ safe)
            cases run''.symm.trans run'
            exact ⟨⟨_, _, _, kept'⟩, only⟩
        | destroyedBare isBare => exact absurd isBare bare
  | store slot memory =>
      have bounds := pcb_bounds permitted.1
      obtain ⟨kept', data⟩ := kept.write_region tableInArena (permitted.2.mono bounds.1 bounds.2)
      refine ⟨⟨_, .store⟩, ?_⟩
      rintro state' ⟨⟩
      exact ⟨⟨blocks, pages, free, kept'⟩, data⟩

end TableInv

/-- The kernel heap after `heap_init` and `process_init`. -/
def booted (memory : Memory) : KernelState := ⟨⟨processInit (heapInit memory), fun _ => 0⟩, fun _ => []⟩

theorem TableInv.booted (memory : Memory) :
    TableInv (booted memory) freshArena (fun _ => []) fun _ => [] := by
  have clear : Clear blockHdr heapBase procTable procTableEnd freshArena := by
    refine ⟨fun placed => ?_, fun placed inUse => ?_⟩
    · rcases placed with ⟨rfl, rfl⟩ | impossible
      · exact .inl (by decide)
      · exact impossible.elim
    · rcases placed with ⟨rfl, rfl⟩ | impossible
      · cases inUse
      · exact impossible.elim
  have fresh : TableInv ⟨⟨heapInit memory, fun _ => 0⟩, fun _ => []⟩ freshArena (fun _ => []) fun _ => [] :=
    ⟨HeapInv.fresh memory, clear⟩
  exact (fresh.write_region tableInArena (fill_sameOutside (heapInit memory) procTable (procPcbSize * procMax) 0)).1

/-- States reached after the boot by permitted operations that fit. -/
inductive TableRun : KernelState → Prop
  | boot (memory : Memory) : TableRun (booted memory)
  | step {state state' : KernelState} {op : TableOp} (run : TableRun state) (permitted : op.Permitted state)
      (fits : op.Fits state.heap) (next : TableStep state op state') : TableRun state'

theorem TableRun.inv {state : KernelState} (run : TableRun state) :
    ∃ blocks pages free, TableInv state blocks pages free := by
  induction run with
  | boot memory => exact ⟨_, _, _, .booted memory⟩
  | step run permitted fits next ih =>
      obtain ⟨blocks, pages, free, kept⟩ := ih
      exact ((kept.step permitted fits).2 _ next).1

end Systrix.ProcTable
