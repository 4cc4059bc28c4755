import Systrix.Vmm.Mapping

/-!
# Page faults

`vmm_page_fault` of `kernel/vmm.c` and its variant in `kernel/vmm_enhanced.c`.
-/

namespace Systrix.Vmm

/-- `VMA`; `stop` is its `end`. -/
structure Vma where
  start : Word
  stop : Word
  flags : BitVec 32
  fd : Int
  deriving DecidableEq

/-- The test of `VMA_WRITE`. -/
def Vma.write (vma : Vma) : Bool := vma.flags.getLsbD 1

/-- The test of `VMA_EXEC`. -/
def Vma.exec (vma : Vma) : Bool := vma.flags.getLsbD 2

/-- The test of `VMA_STACK`. -/
def Vma.stack (vma : Vma) : Bool := vma.flags.getLsbD 4

/-- The test of `VMA_FILE`. -/
def Vma.file (vma : Vma) : Bool := vma.flags.getLsbD 5

/-- What the handlers use of a process control block. -/
structure Task where
  cr3 : Word
  vma_table : Option (List Vma)

/-- A fault: the address, the error code, and what `vfs_read` would leave in a new page. -/
structure Fault where
  addr : Word
  error_code : Word
  file : Index → Word

/-- The address without its offset in the page. -/
def Fault.page (fault : Fault) : Word := fault.addr &&& ~~~(0xfff : Word)

def Fault.isProt (fault : Fault) : Bool := fault.error_code.getLsbD 0

def Fault.isWrite (fault : Fault) : Bool := fault.error_code.getLsbD 1

def vmmFindVma (vmas : List Vma) (addr : Word) : Option Vma :=
  vmas.find? fun vma => vma.start < vma.stop && vma.start ≤ addr && addr < vma.stop

/-- The copy-on-write part of both handlers. -/
def cowFault (vm : Vm) (cr3 page : Word) : Bool × Vm :=
  match pteGet vm cr3 page false with
  | (none, vm) => (false, vm)
  | (some (pt, i), vm) =>
      if present (vm.mem pt i) then
        let old_phys := frame (vm.mem pt i)
        if pmmRefcount vm old_phys ≤ 1 then (true, vm.setEntry pt i (vm.mem pt i ||| pteWrite))
        else
          match pmmAlloc vm with
          | none => (false, vm)
          | some (new_phys, vm) =>
              let vm := pmmUnref (vm.setPage new_phys (vm.mem old_phys)) old_phys
              (true, vm.setEntry pt i
                (new_phys &&& ptePhysMask ||| ptePresent ||| pteWrite ||| pteUser))
      else (false, vm)

/-- Allocate a page, fill it and map it. -/
def mapNew (vm : Vm) (cr3 page : Word) (contents : Index → Word) (flags : Word) : Option Vm :=
  match pmmAlloc vm with
  | none => none
  | some (phys, vm) => some (vmmMap (vm.setPage phys contents) cr3 page phys flags)

/-- The flags of a page that is paged in. -/
def demandFlags (vma : Vma) : Word :=
  if vma.write then ptePresent ||| pteUser ||| pteWrite else ptePresent ||| pteUser

/-- `vmm_page_fault`; whether the fault was handled. -/
def vmmPageFault (vm : Vm) (pcb : Option Task) (fault : Fault) : Bool × Vm :=
  match pcb with
  | none => (false, vm)
  | some task =>
      match task.vma_table with
      | none => (false, vm)
      | some vmas =>
          if fault.isProt && fault.isWrite then cowFault vm task.cr3 fault.page
          else if fault.isProt then (false, vm)
          else
            match vmmFindVma vmas fault.addr with
            | none => (false, vm)
            | some vma =>
                let contents := if vma.file && 0 ≤ vma.fd then fault.file else fun _ => 0
                match mapNew vm task.cr3 fault.page contents (demandFlags vma) with
                | none => (false, vm)
                | some vm => (true, vm)

/-! ## The enhanced handler -/

/-- The entry of the VMA table `handle_stack_expansion` works on. -/
def stackVma (vmas : List Vma) : Option Nat :=
  vmas.findIdx? fun vma => vma.start < vma.stop && vma.stack

/-- `handle_stack_expansion`; `none` when it returns 0. -/
def handleStackExpansion (vm : Vm) (cr3 : Word) (vmas : List Vma) (fault : Fault) :
    Option (Vm × List Vma) :=
  match stackVma vmas with
  | none => none
  | some i =>
      let stack_bottom := (vmas[i]?.map Vma.start).getD 0
      if fault.addr < stack_bottom - 0x1000 then none
      else if stack_bottom ≤ fault.addr then none
      else
        match mapNew vm cr3 fault.page (fun _ => 0) (ptePresent ||| pteWrite ||| pteUser) with
        | none => none
        | some vm => some (vm, vmas.modify i fun vma => { vma with start := fault.page })

/-- `vmm_page_fault_enhanced`; whether the fault was handled, and the process after it. -/
def vmmPageFaultEnhanced (vm : Vm) (pcb : Option Task) (fault : Fault) : Bool × Vm × Option Task :=
  match pcb with
  | none => (false, vm, pcb)
  | some task =>
      match task.vma_table with
      | none => (false, vm, pcb)
      | some vmas =>
          if fault.isProt && fault.isWrite then
            match cowFault vm task.cr3 fault.page with
            | (handled, vm) => (handled, vm, pcb)
          else if fault.isProt then (false, vm, pcb)
          else
            match handleStackExpansion vm task.cr3 vmas fault with
            | some (vm, vmas) => (true, vm, some { task with vma_table := some vmas })
            | none =>
                match vmmFindVma vmas fault.addr with
                | none => (false, vm, pcb)
                | some vma =>
                    let flags := if vma.exec then demandFlags vma else demandFlags vma ||| pteNx
                    match mapNew vm task.cr3 fault.page (fun _ => 0) flags with
                    | none => (false, vm, pcb)
                    | some vm => (true, vm, pcb)

end Systrix.Vmm
