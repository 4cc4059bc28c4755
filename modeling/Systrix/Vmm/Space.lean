import Mathlib.Data.List.FinRange
import Systrix.Vmm.PageTree

/-!
# Address spaces

`vmm_create_space`, `vmm_map_kernel` and `vmm_destroy` of `kernel/vmm.c`.
-/

namespace Systrix.Vmm

/-- The indices of a table, in the order of the loops. -/
def indices : List Index := (List.finRange 512).map BitVec.ofFin

theorem mem_indices (i : Index) : i ∈ indices :=
  List.mem_map.mpr ⟨i.toFin, List.mem_finRange _, rfl⟩

theorem nodup_indices : indices.Nodup :=
  List.Nodup.map (fun _ _ same => BitVec.ofFin.inj same) (List.nodup_finRange 512)

def pmmRef (vm : Vm) (p : Word) : Vm :=
  if inRam vm p && vm.refcnt p < 255 then
    { vm with refcnt := Function.update vm.refcnt p (vm.refcnt p + 1) }
  else vm

def vmmCreateSpace (vm : Vm) : Option (Word × Vm) := pmmAlloc vm

/-- The flags of an entry of the kernel, for an entry of a process. -/
def kernelFlags (e : Word) : Word := (e &&& ~~~ptePhysMask) ||| pteUser

/-- The body of the loop of `vmm_map_kernel`. -/
def copyKernelPd (kern_pdpt new_pdpt : Word) (vm : Vm) (i3 : Index) : Vm :=
  if !present (vm.mem kern_pdpt i3) then vm
  else if huge (vm.mem kern_pdpt i3) then vm.setEntry new_pdpt i3 (vm.mem kern_pdpt i3)
  else
    let kern_pd := frame (vm.mem kern_pdpt i3)
    match pmmAlloc vm with
    | none => vm
    | some (new_pd, vm) =>
        let vm := vm.setPage new_pd (vm.mem kern_pd)
        vm.setEntry new_pdpt i3 (new_pd ||| kernelFlags (vm.mem kern_pdpt i3))

def vmmMapKernel (vm : Vm) (kernel_cr3 cr3 : Word) : Vm :=
  if present (vm.mem kernel_cr3 0) then
    match pmmAlloc vm with
    | none => vm
    | some (new_pdpt, vm) =>
        let kern_pdpt := frame (vm.mem kernel_cr3 0)
        let vm := indices.foldl (copyKernelPd kern_pdpt new_pdpt) vm
        vm.setEntry cr3 0 (new_pdpt ||| kernelFlags (vm.mem kernel_cr3 0))
  else vm

/-! ## Teardown -/

/-- The body of the loop of `vmm_destroy` over a last table. -/
def unrefPage (pt : Word) (vm : Vm) (i : Index) : Vm :=
  if present (vm.mem pt i) && user (vm.mem pt i) then pmmUnref vm (frame (vm.mem pt i)) else vm

/-- The loop of `vmm_destroy` over a last table. -/
def unrefPages (vm : Vm) (pt : Word) : Vm := indices.foldl (unrefPage pt) vm

/-- The body of the loops of `vmm_destroy` over the upper tables: `inner` is the loop over
the table of an entry, and entries that `skip` holds of are passed over. -/
def freeTable (inner : Vm → Word → Vm) (skip : Word → Bool) (t : Word) (vm : Vm) (i : Index) : Vm :=
  if present (vm.mem t i) && !skip (vm.mem t i) then
    let vm := inner vm (frame (vm.mem t i))
    pmmFree vm (frame (vm.mem t i))
  else vm

/-- The loops of `vmm_destroy` over the upper tables. -/
def freeTables (inner : Vm → Word → Vm) (skip : Word → Bool) (vm : Vm) (t : Word) : Vm :=
  indices.foldl (freeTable inner skip t) vm

def vmmDestroy (vm : Vm) (cr3 : Word) : Vm :=
  pmmFree (freeTables (freeTables (freeTables unrefPages huge) huge) (fun _ => false) vm cr3) cr3

end Systrix.Vmm
