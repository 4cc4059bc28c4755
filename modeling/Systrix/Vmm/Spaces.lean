import Systrix.Lib.Run
import Systrix.Vmm.Teardown

/-!
# The kernel space and the live spaces

Spaces are created, get and lose mappings, and are torn down, in any order.
-/

namespace Systrix.Vmm

open TableTree

/-- Memory, the space of the kernel and the spaces in use. -/
structure Spaces where
  /-- `freed` are the pages that were freed and not allocated since. -/
  vm : Vm
  kernel_cr3 : Word
  live : List Word

def Spaces.roots (s : Spaces) : List Word := s.kernel_cr3 :: s.live

/-- The calls; `pages` are the pages `pmm_alloc` has for one. -/
inductive SpaceOp where
  | create (pages : List Word)
  | map (pages : List Word) (cr3 virt phys flags : Word)
  | unmap (cr3 virt : Word)
  | alloc (pages : List Word)
  | ref (p : Word)
  | destroy (cr3 : Word)

/-- Let the pages be what `pmm_alloc` returns. -/
def Vm.supplied (vm : Vm) (pages : List Word) : Vm := { vm with supply := pages }

/-- The pages that were allocated are not free any more, and the others go back. -/
def Vm.settle (vm : Vm) (pages : List Word) : Vm :=
  { vm with
    supply := []
    freed := vm.freed.filter fun p => !pages.contains p || vm.supply.contains p }

def Spaces.step (s : Spaces) : SpaceOp → Spaces
  | .create pages =>
      match vmmCreateSpace (s.vm.supplied pages) with
      | none => s
      | some (cr3, vm) =>
          { s with vm := (vmmMapKernel vm s.kernel_cr3 cr3).settle pages, live := cr3 :: s.live }
  | .map pages cr3 virt phys flags =>
      { s with vm := (vmmMap (s.vm.supplied pages) cr3 virt phys flags).settle pages }
  | .unmap cr3 virt => { s with vm := vmmUnmap s.vm cr3 virt }
  | .alloc pages =>
      match pmmAlloc (s.vm.supplied pages) with
      | none => s
      | some (_, vm) => { s with vm := vm.settle pages }
  | .ref p => { s with vm := pmmRef s.vm p }
  | .destroy cr3 => { s with vm := vmmDestroy s.vm cr3, live := s.live.erase cr3 }

/-! ## What spaces use -/

/-- The page holds a table of the space. -/
def IsTable (mem : Pages) (cr3 p : Word) : Prop := ∃ place, tableAt mem cr3 place = some p

/-- The space maps the page for ring 3. -/
def IsUserPage (mem : Pages) (cr3 p : Word) : Prop := ∃ q : Slot, userPage mem cr3 q.place = some p

def Uses (mem : Pages) (cr3 p : Word) : Prop := IsTable mem cr3 p ∨ IsUserPage mem cr3 p

/-- How often the spaces map a page for ring 3. -/
def Spaces.mapped (s : Spaces) (p : Word) : Nat :=
  (s.roots.map fun r => mappings s.vm.mem r p).sum

/-- The pages `pmm_alloc` returns are different pages nobody uses. -/
structure Spare (s : Spaces) (pages : List Word) : Prop where
  nodup : pages.Nodup
  aligned : ∀ p ∈ pages, frame p = p
  unused : ∀ p ∈ pages, ∀ r ∈ s.roots, ¬ Uses s.vm.mem r p

/-- A page a space may map for ring 3: no table, not free, and with a reference of its own
for each mapping when references are counted. -/
structure Mappable (s : Spaces) (pages : List Word) (cr3 virt p : Word) : Prop where
  noTable : ∀ r ∈ s.roots, ¬ IsTable s.vm.mem r p
  taken : p ∉ pages ∧ p ∉ s.vm.freed
  counted : inRam s.vm p = true → s.vm.refcnt p ≠ 0 →
    s.mapped p < s.vm.refcnt p + if userPage s.vm.mem cr3 (path virt) = some p then 1 else 0

/-- The condition on a call in the state before it. -/
def SpaceOp.Clean (s : Spaces) : SpaceOp → Prop
  | .create pages =>
      Spare s pages ∧ ∀ i2 i3, tableAt s.vm.mem s.kernel_cr3 [i2, i3, 0] = none
  | .map pages cr3 virt phys flags =>
      Spare s pages ∧ cr3 ∈ s.roots ∧
        (user flags = true → Mappable s pages cr3 virt (frame (phys ||| flags)))
  | .unmap cr3 _ => cr3 ∈ s.roots
  | .alloc pages => Spare s pages
  | .ref p => s.vm.refcnt p = 0 → s.mapped p ≤ 1
  | .destroy cr3 => cr3 ∈ s.live

/-! ## The invariant -/

/-- The shape of a space. -/
structure Shape (mem : Pages) (cr3 : Word) : Prop where
  distinct : Distinct child mem cr3
  small : ∀ place t i, place.length < 2 → tableAt mem cr3 place = some t →
    present (mem t i) = true → huge (mem t i) = false
  supervisor : Supervisor mem cr3

/-- Every table belongs to one space, and user pages have their references. -/
structure Isolated (s : Spaces) : Prop where
  supply : s.vm.supply = []
  roots : s.roots.Nodup
  shape : ∀ r ∈ s.roots, Shape s.vm.mem r
  tables : ∀ r ∈ s.roots, ∀ r' ∈ s.roots, r ≠ r' → ∀ p, IsTable s.vm.mem r p →
    ¬ IsTable s.vm.mem r' p
  pages : ∀ r ∈ s.roots, ∀ r' ∈ s.roots, ∀ p, IsUserPage s.vm.mem r p → ¬ IsTable s.vm.mem r' p
  counted : ∀ p, inRam s.vm p = true → s.vm.refcnt p ≠ 0 → s.mapped p ≤ s.vm.refcnt p
  free : ∀ p ∈ s.vm.freed, ∀ r ∈ s.roots, ¬ Uses s.vm.mem r p
  once : s.vm.freed.Nodup

/-! ## Spaces that stay -/

/-- The tables of a space are what they were. -/
def Agree (mem mem' : Pages) (cr3 : Word) : Prop :=
  ∀ place t, tableAt mem cr3 place = some t → mem' t = mem t

section Agree

variable {mem mem' : Pages} {cr3 : Word} (agree : Agree mem mem' cr3)

include agree

theorem Agree.tableAt (place : List Index) : tableAt mem' cr3 place = tableAt mem cr3 place :=
  table_congr agree place

theorem Agree.userPage (place : List Index) : userPage mem' cr3 place = userPage mem cr3 place := by
  unfold Vmm.userPage
  rw [entryAt, entryAt, entry_congr agree]

theorem Agree.isTable {p : Word} : IsTable mem' cr3 p ↔ IsTable mem cr3 p := by
  unfold IsTable
  simp only [agree.tableAt]

theorem Agree.isUserPage {p : Word} : IsUserPage mem' cr3 p ↔ IsUserPage mem cr3 p := by
  unfold IsUserPage
  simp only [agree.userPage]

theorem Agree.uses {p : Word} : Uses mem' cr3 p ↔ Uses mem cr3 p :=
  or_congr agree.isTable agree.isUserPage

theorem Agree.mappings (p : Word) : mappings mem' cr3 p = mappings mem cr3 p := by
  unfold Vmm.mappings
  simp only [agree.userPage]

theorem Agree.walk (virt : Word) : walk mem' cr3 virt = walk mem cr3 virt :=
  (walk_congr agree virt).1

theorem Agree.shape (shape : Shape mem cr3) : Shape mem' cr3 where
  distinct := shape.distinct.congr agree
  small place t i short found isPresent := by
    rw [agree.tableAt] at found
    rw [agree place t found] at isPresent ⊢
    exact shape.small place t i short found isPresent
  supervisor t i j k found := by
    rw [agree.tableAt] at found
    rw [agree _ t found]
    exact shape.supervisor t i j k found

end Agree

/-- A page that is not mapped for ring 3 is not counted. -/
theorem mappings_eq_zero {mem : Pages} {cr3 p : Word} :
    mappings mem cr3 p = 0 ↔ ¬ IsUserPage mem cr3 p := by
  rw [mappings, Finset.card_eq_zero, Finset.filter_eq_empty_iff, IsUserPage, not_exists]
  simp only [Finset.mem_univ, forall_const]

theorem Spaces.mapped_eq_zero {s : Spaces} {p : Word} (unused : ∀ r ∈ s.roots, ¬ Uses s.vm.mem r p) :
    s.mapped p = 0 := by
  refine List.sum_eq_zero fun n member => ?_
  obtain ⟨r, isRoot, rfl⟩ := List.mem_map.mp member
  exact mappings_eq_zero.mpr fun isPage => unused r isRoot (.inr isPage)

end Systrix.Vmm
