import Systrix.Vmm.KernelCopy
import Systrix.Vmm.SpaceLaws

/-!
# Isolation of the spaces

In runs where the kernel has no tables of 4 KB pages to share and user pages have their
references, tearing down a space leaves all others alone.
-/

namespace Systrix.Vmm

open TableTree

/-- A new space is isolated from the others. -/
theorem create_isolated {s : Spaces} (isolated : Isolated s) {pages : List Word}
    (clean : SpaceOp.Clean s (.create pages)) : Isolated (s.step (.create pages)) := by
  obtain ⟨spare, noTables⟩ := clean
  cases isNew : vmmCreateSpace (s.vm.supplied pages) with
  | none =>
    rw [Spaces.step, isNew]
    exact isolated
  | some new =>
    obtain ⟨cr3, vm₁⟩ := new
    have isKernel : s.kernel_cr3 ∈ s.roots := List.mem_cons_self
    have old : ∀ r ∈ s.roots, ∀ p, IsTable s.vm.mem r p → p ∉ pages := fun r isRoot p table member =>
      spare.unused p member r isRoot (.inl table)
    have shape : Shape (s.vm.supplied pages).mem s.kernel_cr3 := isolated.shape _ isKernel
    obtain ⟨built, -⟩ := vmmMapKernel_built shape (old _ isKernel) spare.nodup spare.aligned isNew
    rw [Spaces.step, isNew]
    dsimp only
    generalize vmmMapKernel vm₁ s.kernel_cr3 cr3 = vm' at built
    have agree : ∀ r ∈ s.roots, Agree s.vm.mem vm'.mem r := fun r isRoot place t found =>
      built.mem t (old r isRoot t ⟨place, found⟩)
    have notRoot : cr3 ∉ s.roots := fun isRoot => old cr3 isRoot cr3 ⟨[], rfl⟩ built.root
    have taken : ∀ p, IsTable vm'.mem cr3 p → p ∈ pages ∧ p ∉ vm'.supply := fun p table => by
      rcases built.tables p table with new | ⟨i2, i3, shared⟩
      · exact new
      · rw [Vm.supplied, noTables i2 i3] at shared
        cases shared
    have noPage : ∀ p, ¬ IsUserPage vm'.mem cr3 p := fun p page => by
      obtain ⟨i1, i2, i3, isPage⟩ := built.pages p page
      rw [Vm.supplied, userPage_none (noTables i2 i3)] at isPage
      cases isPage
    have roots : ∀ r, r ∈ Spaces.roots ⟨vm'.settle pages, s.kernel_cr3, cr3 :: s.live⟩ ↔
        r = cr3 ∨ r ∈ s.roots := fun r => by
      simp only [Spaces.roots, List.mem_cons]
      exact or_left_comm
    have mapped : ∀ p, Spaces.mapped ⟨vm'.settle pages, s.kernel_cr3, cr3 :: s.live⟩ p =
        s.mapped p := fun p => by
      have none : mappings vm'.mem cr3 p = 0 := mappings_eq_zero.mpr (noPage p)
      have same := List.map_congr_left fun r isRoot => (agree r isRoot).mappings p
      have sum := congrArg List.sum same
      simp only [Spaces.roots, List.map_cons, List.sum_cons] at sum
      simp only [Spaces.mapped, Spaces.roots, List.map_cons, List.sum_cons, Vm.settle, none] at sum ⊢
      omega
    have newTable : ∀ p, IsTable vm'.mem cr3 p → ∀ r ∈ s.roots, ¬ Uses s.vm.mem r p := fun p table =>
      spare.unused p (taken p table).1
    refine ⟨rfl, ?_, fun r isRoot => ?_, fun r isRoot r' isRoot' other p table => ?_,
      fun r isRoot r' isRoot' p page => ?_, fun p managed references => ?_, fun p member r isRoot => ?_, ?_⟩
    · have nodup := isolated.roots
      simp only [Spaces.roots, List.nodup_cons, List.mem_cons, not_or] at nodup notRoot ⊢
      exact ⟨⟨Ne.symm notRoot.1, nodup.1⟩, notRoot.2, nodup.2⟩
    · rcases (roots r).mp isRoot with rfl | before
      · exact built.shape
      · exact (agree r before).shape (isolated.shape r before)
    · rcases (roots r).mp isRoot with rfl | before
      · rcases (roots r').mp isRoot' with rfl | before'
        · exact absurd rfl other
        · exact fun table' => newTable p table r' before' (.inl ((agree r' before').isTable.mp table'))
      · have wasTable := (agree r before).isTable.mp table
        rcases (roots r').mp isRoot' with rfl | before'
        · exact fun table' => newTable p table' r before (.inl wasTable)
        · exact fun table' =>
            isolated.tables r before r' before' other p wasTable ((agree r' before').isTable.mp table')
    · rcases (roots r).mp isRoot with rfl | before
      · exact absurd page (noPage p)
      · have wasPage := (agree r before).isUserPage.mp page
        rcases (roots r').mp isRoot' with rfl | before'
        · exact fun table => newTable p table r before (.inr wasPage)
        · exact fun table =>
            isolated.pages r before r' before' p wasPage ((agree r' before').isTable.mp table)
    · rw [mapped]
      show s.mapped p ≤ vm'.refcnt p
      by_cases member : p ∈ pages
      · rw [Spaces.mapped_eq_zero (spare.unused p member)]
        exact Nat.zero_le _
      · have same : vm'.refcnt p = s.vm.refcnt p := built.refcnt p member
        rw [same]
        exact isolated.counted p ((inRam_congr built.ram_end p).symm.trans managed)
          fun none => references (same.trans none)
    · obtain ⟨wasFree, kept⟩ := List.mem_filter.mp member
      rw [built.freed] at wasFree
      simp only [Bool.or_eq_true, Bool.not_eq_true', List.contains_eq_mem, decide_eq_false_iff_not,
        decide_eq_true_eq] at kept
      rcases (roots r).mp isRoot with rfl | before
      · rintro (table | page)
        · obtain ⟨member', gone⟩ := taken p table
          exact kept.elim (fun not => not member') gone
        · exact noPage p page
      · exact fun uses => isolated.free p wasFree r before ((agree r before).uses.mp uses)
    · show (vm'.freed.filter _).Nodup
      rw [built.freed]
      exact isolated.once.filter _

/-- A space whose addresses ring 3 may use where they are mapped for it. -/
structure UserSpace (vm : Vm) (cr3 : Word) : Prop where
  tree : Tree vm cr3
  ring3 : ∀ virt, (above vm.mem cr3 virt).ring3 = true

/-- A new space is one, whatever pages `pmm_alloc` has afterwards. -/
theorem create_userSpace {s : Spaces} (isolated : Isolated s) {pages : List Word}
    (clean : SpaceOp.Clean s (.create pages)) {cr3 : Word} {vm₁ : Vm}
    (isNew : vmmCreateSpace (s.vm.supplied pages) = some (cr3, vm₁)) {more : List Word}
    (spare : Spare (s.step (.create pages)) more) :
    UserSpace ((s.step (.create pages)).vm.supplied more) cr3 := by
  have isolated' := create_isolated isolated clean
  obtain ⟨spare₁, noTables⟩ := clean
  have isKernel : s.kernel_cr3 ∈ s.roots := List.mem_cons_self
  have old : ∀ p, IsTable s.vm.mem s.kernel_cr3 p → p ∉ pages := fun p table member =>
    spare₁.unused p member _ isKernel (.inl table)
  have kernelShape : Shape (s.vm.supplied pages).mem s.kernel_cr3 := isolated.shape _ isKernel
  have ring3 := vmmMapKernel_ring3 kernelShape old spare₁.nodup spare₁.aligned noTables isNew
  have isRoot : cr3 ∈ (s.step (.create pages)).roots := by
    rw [Spaces.step, isNew]
    exact List.mem_cons_of_mem _ List.mem_cons_self
  have isVm : (s.step (.create pages)).vm.mem = (vmmMapKernel vm₁ s.kernel_cr3 cr3).mem := by
    rw [Spaces.step, isNew]
    rfl
  have shape := isolated'.shape cr3 isRoot
  exact ⟨⟨shape.distinct, shape.small,
    fun p member place found => spare.unused p member cr3 isRoot (.inl ⟨place, found⟩), spare.nodup, spare.aligned⟩,
    fun virt => isVm ▸ ring3 virt⟩

theorem step_isolated {s : Spaces} {op : SpaceOp} (isolated : Isolated s) (clean : op.Clean s) :
    Isolated (s.step op) := by
  cases op with
  | create pages => exact create_isolated isolated clean
  | map pages cr3 virt phys flags => exact map_isolated isolated clean
  | unmap cr3 virt => exact unmap_isolated isolated clean
  | alloc pages => exact alloc_isolated isolated clean
  | ref p => exact ref_isolated isolated clean
  | destroy cr3 => exact destroy_isolated isolated clean

/-- What the teardown of a space promises: the other spaces are mapped as before, nothing is
freed that is free, and nothing that another space uses. -/
def TearsDown (s : Spaces) (cr3 : Word) : Prop :=
  let vm := vmmDestroy s.vm cr3
  (∀ r ∈ s.roots, r ≠ cr3 → ∀ virt, walk vm.mem r virt = walk s.vm.mem r virt) ∧
    vm.freed.Nodup ∧ ∀ p ∈ vm.freed, ∀ r ∈ s.roots, r ≠ cr3 → ¬ Uses s.vm.mem r p

theorem Isolated.tearsDown {s : Spaces} (isolated : Isolated s) {cr3 : Word} (isLive : cr3 ∈ s.live) :
    TearsDown s cr3 := by
  obtain ⟨new, released⟩ := released_all (spaceReleases s.vm.mem cr3) s.vm
  rw [← vmmDestroy_eq_releases isolated isLive] at released
  have after := released_isolated isolated isLive released
  refine ⟨fun r isRoot other virt => ?_, after.once, fun p member r isRoot other => ?_⟩
  · exact (released_agree isolated isLive released isRoot other).walk virt
  · rw [released.freed, List.mem_append] at member
    rcases member with now | before
    · exact released_unused isolated isLive released now isRoot other
    · exact isolated.free p before r isRoot

/-- In a run of clean calls every live space can be torn down without harm to the others. -/
theorem teardown_isolated {s : Spaces} (isolated : Isolated s) (ops : List SpaceOp)
    (clean : Run.Meets Spaces.step (fun s op => op.Clean s) s ops) :
    ∀ cr3 ∈ (Run.final Spaces.step s ops).live, TearsDown (Run.final Spaces.step s ops) cr3 := by
  intro cr3 isLive
  exact (clean.invariant (fun _ _ isolated clean => step_isolated isolated clean) isolated).tearsDown isLive

/-! ### Tables of the kernel -/

/-- A space that shares a last table with the kernel takes it along when it is torn down. -/
theorem shared_freed {s : Spaces} (isolated : Isolated s) {cr3 : Word} {rest : List Word}
    (spare : Spare s (cr3 :: rest)) {i2 i3 : Index} {p : Word}
    (shared : tableAt s.vm.mem s.kernel_cr3 [i2, i3, 0] = some p) (managed : inRam s.vm p = true)
    {used : List Index} (isUsed : ∀ i, tableAt s.vm.mem s.kernel_cr3 [i, 0] ≠ none → i ∈ used)
    (enough : used.length + 1 < rest.length) :
    (s.step (.create (cr3 :: rest))).live = cr3 :: s.live ∧
      ¬ TearsDown (s.step (.create (cr3 :: rest))) cr3 := by
  have isKernel : s.kernel_cr3 ∈ s.roots := List.mem_cons_self
  have old : ∀ p, IsTable s.vm.mem s.kernel_cr3 p → p ∉ cr3 :: rest := fun p table member =>
    spare.unused p member _ isKernel (.inl table)
  have supply : (s.vm.supplied (cr3 :: rest)).supply = cr3 :: rest := rfl
  have isNew := pmmAlloc_cons supply
  have shape : Shape (s.vm.supplied (cr3 :: rest)).mem s.kernel_cr3 := isolated.shape _ isKernel
  obtain ⟨built, copies⟩ := vmmMapKernel_built shape old spare.nodup spare.aligned isNew
  have copies := copies used isUsed (Nat.succ_lt_succ enough) i3 fun none => by
    have below := table_suffix (p := [i3, 0]) (q := [i2, i3, 0]) ⟨[i2], rfl⟩ none
    cases below.symm.trans shared
  rw [Spaces.step, vmmCreateSpace, isNew]
  dsimp only
  generalize vmmMapKernel _ s.kernel_cr3 cr3 = vm' at built copies
  refine ⟨rfl, fun tearsDown => ?_⟩
  have agree : Agree s.vm.mem vm'.mem s.kernel_cr3 := fun place t found => built.mem t (old t ⟨place, found⟩)
  have unmapped : Unmapped vm'.mem cr3 := fun q f place last page found => by
    obtain ⟨a, rfl⟩ := slot_of_length last
    obtain ⟨i1, j2, j3, isPage⟩ := built.pages f ⟨a, page⟩
    have isPage : IsUserPage s.vm.mem s.kernel_cr3 f := ⟨(0, j3, j2, i1), isPage⟩
    rcases built.tables f ⟨place, found⟩ with ⟨isNew, -⟩ | ⟨k2, k3, isLast⟩
    · exact spare.unused f isNew _ isKernel (.inr isPage)
    · exact isolated.pages _ isKernel _ isKernel f isPage ⟨_, isLast⟩
  -- the last table is one of the new space, so it is freed
  have found : tableAt vm'.mem cr3 [i2, i3, 0] = some p := by
    cases foundPd : tableAt vm'.mem cr3 [i3, 0] with
    | none => exact absurd foundPd copies
    | some q => exact (built.shared i2 i3 q foundPd).trans shared
  have isFree : .free p ∈ spaceReleases vm'.mem cr3 :=
    List.mem_append_left _ (free_mem_of_table List.nil_suffix (by simp) (by simp) found)
  obtain ⟨new, released⟩ := released_all (spaceReleases vm'.mem cr3) (vm'.settle (cr3 :: rest))
  have distinct : Distinct child (vm'.settle (cr3 :: rest)).mem cr3 := built.shape.distinct
  have isDestroy := vmmDestroy_eq distinct unmapped fun i => built.shape.small [] cr3 i (by decide) rfl
  rw [spaceReleases] at released
  rw [Vm.settle] at isDestroy released
  rw [← isDestroy] at released
  have freed := released.frees p isFree ((inRam_congr built.ram_end p).trans managed)
  have notNew : s.kernel_cr3 ≠ cr3 := fun same => old _ ⟨[], rfl⟩ (same ▸ List.mem_cons_self)
  refine tearsDown.2.2 p ?_ s.kernel_cr3 List.mem_cons_self notNew (.inl (agree.isTable.mpr ⟨_, shared⟩))
  show p ∈ (vmmDestroy (vm'.settle (cr3 :: rest)) cr3).freed
  rw [Vm.settle, released.freed]
  exact List.mem_append_left _ freed

/-! ### From the tables of the boot code -/

/-- The machine after boot, without processes. -/
def bootSpaces : Spaces := ⟨bootVm.supplied [], 0x1000, []⟩

/-- The pages `pmm_alloc` has for the first process. -/
def processPages : List Word := [0x1002000, 0x1003000, 0x1004000, 0x1005000, 0x1006000]

theorem isTable_boot {p : Word} (table : IsTable bootMem 0x1000 p) :
    p = 0x1000 ∨ p = 0x2000 ∨ p = 0x3000 := by
  obtain ⟨place, found⟩ := table
  rcases tableAt_boot found with ⟨-, same⟩ | ⟨-, same⟩ | ⟨-, same⟩
  · exact .inl same
  · exact .inr (.inl same)
  · exact .inr (.inr same)

theorem noPage_boot (p : Word) : ¬ IsUserPage bootMem 0x1000 p :=
  noPage_of_short (fun place t found => by
    rcases tableAt_boot found with ⟨rfl, -⟩ | ⟨rfl, -⟩ | ⟨rfl, -⟩ <;> decide) p

theorem isolated_boot : Isolated bootSpaces := by
  have only : ∀ {r}, r ∈ bootSpaces.roots → r = 0x1000 := fun member => List.mem_singleton.mp member
  refine ⟨rfl, List.nodup_singleton _, fun r isRoot => ?_, fun r isRoot r' isRoot' other => ?_,
    fun r isRoot r' _ p page => ?_, fun p _ references => absurd rfl references, fun p member => (by cases member),
    List.nodup_nil⟩
  · rw [only isRoot]
    refine ⟨tree_bootVm.distinct, tree_bootVm.small, fun t i j k found _ _ => ?_⟩
    have kernel : ∀ i, user (bootMem 0x3000 i) = false := by decide +kernel
    rcases tableAt_boot found with ⟨not, -⟩ | ⟨not, -⟩ | ⟨-, rfl⟩
    · cases not
    · cases not
    · exact kernel i
  · exact absurd ((only isRoot).trans (only isRoot').symm) other
  · rw [only isRoot] at page
    exact absurd page (noPage_boot p)

theorem spare_boot {pages : List Word} (nodup : pages.Nodup)
    (apart : (pages.all fun p => frame p == p && p != 0x1000 && p != 0x2000 && p != 0x3000) = true) :
    Spare bootSpaces pages := by
  have each : ∀ p ∈ pages, frame p = p ∧ p ≠ 0x1000 ∧ p ≠ 0x2000 ∧ p ≠ 0x3000 := fun p member => by
    simpa [and_assoc] using List.all_eq_true.mp apart p member
  refine ⟨nodup, fun p member => (each p member).1, fun p member r isRoot => ?_⟩
  obtain ⟨-, notRoot, notSecond, notThird⟩ := each p member
  rw [List.mem_singleton.mp isRoot]
  rintro (table | page)
  · rcases isTable_boot table with same | same | same
    · exact notRoot same
    · exact notSecond same
    · exact notThird same
  · exact noPage_boot p page

theorem teardown_isolated_firstProcess :
    TearsDown (Run.final Spaces.step bootSpaces [.create processPages]) 0x1002000 := by
  refine teardown_isolated isolated_boot [.create processPages]
    ⟨⟨spare_boot (by decide +kernel) (by decide +kernel), fun i2 i3 => ?_⟩, trivial⟩ 0x1002000 List.mem_cons_self
  cases found : tableAt bootMem 0x1000 [i2, i3, 0] with
  | none => exact found
  | some t => rcases tableAt_boot found with ⟨not, -⟩ | ⟨not, -⟩ | ⟨not, -⟩ <;> cases not

/-! ### A table of a driver -/

/-- The call with which a driver maps its registers, as `e1000_init` does. -/
def driverMap : SpaceOp :=
  .map [0x1000000, 0x1001000] 0x1000 0xfeb00000 0xfeb00000 (ptePresent ||| pteWrite ||| pteNx)

theorem driverMap_clean : SpaceOp.Clean bootSpaces driverMap :=
  ⟨spare_boot (by decide +kernel) (by decide +kernel), List.mem_cons_self, fun not => by cases not⟩

theorem spare_driver : Spare (bootSpaces.step driverMap) processPages := by
  have spare : Spare bootSpaces (processPages ++ [0x1000000, 0x1001000]) :=
    spare_boot (by decide +kernel) (by decide +kernel)
  have nodup := List.nodup_append.mp spare.nodup
  refine ⟨nodup.1, fun p member => spare.aligned p (List.mem_append_left _ member),
    fun p member r isRoot uses => ?_⟩
  rcases map_uses isolated_boot driverMap_clean rfl isRoot uses with before | now
  · exact spare.unused p (List.mem_append_left _ member) r isRoot before
  · exact nodup.2.2 p member p now rfl

/-- The space of the process takes the table of the driver along. -/
theorem driverTable_freed :
    Isolated bootSpaces ∧
      (Run.final Spaces.step bootSpaces [driverMap, .create processPages]).live = [0x1002000] ∧
      ¬ TearsDown (Run.final Spaces.step bootSpaces [driverMap, .create processPages]) 0x1002000 := by
  have shared : tableAt (bootSpaces.step driverMap).vm.mem 0x1000 [0x1f5, 0x3, 0] = some 0x1001000 := by
    decide +kernel
  have few : ∀ i, tableAt (bootSpaces.step driverMap).vm.mem 0x1000 [i, 0] ≠ none → i ∈ [0, 3] := by
    decide +kernel
  exact ⟨isolated_boot, shared_freed (map_isolated isolated_boot driverMap_clean) spare_driver shared
    (by decide +kernel) few (by decide)⟩

end Systrix.Vmm
