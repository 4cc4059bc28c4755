import Systrix.Lib.Run
import Systrix.Lib.WordMemory
import Systrix.Vmm.UserMemory

/-!
# Regions of user memory

The heap of a process grows from `BRK_BASE` to `BRK_MAX`, and `sys_mmap` hands out regions from
`MMAP_BASE` on, which lies below `BRK_MAX`.  The regions the calls of a process return are followed
over runs.
-/

namespace Systrix.Vmm

open Run WordMemory

/-- Flags without `MAP_FIXED`. -/
abbrev UnfixedFlags := { flags : Word // flags &&& mapFixed = 0 }

/-- The calls of a process, and what happens elsewhere: physical memory changes, and another process
maps `len` bytes. -/
inductive MemoryCall where
  | brk (new_brk : Word)
  | malloc (n : Word)
  | mmap (in_use : Word → Bool) (addr len prot : Word) (flags : UnfixedFlags) (fd off : Word)
  | elsewhere (vm : Vm) (len : Word)

/-- A process with the regions `sys_mmap` and `sys_malloc` returned to it. -/
structure Regions where
  process : UserProcess
  mmaps : List Region
  mallocs : List Region

/-- The heap of a process. -/
def Regions.heap (s : Regions) : Region := ⟨brkBase.toNat, s.process.brk.toNat⟩

/-- A new process, with `mmap_bump` as it is after boot. -/
def Regions.start (vm : Vm) (cr3 : Word) (vmas : Option (List VmaEntry)) : Regions :=
  ⟨⟨vm, cr3, brkBase, vmas, mmapBase⟩, [], []⟩

/-- `n = (n + 15) & ~(usize)15` -/
def roundUp16 (n : Word) : Word := (n + 15) &&& ~~~(15 : Word)

/-- One call; a region is recorded when the result is no error. -/
def Regions.step (s : Regions) : MemoryCall → Regions
  | .brk new_brk => { s with process := (sysBrk s.process new_brk).2 }
  | .malloc n =>
      match sysMalloc s.process n with
      | (ptr, p) =>
          if ptr = 0 then { s with process := p }
          else { s with process := p, mallocs := ⟨ptr.toNat, ptr.toNat + n.toNat⟩ :: s.mallocs }
  | .mmap in_use addr len prot flags fd off =>
      match sysMmap s.process in_use addr len prot flags fd off with
      | (virt, p) =>
          if IsMmapError virt then { s with process := p }
          else { s with process := p, mmaps := ⟨virt.toNat, virt.toNat + (pageUp len).toNat⟩ :: s.mmaps }
  | .elsewhere vm len =>
      { s with process := { s.process with vm := vm, mmap_bump := s.process.mmap_bump + pageUp len } }

/-- No regions overlap. -/
structure Regions.Disjoint (s : Regions) : Prop where
  heap : ∀ r ∈ s.mmaps, s.heap.Apart r
  mmaps : s.mmaps.Pairwise Region.Apart
  mallocs : s.mallocs.Pairwise Region.Apart

/-- After the call no regions overlap, and the break is not lower unless the call is `sys_brk`. -/
def KeepsApart (s : Regions) (call : MemoryCall) : Prop :=
  (s.step call).Disjoint ∧
    ((∃ new_brk, call = .brk new_brk) ∨ s.process.brk ≤ (s.step call).process.brk)

/-- The page loop of `sys_malloc` for the pages up to the new break. -/
def mallocPages (p : UserProcess) (n : Word) : Bool × Vm :=
  mapHeap p.cr3 (((pageUp (p.brk + roundUp16 n)).toNat - (pageDown p.brk).toNat) / 4096)
    (pageDown p.brk) p.vm

/-- `sys_malloc` has what it needs for a request: the sum as it is computed stays below `BRK_MAX`,
and there is a frame for every page. -/
def MallocServed (p : UserProcess) (n : Word) : Prop :=
  n ≠ 0 ∧ p.brk + roundUp16 n ≤ brkMax ∧ (mallocPages p n).1 = true

/-- The states in which a call keeps the regions apart: the break ends below the regions mapped, new
regions begin above it, sums do not wrap and the bytes behind the break were not handed out. -/
def HasRoom (s : Regions) : MemoryCall → Prop
  | .brk new_brk => brkBase ≤ new_brk → new_brk ≤ brkMax → ∀ r ∈ s.mmaps, new_brk.toNat ≤ r.lo
  | .malloc n => MallocServed s.process n →
      s.process.brk.toNat + (roundUp16 n).toNat < 2 ^ 64 ∧
      (∀ r ∈ s.mmaps, s.process.brk.toNat + (roundUp16 n).toNat ≤ r.lo) ∧
      ∀ r ∈ s.mallocs, Region.Apart ⟨s.process.brk.toNat, s.process.brk.toNat + n.toNat⟩ r
  | .mmap in_use _ len _ flags fd _ => MmapServed in_use len flags fd → s.process.brk ≤ s.process.mmap_bump
  | .elsewhere _ _ => True

/-- The sum that `sys_mmap` adds to does not wrap. -/
def BumpFits (s : Regions) : MemoryCall → Prop
  | .mmap _ _ len _ _ _ _ | .elsewhere _ len =>
      s.process.mmap_bump.toNat + (pageUp len).toNat < 2 ^ 64
  | _ => True

/-! ## What the calls do -/

theorem sysMalloc_eq {p : UserProcess} (started : brkBase ≤ p.brk) {n : Word} (positive : n ≠ 0) :
    sysMalloc p n =
      if brkMax < p.brk + roundUp16 n then (0, p)
      else
        match mallocPages p n with
        | (false, vm) => (0, { p with vm := vm })
        | (true, vm) => (p.brk, { p with vm := vm, brk := p.brk + roundUp16 n }) := by
  unfold sysMalloc
  rw [if_neg positive, if_neg (BitVec.not_lt.mpr started)]
  rfl

theorem sysMalloc_spec {p : UserProcess} (started : brkBase ≤ p.brk) (n : Word) :
    (sysMalloc p n).2.mmap_bump = p.mmap_bump ∧
      (¬MallocServed p n ∧ (sysMalloc p n).1 = 0 ∧ (sysMalloc p n).2.brk = p.brk ∨
        MallocServed p n ∧ (sysMalloc p n).1 = p.brk ∧ (sysMalloc p n).2.brk = p.brk + roundUp16 n) := by
  by_cases isZero : n = 0
  · rw [sysMalloc, if_pos isZero]
    exact ⟨rfl, .inl ⟨fun served => served.1 isZero, rfl, rfl⟩⟩
  rw [sysMalloc_eq started isZero]
  by_cases high : brkMax < p.brk + roundUp16 n
  · rw [if_pos high]
    exact ⟨rfl, .inl ⟨fun served => absurd served.2.1 (BitVec.not_le.mpr high), rfl, rfl⟩⟩
  rw [if_neg high]
  have served_iff : MallocServed p n ↔ (mallocPages p n).1 = true :=
    ⟨fun served => served.2.2, fun enough => ⟨isZero, BitVec.not_lt.mp high, enough⟩⟩
  rw [served_iff]
  cases mapped : mallocPages p n with
  | mk enough vm =>
      cases enough with
      | false => exact ⟨rfl, .inl ⟨Bool.false_ne_true, rfl, rfl⟩⟩
      | true => exact ⟨rfl, .inr ⟨rfl, rfl, rfl⟩⟩

theorem sysMmap_unfixed (p : UserProcess) (in_use : Word → Bool) (addr len prot : Word)
    (flags : UnfixedFlags) (fd off : Word) : (sysMmap p in_use addr len prot flags fd off).2.brk = p.brk ∧
      (¬MmapServed in_use len flags fd ∧ (sysMmap p in_use addr len prot flags fd off).2 = p ∧
          IsMmapError (sysMmap p in_use addr len prot flags fd off).1 ∨
        MmapServed in_use len flags fd ∧
          (sysMmap p in_use addr len prot flags fd off).1 = p.mmap_bump ∧
          (sysMmap p in_use addr len prot flags fd off).2.mmap_bump = p.mmap_bump + pageUp len) := by
  have virt : mmapAddr p addr flags = p.mmap_bump := if_neg fun fixed => fixed.2 flags.property
  rcases sysMmap_spec p in_use addr len prot flags fd off with ⟨refused, same, error⟩ | ⟨served, entry, -, -, run⟩
  · exact ⟨by rw [same], .inl ⟨refused, same, error⟩⟩
  · rw [run]
    exact ⟨rfl, .inr ⟨served, virt, if_pos flags.property⟩⟩

/-! ## Apart, call by call -/

/-- What runs whose sums fit keep while the regions are apart. -/
structure Regions.Inv (s : Regions) : Prop where
  started : brkBase ≤ s.process.brk
  aligned : s.process.mmap_bump.toNat % 4096 = 0
  bump : mmapBase.toNat ≤ s.process.mmap_bump.toNat
  mapped : ∀ r ∈ s.mmaps, mmapBase.toNat ≤ r.lo ∧ r.lo < r.hi ∧ r.hi ≤ s.process.mmap_bump.toNat
  disjoint : s.Disjoint

theorem mmapBase_toNat : mmapBase.toNat = 0x2000000 := rfl

/-- The heap is apart from the regions mapped exactly if the break is not above their start. -/
theorem heap_apart_iff {stop : Nat} {r : Region} (mapped : mmapBase.toNat ≤ r.lo ∧ r.lo < r.hi) :
    Region.Apart ⟨brkBase.toNat, stop⟩ r ↔ stop ≤ r.lo := by
  rw [mmapBase_toNat] at mapped
  constructor
  · rintro (below | above)
    · exact below
    · change r.hi ≤ 0x1000000 at above
      omega
  · exact Or.inl

namespace Regions.Inv

variable {s : Regions} (inv : s.Inv)

include inv

theorem brk_call (new_brk : Word) :
    (KeepsApart s (.brk new_brk) ↔ HasRoom s (.brk new_brk)) ∧
      (HasRoom s (.brk new_brk) → (s.step (.brk new_brk)).Inv) := by
  obtain ⟨bump, changes⟩ := sysBrk_spec s.process new_brk
  have others : ∀ {brk : Word}, (sysBrk s.process new_brk).2.brk = brk →
      ((s.step (.brk new_brk)).Disjoint ↔ ∀ r ∈ s.mmaps, brk.toNat ≤ r.lo) := by
    intro brk isBrk
    constructor
    · intro disjoint r member
      have apart := disjoint.heap r member
      unfold Regions.heap Regions.step at apart
      rw [isBrk] at apart
      exact (heap_apart_iff ⟨(inv.mapped r member).1, (inv.mapped r member).2.1⟩).mp apart
    · intro below
      refine ⟨fun r member => ?_, inv.disjoint.mmaps, inv.disjoint.mallocs⟩
      unfold Regions.heap Regions.step
      rw [isBrk]
      exact .inl (below r member)
  have room : HasRoom s (.brk new_brk) → (s.step (.brk new_brk)).Inv := by
    intro hasRoom
    have kept : brkBase ≤ (sysBrk s.process new_brk).2.brk ∧ (s.step (.brk new_brk)).Disjoint := by
      rcases changes with ⟨same, -⟩ | ⟨low, high, isNew⟩
      · rw [others same, same]
        refine ⟨inv.started, fun r member => ?_⟩
        exact (heap_apart_iff ⟨(inv.mapped r member).1, (inv.mapped r member).2.1⟩).mp
          (inv.disjoint.heap r member)
      · rw [others isNew, isNew]
        exact ⟨low, hasRoom low high⟩
    refine ⟨kept.1, ?_, ?_, ?_, kept.2⟩
    all_goals
      unfold Regions.step
      dsimp only
      rw [bump]
    · exact inv.aligned
    · exact inv.bump
    · exact inv.mapped
  refine ⟨⟨fun keeps low high => ?_, fun hasRoom => ⟨(room hasRoom).disjoint, .inl ⟨_, rfl⟩⟩⟩, room⟩
  rcases changes with ⟨-, refused⟩ | ⟨-, -, isNew⟩
  · exact absurd ⟨low, high⟩ refused
  · exact (others isNew).mp keeps.1

theorem malloc_call (n : Word) :
    (KeepsApart s (.malloc n) ↔ HasRoom s (.malloc n)) ∧
      (HasRoom s (.malloc n) → (s.step (.malloc n)).Inv) := by
  obtain ⟨bump, refused | ⟨served, isPtr, isBrk⟩⟩ := sysMalloc_spec inv.started n
  · obtain ⟨notServed, isNull, same⟩ := refused
    have after : s.step (.malloc n) = { s with process := (sysMalloc s.process n).2 } := by
      simp only [Regions.step, isNull, if_true]
    have inv' : (s.step (.malloc n)).Inv := by
      rw [after]
      refine ⟨?_, ?_, ?_, ?_, ⟨?_, inv.disjoint.mmaps, inv.disjoint.mallocs⟩⟩
      · exact same ▸ inv.started
      · exact bump ▸ inv.aligned
      · exact bump ▸ inv.bump
      · exact bump ▸ inv.mapped
      · unfold Regions.heap
        rw [same]
        exact inv.disjoint.heap
    refine ⟨⟨fun _ served => absurd served notServed, fun _ => ⟨inv'.disjoint, .inr ?_⟩⟩, fun _ => inv'⟩
    rw [after]
    exact BitVec.le_of_eq same.symm
  have nonNull : s.process.brk ≠ 0 := by
    intro isNull
    have started := inv.started
    rw [isNull] at started
    exact absurd started (by decide)
  have after : s.step (.malloc n) = { s with
      process := (sysMalloc s.process n).2
      mallocs := ⟨s.process.brk.toNat, s.process.brk.toNat + n.toNat⟩ :: s.mallocs } := by
    simp only [Regions.step, isPtr, nonNull, if_false]
  have value : (s.process.brk + roundUp16 n).toNat =
      (s.process.brk.toNat + (roundUp16 n).toNat) % 2 ^ 64 := BitVec.toNat_add _ _
  have room : HasRoom s (.malloc n) → (s.step (.malloc n)).Inv ∧ KeepsApart s (.malloc n) := by
    intro hasRoom
    obtain ⟨fits, below, apart⟩ := hasRoom served
    rw [Nat.mod_eq_of_lt fits] at value
    have disjoint : (s.step (.malloc n)).Disjoint := by
      rw [after]
      refine ⟨fun r member => .inl ?_, inv.disjoint.mmaps, ?_⟩
      · change (sysMalloc s.process n).2.brk.toNat ≤ r.lo
        rw [isBrk, value]
        exact below r member
      · exact List.pairwise_cons.mpr ⟨apart, inv.disjoint.mallocs⟩
    have grows : s.process.brk ≤ (s.step (.malloc n)).process.brk := by
      rw [after]
      change s.process.brk ≤ (sysMalloc s.process n).2.brk
      rw [isBrk, BitVec.le_def, value]
      exact Nat.le_add_right _ _
    refine ⟨⟨?_, ?_, ?_, ?_, disjoint⟩, disjoint, .inr grows⟩
    · exact BitVec.le_trans inv.started grows
    all_goals rw [after]
    · exact bump ▸ inv.aligned
    · exact bump ▸ inv.bump
    · exact bump ▸ inv.mapped
  refine ⟨⟨fun keeps _ => ?_, fun hasRoom => (room hasRoom).2⟩, fun hasRoom => (room hasRoom).1⟩
  obtain ⟨disjoint, ⟨new_brk, isBrkCall⟩ | grows⟩ := keeps
  · cases isBrkCall
  rw [after] at disjoint grows
  change s.process.brk ≤ (sysMalloc s.process n).2.brk at grows
  have small := (roundUp16 n).isLt
  have fits : s.process.brk.toNat + (roundUp16 n).toNat < 2 ^ 64 := by
    rw [isBrk, BitVec.le_def, value] at grows
    omega
  rw [Nat.mod_eq_of_lt fits] at value
  refine ⟨fits, fun r member => ?_, (List.pairwise_cons.mp disjoint.mallocs).1⟩
  have apart := disjoint.heap r member
  change Region.Apart ⟨_, (sysMalloc s.process n).2.brk.toNat⟩ r at apart
  rw [isBrk, value] at apart
  exact (heap_apart_iff ⟨(inv.mapped r member).1, (inv.mapped r member).2.1⟩).mp apart

theorem mmap_call {in_use : Word → Bool} {addr len prot : Word} {flags : UnfixedFlags} {fd off : Word}
    (fits : BumpFits s (.mmap in_use addr len prot flags fd off)) :
    (KeepsApart s (.mmap in_use addr len prot flags fd off) ↔
        HasRoom s (.mmap in_use addr len prot flags fd off)) ∧
      (HasRoom s (.mmap in_use addr len prot flags fd off) →
        (s.step (.mmap in_use addr len prot flags fd off)).Inv) := by
  obtain ⟨isBrk, ⟨refused, same, error⟩ | ⟨served, isVirt, isBump⟩⟩ :=
    sysMmap_unfixed s.process in_use addr len prot flags fd off
  · have after : s.step (.mmap in_use addr len prot flags fd off) = s := by
      simp only [Regions.step, error, if_true, same]
    refine ⟨⟨fun _ served => absurd served refused, fun _ => ?_⟩, fun _ => ?_⟩
    · rw [KeepsApart, after]
      exact ⟨inv.disjoint, .inr (BitVec.le_refl _)⟩
    · rwa [after]
  have noError : ¬IsMmapError s.process.mmap_bump := not_isMmapError inv.aligned
  generalize isRegion : (⟨s.process.mmap_bump.toNat,
    s.process.mmap_bump.toNat + (pageUp len).toNat⟩ : Region) = region
  have after : s.step (.mmap in_use addr len prot flags fd off) = { s with
      process := (sysMmap s.process in_use addr len prot flags fd off).2
      mmaps := region :: s.mmaps } := by
    simp only [Regions.step, isVirt, noError, if_false, isRegion]
  have value : (s.process.mmap_bump + pageUp len).toNat =
      s.process.mmap_bump.toNat + (pageUp len).toNat := by
    rw [BitVec.toNat_add]
    exact Nat.mod_eq_of_lt fits
  have nonempty : 0 < (pageUp len).toNat := by
    refine Nat.pos_of_ne_zero fun isZero => served.2 ?_
    exact BitVec.eq_of_toNat_eq isZero
  have mapped : mmapBase.toNat ≤ region.lo ∧ region.lo < region.hi := by
    rw [← isRegion]
    exact ⟨inv.bump, Nat.lt_add_of_pos_right nonempty⟩
  have disjoint_iff : (s.step (.mmap in_use addr len prot flags fd off)).Disjoint ↔
      s.process.brk ≤ s.process.mmap_bump := by
    rw [after]
    have heap : Region.Apart ⟨brkBase.toNat, s.process.brk.toNat⟩ region ↔
        s.process.brk ≤ s.process.mmap_bump := by
      rw [heap_apart_iff mapped, ← isRegion]
      exact Iff.rfl
    rw [← heap]
    constructor
    · intro disjoint
      have apart := disjoint.heap region List.mem_cons_self
      unfold Regions.heap at apart
      rwa [isBrk] at apart
    · intro apart
      refine ⟨fun r member => ?_, ?_, inv.disjoint.mallocs⟩
      · unfold Regions.heap
        dsimp only
        rw [isBrk]
        rcases List.mem_cons.mp member with rfl | old
        · exact apart
        · exact inv.disjoint.heap r old
      · refine List.pairwise_cons.mpr ⟨fun r member => .inr ?_, inv.disjoint.mmaps⟩
        rw [← isRegion]
        exact (inv.mapped r member).2.2
  have grows : s.process.brk ≤ (s.step (.mmap in_use addr len prot flags fd off)).process.brk := by
    rw [after]
    exact BitVec.le_of_eq isBrk.symm
  refine ⟨⟨fun keeps _ => disjoint_iff.mp keeps.1, fun hasRoom => ?_⟩, fun hasRoom => ?_⟩
  · exact ⟨disjoint_iff.mpr (hasRoom served), .inr grows⟩
  have disjoint := disjoint_iff.mpr (hasRoom served)
  have aligned := inv.aligned
  have rounded := pageUp_mod len
  refine ⟨BitVec.le_trans inv.started grows, ?_, ?_, ?_, disjoint⟩
  all_goals
    rw [after]
    dsimp only
    rw [isBump, value]
  · omega
  · exact Nat.le_trans inv.bump (Nat.le_add_right _ _)
  · intro r member
    rcases List.mem_cons.mp member with rfl | old
    · exact ⟨mapped.1, mapped.2, Nat.le_of_eq (by rw [← isRegion])⟩
    · exact ⟨(inv.mapped r old).1, (inv.mapped r old).2.1,
        Nat.le_trans (inv.mapped r old).2.2 (Nat.le_add_right _ _)⟩

theorem elsewhere_call {vm : Vm} {len : Word} (fits : BumpFits s (.elsewhere vm len)) :
    (s.step (.elsewhere vm len)).Inv := by
  have value : (s.process.mmap_bump + pageUp len).toNat =
      s.process.mmap_bump.toNat + (pageUp len).toNat := by
    rw [BitVec.toNat_add]
    exact Nat.mod_eq_of_lt fits
  have aligned := inv.aligned
  have rounded := pageUp_mod len
  have above : s.process.mmap_bump.toNat ≤ (s.process.mmap_bump + pageUp len).toNat := by
    rw [value]
    exact Nat.le_add_right _ _
  refine ⟨inv.started, ?_, Nat.le_trans inv.bump above, fun r member => ?_, ?_⟩
  · change (s.process.mmap_bump + pageUp len).toNat % 4096 = 0
    omega
  · exact ⟨(inv.mapped r member).1, (inv.mapped r member).2.1, Nat.le_trans (inv.mapped r member).2.2 above⟩
  · exact ⟨inv.disjoint.heap, inv.disjoint.mmaps, inv.disjoint.mallocs⟩

theorem call (call : MemoryCall) (fits : BumpFits s call) :
    (KeepsApart s call ↔ HasRoom s call) ∧ (HasRoom s call → (s.step call).Inv) := by
  cases call with
  | brk new_brk => exact inv.brk_call new_brk
  | malloc n => exact inv.malloc_call n
  | mmap in_use addr len prot flags fd off => exact inv.mmap_call fits
  | elsewhere vm len =>
      have inv' := inv.elsewhere_call fits
      exact ⟨⟨fun _ => trivial, fun _ => ⟨inv'.disjoint, .inr (BitVec.le_refl _)⟩⟩, fun _ => inv'⟩

end Regions.Inv

theorem Regions.inv_start (vm : Vm) (cr3 : Word) (vmas : Option (List VmaEntry)) :
    (Regions.start vm cr3 vmas).Inv where
  started := BitVec.le_refl _
  aligned := by
    change mmapBase.toNat % 4096 = 0
    decide
  bump := Nat.le_refl _
  mapped _ member := absurd member List.not_mem_nil
  disjoint := ⟨fun _ member => absurd member List.not_mem_nil, .nil, .nil⟩

/-- As long as `mmap_bump` does not wrap, no regions overlap and no call but `sys_brk` lowers the
break in a run exactly if every call of the run has room. -/
theorem keepsApart_run_iff (vm : Vm) (cr3 : Word) (vmas : Option (List VmaEntry)) (calls : List MemoryCall)
    (fits : Meets Regions.step BumpFits (.start vm cr3 vmas) calls) :
    Meets Regions.step KeepsApart (.start vm cr3 vmas) calls ↔
      Meets Regions.step HasRoom (.start vm cr3 vmas) calls :=
  meets_iff (I := Regions.Inv) (fun _ call inv fits => (inv.call call fits).1)
    (fun _ call inv fits => (inv.call call fits).2) (Regions.inv_start vm cr3 vmas) fits

/-- The break is raised to `MMAP_BASE` and a page is mapped behind it. -/
theorem keepsApart_run_iff_page :
    Meets Regions.step KeepsApart (.start clearVm 0x403000 none)
      [.brk 0x2000000, .mmap (fun _ => false) 0 1 3 ⟨0x20, rfl⟩ 0 0] :=
  (keepsApart_run_iff clearVm 0x403000 none [.brk 0x2000000, .mmap (fun _ => false) 0 1 3 ⟨0x20, rfl⟩ 0 0]
    ⟨trivial, by unfold BumpFits; decide, trivial⟩).mpr
    ⟨fun _ _ _ member => absurd member List.not_mem_nil, fun _ => by decide, trivial⟩

/-- A page is mapped at `MMAP_BASE` and the break is raised to `BRK_MAX`. -/
theorem heap_reaches_mmap : ¬∀ vm cr3 vmas calls,
    Meets Regions.step KeepsApart (.start vm cr3 vmas) calls := by
  intro promise
  have kept := promise clearVm 0x403000 none [.mmap (fun _ => false) 0 1 3 ⟨0x20, rfl⟩ 0 0, .brk 0x4000000]
  have apart := kept.2.1.1.heap ⟨0x2000000, 0x2001000⟩ List.mem_cons_self
  exact absurd apart (by decide)

end Systrix.Vmm
