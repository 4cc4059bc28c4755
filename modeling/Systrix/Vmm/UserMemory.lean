import Systrix.Kernel.Layout
import Systrix.Vmm.PageFault

/-!
# User memory

The calls of `kernel/syscall.c` that give a process memory, `sys_malloc`, `sys_mmap`, `sys_munmap`
and `sys_brk`, with the VMA table of `kernel/vmm.c` they keep.
-/

namespace Systrix.Vmm

def brkBase : Word := 0x1000000

def brkMax : Word := 0x4000000

def mmapBase : Word := 0x2000000

def mapAnonymous : Word := 0x20

def mapFixed : Word := 0x10

def pteUserRw : Word := ptePresent ||| pteWrite ||| pteUser

def maxFiles : Word := 8

/-- An error number as the result of a system call. -/
def errno (e : Int) : Word := BitVec.ofInt 64 e

/-- `value & ~(PAGE_SIZE - 1)` -/
def pageDown (value : Word) : Word := value &&& ~~~(0xfff : Word)

/-- `(value + PAGE_SIZE - 1) & ~(PAGE_SIZE - 1)` -/
def pageUp (value : Word) : Word := pageDown (value + 0xfff)

/-! ## The VMA table -/

/-- `VMA` with the offset into the file. -/
structure VmaEntry extends Vma where
  file_offset : Word
  deriving DecidableEq

def vmaRead : BitVec 32 := 1

def vmaWrite : BitVec 32 := 2

def vmaExec : BitVec 32 := 4

def vmaAnon : BitVec 32 := 8

def vmaFile : BitVec 32 := 32

def vmaMax : Nat := 32

def vmmVmaAlloc : List VmaEntry := List.replicate vmaMax ⟨⟨0, 0, 0, 0⟩, 0⟩

/-- The loop over the VMA table that fills in the first empty slot; `none` when there is none. -/
def fillSlot (entry : VmaEntry) : List VmaEntry → Option (List VmaEntry)
  | [] => none
  | vma :: rest => if vma.start = vma.stop then some (entry :: rest) else (fillSlot entry rest).map (vma :: ·)

/-- `vmm_vma_add`, of which no caller looks at the result. -/
def vmmVmaAdd (table : List VmaEntry) (start stop : Word) (flags : BitVec 32) : List VmaEntry :=
  (fillSlot ⟨⟨start, stop, flags, -1⟩, 0⟩ table).getD table

/-- The test of `vmm_vma_remove`. -/
def Vma.overlaps (vma : Vma) (addr stop : Word) : Bool :=
  vma.start < vma.stop && !(vma.stop ≤ addr || stop ≤ vma.start)

def vmmVmaRemove (table : List VmaEntry) (addr len : Word) : List VmaEntry :=
  table.map fun vma => if vma.overlaps addr (addr + len) then { vma with start := 0, stop := 0 } else vma

/-! ## The calls -/

/-- The process that makes the calls: its address space, its break and its VMA table, `none` when
`vmm_vma_alloc` had no memory; and `mmap_bump`, which all processes share. -/
structure UserProcess where
  vm : Vm
  cr3 : Word
  brk : Word
  vmas : Option (List VmaEntry)
  mmap_bump : Word

/-- The VMA table as the page fault handler sees it. -/
def UserProcess.table (p : UserProcess) : List Vma := (p.vmas.getD []).map VmaEntry.toVma

/-- The loop of `sys_malloc` over the pages from `va` on; whether all of them are mapped. -/
def mapHeap (cr3 : Word) : (left : Nat) → (va : Word) → Vm → Bool × Vm
  | 0, _, vm => (true, vm)
  | left + 1, va, vm =>
      if vmmVirtToPhys vm cr3 va ≠ 0 then mapHeap cr3 left (va + 0x1000) vm
      else
        match pmmAlloc vm with
        | none => (false, vm)
        | some (phys, vm) =>
            let vm := vm.setPage phys fun _ => 0
            mapHeap cr3 left (va + 0x1000) (vmmMap vm cr3 va phys (pteUserRw ||| pteNx))

def sysMalloc (p : UserProcess) (n : Word) : Word × UserProcess :=
  if n = 0 then (0, p)
  else
    let n := (n + 15) &&& ~~~(15 : Word)
    let p := if p.brk < brkBase then { p with brk := brkBase } else p
    let start := p.brk
    let stop := start + n
    if brkMax < stop then (0, p)
    else
      let page_start := pageDown start
      let page_end := pageUp stop
      match mapHeap p.cr3 ((page_end.toNat - page_start.toNat) / 4096) page_start p.vm with
      | (false, vm) => (0, { p with vm := vm })
      | (true, vm) => (start, { p with vm := vm, brk := stop })

/-- The flags `sys_mmap` gives a VMA. -/
def mmapFlags (is_anon : Bool) (prot : Word) : BitVec 32 :=
  (if is_anon then vmaAnon else vmaFile) |||
    (if prot &&& 1 ≠ 0 then vmaRead else 0) |||
    (if prot &&& 2 ≠ 0 then vmaWrite else 0) |||
    (if prot &&& 4 ≠ 0 then vmaExec else 0)

/-- `sys_mmap`; `in_use` tells the descriptors of `fd_table` that are in use. -/
def sysMmap (p : UserProcess) (in_use : Word → Bool) (addr len prot flags fd off : Word) :
    Word × UserProcess :=
  let is_anon := flags &&& mapAnonymous ≠ 0 || fd.toInt < 0
  if !is_anon && (maxFiles ≤ fd || !in_use fd) then (errno ebadf, p)
  else
    let len := pageUp len
    if len = 0 then (errno enomem, p)
    else
      let virt := if addr ≠ 0 ∧ flags &&& mapFixed ≠ 0 then pageDown addr else p.mmap_bump
      let entry : VmaEntry :=
        ⟨⟨virt, virt + len, mmapFlags is_anon prot, if is_anon then -1 else fd.toInt⟩,
          if is_anon then 0 else off⟩
      let vmas := p.vmas.map fun table => (fillSlot entry table).getD table
      let bump := if flags &&& mapFixed = 0 then p.mmap_bump + len else p.mmap_bump
      (virt, { p with vmas := vmas, mmap_bump := bump })

/-- A page is unmapped and loses a reference. -/
def releasePage (cr3 va : Word) (vm : Vm) : Vm :=
  let phys := vmmVirtToPhys vm cr3 va
  let vm := if phys ≠ 0 then pmmUnref vm (pageDown phys) else vm
  vmmUnmap vm cr3 va

/-- The loop of `sys_munmap`. -/
def releaseUp (cr3 : Word) : (left : Nat) → (va : Word) → Vm → Vm
  | 0, _, vm => vm
  | left + 1, va, vm => releaseUp cr3 left (va + 0x1000) (releasePage cr3 va vm)

def sysMunmap (p : UserProcess) (addr len : Word) : UserProcess :=
  let len := pageUp len
  let pages := len.toNat / 4096
  { p with
    vmas := p.vmas.map fun table => vmmVmaRemove table addr len
    vm := releaseUp p.cr3 pages addr p.vm }

/-- The loop of `sys_brk` that shrinks the heap. -/
def releaseDown (cr3 : Word) : (left : Nat) → (cur : Word) → Vm → Vm
  | 0, _, vm => vm
  | left + 1, cur, vm => releaseDown cr3 left (cur - 0x1000) (releasePage cr3 (cur - 0x1000) vm)

def sysBrk (p : UserProcess) (new_brk : Word) : Word × UserProcess :=
  if new_brk = 0 then (p.brk, p)
  else if new_brk < brkBase ∨ brkMax < new_brk then (errno enomem, p)
  else if new_brk = p.brk then (p.brk, p)
  else
    let old_brk_pg := pageUp p.brk
    let new_brk_pg := pageUp new_brk
    if p.brk < new_brk then
      (new_brk, { p with
        brk := new_brk
        vmas := p.vmas.map fun table =>
          vmmVmaAdd table old_brk_pg new_brk_pg (vmaAnon ||| vmaRead ||| vmaWrite) })
    else
      (new_brk, { p with
        brk := new_brk
        vm := releaseDown p.cr3 ((old_brk_pg.toNat - new_brk_pg.toNat) / 4096) old_brk_pg p.vm
        vmas := p.vmas.map fun table => vmmVmaRemove table new_brk_pg (old_brk_pg - new_brk_pg) })

/-! ## Rounding to pages -/

/-- Clearing the low bits rounds down. -/
theorem toNat_clearLow (x : Word) (k : Nat) :
    (x &&& ~~~(BitVec.ofNat 64 (2 ^ k - 1))).toNat = x.toNat / 2 ^ k * 2 ^ k := by
  have shifted : x &&& ~~~(BitVec.ofNat 64 (2 ^ k - 1)) = (x >>> k) <<< k := by
    refine BitVec.eq_of_getLsbD_eq fun i inside => ?_
    have mask : (BitVec.ofNat 64 (2 ^ k - 1)).getLsbD i = decide (i < k) := by
      rw [BitVec.getLsbD_ofNat, Nat.testBit_two_pow_sub_one, decide_eq_true inside, Bool.true_and]
    rw [BitVec.getLsbD_and, BitVec.getLsbD_not, mask, BitVec.getLsbD_shiftLeft, BitVec.getLsbD_ushiftRight]
    by_cases low : i < k
    · simp [low]
    · have index : k + (i - k) = i := by omega
      simp [low, inside, index]
  have below : x.toNat / 2 ^ k * 2 ^ k ≤ x.toNat := Nat.div_mul_le_self _ _
  rw [shifted, BitVec.toNat_shiftLeft, BitVec.toNat_ushiftRight, Nat.shiftRight_eq_div_pow,
    Nat.shiftLeft_eq, Nat.mod_eq_of_lt (Nat.lt_of_le_of_lt below x.isLt)]

theorem toNat_pageDown (x : Word) : (pageDown x).toNat = x.toNat / 4096 * 4096 :=
  toNat_clearLow x 12

theorem toNat_pageUp (x : Word) : (pageUp x).toNat = (x.toNat + 4095) % 2 ^ 64 / 4096 * 4096 := by
  rw [pageUp, toNat_pageDown, BitVec.toNat_add]
  rfl

theorem pageDown_mod (x : Word) : (pageDown x).toNat % 4096 = 0 := by
  rw [toNat_pageDown]
  exact Nat.mul_mod_left _ _

theorem pageUp_mod (x : Word) : (pageUp x).toNat % 4096 = 0 := pageDown_mod _

/-! ## What the calls do -/

theorem sysBrk_spec (p : UserProcess) (new_brk : Word) :
    (sysBrk p new_brk).2.mmap_bump = p.mmap_bump ∧
      ((sysBrk p new_brk).2.brk = p.brk ∧ ¬(brkBase ≤ new_brk ∧ new_brk ≤ brkMax) ∨
        brkBase ≤ new_brk ∧ new_brk ≤ brkMax ∧ (sysBrk p new_brk).2.brk = new_brk) := by
  unfold sysBrk
  by_cases isZero : new_brk = 0
  · rw [if_pos isZero, isZero]
    exact ⟨rfl, .inl ⟨rfl, by decide⟩⟩
  rw [if_neg isZero]
  by_cases outside : new_brk < brkBase ∨ brkMax < new_brk
  · rw [if_pos outside]
    refine ⟨rfl, .inl ⟨rfl, fun inside => ?_⟩⟩
    rcases outside with low | high
    · exact absurd inside.1 (BitVec.not_le.mpr low)
    · exact absurd inside.2 (BitVec.not_le.mpr high)
  rw [if_neg outside]
  rw [not_or, BitVec.not_lt, BitVec.not_lt] at outside
  by_cases same : new_brk = p.brk
  · rw [if_pos same]
    exact ⟨rfl, .inr ⟨outside.1, outside.2, same.symm⟩⟩
  rw [if_neg same]
  dsimp only
  split
  · exact ⟨rfl, .inr ⟨outside.1, outside.2, rfl⟩⟩
  · exact ⟨rfl, .inr ⟨outside.1, outside.2, rfl⟩⟩

/-- A break inside of its bounds passes the first two tests. -/
theorem brk_inside {new_brk : Word} (low : brkBase ≤ new_brk) (high : new_brk ≤ brkMax) :
    new_brk ≠ 0 ∧ ¬(new_brk < brkBase ∨ brkMax < new_brk) := by
  constructor
  · rintro rfl
    exact absurd low (by decide)
  · rw [not_or, BitVec.not_lt, BitVec.not_lt]
    exact ⟨low, high⟩

theorem sysBrk_grows {p : UserProcess} {new_brk : Word} (low : brkBase ≤ new_brk) (high : new_brk ≤ brkMax)
    (grows : p.brk < new_brk) : sysBrk p new_brk = (new_brk, { p with
      brk := new_brk
      vmas := p.vmas.map fun table => vmmVmaAdd table (pageUp p.brk) (pageUp new_brk)
        (vmaAnon ||| vmaRead ||| vmaWrite) }) := by
  obtain ⟨notZero, notOutside⟩ := brk_inside low high
  have notSame : new_brk ≠ p.brk := fun same => absurd (same ▸ grows) (BitVec.lt_irrefl _)
  unfold sysBrk
  rw [if_neg notZero, if_neg notOutside, if_neg notSame]
  exact if_pos grows

theorem sysBrk_shrinks {p : UserProcess} {new_brk : Word} (low : brkBase ≤ new_brk) (high : new_brk ≤ brkMax)
    (shrinks : new_brk < p.brk) : sysBrk p new_brk = (new_brk, { p with
      brk := new_brk
      vm := releaseDown p.cr3 (((pageUp p.brk).toNat - (pageUp new_brk).toNat) / 4096) (pageUp p.brk) p.vm
      vmas := p.vmas.map fun table => vmmVmaRemove table (pageUp new_brk) (pageUp p.brk - pageUp new_brk) }) := by
  obtain ⟨notZero, notOutside⟩ := brk_inside low high
  have notSame : new_brk ≠ p.brk := fun same => absurd (same ▸ shrinks) (BitVec.lt_irrefl _)
  unfold sysBrk
  rw [if_neg notZero, if_neg notOutside, if_neg notSame]
  exact if_neg (BitVec.not_lt.mpr (Nat.le_of_lt shrinks))

/-- `sys_mmap` accepts a descriptor and a length. -/
def MmapServed (in_use : Word → Bool) (len flags fd : Word) : Prop :=
  ((flags &&& mapAnonymous ≠ 0 ∨ fd.toInt < 0) ∨ fd < maxFiles ∧ in_use fd = true) ∧ pageUp len ≠ 0

/-- The address `sys_mmap` chooses. -/
def mmapAddr (p : UserProcess) (addr flags : Word) : Word :=
  if addr ≠ 0 ∧ flags &&& mapFixed ≠ 0 then pageDown addr else p.mmap_bump

/-- The errors of `sys_mmap`. -/
def IsMmapError (result : Word) : Prop := result = errno ebadf ∨ result = errno enomem

instance (result : Word) : Decidable (IsMmapError result) := inferInstanceAs (Decidable (_ ∨ _))

/-- The errors are no addresses of pages. -/
theorem not_isMmapError {virt : Word} (aligned : virt.toNat % 4096 = 0) : ¬IsMmapError virt := by
  rintro (rfl | rfl)
  · exact absurd aligned (by decide)
  · exact absurd aligned (by decide)

theorem sysMmap_spec (p : UserProcess) (in_use : Word → Bool) (addr len prot flags fd off : Word) :
    (¬MmapServed in_use len flags fd ∧ (sysMmap p in_use addr len prot flags fd off).2 = p ∧
        IsMmapError (sysMmap p in_use addr len prot flags fd off).1) ∨
      MmapServed in_use len flags fd ∧ ∃ entry : VmaEntry, entry.start = mmapAddr p addr flags ∧
        entry.stop = mmapAddr p addr flags + pageUp len ∧
        sysMmap p in_use addr len prot flags fd off = (mmapAddr p addr flags, { p with
          vmas := p.vmas.map fun table => (fillSlot entry table).getD table
          mmap_bump := if flags &&& mapFixed = 0 then p.mmap_bump + pageUp len else p.mmap_bump }) := by
  unfold sysMmap MmapServed
  by_cases refused : (!(flags &&& mapAnonymous ≠ 0 || fd.toInt < 0) && (maxFiles ≤ fd || !in_use fd)) = true
  · simp only [refused, if_true]
    refine .inl ⟨fun served => ?_, trivial, .inl rfl⟩
    simp only [Bool.and_eq_true, Bool.not_eq_true', Bool.or_eq_false_iff, decide_eq_false_iff_not,
      Bool.or_eq_true, decide_eq_true_eq] at refused
    obtain ⟨⟨named, signed⟩, bad⟩ := refused
    rcases served.1 with (anonymous | negative) | ⟨small, used⟩
    · exact named anonymous
    · exact signed negative
    · rcases bad with large | unused
      · exact absurd large (BitVec.not_le.mpr small)
      · rw [used] at unused
        cases unused
  simp only [refused, Bool.false_eq_true, if_false]
  by_cases empty : pageUp len = 0
  · simp only [empty, if_true]
    exact .inl ⟨fun served => absurd rfl served.2, trivial, .inr rfl⟩
  simp only [empty, if_false]
  refine .inr ⟨⟨?_, empty⟩, _, rfl, rfl, rfl⟩
  rw [Bool.not_eq_true, Bool.and_eq_false_iff] at refused
  rcases refused with accepted | fine
  · left
    simpa [imp_iff_not_or] using accepted
  · right
    simpa using fine

end Systrix.Vmm
