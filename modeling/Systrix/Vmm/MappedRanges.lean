import Systrix.Lib.Run
import Systrix.Vmm.UserMemory

/-!
# Mapped ranges and the VMA table

The table stands for a set of addresses, the union of its ranges.  `vmm_vma_remove` drops every range
that meets the one it is given, as a whole, and a full table takes no more.  The set is compared with
what the calls of a process mapped and did not unmap, and the heap.
-/

namespace Systrix.Vmm

open Run

/-! ## The set a table stands for -/

/-- The range of a VMA contains an address. -/
def Vma.Has (vma : Vma) (a : Word) : Prop := vma.start ≤ a ∧ a < vma.stop

/-- A VMA of the table contains an address. -/
def Covers (table : List VmaEntry) (a : Word) : Prop := ∃ vma ∈ table, vma.Has a

/-- The table has an empty slot. -/
def HasSlot (table : List VmaEntry) : Prop := ∃ vma ∈ table, vma.start = vma.stop

theorem Vma.Has.start_lt {vma : Vma} {a : Word} (has : vma.Has a) : vma.start < vma.stop :=
  Nat.lt_of_le_of_lt has.1 has.2

theorem vmmFindVma_iff (table : List VmaEntry) (a : Word) :
    (vmmFindVma (table.map VmaEntry.toVma) a).isSome = true ↔ Covers table a := by
  unfold vmmFindVma Covers
  rw [List.find?_isSome]
  constructor
  · rintro ⟨vma, member, found⟩
    obtain ⟨entry, isEntry, rfl⟩ := List.mem_map.mp member
    simp only [Bool.and_eq_true, decide_eq_true_eq] at found
    exact ⟨entry, isEntry, found.1.2, found.2⟩
  · rintro ⟨entry, isEntry, has⟩
    refine ⟨entry.toVma, List.mem_map_of_mem isEntry, ?_⟩
    simp only [Bool.and_eq_true, decide_eq_true_eq]
    exact ⟨⟨has.start_lt, has.1⟩, has.2⟩

theorem fillSlot_eq_none {entry : VmaEntry} {table : List VmaEntry} :
    fillSlot entry table = none ↔ ¬HasSlot table := by
  unfold HasSlot
  induction table with
  | nil => simp [fillSlot]
  | cons vma rest ih =>
      unfold fillSlot
      by_cases isFree : vma.start = vma.stop
      · simp [isFree]
      · simpa [isFree] using ih

/-- Filling the first empty slot adds the range of the entry. -/
theorem covers_fillSlot {entry : VmaEntry} {table table' : List VmaEntry}
    (filled : fillSlot entry table = some table') (a : Word) :
    Covers table' a ↔ Covers table a ∨ entry.Has a := by
  unfold Covers
  induction table generalizing table' with
  | nil => cases filled
  | cons vma rest ih =>
      unfold fillSlot at filled
      split at filled
      · rename_i isFree
        cases filled
        have none : ¬vma.Has a := fun has => absurd (isFree ▸ has.start_lt) (BitVec.lt_irrefl _)
        simp [none, or_comm]
      · obtain ⟨rest', filled', rfl⟩ := Option.map_eq_some_iff.mp filled
        simp [ih filled', or_assoc]

/-- The VMAs that stay when a range is removed. -/
def Stays (table : List VmaEntry) (addr stop a : Word) : Prop :=
  ∃ vma ∈ table, vma.overlaps addr stop = false ∧ vma.Has a

theorem covers_vmmVmaRemove (table : List VmaEntry) (addr len a : Word) :
    Covers (vmmVmaRemove table addr len) a ↔ Stays table addr (addr + len) a := by
  unfold Covers Stays vmmVmaRemove
  constructor
  · rintro ⟨vma', member, has⟩
    obtain ⟨vma, isEntry, rfl⟩ := List.mem_map.mp member
    cases overlapping : vma.overlaps addr (addr + len) with
    | false =>
        refine ⟨vma, isEntry, overlapping, ?_⟩
        simpa [overlapping] using has
    | true =>
        simp only [overlapping, if_true] at has
        exact absurd has.start_lt (BitVec.lt_irrefl _)
  · rintro ⟨vma, isEntry, apart, has⟩
    refine ⟨vma, List.mem_map.mpr ⟨vma, isEntry, ?_⟩, has⟩
    simp [apart]

/-- An address lies in the `n` bytes from another one on. -/
def InRange (addr : Word) (n : Nat) (a : Word) : Prop := addr.toNat ≤ a.toNat ∧ a.toNat < addr.toNat + n

/-- What stays does not meet the range that is removed. -/
theorem Stays.not_inRange {table : List VmaEntry} {addr len a : Word}
    (fits : addr.toNat + len.toNat < 2 ^ 64) (stays : Stays table addr (addr + len) a) :
    ¬InRange addr len.toNat a := by
  rintro ⟨low, high⟩
  obtain ⟨vma, -, apart, has⟩ := stays
  have stop : (addr + len).toNat = addr.toNat + len.toNat := by
    rw [BitVec.toNat_add]
    exact Nat.mod_eq_of_lt fits
  have start := has.start_lt
  obtain ⟨first, last⟩ := has
  simp only [Vma.overlaps, Bool.and_eq_false_iff, decide_eq_false_iff_not, Bool.not_eq_false',
    Bool.or_eq_true, decide_eq_true_eq] at apart
  rcases apart with empty | before | behind
  · exact empty start
  · rw [BitVec.le_def] at before
    rw [BitVec.lt_def] at last
    omega
  · rw [BitVec.le_def] at behind first
    omega

/-! ## Sets of addresses -/

section Sets

variable {table : List VmaEntry} {S T R : Word → Prop} (covers : ∀ a, Covers table a ↔ S a)

include covers

/-- After a removal the table stands for a set that agrees with the old one outside the range exactly
if what the dropped VMAs have outside the range is still covered, and the set has nothing inside. -/
theorem remove_iff {addr stop : Word} (apart : ∀ a, Stays table addr stop a → ¬R a)
    (outside : ∀ a, ¬R a → (T a ↔ S a)) :
    (∀ a, Stays table addr stop a ↔ T a) ↔
      (∀ vma ∈ table, vma.overlaps addr stop = true → ∀ a, vma.Has a → R a ∨ Stays table addr stop a) ∧
        ∀ a, R a → ¬T a := by
  constructor
  · intro same
    refine ⟨fun vma member _ a has => ?_, fun a inside isT => apart a ((same a).mpr isT) inside⟩
    by_cases inside : R a
    · exact .inl inside
    · exact .inr ((same a).mpr ((outside a inside).mpr ((covers a).mp ⟨vma, member, has⟩)))
  · rintro ⟨trimmed, nothing⟩ a
    constructor
    · intro stays
      refine (outside a (apart a stays)).mpr ((covers a).mp ?_)
      obtain ⟨vma, member, -, has⟩ := stays
      exact ⟨vma, member, has⟩
    · intro isT
      have isOutside : ¬R a := fun inside => nothing a inside isT
      obtain ⟨vma, member, has⟩ := (covers a).mpr ((outside a isOutside).mp isT)
      cases overlapping : vma.overlaps addr stop with
      | false => exact ⟨vma, member, overlapping, has⟩
      | true => exact (trimmed vma member overlapping a has).resolve_left isOutside

/-- With one more entry the table stands for the old set and its range exactly if there was a slot or
the range was covered. -/
theorem fill_iff {entry : VmaEntry} (added : ∀ a, T a ↔ S a ∨ entry.Has a) :
    (∀ a, Covers ((fillSlot entry table).getD table) a ↔ T a) ↔
      HasSlot table ∨ ∀ a, entry.Has a → Covers table a := by
  cases filled : fillSlot entry table with
  | none =>
      have full := fillSlot_eq_none.mp filled
      simp only [Option.getD_none, full, false_or]
      refine forall_congr' fun a => ?_
      rw [added a, covers a]
      exact ⟨fun same has => same.mpr (.inr has), fun old => ⟨.inl, fun isT => isT.elim id old⟩⟩
  | some table' =>
      have slot : HasSlot table := by
        by_contra full
        rw [fillSlot_eq_none.mpr full] at filled
        cases filled
      simp only [Option.getD_some, slot, true_or, iff_true]
      intro a
      rw [covers_fillSlot filled a, added a, covers a]

end Sets

/-! ## The calls -/

/-- A number of bytes rounded up to pages. -/
def wholePages (len : Word) : Nat := (len.toNat + 4095) / 4096 * 4096

/-- An address lies between the heap base and the break rounded up to pages. -/
def UserProcess.InHeap (p : UserProcess) (a : Word) : Prop := brkBase ≤ a ∧ a < pageUp p.brk

/-- The entries of the VMA table. -/
def UserProcess.entries (p : UserProcess) : List VmaEntry := p.vmas.getD []

/-- A process with the addresses it mapped and did not unmap. -/
structure MappedProcess where
  process : UserProcess
  mapped : Word → Prop

/-- A new process, with `mmap_bump` as it is after boot; there may have been no memory for its VMA
table. -/
def MappedProcess.start (vm : Vm) (cr3 : Word) (hasTable : Bool) : MappedProcess :=
  ⟨⟨vm, cr3, brkBase, if hasTable then some vmmVmaAlloc else none, mmapBase⟩, fun _ => False⟩

/-- The calls of a process, and what happens elsewhere: physical memory changes, and another process
maps `len` bytes. -/
inductive MappingCall where
  | mmap (in_use : Word → Bool) (addr len prot flags fd off : Word)
  | munmap (addr len : Word)
  | brk (new_brk : Word)
  | elsewhere (vm : Vm) (len : Word)

/-- One call. -/
def MappedProcess.step (s : MappedProcess) : MappingCall → MappedProcess
  | .mmap in_use addr len prot flags fd off =>
      match sysMmap s.process in_use addr len prot flags fd off with
      | (virt, p) =>
          if IsMmapError virt then { s with process := p }
          else ⟨p, fun a => s.mapped a ∨ InRange virt (wholePages len) a⟩
  | .munmap addr len =>
      ⟨sysMunmap s.process addr len, fun a => s.mapped a ∧ ¬InRange addr (wholePages len) a⟩
  | .brk new_brk => { s with process := (sysBrk s.process new_brk).2 }
  | .elsewhere vm len =>
      { s with process := { s.process with vm := vm, mmap_bump := s.process.mmap_bump + pageUp len } }

/-- `vmm_find_vma` finds what is mapped and the heap. -/
def MappedProcess.Found (s : MappedProcess) : Prop :=
  ∀ a, (vmmFindVma s.process.table a).isSome = true ↔ s.mapped a ∨ s.process.InHeap a

/-- What the VMAs that a removal drops have outside the range is in VMAs that stay. -/
def DropsInside (table : List VmaEntry) (addr stop : Word) (R : Word → Prop) : Prop :=
  ∀ vma ∈ table, vma.overlaps addr stop = true → ∀ a, vma.Has a → R a ∨ Stays table addr stop a

/-- The states in which a call leaves a table that stands for the right set: there is a slot for a
range that is new, what is removed takes nothing else with it, and the heap is left alone by
`sys_munmap` and the regions mapped by `sys_brk`. -/
def TableFits (s : MappedProcess) : MappingCall → Prop
  | .mmap in_use addr len _ flags fd _ => MmapServed in_use len flags fd →
      HasSlot s.process.entries ∨
        ∀ a, InRange (mmapAddr s.process addr flags) (wholePages len) a → Covers s.process.entries a
  | .munmap addr len =>
      DropsInside s.process.entries addr (addr + pageUp len) (InRange addr (wholePages len)) ∧
        ∀ a, InRange addr (wholePages len) a → ¬s.process.InHeap a
  | .brk new_brk => brkBase ≤ new_brk → new_brk ≤ brkMax →
      (s.process.brk < new_brk → HasSlot s.process.entries ∨
        ∀ a, pageUp s.process.brk ≤ a → a < pageUp new_brk → Covers s.process.entries a) ∧
      (new_brk < s.process.brk →
        DropsInside s.process.entries (pageUp new_brk) (pageUp s.process.brk)
          (fun a => pageUp new_brk ≤ a ∧ a < pageUp s.process.brk) ∧
        ∀ a, pageUp new_brk ≤ a → a < pageUp s.process.brk → ¬s.mapped a)
  | .elsewhere _ _ => True

/-- The end of the range of a call does not wrap. -/
def RangeFits (s : MappedProcess) : MappingCall → Prop
  | .mmap _ addr len _ flags _ _ => (mmapAddr s.process addr flags).toNat + wholePages len < 2 ^ 64
  | .munmap addr len => addr.toNat + wholePages len < 2 ^ 64
  | _ => True

/-! ## One call -/

theorem toNat_pageUp_of_fits {len : Word} (fits : wholePages len < 2 ^ 64) :
    (pageUp len).toNat = wholePages len := by
  unfold wholePages at fits ⊢
  rw [toNat_pageUp, Nat.mod_eq_of_lt (by omega)]

theorem toNat_pageUp_brk {brk : Word} (high : brk ≤ brkMax) : (pageUp brk).toNat = wholePages brk := by
  refine toNat_pageUp_of_fits ?_
  change brk.toNat ≤ 0x4000000 at high
  unfold wholePages
  omega

/-- What every call keeps. -/
structure MappedProcess.Inv (s : MappedProcess) : Prop where
  low : brkBase ≤ s.process.brk
  high : s.process.brk ≤ brkMax
  aligned : s.process.mmap_bump.toNat % 4096 = 0
  found : s.Found

namespace MappedProcess.Inv

variable {s : MappedProcess} (inv : s.Inv)

include inv

theorem covers (a : Word) : Covers s.process.entries a ↔ s.mapped a ∨ s.process.InHeap a := by
  rw [← inv.found a]
  exact (vmmFindVma_iff _ a).symm

theorem mmap_iff {in_use : Word → Bool} {addr len prot flags fd off : Word}
    (fits : RangeFits s (.mmap in_use addr len prot flags fd off)) :
    (s.step (.mmap in_use addr len prot flags fd off)).Found ↔
      TableFits s (.mmap in_use addr len prot flags fd off) := by
  rcases sysMmap_spec s.process in_use addr len prot flags fd off with
    ⟨refused, same, error⟩ | ⟨served, entry, isStart, isStop, run⟩
  · have after : s.step (.mmap in_use addr len prot flags fd off) = s := by
      simp only [MappedProcess.step, error, if_true, same]
    rw [after]
    exact ⟨fun _ served => absurd served refused, fun _ => inv.found⟩
  have noError : ¬IsMmapError (mmapAddr s.process addr flags) := by
    refine not_isMmapError ?_
    unfold mmapAddr
    split
    · exact pageDown_mod addr
    · exact inv.aligned
  have bytes : (pageUp len).toNat = wholePages len :=
    toNat_pageUp_of_fits (Nat.lt_of_le_of_lt (Nat.le_add_left _ _) fits)
  have range : ∀ a, entry.Has a ↔ InRange (mmapAddr s.process addr flags) (wholePages len) a := by
    intro a
    unfold Vma.Has InRange
    rw [isStart, isStop, BitVec.le_def, BitVec.lt_def, BitVec.toNat_add, bytes, Nat.mod_eq_of_lt fits]
  have entries : ((s.process.vmas.map fun table => (fillSlot entry table).getD table).getD []) =
      (fillSlot entry s.process.entries).getD s.process.entries := by
    unfold UserProcess.entries
    cases s.process.vmas <;> rfl
  simp only [MappedProcess.step, run, noError, if_false, TableFits, served, true_implies, ← range]
  unfold MappedProcess.Found UserProcess.table
  simp only [vmmFindVma_iff, entries]
  exact fill_iff inv.covers fun a => by
    rw [range a]
    exact or_right_comm

theorem munmap_iff {addr len : Word} (fits : RangeFits s (.munmap addr len)) :
    (s.step (.munmap addr len)).Found ↔ TableFits s (.munmap addr len) := by
  have bytes : (pageUp len).toNat = wholePages len :=
    toNat_pageUp_of_fits (Nat.lt_of_le_of_lt (Nat.le_add_left _ _) fits)
  have entries : (s.process.vmas.map fun table => vmmVmaRemove table addr (pageUp len)).getD [] =
      vmmVmaRemove s.process.entries addr (pageUp len) := by
    unfold UserProcess.entries
    cases s.process.vmas <;> rfl
  have apart : ∀ a, Stays s.process.entries addr (addr + pageUp len) a → ¬InRange addr (wholePages len) a := by
    intro a stays
    rw [← bytes]
    exact stays.not_inRange (by rwa [bytes])
  simp only [MappedProcess.step, sysMunmap, TableFits]
  unfold MappedProcess.Found UserProcess.table
  simp only [vmmFindVma_iff, entries, covers_vmmVmaRemove]
  refine (remove_iff inv.covers apart fun a outside => ?_).trans (and_congr Iff.rfl (forall_congr' fun a => ?_))
  · simp only [outside, not_false_eq_true, and_true]
    exact Iff.rfl
  · refine forall_congr' fun inside => not_congr ?_
    simp only [inside, not_true_eq_false, and_false, false_or]
    exact Iff.rfl

/-- The heap grows. -/
theorem grow_iff {new_brk : Word} (low : brkBase ≤ new_brk) (high : new_brk ≤ brkMax)
    (grows : s.process.brk < new_brk) : (s.step (.brk new_brk)).Found ↔ TableFits s (.brk new_brk) := by
  have notShrinks : ¬new_brk < s.process.brk := BitVec.not_lt.mpr (Nat.le_of_lt grows)
  have run := congrArg Prod.snd (sysBrk_grows low high grows)
  simp only at run
  generalize isEntry : (⟨⟨pageUp s.process.brk, pageUp new_brk, vmaAnon ||| vmaRead ||| vmaWrite, -1⟩,
    0⟩ : VmaEntry) = entry at run
  have range : ∀ a, entry.Has a ↔ pageUp s.process.brk ≤ a ∧ a < pageUp new_brk := by
    intro a
    rw [← isEntry]
    exact Iff.rfl
  have entries : ((sysBrk s.process new_brk).2.vmas.getD []) =
      (fillSlot entry s.process.entries).getD s.process.entries := by
    rw [run, ← isEntry]
    unfold UserProcess.entries
    cases s.process.vmas <;> rfl
  have brk : (sysBrk s.process new_brk).2.brk = new_brk := by rw [run]
  simp only [MappedProcess.step, TableFits, low, high, grows, notShrinks, true_implies, false_implies, and_true]
  unfold MappedProcess.Found UserProcess.table
  simp only [vmmFindVma_iff, entries, ← and_imp, ← range]
  refine fill_iff inv.covers fun a => ?_
  have first := toNat_pageUp_brk inv.high
  have last := toNat_pageUp_brk high
  have started := inv.low
  unfold wholePages at first last
  have heap : brkBase ≤ a ∧ a < pageUp new_brk ↔
      (brkBase ≤ a ∧ a < pageUp s.process.brk) ∨ (pageUp s.process.brk ≤ a ∧ a < pageUp new_brk) := by
    simp only [BitVec.le_def, BitVec.lt_def] at grows started ⊢
    omega
  rw [range a]
  unfold UserProcess.InHeap
  rw [brk, heap]
  exact or_assoc.symm

/-- The heap shrinks. -/
theorem shrink_iff {new_brk : Word} (low : brkBase ≤ new_brk) (high : new_brk ≤ brkMax)
    (shrinks : new_brk < s.process.brk) :
    (s.step (.brk new_brk)).Found ↔ TableFits s (.brk new_brk) := by
  have notGrows : ¬s.process.brk < new_brk := BitVec.not_lt.mpr (Nat.le_of_lt shrinks)
  have brk : (sysBrk s.process new_brk).2.brk = new_brk := by rw [sysBrk_shrinks low high shrinks]
  have entries : ((sysBrk s.process new_brk).2.vmas.getD []) = vmmVmaRemove s.process.entries
      (pageUp new_brk) (pageUp s.process.brk - pageUp new_brk) := by
    rw [sysBrk_shrinks low high shrinks]
    unfold UserProcess.entries
    cases s.process.vmas <;> rfl
  have first := toNat_pageUp_brk inv.high
  have last := toNat_pageUp_brk high
  unfold wholePages at first last
  have ordered : pageUp new_brk ≤ pageUp s.process.brk := by
    rw [BitVec.lt_def] at shrinks
    rw [BitVec.le_def]
    omega
  have length : (pageUp s.process.brk - pageUp new_brk).toNat =
      (pageUp s.process.brk).toNat - (pageUp new_brk).toNat := BitVec.toNat_sub_of_le ordered
  have stop : pageUp new_brk + (pageUp s.process.brk - pageUp new_brk) = pageUp s.process.brk := by
    rw [BitVec.add_comm, BitVec.sub_add_cancel]
  have apart : ∀ a, Stays s.process.entries (pageUp new_brk) (pageUp s.process.brk) a →
      ¬(pageUp new_brk ≤ a ∧ a < pageUp s.process.brk) := by
    rintro a stays ⟨above, below⟩
    rw [← stop] at stays
    rw [BitVec.le_def] at ordered above
    rw [BitVec.lt_def] at below
    have total := (pageUp s.process.brk).isLt
    refine stays.not_inRange ?_ ⟨above, ?_⟩
    · omega
    · omega
  have heap : ∀ a, ¬(pageUp new_brk ≤ a ∧ a < pageUp s.process.brk) →
      (brkBase ≤ a ∧ a < pageUp new_brk ↔ brkBase ≤ a ∧ a < pageUp s.process.brk) := by
    intro a outside
    simp only [BitVec.le_def, BitVec.lt_def] at outside ordered ⊢
    omega
  simp only [MappedProcess.step, TableFits, low, high, notGrows, shrinks, true_implies, false_implies, true_and]
  unfold MappedProcess.Found UserProcess.table
  simp only [vmmFindVma_iff, entries, covers_vmmVmaRemove, stop]
  refine (remove_iff inv.covers apart fun a outside => ?_).trans (and_congr Iff.rfl (forall_congr' fun a => ?_))
  · unfold UserProcess.InHeap
    rw [brk, heap a outside]
  · rw [and_imp]
    refine forall_congr' fun above => forall_congr' fun _ => not_congr ?_
    unfold UserProcess.InHeap
    rw [brk]
    have notBelow : ¬a < pageUp new_brk := BitVec.not_lt.mpr above
    simp only [notBelow, and_false, or_false]

theorem brk_iff (new_brk : Word) : (s.step (.brk new_brk)).Found ↔ TableFits s (.brk new_brk) := by
  by_cases inside : brkBase ≤ new_brk ∧ new_brk ≤ brkMax
  · rcases Nat.lt_trichotomy s.process.brk.toNat new_brk.toNat with grows | same | shrinks
    · exact inv.grow_iff inside.1 inside.2 grows
    · have isSame : new_brk = s.process.brk := BitVec.eq_of_toNat_eq same.symm
      have run : sysBrk s.process s.process.brk = (s.process.brk, s.process) := by
        obtain ⟨notZero, notOutside⟩ := brk_inside inv.low inv.high
        unfold sysBrk
        rw [if_neg notZero, if_neg notOutside, if_pos rfl]
      have after : s.step (.brk new_brk) = s := by
        simp only [MappedProcess.step, isSame, run]
      rw [after, isSame]
      exact ⟨fun _ _ _ => ⟨fun less => absurd less (BitVec.lt_irrefl _),
        fun less => absurd less (BitVec.lt_irrefl _)⟩, fun _ => inv.found⟩
    · exact inv.shrink_iff inside.1 inside.2 shrinks
  · have after : s.step (.brk new_brk) = s := by
      simp only [MappedProcess.step, sysBrk]
      rw [not_and_or, BitVec.not_le, BitVec.not_le] at inside
      rw [if_pos inside]
      split <;> rfl
    rw [after]
    exact ⟨fun _ low high => absurd ⟨low, high⟩ inside, fun _ => inv.found⟩

theorem call_iff (call : MappingCall) (fits : RangeFits s call) : (s.step call).Found ↔ TableFits s call := by
  cases call with
  | mmap in_use addr len prot flags fd off => exact inv.mmap_iff fits
  | munmap addr len => exact inv.munmap_iff fits
  | brk new_brk => exact inv.brk_iff new_brk
  | elsewhere vm len => exact ⟨fun _ => trivial, fun _ => inv.found⟩

/-- The rest of the invariant needs no condition. -/
theorem step {call : MappingCall} (found : (s.step call).Found) : (s.step call).Inv := by
  cases call with
  | mmap in_use addr len prot flags fd off =>
      rcases sysMmap_spec s.process in_use addr len prot flags fd off with
        ⟨-, same, error⟩ | ⟨-, entry, -, -, run⟩
      · simpa only [MappedProcess.step, error, if_true, same] using inv
      have noError : ¬IsMmapError (mmapAddr s.process addr flags) := by
        refine not_isMmapError ?_
        unfold mmapAddr
        split
        · exact pageDown_mod addr
        · exact inv.aligned
      have bump : (if flags &&& mapFixed = 0 then s.process.mmap_bump + pageUp len
          else s.process.mmap_bump).toNat % 4096 = 0 := by
        have aligned := inv.aligned
        have rounded := pageUp_mod len
        split
        · rw [BitVec.toNat_add]
          omega
        · exact aligned
      simp only [MappedProcess.step, run, noError, if_false] at found ⊢
      exact ⟨inv.low, inv.high, bump, found⟩
  | munmap addr len => exact ⟨inv.low, inv.high, inv.aligned, found⟩
  | brk new_brk =>
      have kept : brkBase ≤ (sysBrk s.process new_brk).2.brk ∧ (sysBrk s.process new_brk).2.brk ≤ brkMax ∧
          (sysBrk s.process new_brk).2.mmap_bump = s.process.mmap_bump := by
        obtain ⟨bump, ⟨same, -⟩ | ⟨low, high, isNew⟩⟩ := sysBrk_spec s.process new_brk
        · rw [same]
          exact ⟨inv.low, inv.high, bump⟩
        · rw [isNew]
          exact ⟨low, high, bump⟩
      refine ⟨kept.1, kept.2.1, ?_, found⟩
      change (sysBrk s.process new_brk).2.mmap_bump.toNat % 4096 = 0
      rw [kept.2.2]
      exact inv.aligned
  | elsewhere vm len =>
      refine ⟨inv.low, inv.high, ?_, found⟩
      have aligned := inv.aligned
      have rounded := pageUp_mod len
      change (s.process.mmap_bump + pageUp len).toNat % 4096 = 0
      rw [BitVec.toNat_add]
      omega

end MappedProcess.Inv

/-! ## Runs -/

/-- A table of which no VMA has an address. -/
theorem covers_vmmVmaAlloc (a : Word) : ¬Covers vmmVmaAlloc a := by
  rintro ⟨vma, member, has⟩
  rw [List.eq_of_mem_replicate member] at has
  exact absurd has.start_lt (BitVec.lt_irrefl _)

theorem MappedProcess.inv_start (vm : Vm) (cr3 : Word) (hasTable : Bool) :
    (MappedProcess.start vm cr3 hasTable).Inv where
  low := BitVec.le_refl _
  high := by
    change brkBase ≤ brkMax
    decide
  aligned := by
    change mmapBase.toNat % 4096 = 0
    decide
  found a := by
    refine (vmmFindVma_iff _ a).trans ⟨fun covered => ?_, ?_⟩
    · cases hasTable with
      | false => exact absurd covered.choose_spec.1 List.not_mem_nil
      | true => exact absurd covered (covers_vmmVmaAlloc a)
    · rintro (never | ⟨low, high⟩)
      · exact never.elim
      · change a < pageUp brkBase at high
        exact absurd (Nat.lt_of_le_of_lt low high) (by decide)

/-- As long as no range wraps, `vmm_find_vma` finds exactly what is mapped and the heap after every
call of a run exactly if the table fits every call. -/
theorem found_run_iff (vm : Vm) (cr3 : Word) (hasTable : Bool) (calls : List MappingCall)
    (fits : Meets MappedProcess.step RangeFits (.start vm cr3 hasTable) calls) :
    Meets MappedProcess.step (fun s call => (s.step call).Found) (.start vm cr3 hasTable) calls ↔
      Meets MappedProcess.step TableFits (.start vm cr3 hasTable) calls :=
  meets_iff (I := MappedProcess.Inv) (fun _ call inv fits => inv.call_iff call fits)
    (fun _ call inv fits room => inv.step ((inv.call_iff call fits).mpr room))
    (MappedProcess.inv_start vm cr3 hasTable) fits

/-- The break is raised by a page. -/
theorem found_run_iff_page :
    Meets MappedProcess.step (fun s call => (s.step call).Found) (.start clearVm 0x403000 true) [.brk 0x1001000] := by
  refine (found_run_iff clearVm 0x403000 true [.brk 0x1001000] ⟨trivial, trivial⟩).mpr ⟨?_, trivial⟩
  intro _ _
  refine ⟨fun _ => .inl ⟨⟨⟨0, 0, 0, 0⟩, 0⟩, List.mem_replicate.mpr ⟨by decide, rfl⟩, rfl⟩, fun shrinks => ?_⟩
  exact absurd shrinks (by
    change ¬(0x1001000 : Word) < brkBase
    decide)

/-- The break is raised by two pages and lowered by one: the page that is left is not found. -/
theorem shrink_loses_page : ¬∀ vm cr3 calls,
    Meets MappedProcess.step (fun s call => (s.step call).Found) (.start vm cr3 true) calls := by
  intro promise
  have kept := promise clearVm 0x403000 [.brk 0x1002000, .brk 0x1001000]
  have found := (kept.2.1 0x1000000).mpr (.inr ⟨by decide, by decide⟩)
  exact absurd found (by decide)

end Systrix.Vmm
