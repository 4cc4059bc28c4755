import Systrix.Lib.Run
import Systrix.Swap.Slots

/-!
# What swapping keeps

When a page that is swapped in has the bytes that were swapped out, and when the slots are
apart from everything else on the disk.
-/

namespace Systrix.Swap

open ByteMemory Machine

variable {s : SwapState}

/-! ## Sectors -/

theorem writeSectors_inside (disk : Disk) (lba : Nat) (page : Memory) {count i : Nat} (inside : i < count) :
    writeSectors disk lba page count (lba + i) = fun b => page (i * sectorSize + b) := by
  induction count with
  | zero => exact absurd inside (Nat.not_lt_zero i)
  | succ count ih =>
      rw [writeSectors]
      by_cases last : i = count
      · rw [last, ataWriteSector_self]
      · rw [ataWriteSector_of_ne _ _ (by omega), ih (by omega)]

theorem writeSectors_outside (disk : Disk) {lba other : Nat} (page : Memory) {count : Nat}
    (outside : other < lba ∨ lba + count ≤ other) : writeSectors disk lba page count other = disk other := by
  induction count with
  | zero => rfl
  | succ count ih => rw [writeSectors, ataWriteSector_of_ne _ _ (by omega), ih (by omega)]

theorem readSectors_writeSectors (disk : Disk) (lba : Nat) (page : Memory) {b : Nat} (inside : b < pageSize) :
    readSectors (writeSectors disk lba page 8) lba b = page b := by
  have sector : b / sectorSize < 8 := Nat.div_lt_of_lt_mul inside
  rw [readSectors, ataReadSector, writeSectors_inside disk lba page sector]
  exact congrArg page (Nat.div_add_mod' b sectorSize)

theorem readSectors_congr {disk disk' : Disk} {lba : Nat}
    (same : ∀ other, lba ≤ other → other < lba + 8 → disk' other = disk other) {b : Nat} (inside : b < pageSize) :
    readSectors disk' lba b = readSectors disk lba b := by
  have sector : b / sectorSize < 8 := Nat.div_lt_of_lt_mul inside
  exact congrFun (same _ (Nat.le_add_right _ _) (Nat.add_lt_add_left sector lba)) _

/-! ## The header -/

/-- How many slots have their bits in the sector that is read and written. -/
def sectorSlots : Nat := (sectorSize - bitmapOffset) * 8

/-- The bit of a slot in the header sector. -/
def SwapState.marked (s : SwapState) (k : Nat) : Bool := slotBit (s.disk swapStartLba) k

/-- The slot that `swap_alloc_sector` takes: the first one from `swap_next_free` on whose bit
is clear. -/
def SwapState.FirstClear (s : SwapState) (k : Nat) : Prop :=
  ∃ i < swapDiskSectors, k = (s.swap_next_free + i) % swapDiskSectors ∧ slotBit s.loadHeader.swap_buf k = false ∧
    ∀ j < i, slotBit s.loadHeader.swap_buf ((s.swap_next_free + j) % swapDiskSectors) = true

/-- Nothing but the header sector, the buffer and the search position differs. -/
structure HeaderOnly (s s' : SwapState) : Prop where
  table : s'.swap_table = s.swap_table
  disk : ∀ lba, lba ≠ swapStartLba → s'.disk lba = s.disk lba

theorem slotBit_loadHeader {k : Nat} (inside : k < sectorSlots) : slotBit s.loadHeader.swap_buf k = s.marked k := by
  refine BitTable.bit_congr fun address low high => ?_
  have byte : address < sectorSize := by
    unfold sectorSlots sectorSize bitmapOffset at *
    omega
  exact if_pos byte

@[simp] theorem slotBit_setUsed (buf : Memory) (used k : Nat) : slotBit (setUsed buf used) k = slotBit buf k := by
  have same := store_sameOutside buf usedOffset 4 used
  refine BitTable.bit_congr (same.sameOn (.inr ?_))
  unfold usedOffset bitmapOffset
  omega

@[simp] theorem marked_storeHeader (s : SwapState) (k : Nat) : s.storeHeader.marked k = slotBit s.swap_buf k :=
  congrArg (slotBit · k) (ataWriteSector_self s.disk swapStartLba s.swap_buf)

theorem swapFreeSector_spec (s : SwapState) (sector : Nat) :
    HeaderOnly s (swapFreeSector s sector) ∧
      ∀ k < sectorSlots, k ≠ sector → (swapFreeSector s sector).marked k = s.marked k := by
  unfold swapFreeSector
  split
  · exact ⟨⟨rfl, fun _ _ => rfl⟩, fun _ _ _ => rfl⟩
  · refine ⟨⟨rfl, fun _ ne => ataWriteSector_of_ne _ _ ne⟩, fun k inside ne => ?_⟩
    dsimp only
    rw [marked_storeHeader, slotBit_setUsed]
    exact (BitTable.bit_clear_of_ne ne).trans (slotBit_loadHeader inside)

/-- A successful allocation marks the slot. -/
theorem swapAllocSector_spec (s : SwapState) :
    swapAllocSector s = (none, s.loadHeader) ∨
      ∃ k s', swapAllocSector s = (some k, s') ∧ s.FirstClear k ∧ HeaderOnly s s' ∧ s'.marked k = true ∧
        ∀ j < sectorSlots, j ≠ k → s'.marked j = s.marked j := by
  unfold swapAllocSector
  cases found : (List.range swapDiskSectors).find? fun i =>
      !slotBit s.loadHeader.swap_buf ((s.loadHeader.swap_next_free + i) % swapDiskSectors) with
  | none =>
      dsimp only
      rw [found]
      exact .inl rfl
  | some i =>
      obtain ⟨clear, bound, before⟩ := List.find?_range_eq_some.mp found
      dsimp only
      rw [found]
      refine .inr ⟨_, _, rfl, ⟨i, List.mem_range.mp bound, rfl, ?_, fun j lt => ?_⟩, ⟨rfl, fun _ ne => ?_⟩, ?_, ?_⟩
      · exact Bool.not_eq_true' _ |>.mp clear
      · have set := before j lt
        rwa [Bool.not_not] at set
      · exact ataWriteSector_of_ne _ _ ne
      · exact (marked_storeHeader _ _).trans ((slotBit_setUsed _ _ _).trans BitTable.bit_set_self)
      · intro j inside ne
        refine (marked_storeHeader _ _).trans ((slotBit_setUsed _ _ _).trans ?_)
        exact (BitTable.bit_set_of_ne ne).trans (slotBit_loadHeader inside)

/-! ## The layout -/

/-- The sectors of a slot. -/
def InSlot (k lba : Nat) : Prop := slotLba k ≤ lba ∧ lba < slotLba k + 8

/-- The sectors `swap_header_t` takes. -/
def HeaderSector (lba : Nat) : Prop :=
  swapStartLba ≤ lba ∧ lba < swapStartLba + (headerSize + sectorSize - 1) / sectorSize

/-- The sectors of JFS: the superblock, the journal and the blocks it allocates. Its inodes
are in memory only. -/
def JfsSector (lba : Nat) : Prop :=
  lba = Jfs.jfsSuperLba ∨
    (Jfs.jfsJournalStart ≤ lba ∧ lba < Jfs.jfsJournalStart + Jfs.freshSuper.journal_blocks) ∨
    (Jfs.jfsDataStart ≤ lba ∧ lba < Jfs.jfsDataStart + Jfs.jfsMaxBlocks)

instance (lba : Nat) : Decidable (JfsSector lba) := inferInstanceAs (Decidable (_ ∨ _ ∨ _))

/-- An entry that holds a page. -/
def SwapState.Live (s : SwapState) (i : Nat) : Prop := i < swapMaxPages ∧ s.swap_table i ≠ zeroEntry

/-- The slot of an entry. -/
def SwapState.slot (s : SwapState) (i : Nat) : Nat := (s.swap_table i).swap_sector

/-- The slots in use are apart from the header, from JFS and from one another. -/
structure SwapState.Apart (s : SwapState) : Prop where
  header : ∀ i lba, s.Live i → InSlot (s.slot i) lba → ¬ HeaderSector lba
  files : ∀ i lba, s.Live i → InSlot (s.slot i) lba → ¬ JfsSector lba
  slots : ∀ i j lba, s.Live i → s.Live j → i ≠ j → InSlot (s.slot i) lba → ¬ InSlot (s.slot j) lba

/-- A slot between the header and JFS or behind JFS, with its bit in the header sector. -/
def GoodSlot (k : Nat) : Prop := 1 ≤ k ∧ k ≤ 133 ∨ 390 ≤ k ∧ k < sectorSlots

theorem GoodSlot.inSector {k : Nat} (good : GoodSlot k) : k < sectorSlots := by
  have most : 133 < sectorSlots := by decide
  rcases good with ⟨-, small⟩ | ⟨-, small⟩
  · exact Nat.lt_of_le_of_lt small most
  · exact small

theorem GoodSlot.not_header {k lba : Nat} (good : GoodSlot k) (inside : InSlot k lba) : ¬ HeaderSector lba := by
  rintro ⟨-, high⟩
  have size : (headerSize + sectorSize - 1) / sectorSize = 3 := by decide
  rw [size] at high
  have low := inside.1
  unfold slotLba at low
  unfold GoodSlot at good
  omega

theorem GoodSlot.not_start {k lba : Nat} (good : GoodSlot k) (inside : InSlot k lba) : lba ≠ swapStartLba := by
  rintro rfl
  exact good.not_header inside ⟨Nat.le_refl _, by decide⟩

theorem GoodSlot.not_jfs {k lba : Nat} (good : GoodSlot k) (inside : InSlot k lba) : ¬ JfsSector lba := by
  have low := inside.1
  have high := inside.2
  unfold slotLba swapStartLba at low high
  have top : k < 3968 := good.inSector
  have journal : Jfs.jfsJournalStart + Jfs.freshSuper.journal_blocks = 132096 := by decide
  have data : Jfs.jfsDataStart + Jfs.jfsMaxBlocks = 133120 := by decide
  unfold JfsSector
  rw [journal, data]
  unfold Jfs.jfsSuperLba Jfs.jfsJournalStart Jfs.jfsDataStart
  unfold GoodSlot at good
  omega

theorem InSlot.unique {k k' lba : Nat} (inside : InSlot k lba) (inside' : InSlot k' lba) : k = k' := by
  unfold InSlot slotLba at *
  omega

/-! ## Histories -/

/-- What happens to the swap space: the calls, JFS rewrites its sectors, and something
changes the bytes behind the buffer. -/
inductive SwapOp where
  | swapOut (virt pid phys : Nat) (page : Memory)
  | swapIn (virt pid phys : Nat)
  | invalidate (pid : Nat)
  | jfs (image : Disk)
  | behind (bytes : Memory)

/-- The swap space, with the page last swapped out for each virtual page and process. -/
structure History where
  state : SwapState
  given : Nat → Nat → Option Memory

/-- Note a page. -/
def give (given : Nat → Nat → Option Memory) (virt pid : Nat) (page : Memory) : Nat → Nat → Option Memory :=
  fun v p => if v = alignDown virt pageSize ∧ p = pid then some page else given v p

def History.step (h : History) : SwapOp → History
  | .swapOut virt pid phys page =>
      match swapOut h.state virt pid phys page with
      | (result, s) => ⟨s, if result = 0 then give h.given virt pid page else h.given⟩
  | .swapIn virt pid phys => { h with state := (swapIn h.state virt pid phys).2.2 }
  | .invalidate pid => { h with state := swapInvalidatePid h.state pid }
  | .jfs image =>
      { h with state := { h.state with disk := fun lba => if JfsSector lba then image lba else h.state.disk lba } }
  | .behind bytes =>
      { h with state := { h.state with
          swap_buf := fun b => if b < sectorSize then h.state.swap_buf b else bytes b } }

/-- A page that is swapped in has the bytes last swapped out. -/
def History.Returns (h : History) : SwapOp → Prop
  | .swapIn virt pid phys => ∀ page, (swapIn h.state virt pid phys).2.1 = some page →
      ∃ latest, h.given (alignDown virt pageSize) pid = some latest ∧ ∀ b < pageSize, page b = latest b
  | _ => True

/-- A slot is good when it is taken, for a page without another entry, and a lookup does not
find an entry that is free. -/
def History.Sound (h : History) : SwapOp → Prop
  | .swapOut virt pid phys _ => phys ≠ 0 →
      (∀ k, h.state.FirstClear k → GoodSlot k) ∧
      ∀ i j, freeEntry h.state = some j → h.state.Live i → (h.state.swap_table i).virt = alignDown virt pageSize →
        (h.state.swap_table i).pid = pid → i = j
  | .swapIn virt pid _ => ∀ i, findEntry h.state virt pid = some i → h.state.Live i
  | _ => True

/-- Every entry in use has a good slot of its own, marked in the header, with the page that
was last swapped out for it. -/
structure Kept (h : History) : Prop where
  good : ∀ i, h.state.Live i → GoodSlot (h.state.slot i)
  marked : ∀ i, h.state.Live i → h.state.marked (h.state.slot i) = true
  distinct : ∀ i j, h.state.Live i → h.state.Live j → h.state.slot i = h.state.slot j → i = j
  content : ∀ i, h.state.Live i →
    ∃ latest, h.given (h.state.swap_table i).virt (h.state.swap_table i).pid = some latest ∧
    ∀ b < pageSize, readSectors h.state.disk (slotLba (h.state.slot i)) b = latest b

/-- A table without entries. -/
theorem Kept.start (empty : ∀ i, s.swap_table i = zeroEntry) (given : Nat → Nat → Option Memory) : Kept ⟨s, given⟩ := by
  have none : ∀ i, ¬ s.Live i := fun i live => live.2 (empty i)
  exact ⟨fun i live => absurd live (none i), fun i live => absurd live (none i),
    fun i _ live => absurd live (none i), fun i live => absurd live (none i)⟩

theorem Kept.apart {h : History} (kept : Kept h) : h.state.Apart := by
  refine ⟨fun i lba live inside => (kept.good i live).not_header inside,
    fun i lba live inside => (kept.good i live).not_jfs inside, fun i j lba live live' ne inside inside' => ?_⟩
  exact ne (kept.distinct i j live live' (inside.unique inside'))

theorem live_congr {s' : SwapState} (table : s'.swap_table = s.swap_table) (i : Nat) : s'.Live i ↔ s.Live i := by
  unfold SwapState.Live
  rw [table]

/-- What the entries refer to stays on the disk. -/
theorem Kept.keep {s' : SwapState} {given : Nat → Nat → Option Memory} (kept : Kept ⟨s, given⟩)
    (table : s'.swap_table = s.swap_table)
    (disk : ∀ i lba, s.Live i → InSlot (s.slot i) lba → s'.disk lba = s.disk lba)
    (marks : ∀ i, s.Live i → s'.marked (s.slot i) = s.marked (s.slot i)) : Kept ⟨s', given⟩ := by
  have live := live_congr table
  have slot : ∀ i, s'.slot i = s.slot i := fun i => congrArg SwapEntry.swap_sector (congrFun table i)
  refine ⟨fun i here => ?_, fun i here => ?_, fun i j here there same => ?_, fun i here => ?_⟩
  · dsimp only at here ⊢
    rw [slot]
    exact kept.good i ((live i).mp here)
  · dsimp only at here ⊢
    rw [slot, marks i ((live i).mp here)]
    exact kept.marked i ((live i).mp here)
  · dsimp only at here there same
    rw [slot, slot] at same
    exact kept.distinct i j ((live i).mp here) ((live j).mp there) same
  · dsimp only at here ⊢
    obtain ⟨latest, given', bytes⟩ := kept.content i ((live i).mp here)
    refine ⟨latest, by rw [table]; exact given', fun b inside => ?_⟩
    rw [slot, readSectors_congr (fun lba low high => disk i lba ((live i).mp here) ⟨low, high⟩) inside]
    exact bytes b inside

/-- A change of the header sector that keeps the marks of the slots in use. -/
theorem Kept.header {s' : SwapState} {given : Nat → Nat → Option Memory} (kept : Kept ⟨s, given⟩)
    (only : HeaderOnly s s') (marks : ∀ i, s.Live i → s'.marked (s.slot i) = s.marked (s.slot i)) : Kept ⟨s', given⟩ :=
  kept.keep only.table (fun i lba live inside => only.disk lba ((kept.good i live).not_start inside)) marks

/-- Free the slot of an entry: the others keep theirs. -/
theorem Kept.drop {given : Nat → Nat → Option Memory} (kept : Kept ⟨s, given⟩) {i : Nat} (inside : i < swapMaxPages) :
    Kept ⟨dropEntry s i, given⟩ := by
  obtain ⟨only, marks⟩ := swapFreeSector_spec s (s.slot i)
  have other {j : Nat} (here : (dropEntry s i).Live j) : j ≠ i := by
    rintro rfl
    exact here.2 (Function.update_self _ _ _)
  have entry {j : Nat} (here : (dropEntry s i).Live j) : (dropEntry s i).swap_table j = s.swap_table j :=
    (Function.update_of_ne (other here) _ _).trans (congrFun only.table j)
  have before {j : Nat} (here : (dropEntry s i).Live j) : s.Live j := ⟨here.1, entry here ▸ here.2⟩
  have slot {j : Nat} (here : (dropEntry s i).Live j) : (dropEntry s i).slot j = s.slot j :=
    congrArg SwapEntry.swap_sector (entry here)
  -- The slot that is freed is that of no other entry in use; that of a free entry is 0.
  have apart {j : Nat} (here : (dropEntry s i).Live j) : s.slot j ≠ s.slot i := by
    intro same
    by_cases live : s.Live i
    · exact other here (kept.distinct j i (before here) live same)
    · have zero : s.swap_table i = zeroEntry := not_not.mp fun nonzero => live ⟨inside, nonzero⟩
      have none : s.slot i = 0 := congrArg SwapEntry.swap_sector zero
      have good : GoodSlot (s.slot j) := kept.good j (before here)
      rw [same, none] at good
      unfold GoodSlot at good
      omega
  refine ⟨fun j here => ?_, fun j here => ?_, fun j k here there same => ?_, fun j here => ?_⟩
  · dsimp only at here ⊢
    rw [slot here]
    exact kept.good j (before here)
  · dsimp only at here ⊢
    rw [slot here]
    exact (marks _ (kept.good j (before here)).inSector (apart here)).trans (kept.marked j (before here))
  · dsimp only at here there same
    rw [slot here, slot there] at same
    exact kept.distinct j k (before here) (before there) same
  · dsimp only at here ⊢
    obtain ⟨latest, given', bytes⟩ := kept.content j (before here)
    refine ⟨latest, by rw [entry here]; exact given', fun b inside => ?_⟩
    rw [slot here]
    refine (readSectors_congr (fun lba low high => ?_) inside).trans (bytes b inside)
    exact only.disk lba ((kept.good j (before here)).not_start ⟨low, high⟩)

theorem Kept.invalidate {given : Nat → Nat → Option Memory} (kept : Kept ⟨s, given⟩) (pid : Nat) {count : Nat}
    (inside : count ≤ swapMaxPages) : Kept ⟨invalidateEntries s pid count, given⟩ := by
  induction count with
  | zero => exact kept
  | succ i ih =>
      have before := ih (Nat.le_of_succ_le inside)
      unfold invalidateEntries
      dsimp only
      split
      · exact before.drop (Nat.lt_of_succ_le inside)
      · exact before

/-! ## Swapping out -/

/-- The slot that is taken is not in use: its bit was clear. -/
theorem Kept.fresh {given : Nat → Nat → Option Memory} (kept : Kept ⟨s, given⟩) {k : Nat} (clear : s.FirstClear k)
    {i : Nat} (live : s.Live i) : s.slot i ≠ k := by
  rintro rfl
  obtain ⟨-, -, -, bit, -⟩ := clear
  rw [slotBit_loadHeader (kept.good i live).inSector] at bit
  exact Bool.false_ne_true (bit.symm.trans (kept.marked i live))

/-- A page is written to a slot that is not in use. -/
theorem Kept.write {given : Nat → Nat → Option Memory} (kept : Kept ⟨s, given⟩) {k : Nat}
    (fresh : ∀ i, s.Live i → s.slot i ≠ k) (good : GoodSlot k) (page : Memory) :
    Kept ⟨{ s with disk := writeSectors s.disk (slotLba k) page 8 }, given⟩ := by
  have outside {lba : Nat} (away : ¬ InSlot k lba) : writeSectors s.disk (slotLba k) page 8 lba = s.disk lba := by
    refine writeSectors_outside _ _ ?_
    unfold InSlot at away
    omega
  refine kept.keep rfl (fun i lba live inside => outside fun inside' => ?_) fun i live => ?_
  · exact fresh i live (inside.unique inside')
  · have header : ¬ InSlot k swapStartLba := fun inside => good.not_start inside rfl
    exact congrArg (slotBit · (s.slot i)) (outside header)

/-- A new entry for the page that its slot holds. -/
theorem Kept.enter {given : Nat → Nat → Option Memory} (kept : Kept ⟨s, given⟩) {k j virt pid : Nat} {page : Memory}
    (fresh : ∀ i, s.Live i → s.slot i ≠ k) (good : GoodSlot k) (marked : s.marked k = true)
    (written : ∀ b < pageSize, readSectors s.disk (slotLba k) b = page b)
    (single : ∀ i, s.Live i → (s.swap_table i).virt = alignDown virt pageSize → (s.swap_table i).pid = pid → i = j) :
    Kept ⟨s.setEntry j ⟨alignDown virt pageSize, k, pid⟩, give given virt pid page⟩ := by
  have self : (s.setEntry j ⟨alignDown virt pageSize, k, pid⟩).swap_table j = ⟨alignDown virt pageSize, k, pid⟩ :=
    Function.update_self _ _ _
  have entry {i : Nat} (ne : i ≠ j) :
      (s.setEntry j ⟨alignDown virt pageSize, k, pid⟩).swap_table i = s.swap_table i := Function.update_of_ne ne _ _
  have before {i : Nat} (ne : i ≠ j) (live : (s.setEntry j ⟨alignDown virt pageSize, k, pid⟩).Live i) : s.Live i :=
    ⟨live.1, entry ne ▸ live.2⟩
  have slot {i : Nat} (ne : i ≠ j) : (s.setEntry j ⟨alignDown virt pageSize, k, pid⟩).slot i = s.slot i :=
    congrArg SwapEntry.swap_sector (entry ne)
  have slotSelf : (s.setEntry j ⟨alignDown virt pageSize, k, pid⟩).slot j = k := congrArg SwapEntry.swap_sector self
  refine ⟨fun i live => ?_, fun i live => ?_, fun i i' live live' same => ?_, fun i live => ?_⟩
  · dsimp only at live ⊢
    by_cases here : i = j
    · rw [here, slotSelf]
      exact good
    · rw [slot here]
      exact kept.good i (before here live)
  · dsimp only at live ⊢
    by_cases here : i = j
    · rw [here, slotSelf]
      exact marked
    · rw [slot here]
      exact kept.marked i (before here live)
  · dsimp only at live live' same
    by_cases here : i = j
    · by_cases here' : i' = j
      · exact here.trans here'.symm
      · rw [here, slotSelf, slot here'] at same
        exact absurd same.symm (fresh i' (before here' live'))
    · by_cases here' : i' = j
      · rw [here', slotSelf, slot here] at same
        exact absurd same (fresh i (before here live))
      · rw [slot here, slot here'] at same
        exact kept.distinct i i' (before here live) (before here' live') same
  · dsimp only at live ⊢
    by_cases here : i = j
    · rw [here, slotSelf, self]
      exact ⟨page, if_pos ⟨rfl, rfl⟩, written⟩
    · rw [slot here, entry here]
      obtain ⟨latest, given', bytes⟩ := kept.content i (before here live)
      refine ⟨latest, (if_neg fun same => ?_).trans given', bytes⟩
      exact here (single i (before here live) same.1 same.2)

theorem step_swapOut (h : History) {virt pid phys : Nat} {page : Memory} {result : Int} {s' : SwapState}
    (out : swapOut h.state virt pid phys page = (result, s')) :
    h.step (.swapOut virt pid phys page) = ⟨s', if result = 0 then give h.given virt pid page else h.given⟩ := by
  simp only [History.step, out]

section WithSlot

variable {phys k : Nat} {s' : SwapState} {page : Memory}

/-- `swap_out` with a slot and an entry. -/
theorem swapOut_of_entry (mapped : phys ≠ 0) (alloc : swapAllocSector s = (some k, s')) {j : Nat}
    (found : freeEntry { s' with disk := writeSectors s'.disk (slotLba k) page 8 } = some j) (virt pid : Nat) :
    swapOut s virt pid phys page = (0, { s' with disk := writeSectors s'.disk (slotLba k) page 8 }.setEntry j
      ⟨alignDown virt pageSize, k, pid⟩) := by
  rw [swapOut, if_neg mapped, alloc]
  dsimp only
  rw [found]

/-- `swap_out` with a slot when the table is full. -/
theorem swapOut_of_full (mapped : phys ≠ 0) (alloc : swapAllocSector s = (some k, s'))
    (found : freeEntry { s' with disk := writeSectors s'.disk (slotLba k) page 8 } = none) (virt pid : Nat) :
    swapOut s virt pid phys page =
      (enomem, swapFreeSector { s' with disk := writeSectors s'.disk (slotLba k) page 8 } k) := by
  rw [swapOut, if_neg mapped, alloc]
  dsimp only
  rw [found]

end WithSlot

theorem Kept.out {h : History} (kept : Kept h) {virt pid phys : Nat} {page : Memory}
    (sound : h.Sound (.swapOut virt pid phys page)) : Kept (h.step (.swapOut virt pid phys page)) := by
  obtain ⟨s, given⟩ := h
  by_cases mapped : phys = 0
  · have out : swapOut s virt pid phys page = (efault, s) := if_pos mapped
    rw [step_swapOut ⟨s, given⟩ out, if_neg (by decide)]
    exact kept
  · obtain ⟨goodSlot, single⟩ := sound mapped
    rcases swapAllocSector_spec s with full | ⟨k, s', alloc, clear, only, marked, marks⟩
    · have out : swapOut s virt pid phys page = (enomem, s.loadHeader) := by
        rw [swapOut, if_neg mapped, full]
      rw [step_swapOut ⟨s, given⟩ out, if_neg (by decide)]
      exact kept.keep rfl (fun _ _ _ _ => rfl) fun _ _ => rfl
    · have good := goodSlot k clear
      have live := live_congr only.table
      have fresh : ∀ i, s'.Live i → s'.slot i ≠ k := by
        intro i here
        rw [SwapState.slot, only.table]
        exact kept.fresh clear ((live i).mp here)
      have allocated : Kept ⟨s', given⟩ := kept.header only fun i here =>
        marks _ (kept.good i here).inSector (kept.fresh clear here)
      have written := allocated.write fresh good page
      cases found : freeEntry { s' with disk := writeSectors s'.disk (slotLba k) page 8 } with
      | none =>
          have out := swapOut_of_full mapped alloc found virt pid
          rw [step_swapOut ⟨s, given⟩ out, if_neg (by decide)]
          obtain ⟨only', marks'⟩ := swapFreeSector_spec { s' with disk := writeSectors s'.disk (slotLba k) page 8 } k
          exact written.header only' fun i here => marks' _ (written.good i here).inSector (fresh i here)
      | some j =>
          have out := swapOut_of_entry mapped alloc found virt pid
          rw [step_swapOut ⟨s, given⟩ out, if_pos rfl]
          have header : ¬ InSlot k swapStartLba := fun inside => good.not_start inside rfl
          have marked' : SwapState.marked { s' with disk := writeSectors s'.disk (slotLba k) page 8 } k = true := by
            refine (congrArg (slotBit · k) (writeSectors_outside _ _ ?_)).trans marked
            unfold InSlot at header
            omega
          have found' : freeEntry s = some j := by
            rw [← found]
            unfold freeEntry
            rw [only.table]
          refine written.enter fresh good marked' (fun b inside => readSectors_writeSectors _ _ _ inside)
            fun i here virt' pid' => single i j found' ((live i).mp here) ?_ ?_
          · rw [← only.table]
            exact virt'
          · rw [← only.table]
            exact pid'

/-! ## Runs -/

theorem findEntry_spec {virt pid i : Nat} (found : findEntry s virt pid = some i) :
    i < swapMaxPages ∧ (s.swap_table i).virt = alignDown virt pageSize ∧ (s.swap_table i).pid = pid := by
  unfold findEntry at found
  obtain ⟨matching, bound, -⟩ := List.find?_range_eq_some.mp found
  obtain ⟨virt', pid'⟩ := Bool.and_eq_true_iff.mp matching
  exact ⟨List.mem_range.mp bound, of_decide_eq_true virt', of_decide_eq_true pid'⟩

theorem Kept.step {h : History} (kept : Kept h) {op : SwapOp} (sound : h.Sound op) : Kept (h.step op) := by
  cases op with
  | swapOut virt pid phys page => exact kept.out sound
  | swapIn virt pid phys =>
      dsimp only [History.step, swapIn]
      cases found : findEntry h.state virt pid with
      | none => exact kept
      | some i =>
          dsimp only
          split
          · exact kept
          · exact kept.drop (findEntry_spec found).1
  | invalidate pid => exact kept.invalidate pid (Nat.le_refl _)
  | jfs image =>
      refine kept.keep rfl (fun i lba live inside => if_neg ((kept.good i live).not_jfs inside)) fun i _ => ?_
      have header : (if JfsSector swapStartLba then image swapStartLba else h.state.disk swapStartLba) =
          h.state.disk swapStartLba := if_neg (by decide)
      exact congrArg (slotBit · (h.state.slot i)) header
  | behind bytes => exact kept.keep rfl (fun _ _ _ _ => rfl) fun _ _ => rfl

theorem Kept.returns {h : History} (kept : Kept h) {op : SwapOp} (sound : h.Sound op) : h.Returns op := by
  cases op with
  | swapIn virt pid phys =>
      intro page returned
      unfold swapIn at returned
      cases found : findEntry h.state virt pid with
      | none =>
          rw [found] at returned
          cases returned
      | some i =>
          obtain ⟨-, virt', pid'⟩ := findEntry_spec found
          rw [found] at returned
          dsimp only at returned
          split at returned
          · cases returned
          · cases returned
            rw [← virt', ← pid']
            exact kept.content i (sound i found)
  | _ => trivial

/-- In runs whose steps are sound a page that is swapped in has the bytes last swapped out, and
the slots in use are apart from everything else. -/
theorem swap_round_trip (empty : ∀ i, s.swap_table i = zeroEntry) {ops : List SwapOp}
    (sound : Run.Meets History.step History.Sound ⟨s, fun _ _ => none⟩ ops) :
    Run.Meets History.step (fun h op => h.Returns op ∧ (h.step op).state.Apart) ⟨s, fun _ _ => none⟩ ops :=
  sound.imp (fun _ _ kept sound => kept.step sound)
    (fun _ _ kept sound => ⟨kept.returns sound, (kept.step sound).apart⟩) (Kept.start empty _)

/-! ## The header of a disk -/

theorem SwapState.FirstClear.unique {k k' : Nat} (clear : s.FirstClear k) (clear' : s.FirstClear k') : k = k' := by
  obtain ⟨i, -, rfl, bit, before⟩ := clear
  obtain ⟨i', -, rfl, bit', before'⟩ := clear'
  rcases Nat.lt_trichotomy i i' with less | same | more
  · exact absurd (before' i less) (Bool.eq_false_iff.mp bit)
  · rw [same]
  · exact absurd (before i' more) (Bool.eq_false_iff.mp bit')

theorem firstClear_of_alloc {k k' : Nat} (alloc : (swapAllocSector s).1 = some k) (clear : s.FirstClear k') :
    k' = k := by
  rcases swapAllocSector_spec s with full | ⟨taken, s', found, clear', -⟩
  · rw [full] at alloc
    cases alloc
  · rw [found] at alloc
    cases alloc
    exact clear.unique clear'

/-- After `swap_init` on a disk with this header sector. -/
def started (header : Sector) : SwapState :=
  swapInit ⟨fun lba => if lba = swapStartLba then header else fun _ => 0, fun _ => zeroEntry, 0, fun _ => 0⟩

theorem swapInit_empty (s : SwapState) (i : Nat) : (swapInit s).swap_table i = zeroEntry := by
  unfold swapInit
  dsimp only
  split <;> rfl

/-- A page of one byte repeated. -/
def plain (byte : UInt8) : Memory := fun _ => byte

/-- A header in which the first slot is taken. -/
def reservedHeader : Sector := fun b => [0x53, 0x50, 0x41, 0x57, 0, 0, 0, 0, 0, 0, 0, 0, 0, 0, 0, 0, 1].getD b 0

/-- A page is swapped out, JFS writes, and the page comes back. -/
def thereAndBack : List SwapOp :=
  [.swapOut 0x400000 1 0x200000 (plain 7), .jfs fun _ => plain 2, .swapIn 0x400000 1 0x200000]

/-- A new history after `swap_init`. -/
def History.start (header : Sector) : History := ⟨started header, fun _ _ => none⟩

theorem started_empty (header : Sector) (i : Nat) : (started header).swap_table i = zeroEntry := by
  unfold started
  exact swapInit_empty _ i

theorem reserved_first (k : Nat) (clear : (started reservedHeader).FirstClear k) : GoodSlot k := by
  have first : (swapAllocSector (started reservedHeader)).1 = some 1 := by decide +kernel
  rw [firstClear_of_alloc first clear]
  exact .inl ⟨by decide, by decide⟩

/-- The history before the page comes back. -/
def History.away (s : SwapState) : History :=
  (History.step ⟨s, fun _ _ => none⟩ (.swapOut 0x400000 1 0x200000 (plain 7))).step (.jfs fun _ => plain 2)

theorem found_first : (History.away (started reservedHeader)).Sound (.swapIn 0x400000 1 0x200000) := by
  intro i found
  have first : findEntry (History.away (started reservedHeader)).state 0x400000 1 = some 0 := by decide +kernel
  rw [first] at found
  cases found
  exact ⟨by decide, by decide +kernel⟩

theorem thereAndBack_sound (empty : ∀ i, s.swap_table i = zeroEntry) (first : ∀ k, s.FirstClear k → GoodSlot k)
    (found : (History.away s).Sound (.swapIn 0x400000 1 0x200000)) :
    Run.Meets History.step History.Sound ⟨s, fun _ _ => none⟩ thereAndBack := by
  refine ⟨fun _ => ⟨first, ?_⟩, trivial, found, trivial⟩
  intro i j free live same own
  exact absurd (empty i) live.2

theorem swap_round_trip_thereAndBack :
    Run.Meets History.step (fun h op => h.Returns op ∧ (h.step op).state.Apart)
      ⟨started reservedHeader, fun _ _ => none⟩ thereAndBack :=
  swap_round_trip (started_empty reservedHeader)
    (thereAndBack_sound (started_empty reservedHeader) reserved_first found_first)

/-- Two pages are swapped out on a disk without a header. -/
def twoPages : List SwapOp :=
  [.swapOut 0x400000 1 0x200000 (plain 0), .swapOut 0x401000 1 0x201000 (plain 0)]

theorem History.not_returns {h : History} {virt pid phys : Nat} {l : Memory} {b : Nat} (inPage : b < pageSize)
    (given : (h.given (alignDown virt pageSize) pid).map (· b) = some (l b))
    (returned : ((swapIn h.state virt pid phys).2.1).map (· b) = some (l b + 1)) :
    ¬ h.Returns (.swapIn virt pid phys) := by
  intro returns
  obtain ⟨page, taken, byte⟩ := Option.map_eq_some_iff.mp returned
  obtain ⟨page', noted, same⟩ := returns page taken
  rw [noted] at given
  have byte' : page' b = l b := Option.some.inj given
  have equal := same b inPage
  rw [byte, byte'] at equal
  exact absurd equal (by simp)

theorem SwapState.not_apart {i : Nat} (live : s.Live i) (slot : s.slot i = 0) : ¬ s.Apart := by
  intro apart
  refine apart.header i swapStartLba live ?_ ⟨Nat.le_refl _, by decide⟩
  rw [slot]
  exact ⟨Nat.le_refl _, by decide⟩

/-- The first page is written over the header, and the header over the first page. -/
theorem header_in_page :
    ¬ (Run.final History.step (.start (plain 0)) twoPages).Returns (.swapIn 0x400000 1 0x200000) ∧
      ¬ (Run.final History.step (.start (plain 0)) twoPages).state.Apart :=
  ⟨History.not_returns (l := plain 0) (b := 12) (by decide) (by decide +kernel) (by decide +kernel),
    SwapState.not_apart (i := 0) ⟨by decide, by decide +kernel⟩ (by decide +kernel)⟩

end Systrix.Swap
