import Systrix.Jfs.Directory

/-!
# Block ownership of JFS

In every state JFS can reach a block belongs to at most one direct block number
of one inode and is marked used in the bitmap.  Journal and superblock live
elsewhere on the disk.
-/

namespace Systrix.Jfs

open ByteMemory Machine

/-- A direct block number. -/
abbrev Volume.ptr (s : Volume) (ino b : Nat) : Nat := (s.inodes ino).block_ptrs b

/-- What belongs to files and directories is the same in both states. -/
structure SameData (s' s : Volume) : Prop where
  inodes : s'.inodes = s.inodes
  bitmap : s'.bitmap = s.bitmap
  super : s'.super = s.super
  disk : ∀ lba, jfsDataStart ≤ lba → s'.disk lba = s.disk lba

theorem SameData.trans {s s' s'' : Volume} (second : SameData s'' s') (first : SameData s' s) :
    SameData s'' s where
  inodes := second.inodes.trans first.inodes
  bitmap := second.bitmap.trans first.bitmap
  super := second.super.trans first.super
  disk lba inside := (second.disk lba inside).trans (first.disk lba inside)

/-- Blocks are owned once. -/
structure Owned (s : Volume) : Prop where
  dataStart : s.super.data_start = jfsDataStart
  journalStart : s.super.journal_start = jfsJournalStart
  used : ∀ ino b, s.ptr ino b ≠ 0 → s.ptr ino b < jfsMaxBlocks ∧ s.bitmap (s.ptr ino b) = true
  once : ∀ ino b ino' b', s.ptr ino b ≠ 0 → s.ptr ino b = s.ptr ino' b' → ino = ino' ∧ b = b'

/-! ## Journal -/

theorem flushEntries_disk (journal : JfsJournal) (count : Nat) (disk : Disk) {lba : Nat}
    (inside : jfsDataStart ≤ lba) :
    flushEntries journal jfsJournalStart count disk lba = disk lba := by
  induction count with
  | zero => rfl
  | succ i ih =>
      have slot : (journal.head + i) % journalSlots < journalSlots := Nat.mod_lt _ (by decide)
      have layout : jfsJournalStart + journalSlots ≤ jfsDataStart := by decide
      have small : jfsDataStart < 2 ^ 32 := by decide
      rw [flushEntries, u32_of_lt (by omega), ataWriteSector_of_ne _ _ (by omega), ih]

theorem jfsJournalFlush_same {s : Volume} (start : s.super.journal_start = jfsJournalStart) :
    SameData (jfsJournalFlush s) s where
  inodes := rfl
  bitmap := rfl
  super := rfl
  disk lba inside := by
    have layout : jfsSuperLba < jfsDataStart := by decide
    rw [jfsJournalFlush]
    dsimp only
    rw [ataWriteSector_of_ne _ _ (by omega), start, flushEntries_disk _ _ _ inside]

theorem jfsJournalCommit_same {s : Volume} (start : s.super.journal_start = jfsJournalStart)
    (op : JournalOp) (ino offset size : Nat) (data : Option (List UInt8)) :
    SameData (jfsJournalCommit s op ino offset size data) s := by
  have pushed : SameData { s with journal := pushEntry s.journal op ino offset size data } s :=
    ⟨rfl, rfl, rfl, fun _ _ => rfl⟩
  unfold jfsJournalCommit
  dsimp only
  split_ifs
  · exact SameData.trans (jfsJournalFlush_same start) pushed
  · exact pushed

/-! ## Changes that keep ownership -/

namespace Owned

variable {s s' : Volume}

theorem dataLba_eq (inv : Owned s) {block : Nat} (small : block < jfsMaxBlocks) :
    dataLba s block = jfsDataStart + block := by
  have layout : jfsDataStart + jfsMaxBlocks < 2 ^ 32 := by decide
  rw [dataLba, inv.dataStart, u32_of_lt (by omega)]

/-- Block numbers may be dropped, and blocks nobody uses may change. -/
theorem of_fewer (inv : Owned s) (dataStart : s'.super.data_start = s.super.data_start)
    (journalStart : s'.super.journal_start = s.super.journal_start)
    (kept : ∀ ino b, s'.ptr ino b ≠ 0 → s'.ptr ino b = s.ptr ino b ∧
      s'.bitmap (s'.ptr ino b) = true) : Owned s' where
  dataStart := dataStart.trans inv.dataStart
  journalStart := journalStart.trans inv.journalStart
  used ino b nonzero := by
    obtain ⟨same, isUsed⟩ := kept ino b nonzero
    refine ⟨?_, isUsed⟩
    rw [same] at nonzero ⊢
    exact (inv.used ino b nonzero).1
  once ino b ino' b' nonzero equal := by
    have same := (kept ino b nonzero).1
    have same' := (kept ino' b' (by rw [← equal]; exact nonzero)).1
    rw [same, same'] at equal
    rw [same] at nonzero
    exact inv.once ino b ino' b' nonzero equal

theorem of_same (inv : Owned s) (same : SameData s' s) : Owned s' := by
  refine inv.of_fewer (by rw [same.super]) (by rw [same.super]) fun ino b nonzero => ?_
  have ptr : s'.ptr ino b = s.ptr ino b := by rw [Volume.ptr, same.inodes]
  rw [ptr] at nonzero ⊢
  rw [same.bitmap]
  exact ⟨rfl, (inv.used ino b nonzero).2⟩

theorem commit (inv : Owned s) (op : JournalOp) (ino offset size : Nat)
    (data : Option (List UInt8)) : Owned (jfsJournalCommit s op ino offset size data) :=
  inv.of_same (jfsJournalCommit_same inv.journalStart op ino offset size data)

theorem flush (inv : Owned s) : Owned (jfsJournalFlush s) :=
  inv.of_same (jfsJournalFlush_same inv.journalStart)

theorem withDisk (inv : Owned s) (disk : Disk) : Owned { s with disk := disk } :=
  ⟨inv.dataStart, inv.journalStart, inv.used, inv.once⟩

theorem setInode (inv : Owned s) {ino : Nat} {inode : JfsInode}
    (kept : ∀ b, inode.block_ptrs b ≠ 0 → inode.block_ptrs b = s.ptr ino b) :
    Owned (s.setInode ino inode) := by
  refine inv.of_fewer rfl rfl fun ino' b nonzero => ?_
  by_cases same : ino' = ino
  · subst same
    rw [Volume.ptr, setInode_inodes_self] at nonzero ⊢
    have equal := kept b nonzero
    rw [equal] at nonzero ⊢
    exact ⟨rfl, (inv.used ino' b nonzero).2⟩
  · rw [Volume.ptr, setInode_inodes_of_ne _ _ same] at nonzero ⊢
    exact ⟨rfl, (inv.used ino' b nonzero).2⟩

/-- A block number is set to a block nobody uses. -/
theorem assign (inv : Owned s) {ino b blk : Nat} (empty : s.ptr ino b = 0)
    (inside : blk < jfsMaxBlocks) (unused : s.bitmap blk = false)
    (dataStart : s'.super.data_start = s.super.data_start)
    (journalStart : s'.super.journal_start = s.super.journal_start)
    (isUsed : s'.bitmap = Function.update s.bitmap blk true) (here : s'.ptr ino b = blk)
    (elsewhere : ∀ ino' b', ino' ≠ ino ∨ b' ≠ b → s'.ptr ino' b' = s.ptr ino' b') : Owned s' := by
  have foreign : ∀ ino' b', s.ptr ino' b' ≠ 0 → s.ptr ino' b' ≠ blk := by
    intro ino' b' nonzero isBlk
    have marked := (inv.used ino' b' nonzero).2
    rw [isBlk, unused] at marked
    cases marked
  refine ⟨dataStart.trans inv.dataStart, journalStart.trans inv.journalStart, ?_, ?_⟩
  · intro ino' b' nonzero
    rw [isUsed]
    by_cases same : ino' = ino ∧ b' = b
    · obtain ⟨rfl, rfl⟩ := same
      rw [here]
      exact ⟨inside, Function.update_self _ _ _⟩
    · rw [elsewhere ino' b' (by omega)] at nonzero ⊢
      rw [Function.update_of_ne (foreign ino' b' nonzero)]
      exact inv.used ino' b' nonzero
  · intro ino₁ b₁ ino₂ b₂ nonzero equal
    by_cases same₁ : ino₁ = ino ∧ b₁ = b
    · by_cases same₂ : ino₂ = ino ∧ b₂ = b
      · exact ⟨same₁.1.trans same₂.1.symm, same₁.2.trans same₂.2.symm⟩
      · obtain ⟨rfl, rfl⟩ := same₁
        rw [here, elsewhere ino₂ b₂ (by omega)] at equal
        rw [here, equal] at nonzero
        exact absurd equal.symm (foreign ino₂ b₂ nonzero)
    · rw [elsewhere ino₁ b₁ (by omega)] at nonzero equal
      by_cases same₂ : ino₂ = ino ∧ b₂ = b
      · obtain ⟨rfl, rfl⟩ := same₂
        rw [here] at equal
        exact absurd equal (foreign ino₁ b₁ nonzero)
      · rw [elsewhere ino₂ b₂ (by omega)] at equal
        exact inv.once ino₁ b₁ ino₂ b₂ nonzero equal

end Owned

theorem firstFree_lt {bitmap : Nat → Bool} {blk : Nat} (found : firstFree bitmap = some blk) :
    blk < jfsMaxBlocks := by
  unfold firstFree at found
  exact List.mem_range.mp (List.mem_of_find?_eq_some found)

theorem firstFree_unused {bitmap : Nat → Bool} {blk : Nat}
    (found : firstFree bitmap = some blk) : bitmap blk = false := by
  unfold firstFree at found
  have clear := List.find?_some found
  rwa [Bool.not_eq_true'] at clear

/-! ## Contents -/

/-- A byte of a direct block, zero where no block is allocated. -/
def blockByte (s : Volume) (ino b i : Nat) : UInt8 :=
  if s.ptr ino b ≠ 0 then s.disk (dataLba s (s.ptr ino b)) i else 0

theorem fileByte_eq (s : Volume) (ino position : Nat) : fileByte s ino position =
    if blockIdx position < directBlocks then blockByte s ino (blockIdx position) (blockOff position)
    else 0 := by
  unfold fileByte blockByte
  by_cases direct : blockIdx position < directBlocks
  · simp [direct, ataReadSector]
  · simp [direct]

theorem SameData.blockByte {s' s : Volume} (same : SameData s' s) (inv : Owned s) (ino b i : Nat) :
    blockByte s' ino b i = blockByte s ino b i := by
  have ptr : s'.ptr ino b = s.ptr ino b := by rw [Volume.ptr, same.inodes]
  have lba : ∀ block, dataLba s' block = dataLba s block := fun block => by
    rw [dataLba, dataLba, same.super]
  unfold Jfs.blockByte
  rw [ptr, lba]
  split_ifs with nonzero
  · rw [same.disk _ (by rw [inv.dataLba_eq (inv.used ino b nonzero).1]; omega)]
  · rfl

section AssignBlock

variable {s : Volume} {ino b blk : Nat}

/-- A claimed block that is recorded nowhere else. -/
def Volume.claimAssign (s : Volume) (ino b blk : Nat) : Volume :=
  (claimBlock s blk).assignBlock ino b blk

theorem inodes_assign_self : (s.claimAssign ino b blk).inodes ino =
    { s.inodes ino with block_ptrs := Function.update (s.inodes ino).block_ptrs b blk
                        blocks := (s.inodes ino).blocks + 1 } :=
  setInode_inodes_self _ _ _

theorem inodes_assign_of_ne {other : Nat} (ne : other ≠ ino) :
    (s.claimAssign ino b blk).inodes other = s.inodes other :=
  setInode_inodes_of_ne _ _ ne

theorem ptr_assign_self : (s.claimAssign ino b blk).ptr ino b = blk := by
  rw [Volume.ptr, inodes_assign_self]
  exact Function.update_self _ _ _

theorem ptr_assign_of_ne {ino' b' : Nat} (other : ino' ≠ ino ∨ b' ≠ b) :
    (s.claimAssign ino b blk).ptr ino' b' = s.ptr ino' b' := by
  by_cases same : ino' = ino
  · subst same
    rw [Volume.ptr, inodes_assign_self]
    exact Function.update_of_ne (by omega) _ _
  · rw [Volume.ptr, inodes_assign_of_ne same]

theorem data_start_assign : (s.claimAssign ino b blk).super.data_start = s.super.data_start := by
  rw [Volume.claimAssign, Volume.assignBlock, setInode_super, claimBlock_super,
    setFreeBlocks_data_start]

theorem journal_start_assign :
    (s.claimAssign ino b blk).super.journal_start = s.super.journal_start := by
  rw [Volume.claimAssign, Volume.assignBlock, setInode_super, claimBlock_super,
    setFreeBlocks_journal_start]

theorem Owned.claimAssign (inv : Owned s) (empty : s.ptr ino b = 0)
    (found : firstFree s.bitmap = some blk) : Owned (s.claimAssign ino b blk) := by
  have inside := firstFree_lt found
  have unused := firstFree_unused found
  exact inv.assign empty inside unused data_start_assign journal_start_assign rfl ptr_assign_self
    fun _ _ => ptr_assign_of_ne

/-- An allocation changes no contents: the new block is zero, as it read before. -/
theorem blockByte_claimAssign (inv : Owned s) (empty : s.ptr ino b = 0)
    (found : firstFree s.bitmap = some blk) (ino' b' i : Nat) :
    blockByte (s.claimAssign ino b blk) ino' b' i = blockByte s ino' b' i := by
  have inside := firstFree_lt found
  have unused := firstFree_unused found
  have lba : ∀ block, dataLba (s.claimAssign ino b blk) block = dataLba s block :=
    dataLba_congr data_start_assign
  have disk : (s.claimAssign ino b blk).disk = ataWriteSector s.disk (dataLba s blk) fun _ => 0 := rfl
  unfold blockByte
  rw [lba, disk]
  by_cases same : ino' = ino ∧ b' = b
  · obtain ⟨rfl, rfl⟩ := same
    rw [ptr_assign_self, ataWriteSector_self, empty, if_neg (Decidable.not_not.mpr rfl), ite_self]
  · rw [ptr_assign_of_ne (by omega)]
    split_ifs with nonzero
    · obtain ⟨inside', isUsed⟩ := inv.used ino' b' nonzero
      have foreign : s.ptr ino' b' ≠ blk := by
        intro isBlk
        rw [isBlk, unused] at isUsed
        cases isUsed
      rw [ataWriteSector_of_ne]
      rw [inv.dataLba_eq inside', inv.dataLba_eq inside]
      omega
    · rfl

end AssignBlock

/-- Writing into a direct block changes that block only, and nothing at all when the
slot is empty: the sector written is then that of block 0, which no slot names. -/
theorem blockByte_write {s : Volume} {ino b : Nat} {buf : Sector} (inv : Owned s)
    (ino' b' i : Nat) :
    blockByte { s with disk := ataWriteSector s.disk (dataLba s (s.ptr ino b)) buf } ino' b' i =
      if ino' = ino ∧ b' = b ∧ s.ptr ino b ≠ 0 then buf i else blockByte s ino' b' i := by
  generalize written : { s with disk := ataWriteSector s.disk (dataLba s (s.ptr ino b)) buf } = s'
  have disk : s'.disk = ataWriteSector s.disk (dataLba s (s.ptr ino b)) buf := by rw [← written]
  have ptr : ∀ ino b, s'.ptr ino b = s.ptr ino b := fun ino b => by rw [← written]
  have start : s'.super.data_start = s.super.data_start := by rw [← written]
  have inside : s.ptr ino b < jfsMaxBlocks := by
    by_cases empty : s.ptr ino b = 0
    · rw [empty]
      decide
    · exact (inv.used ino b empty).1
  unfold blockByte
  rw [dataLba_congr start, ptr, disk]
  by_cases nonzero' : s.ptr ino' b' = 0
  · have notHere : ¬(ino' = ino ∧ b' = b ∧ s.ptr ino b ≠ 0) := by
      rintro ⟨rfl, rfl, nonzero⟩
      exact nonzero nonzero'
    rw [if_neg notHere, if_neg (Decidable.not_not.mpr nonzero'),
      if_neg (Decidable.not_not.mpr nonzero')]
  · rw [if_pos nonzero', if_pos nonzero']
    by_cases same : ino' = ino ∧ b' = b
    · obtain ⟨rfl, rfl⟩ := same
      rw [if_pos ⟨rfl, rfl, nonzero'⟩, ataWriteSector_self]
    · have foreign : s.ptr ino' b' ≠ s.ptr ino b := fun equal =>
        same (inv.once ino' b' ino b nonzero' equal)
      have inside' := (inv.used ino' b' nonzero').1
      rw [if_neg (fun here => same ⟨here.1, here.2.1⟩), ataWriteSector_of_ne]
      rw [inv.dataLba_eq inside, inv.dataLba_eq inside']
      omega

/-! ## Other operations -/

theorem jfsFreeBlock_data_start (s : Volume) (block : Nat) :
    (jfsFreeBlock s block).super.data_start = s.super.data_start := by
  unfold jfsFreeBlock
  split_ifs
  · rfl
  · exact setFreeBlocks_data_start _ _
  · rfl

theorem jfsFreeBlock_journal_start (s : Volume) (block : Nat) :
    (jfsFreeBlock s block).super.journal_start = s.super.journal_start := by
  unfold jfsFreeBlock
  split_ifs
  · rfl
  · exact setFreeBlocks_journal_start _ _
  · rfl

theorem jfsFreeBlock_inodes (s : Volume) (block : Nat) :
    (jfsFreeBlock s block).inodes = s.inodes := by
  unfold jfsFreeBlock
  split_ifs <;> rfl

theorem jfsFreeBlock_bitmap_of_ne (s : Volume) {block other : Nat} (ne : other ≠ block) :
    (jfsFreeBlock s block).bitmap other = s.bitmap other := by
  unfold jfsFreeBlock
  split_ifs
  · rfl
  · exact Function.update_of_ne ne _ _
  · rfl

/-- Freeing the block of a slot and emptying the slot. -/
theorem Owned.freeSlot {s : Volume} {ino b : Nat} (inv : Owned s) (nonzero : s.ptr ino b ≠ 0) :
    Owned ((jfsFreeBlock s (s.ptr ino b)).setInode ino
      { s.inodes ino with block_ptrs := Function.update (s.inodes ino).block_ptrs b 0 }) := by
  refine inv.of_fewer (jfsFreeBlock_data_start _ _) (jfsFreeBlock_journal_start _ _)
    fun ino' b' nonzero' => ?_
  have other : (ino' ≠ ino ∨ b' ≠ b) ∧ Volume.ptr ((jfsFreeBlock s (s.ptr ino b)).setInode ino
      { s.inodes ino with block_ptrs := Function.update (s.inodes ino).block_ptrs b 0 }) ino' b' =
        s.ptr ino' b' := by
    by_cases same : ino' = ino
    · subst same
      rw [Volume.ptr, setInode_inodes_self] at nonzero' ⊢
      by_cases here : b' = b
      · subst here
        exact absurd (Function.update_self _ _ _) nonzero'
      · exact ⟨.inr here, Function.update_of_ne here _ _⟩
    · rw [Volume.ptr, setInode_inodes_of_ne _ _ same, jfsFreeBlock_inodes]
      exact ⟨.inl same, rfl⟩
  rw [other.2] at nonzero' ⊢
  have foreign : s.ptr ino' b' ≠ s.ptr ino b := by
    intro equal
    have same := inv.once ino' b' ino b nonzero' equal
    omega
  refine ⟨rfl, ?_⟩
  rw [show ((jfsFreeBlock s (s.ptr ino b)).setInode ino _).bitmap =
    (jfsFreeBlock s (s.ptr ino b)).bitmap from rfl, jfsFreeBlock_bitmap_of_ne _ foreign]
  exact (inv.used ino' b' nonzero').2

theorem Owned.freeBlocks {s : Volume} (inv : Owned s) (ino count : Nat) :
    Owned (freeBlocks ino count s) := by
  induction count with
  | zero => exact inv
  | succ i ih =>
      rw [Jfs.freeBlocks]
      split_ifs with nonzero
      · exact ih.freeSlot nonzero
      · exact ih

/-- Only the counters of the superblock change. -/
theorem Owned.setFreeInodes {s : Volume} (inv : Owned s) (n : Nat) :
    Owned { s with super := s.super.setFreeInodes n } :=
  inv.of_fewer (setFreeInodes_data_start _ _) (setFreeInodes_journal_start _ _)
    fun ino b nonzero => ⟨rfl, (inv.used ino b nonzero).2⟩

theorem Owned.releaseInode {s : Volume} (inv : Owned s) (ino : Nat) :
    Owned (releaseInode s ino) := by
  have cleared : Owned
      (s.setInode ino { s.inodes ino with type := .free, size := 0, blocks := 0 }) :=
    inv.setInode fun _ _ => rfl
  exact cleared.setFreeInodes _

theorem Owned.unlink {s : Volume} (inv : Owned s) (ino : Nat) : Owned (jfsUnlink s ino).2 := by
  unfold jfsUnlink
  split_ifs
  · exact inv
  · exact (((inv.commit _ _ _ _ _).freeBlocks ino directBlocks).releaseInode ino).flush

theorem Owned.growDir {s : Volume} (inv : Owned s) (dir_ino : Nat) : Owned (growDir s dir_ino) :=
  inv.setInode fun _ _ => rfl

/-- A freshly formatted file system owns no blocks. -/
theorem Owned.init {disk : Disk}
    (unformatted : (decodeSuper (ataReadSector disk jfsSuperLba)).magic ≠ jfsMagic) :
    Owned (jfsInit disk) := by
  have empty : ∀ ino b, (freshInodes ino).block_ptrs b = 0 := by
    intro ino b
    by_cases root : ino = 0
    · subst root
      rfl
    · rw [freshInodes, Function.update_of_ne root]
      rfl
  rw [jfsInit, if_pos unformatted]
  exact ⟨rfl, rfl, fun ino b nonzero => absurd (empty ino b) nonzero,
    fun ino b _ _ nonzero _ => absurd (empty ino b) nonzero⟩

end Systrix.Jfs
