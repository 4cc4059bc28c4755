import Systrix.Jfs.Ownership
import Systrix.Lib.Counting
import Systrix.Lib.Run

/-!
# Block accounts of JFS

Whatever operations run on a fresh file system, failing ones included: a block
has one owner at most, `free_blocks` counts the blocks the bitmap has free, and
no block shares a sector with journal or superblock.
-/

namespace Systrix.Jfs

open ByteMemory Machine

/-- Blocks that are marked used. -/
def usedBlocks (bitmap : Nat → Bool) : Nat :=
  ((Finset.range jfsMaxBlocks).filter fun i => bitmap i = true).card

/-- Free blocks and used blocks add up. -/
def Balanced (s : Volume) : Prop := s.super.free_blocks + usedBlocks s.bitmap = freshSuper.free_blocks

theorem usedBlocks_le (bitmap : Nat → Bool) : usedBlocks bitmap ≤ jfsMaxBlocks :=
  (Finset.card_filter_le _ _).trans (Finset.card_range _).le

theorem usedBlocks_update (bitmap : Nat → Bool) {i : Nat} (inside : i < jfsMaxBlocks) (value : Bool) :
    usedBlocks (Function.update bitmap i value) + (if bitmap i = true then 1 else 0) =
      usedBlocks bitmap + if value = true then 1 else 0 := by
  unfold usedBlocks
  generalize jfsMaxBlocks = n at inside
  have counted := Counting.card_update (Finset.range n) (f := bitmap) (g := Function.update bitmap i value)
    (Finset.mem_range.mpr inside) (fun x ne => Function.update_of_ne ne _ _) true
  rw [Function.update_self] at counted
  exact counted

namespace Balanced

variable {s s' : Volume}

theorem congr (balanced : Balanced s) (free : s'.super.free_blocks = s.super.free_blocks)
    (bitmap : s'.bitmap = s.bitmap) : Balanced s' := by
  rw [Balanced, free, bitmap]
  exact balanced

theorem of_same (balanced : Balanced s) (same : SameData s' s) : Balanced s' :=
  balanced.congr (by rw [same.super]) same.bitmap

theorem claimBlock {i : Nat} (balanced : Balanced s) (found : firstFree s.bitmap = some i) :
    Balanced (claimBlock s i) := by
  have counted := usedBlocks_update s.bitmap (firstFree_lt found) true
  rw [firstFree_unused found] at counted
  have few := usedBlocks_le (Function.update s.bitmap i true)
  have enough : jfsMaxBlocks < freshSuper.free_blocks := by decide
  have small : freshSuper.free_blocks < 2 ^ 64 := by decide
  rw [Balanced] at balanced
  have free : sub64 s.super.free_blocks 1 = s.super.free_blocks - 1 := by
    simp only [reduceIte, Bool.false_eq_true] at counted
    rw [sub64_of_le (by omega) (by omega)]
  show sub64 s.super.free_blocks 1 + usedBlocks (Function.update s.bitmap i true) = _
  simp only [reduceIte, Bool.false_eq_true] at counted
  rw [free]
  omega

theorem freeBlock (balanced : Balanced s) (block : Nat) : Balanced (jfsFreeBlock s block) := by
  unfold jfsFreeBlock
  split_ifs with beyond isUsed
  · exact balanced
  · have counted := usedBlocks_update s.bitmap (Nat.lt_of_not_le beyond) false
    have small : freshSuper.free_blocks < 2 ^ 64 := by decide
    rw [isUsed] at counted
    simp only [reduceIte, Bool.false_eq_true] at counted
    rw [Balanced] at balanced
    show u64 (s.super.free_blocks + 1) + usedBlocks (Function.update s.bitmap block false) = _
    rw [u64_of_lt (by omega)]
    omega
  · exact balanced

theorem setInode (balanced : Balanced s) (ino : Nat) (inode : JfsInode) : Balanced (s.setInode ino inode) :=
  balanced

theorem setFreeInodes (balanced : Balanced s) (n : Nat) :
    Balanced { s with super := s.super.setFreeInodes n } :=
  balanced

theorem releaseInode (balanced : Balanced s) (ino : Nat) : Balanced (releaseInode s ino) :=
  (balanced.setInode ino _).setFreeInodes _

theorem freeBlocks (balanced : Balanced s) (ino count : Nat) : Balanced (freeBlocks ino count s) := by
  induction count with
  | zero => exact balanced
  | succ i ih =>
      rw [Jfs.freeBlocks]
      split_ifs
      · exact (ih.freeBlock _).setInode _ _
      · exact ih

end Balanced

/-! ## Operations -/

/-- The blocks have owners, and the accounts are right. -/
structure Accounted (s : Volume) : Prop where
  owned : Owned s
  balanced : Balanced s

namespace Accounted

variable {s : Volume}

theorem commit (inv : Accounted s) (op : JournalOp) (ino offset size : Nat) (data : Option (List UInt8)) :
    Accounted (jfsJournalCommit s op ino offset size data) :=
  ⟨inv.owned.commit op ino offset size data,
    inv.balanced.of_same (jfsJournalCommit_same inv.owned.journalStart op ino offset size data)⟩

theorem flush (inv : Accounted s) : Accounted (jfsJournalFlush s) :=
  ⟨inv.owned.flush, inv.balanced.of_same (jfsJournalFlush_same inv.owned.journalStart)⟩

theorem withDisk (inv : Accounted s) (disk : Disk) : Accounted { s with disk := disk } :=
  ⟨inv.owned.withDisk disk, inv.balanced⟩

theorem unlink (inv : Accounted s) (ino : Nat) : Accounted (jfsUnlink s ino).2 := by
  refine ⟨inv.owned.unlink ino, ?_⟩
  unfold jfsUnlink
  split_ifs
  · exact inv.balanced
  · have committed := inv.commit .unlink ino 0 (s.inodes ino).size none
    have freed := (committed.balanced.freeBlocks ino directBlocks).releaseInode ino
    have owned := (committed.owned.freeBlocks ino directBlocks).releaseInode ino
    exact freed.of_same (jfsJournalFlush_same owned.journalStart)

theorem makeInode (inv : Accounted s) (type : InodeType) (op : JournalOp) (mode : Nat) :
    Accounted (makeInode s type op mode).2 := by
  unfold Jfs.makeInode jfsAllocInode
  cases ((List.range jfsMaxInodes).find? fun i => 1 ≤ i ∧ (s.inodes i).type = .free) with
  | none => exact inv
  | some ino =>
      have counted : Accounted { s with super := s.super.setFreeInodes (sub64 s.super.free_inodes 1) } :=
        ⟨inv.owned.setFreeInodes _, inv.balanced.setFreeInodes _⟩
      refine (Accounted.commit ⟨counted.owned.setInode ?_, counted.balanced.setInode _ _⟩ _ _ _ _ _).flush
      intro b nonzero
      exact absurd rfl nonzero

/-- A free block is claimed for an empty slot. -/
theorem claimAssign {ino b blk : Nat} (inv : Accounted s) (empty : s.ptr ino b = 0)
    (found : firstFree s.bitmap = some blk) : Accounted (s.claimAssign ino b blk) :=
  ⟨inv.owned.claimAssign empty found, (inv.balanced.claimBlock found).setInode _ _⟩

theorem growDir (inv : Accounted s) (dir_ino : Nat) : Accounted (growDir s dir_ino) :=
  ⟨inv.owned.growDir dir_ino, inv.balanced.setInode _ _⟩

theorem dirAdd (inv : Accounted s) (dir_ino : Nat) (name : Name) (child_ino : Nat) (type : InodeType) :
    Accounted (jfsDirAdd s dir_ino name child_ino type).2 := by
  unfold jfsDirAdd
  split_ifs
  · exact inv
  · cases (findSlot s dir_ino fun buf slot => slotIno buf slot = 0) with
    | some found => exact (inv.withDisk _).growDir _
    | none =>
        cases empty : (List.range directBlocks).find? fun b => (s.inodes dir_ino).block_ptrs b = 0 with
        | none => exact inv
        | some b =>
            simp only [jfsAllocBlock]
            cases found : firstFree s.bitmap with
            | none => exact inv
            | some blk =>
                have isEmpty : s.ptr dir_ino b = 0 := by simpa using List.find?_some empty
                exact ((inv.claimAssign isEmpty found).withDisk _).growDir _

theorem opsCreate (inv : Accounted s) (dir_ino : Nat) (name : Name) (mode : Nat) :
    Accounted (jfsOpsCreate s dir_ino name mode).2 := by
  unfold jfsOpsCreate
  have created : Accounted (jfsCreate s mode).2 := inv.makeInode _ _ _
  dsimp only
  split_ifs
  · exact created
  · exact (created.dirAdd _ _ _ _).unlink _
  · exact created.dirAdd _ _ _ _

theorem opsMkdir (inv : Accounted s) (dir_ino : Nat) (name : Name) (mode : Nat) :
    Accounted (jfsOpsMkdir s dir_ino name mode).2 := by
  unfold jfsOpsMkdir
  have created : Accounted (jfsMkdir s mode).2 := inv.makeInode _ _ _
  dsimp only
  split_ifs
  · exact created
  · exact created.dirAdd _ _ _ _

theorem opsUnlink (inv : Accounted s) (dir_ino : Nat) (name : Name) :
    Accounted (jfsOpsUnlink s dir_ino name).2 := by
  unfold jfsOpsUnlink
  cases jfsDirLookup s dir_ino name with
  | error r => exact inv
  | ok child_ino =>
      dsimp only
      cases findSlot s dir_ino fun buf slot => slotIno buf slot = child_ino ∧ slotNamed buf slot name with
      | none => exact inv.unlink _
      | some found => exact (inv.withDisk _).unlink _

theorem ensureBlock {s' : Volume} (inv : Accounted s) {ino b : Nat} (ensured : ensureBlock s ino b = some s') :
    Accounted s' := by
  unfold Jfs.ensureBlock at ensured
  split_ifs at ensured with empty
  · obtain ⟨blk, found, rfl⟩ : ∃ blk, firstFree s.bitmap = some blk ∧ s.claimAssign ino b blk = s' := by
      simpa [jfsAllocBlock, Volume.claimAssign] using ensured
    exact inv.claimAssign empty found
  · cases ensured
    exact inv

theorem storeBytes {s' : Volume} (inv : Accounted s) {ino block_idx block_off : Nat} {bytes : List UInt8}
    (stored : storeBytes s ino block_idx block_off bytes = some s') : Accounted s' := by
  unfold Jfs.storeBytes at stored
  by_cases direct : block_idx < directBlocks
  · rw [if_pos direct] at stored
    obtain ⟨ensured, found, rfl⟩ := Option.map_eq_some_iff.mp stored
    exact (inv.ensureBlock found).withDisk _
  · rw [if_neg direct] at stored
    cases stored
    exact inv

theorem writeLoop (inv : Accounted s) (ino offset : Nat) (data : List UInt8) (written : Nat) :
    Accounted (jfsWriteLoop ino offset data written s).1 := by
  induction written, s using jfsWriteLoop.induct ino offset data with
  | case1 written s more position to_write bytes full =>
      rw [jfsWriteLoop, if_pos more]
      simp only [position, to_write, bytes] at full
      simpa only [full] using inv
  | case2 written s more position to_write bytes s' stored committed ih =>
      rw [jfsWriteLoop, if_pos more]
      simp only [position, to_write, bytes] at stored
      simp only [stored]
      exact ih ((inv.storeBytes stored).commit _ _ _ _ _)
  | case3 written s done =>
      rw [jfsWriteLoop, if_neg done]
      exact inv

theorem write (inv : Accounted s) (ino : Nat) (data : List UInt8) (offset : Nat) :
    Accounted (jfsWrite s ino data offset).2 := by
  have looped := inv.writeLoop ino offset data 0
  unfold jfsWrite
  split_ifs
  · exact inv
  · cases loop : jfsWriteLoop ino offset data 0 s with
    | mk s' result =>
        obtain ⟨written, full⟩ := result
        rw [loop] at looped
        cases full with
        | true => exact looped
        | false =>
            dsimp only
            split_ifs
            · exact Accounted.flush ⟨looped.owned.setInode fun _ _ => rfl, looped.balanced.setInode _ _⟩
            · exact looped.flush

end Accounted

/-! ## Runs -/

/-- Operations on JFS; the `rmdir` operation is the `unlink` operation. -/
inductive JfsOp where
  | create (mode : Nat)
  | mkdir (mode : Nat)
  | write (ino : Nat) (data : List UInt8) (offset : Nat)
  | unlink (ino : Nat)
  | flush
  | opsCreate (dir_ino : Nat) (name : Name) (mode : Nat)
  | opsMkdir (dir_ino : Nat) (name : Name) (mode : Nat)
  | opsUnlink (dir_ino : Nat) (name : Name)

/-- The state after an operation. -/
def JfsOp.run (s : Volume) : JfsOp → Volume
  | .create mode => (jfsCreate s mode).2
  | .mkdir mode => (jfsMkdir s mode).2
  | .write ino data offset => (jfsWrite s ino data offset).2
  | .unlink ino => (jfsUnlink s ino).2
  | .flush => jfsJournalFlush s
  | .opsCreate dir_ino name mode => (jfsOpsCreate s dir_ino name mode).2
  | .opsMkdir dir_ino name mode => (jfsOpsMkdir s dir_ino name mode).2
  | .opsUnlink dir_ino name => (jfsOpsUnlink s dir_ino name).2

theorem Accounted.step {s : Volume} (inv : Accounted s) (op : JfsOp) : Accounted (op.run s) := by
  cases op with
  | create mode => exact inv.makeInode _ _ _
  | mkdir mode => exact inv.makeInode _ _ _
  | write ino data offset => exact inv.write ino data offset
  | unlink ino => exact inv.unlink ino
  | flush => exact inv.flush
  | opsCreate dir_ino name mode => exact inv.opsCreate dir_ino name mode
  | opsMkdir dir_ino name mode => exact inv.opsMkdir dir_ino name mode
  | opsUnlink dir_ino name => exact inv.opsUnlink dir_ino name

theorem Accounted.run {s : Volume} (inv : Accounted s) (ops : List JfsOp) :
    Accounted (Run.final JfsOp.run s ops) := by
  induction ops generalizing s with
  | nil => exact inv
  | cons op ops ih => exact ih (inv.step op)

theorem usedBlocks_none : usedBlocks (fun _ => false) = 0 := by
  unfold usedBlocks
  generalize jfsMaxBlocks = n
  simp

/-- A fresh format is accounted for. -/
theorem Accounted.init {disk : Disk} (unformatted : (decodeSuper (ataReadSector disk jfsSuperLba)).magic ≠ jfsMagic) :
    Accounted (jfsInit disk) := by
  refine ⟨Owned.init unformatted, ?_⟩
  rw [jfsInit, if_pos unformatted]
  show freshSuper.free_blocks + usedBlocks (fun _ => false) = _
  rw [usedBlocks_none, Nat.add_zero]

/-- The sectors a flush writes: journal slots and the superblock. -/
def flushSector (s : Volume) (lba : Nat) : Prop :=
  lba = jfsSuperLba ∨ ∃ idx < journalSlots, lba = u32 (s.super.journal_start + idx)

theorem Owned.apart {s : Volume} (owned : Owned s) {block : Nat} (small : block < jfsMaxBlocks) :
    ¬flushSector s (dataLba s block) := by
  have layout : jfsJournalStart + journalSlots ≤ jfsDataStart := by decide
  have super : jfsSuperLba < jfsDataStart := by decide
  have width : jfsDataStart < 2 ^ 32 := by decide
  rw [flushSector, owned.dataLba_eq small, owned.journalStart]
  rintro (same | ⟨idx, inside, same⟩)
  · omega
  · rw [u32_of_lt (by omega)] at same
    omega

/-- Who owns which block, and where it lies. -/
structure BlocksOwned (s : Volume) : Prop where
  once : ∀ ino b ino' b', s.ptr ino b ≠ 0 → s.ptr ino b = s.ptr ino' b' → ino = ino' ∧ b = b'
  used : ∀ ino b, s.ptr ino b ≠ 0 → s.ptr ino b < jfsMaxBlocks ∧ s.bitmap (s.ptr ino b) = true
  balanced : s.super.free_blocks + usedBlocks s.bitmap = freshSuper.free_blocks
  apart : ∀ ino b, s.ptr ino b ≠ 0 → ¬flushSector s (dataLba s (s.ptr ino b))

theorem Accounted.blocksOwned {s : Volume} (inv : Accounted s) : BlocksOwned s where
  once := inv.owned.once
  used := inv.owned.used
  balanced := inv.balanced
  apart ino b nonzero := inv.owned.apart (inv.owned.used ino b nonzero).1

/-- In every run from a fresh format each block has one owner, is marked used and lies apart from
journal and superblock, and the free blocks are those not marked. -/
theorem block_ownership {disk : Disk}
    (unformatted : (decodeSuper (ataReadSector disk jfsSuperLba)).magic ≠ jfsMagic) (ops : List JfsOp) :
    BlocksOwned (Run.final JfsOp.run (jfsInit disk) ops) :=
  ((Accounted.init unformatted).run ops).blocksOwned

theorem block_ownership_blank :
    BlocksOwned (Run.final JfsOp.run (jfsInit fun _ _ => 0)
      [.opsMkdir 0 [100] 0, .opsCreate 0 [102] 0, .opsUnlink 0 [100]]) :=
  block_ownership (by decide) _

end Systrix.Jfs
