import Systrix.Jfs.Accounting
import Systrix.Lib.Logged

/-!
# The JFS journal

The operations of JFS with a log of what they do to the journal: the records they commit
and the flushes.
-/

namespace Systrix.Jfs

open ByteMemory Machine

/-- Bytes of `data` in `jfs_journal_entry_t`. -/
def entryData : Nat := jfsBlockSize - 32

/-- The record a journal sector holds. -/
def decodeEntry (buf : Sector) : JournalEntry where
  op := load buf 0 4
  ino := load buf 4 4
  offset := load buf 8 8
  size := load buf 16 8
  data i := buf (24 + i)

/-- The data of a record: as many bytes as its size says, and as the field has room for. -/
def JournalEntry.bytes (entry : JournalEntry) : List UInt8 := slice entry.data 0 (min entry.size entryData)

/-- The arguments of a call of `jfs_journal_commit`, and the slot at the tail at that time. -/
structure Record where
  slot : Nat
  op : JournalOp
  ino : Nat
  offset : Nat
  size : Nat
  data : Option (List UInt8)

/-- What happens to the journal. -/
inductive JournalEvent where
  | commit (record : Record)
  | flush (before : Volume)

/-- The record of a call of `jfs_journal_commit`. -/
def recordOf (s : Volume) (op : JournalOp) (ino offset size : Nat) (data : Option (List UInt8)) : Record :=
  ⟨s.journal.tail, op, u32 ino, u64 offset, u64 size, data⟩

/-! ## The operations and their logs -/

/-- `jfs_journal_flush` -/
def loggedFlush (s : Volume) : Logged JournalEvent Volume := ⟨jfsJournalFlush s, [.flush s]⟩

/-- `jfs_journal_commit` -/
def loggedCommit (s : Volume) (op : JournalOp) (ino offset size : Nat) (data : Option (List UInt8)) :
    Logged JournalEvent Volume :=
  let pushed := { s with journal := pushEntry s.journal op ino offset size data }
  let record := recordOf s op ino offset size data
  if journalSlots ≤ pushed.journal.count then ⟨jfsJournalFlush pushed, [.commit record, .flush pushed]⟩
  else ⟨pushed, [.commit record]⟩

/-- The common body of `jfs_create` and `jfs_mkdir`. -/
def loggedMakeInode (s : Volume) (type : InodeType) (op : JournalOp) (mode : Nat) :
    Logged JournalEvent (Int × Volume) :=
  match jfsAllocInode s with
  | none => pure (enospc, s)
  | some (ino, s) => do
      let committed ← loggedCommit (s.setInode ino (newInode type mode)) op ino 0 0 none
      let flushed ← loggedFlush committed
      pure (ino, flushed)

/-- The loop of `jfs_write`. -/
def loggedWriteLoop (ino offset : Nat) (data : List UInt8) (written : Nat) (s : Volume) :
    Logged JournalEvent (Volume × Nat × Bool) :=
  if written < data.length then
    let position := offset + written
    let to_write := roundSize position (data.length - written)
    let bytes := (data.drop written).take to_write
    match storeBytes s ino (blockIdx position) (blockOff position) bytes with
    | none => pure (s, written, true)
    | some s => do
        let committed ← loggedCommit s .write ino (u64 position) to_write (some bytes)
        loggedWriteLoop ino offset data (written + to_write) committed
  else pure (s, written, false)
termination_by data.length - written
decreasing_by
  have positive := roundSize_pos (offset + written) (show 0 < data.length - written by omega)
  omega

/-- The end of `jfs_write` after its loop. -/
def loggedWriteEnd (ino offset : Nat) : Volume × Nat × Bool → Logged JournalEvent (Int × Volume)
  | (s, written, true) => pure (if written ≠ 0 then written else enospc, s)
  | (s, written, false) => do
      let inode := s.inodes ino
      let s :=
        if inode.size < u64 (offset + written) then s.setInode ino { inode with size := u64 (offset + written) }
        else s
      let flushed ← loggedFlush s
      pure (written, flushed)

/-- `jfs_write` -/
def loggedWrite (s : Volume) (ino : Nat) (data : List UInt8) (offset : Nat) : Logged JournalEvent (Int × Volume) :=
  if jfsMaxInodes ≤ ino ∨ (s.inodes ino).type ≠ .file then pure (ebadf, s)
  else loggedWriteLoop ino offset data 0 s >>= loggedWriteEnd ino offset

/-- `jfs_unlink` -/
def loggedUnlink (s : Volume) (ino : Nat) : Logged JournalEvent (Int × Volume) :=
  if jfsMaxInodes ≤ ino then pure (enoent, s)
  else do
    let committed ← loggedCommit s .unlink ino 0 (s.inodes ino).size none
    let flushed ← loggedFlush (releaseInode (freeBlocks ino directBlocks committed) ino)
    pure (0, flushed)

/-- `jfs_ops_create` after `jfs_create`. -/
def loggedAddFile (dir_ino : Nat) (name : Name) (created : Int × Volume) : Logged JournalEvent (Int × Volume) :=
  if created.1 < 0 then pure created
  else
    let added := jfsDirAdd created.2 dir_ino name created.1.toNat .file
    if added.1 < 0 then do
      let unlinked ← loggedUnlink added.2 created.1.toNat
      pure (added.1, unlinked.2)
    else pure (0, added.2)

/-- `jfs_ops_create` -/
def loggedOpsCreate (s : Volume) (dir_ino : Nat) (name : Name) (mode : Nat) :
    Logged JournalEvent (Int × Volume) :=
  loggedMakeInode s .file .create mode >>= loggedAddFile dir_ino name

/-- `jfs_ops_mkdir` after `jfs_mkdir`. -/
def loggedAddDir (dir_ino : Nat) (name : Name) (created : Int × Volume) : Logged JournalEvent (Int × Volume) :=
  if created.1 < 0 then pure created else pure (jfsDirAdd created.2 dir_ino name created.1.toNat .dir)

/-- `jfs_ops_mkdir` -/
def loggedOpsMkdir (s : Volume) (dir_ino : Nat) (name : Name) (mode : Nat) :
    Logged JournalEvent (Int × Volume) :=
  loggedMakeInode s .dir .mkdir mode >>= loggedAddDir dir_ino name

/-- The part of `jfs_ops_unlink` that clears the entry of a name. -/
def clearEntry (s : Volume) (dir_ino : Nat) (name : Name) (child_ino : Nat) : Volume :=
  match findSlot s dir_ino fun buf slot => slotIno buf slot = child_ino ∧ slotNamed buf slot name with
  | some (b, slot) => patchBlock s dir_ino b (slot * direntrySize) (List.replicate direntrySize 0)
  | none => s

/-- `jfs_ops_unlink` -/
def loggedOpsUnlink (s : Volume) (dir_ino : Nat) (name : Name) : Logged JournalEvent (Int × Volume) :=
  match jfsDirLookup s dir_ino name with
  | .error r => pure (r, s)
  | .ok child_ino => loggedUnlink (clearEntry s dir_ino name child_ino) child_ino

/-- The state after an operation. -/
def JfsOp.logged (s : Volume) : JfsOp → Logged JournalEvent Volume
  | .create mode => Prod.snd <$> loggedMakeInode s .file .create mode
  | .mkdir mode => Prod.snd <$> loggedMakeInode s .dir .mkdir mode
  | .write ino data offset => Prod.snd <$> loggedWrite s ino data offset
  | .unlink ino => Prod.snd <$> loggedUnlink s ino
  | .flush => loggedFlush s
  | .opsCreate dir_ino name mode => Prod.snd <$> loggedOpsCreate s dir_ino name mode
  | .opsMkdir dir_ino name mode => Prod.snd <$> loggedOpsMkdir s dir_ino name mode
  | .opsUnlink dir_ino name => Prod.snd <$> loggedOpsUnlink s dir_ino name

/-- A run of operations. -/
def loggedRun (s : Volume) : List JfsOp → Logged JournalEvent Volume
  | [] => pure s
  | op :: ops => do
      let next ← op.logged s
      loggedRun next ops

/-! ## The log changes nothing -/

@[simp] theorem loggedFlush_value (s : Volume) : (loggedFlush s).value = jfsJournalFlush s := rfl

@[simp] theorem loggedCommit_value (s : Volume) (op : JournalOp) (ino offset size : Nat)
    (data : Option (List UInt8)) :
    (loggedCommit s op ino offset size data).value = jfsJournalCommit s op ino offset size data := by
  simp only [loggedCommit, jfsJournalCommit, Logged.value_ite]

@[simp] theorem loggedMakeInode_value (s : Volume) (type : InodeType) (op : JournalOp) (mode : Nat) :
    (loggedMakeInode s type op mode).value = makeInode s type op mode := by
  unfold loggedMakeInode makeInode
  cases jfsAllocInode s with
  | none => rfl
  | some found => simp

@[simp] theorem loggedWriteLoop_value (ino offset : Nat) (data : List UInt8) (written : Nat) (s : Volume) :
    (loggedWriteLoop ino offset data written s).value = jfsWriteLoop ino offset data written s := by
  induction written, s using jfsWriteLoop.induct ino offset data with
  | case1 written s more position to_write bytes full =>
      rw [loggedWriteLoop, jfsWriteLoop, if_pos more, if_pos more]
      simp only [position, to_write, bytes] at full
      simp [full]
  | case2 written s more position to_write bytes s' stored committed ih =>
      rw [loggedWriteLoop, jfsWriteLoop, if_pos more, if_pos more]
      simp only [position, to_write, bytes] at stored
      simp only [stored, Logged.value_bind, loggedCommit_value]
      exact ih
  | case3 written s done =>
      rw [loggedWriteLoop, jfsWriteLoop, if_neg done, if_neg done]
      rfl

@[simp] theorem loggedWrite_value (s : Volume) (ino : Nat) (data : List UInt8) (offset : Nat) :
    (loggedWrite s ino data offset).value = jfsWrite s ino data offset := by
  unfold loggedWrite jfsWrite
  split_ifs
  · rfl
  · rw [Logged.value_bind, loggedWriteLoop_value]
    cases jfsWriteLoop ino offset data 0 s with
    | mk s' result =>
        obtain ⟨written, full⟩ := result
        cases full <;> rfl

@[simp] theorem loggedUnlink_value (s : Volume) (ino : Nat) : (loggedUnlink s ino).value = jfsUnlink s ino := by
  unfold loggedUnlink jfsUnlink
  split_ifs
  · rfl
  · simp

@[simp] theorem loggedOpsCreate_value (s : Volume) (dir_ino : Nat) (name : Name) (mode : Nat) :
    (loggedOpsCreate s dir_ino name mode).value = jfsOpsCreate s dir_ino name mode := by
  rw [loggedOpsCreate, jfsOpsCreate, jfsCreate, Logged.value_bind, loggedMakeInode_value]
  generalize makeInode s .file .create mode = created
  unfold loggedAddFile
  dsimp only
  by_cases failed : created.1 < 0
  · rw [if_pos failed, if_pos failed]
    rfl
  · rw [if_neg failed, if_neg failed]
    by_cases full : (jfsDirAdd created.2 dir_ino name created.1.toNat .file).1 < 0
    · rw [if_pos full, if_pos full]
      simp
    · rw [if_neg full, if_neg full]
      rfl

@[simp] theorem loggedOpsMkdir_value (s : Volume) (dir_ino : Nat) (name : Name) (mode : Nat) :
    (loggedOpsMkdir s dir_ino name mode).value = jfsOpsMkdir s dir_ino name mode := by
  rw [loggedOpsMkdir, jfsOpsMkdir, jfsMkdir, Logged.value_bind, loggedMakeInode_value, loggedAddDir]
  generalize makeInode s .dir .mkdir mode = created
  exact Logged.value_ite _ _

@[simp] theorem loggedOpsUnlink_value (s : Volume) (dir_ino : Nat) (name : Name) :
    (loggedOpsUnlink s dir_ino name).value = jfsOpsUnlink s dir_ino name := by
  unfold loggedOpsUnlink jfsOpsUnlink
  cases jfsDirLookup s dir_ino name with
  | error r => rfl
  | ok child_ino => exact loggedUnlink_value _ _

theorem JfsOp.logged_value (s : Volume) (op : JfsOp) : (op.logged s).value = op.run s := by
  cases op <;> simp [JfsOp.logged, JfsOp.run, jfsCreate, jfsMkdir]

theorem loggedRun_value (s : Volume) (ops : List JfsOp) : (loggedRun s ops).value = Run.final JfsOp.run s ops := by
  induction ops generalizing s with
  | nil => rfl
  | cons op ops ih =>
      rw [loggedRun, Logged.value_bind, ih, op.logged_value]
      rfl

end Systrix.Jfs
