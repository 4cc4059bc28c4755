import Systrix.Kernel.Layout

/-!
# JFS

The journalled file system of `kernel/jfs.c`: inodes with twelve direct block
numbers and an allocation bitmap in memory, file and directory data, journal and
superblock on disk.
-/

namespace Systrix.Jfs

open ByteMemory Machine

def jfsMagic : Nat := 0x4A465300

def jfsMaxInodes : Nat := 256

def jfsMaxBlocks : Nat := 1024

def jfsBlockSize : Nat := 512

def jfsJournalStart : Nat := 131072

def jfsDataStart : Nat := 132096

def jfsSuperLba : Nat := 131072

/-- Entries of `block_ptrs`. -/
def directBlocks : Nat := 12

/-- Entries of the journal ring. -/
def journalSlots : Nat := 16

/-- `JFS_IT_*` -/
inductive InodeType where
  | free
  | file
  | dir
  deriving DecidableEq, Repr

/-- `JFS_OP_*` -/
inductive JournalOp where
  | write
  | unlink
  | mkdir
  | create
  deriving DecidableEq, Repr

/-- The number of a journal operation on disk. -/
def JournalOp.code : JournalOp → Nat
  | .write => 1
  | .unlink => 2
  | .mkdir => 3
  | .create => 4

/-- `jfs_super_t` -/
structure JfsSuper where
  magic : Nat
  version : Nat
  block_size : Nat
  total_blocks : Nat
  free_blocks : Nat
  total_inodes : Nat
  free_inodes : Nat
  journal_start : Nat
  journal_blocks : Nat
  data_start : Nat
  deriving DecidableEq, Repr

/-- `jfs_inode_t` -/
structure JfsInode where
  mode : Nat
  type : InodeType
  uid : Nat
  gid : Nat
  size : Nat
  blocks : Nat
  block_ptrs : Nat → Nat

/-- An inode of zero bytes. -/
def JfsInode.zero : JfsInode := ⟨0, .free, 0, 0, 0, 0, fun _ => 0⟩

/-- `jfs_journal_entry_t` -/
structure JournalEntry where
  op : Nat
  ino : Nat
  offset : Nat
  size : Nat
  data : Sector

/-- `jfs_journal_t` -/
structure JfsJournal where
  head : Nat
  tail : Nat
  count : Nat
  entries : Nat → JournalEntry

/-- The static state of `jfs.c` and the disk. -/
structure Volume where
  disk : Disk
  super : JfsSuper
  inodes : Nat → JfsInode
  journal : JfsJournal
  /-- `jfs_block_bitmap`, a bit for each block. -/
  bitmap : Nat → Bool

/-! ## Disk layout -/

/-- Bytes of a superblock sector. -/
def encodeSuper (super : JfsSuper) : Sector :=
  let buf : Sector := fun _ => 0
  let buf := store buf 0 8 super.magic
  let buf := store buf 8 4 super.version
  let buf := store buf 12 4 super.block_size
  let buf := store buf 16 8 super.total_blocks
  let buf := store buf 24 8 super.free_blocks
  let buf := store buf 32 8 super.total_inodes
  let buf := store buf 40 8 super.free_inodes
  let buf := store buf 48 4 super.journal_start
  let buf := store buf 52 4 super.journal_blocks
  store buf 56 4 super.data_start

/-- The superblock a sector holds. -/
def decodeSuper (buf : Sector) : JfsSuper where
  magic := load buf 0 8
  version := load buf 8 4
  block_size := load buf 12 4
  total_blocks := load buf 16 8
  free_blocks := load buf 24 8
  total_inodes := load buf 32 8
  free_inodes := load buf 40 8
  journal_start := load buf 48 4
  journal_blocks := load buf 52 4
  data_start := load buf 56 4

/-- Bytes of a journal sector. -/
def encodeEntry (entry : JournalEntry) : Sector :=
  let buf : Sector := fun i => if 24 ≤ i ∧ i < 504 then entry.data (i - 24) else 0
  let buf := store buf 0 4 entry.op
  let buf := store buf 4 4 entry.ino
  let buf := store buf 8 8 entry.offset
  store buf 16 8 entry.size

/-! ## Format -/

/-- The superblock `jfs_init` formats with. -/
def freshSuper : JfsSuper where
  magic := jfsMagic
  version := 1
  block_size := jfsBlockSize
  total_blocks := 65536
  free_blocks := 65000
  total_inodes := jfsMaxInodes
  free_inodes := jfsMaxInodes - 1
  journal_start := jfsJournalStart
  journal_blocks := 1024
  data_start := jfsDataStart

/-- Inode tables after `jfs_init`: the root directory only. -/
def freshInodes : Nat → JfsInode :=
  Function.update (fun _ => JfsInode.zero) 0 { JfsInode.zero with type := .dir, mode := 0o755 }

/-- An empty journal. -/
def freshJournal : JfsJournal := ⟨0, 0, 0, fun _ => ⟨0, 0, 0, 0, fun _ => 0⟩⟩

def jfsInit (disk : Disk) : Volume :=
  let super := decodeSuper (ataReadSector disk jfsSuperLba)
  if super.magic ≠ jfsMagic then
    ⟨ataWriteSector disk jfsSuperLba (encodeSuper freshSuper), freshSuper, freshInodes, freshJournal,
      fun _ => false⟩
  else ⟨disk, super, freshInodes, freshJournal, fun _ => false⟩

/-! ## Allocation -/

/-- Assignment to `free_blocks`. -/
def JfsSuper.setFreeBlocks (super : JfsSuper) (n : Nat) : JfsSuper := { super with free_blocks := n }

/-- Assignment to `free_inodes`. -/
def JfsSuper.setFreeInodes (super : JfsSuper) (n : Nat) : JfsSuper := { super with free_inodes := n }

section SetFree

variable (super : JfsSuper) (n : Nat)

@[simp] theorem setFreeBlocks_data_start : (super.setFreeBlocks n).data_start = super.data_start := rfl

@[simp] theorem setFreeBlocks_journal_start :
    (super.setFreeBlocks n).journal_start = super.journal_start := rfl

@[simp] theorem setFreeInodes_data_start : (super.setFreeInodes n).data_start = super.data_start := rfl

@[simp] theorem setFreeInodes_journal_start :
    (super.setFreeInodes n).journal_start = super.journal_start := rfl

end SetFree

/-- The block number of an allocation, `none` for `(u32)-1`. -/
def firstFree (bitmap : Nat → Bool) : Option Nat :=
  (List.range jfsMaxBlocks).find? fun i => !bitmap i

/-- Disk address of a block. -/
def dataLba (s : Volume) (block : Nat) : Nat := u32 (s.super.data_start + block)

theorem dataLba_congr {s s' : Volume} (same : s'.super.data_start = s.super.data_start)
    (block : Nat) : dataLba s' block = dataLba s block := by
  rw [dataLba, dataLba, same]

/-- Mark a free block used and zero it on disk. -/
def claimBlock (s : Volume) (i : Nat) : Volume :=
  { s with bitmap := Function.update s.bitmap i true
           super := s.super.setFreeBlocks (sub64 s.super.free_blocks 1)
           disk := ataWriteSector s.disk (dataLba s i) fun _ => 0 }

theorem claimBlock_super (s : Volume) (i : Nat) :
    (claimBlock s i).super = s.super.setFreeBlocks (sub64 s.super.free_blocks 1) := rfl

def jfsAllocBlock (s : Volume) : Option (Nat × Volume) :=
  (firstFree s.bitmap).map fun i => (i, claimBlock s i)

def jfsFreeBlock (s : Volume) (block : Nat) : Volume :=
  if jfsMaxBlocks ≤ block then s
  else if s.bitmap block then
    { s with bitmap := Function.update s.bitmap block false
             super := s.super.setFreeBlocks (u64 (s.super.free_blocks + 1)) }
  else s

def jfsAllocInode (s : Volume) : Option (Nat × Volume) :=
  ((List.range jfsMaxInodes).find? fun i => 1 ≤ i ∧ (s.inodes i).type = .free).map fun i =>
    (i, { s with super := s.super.setFreeInodes (sub64 s.super.free_inodes 1) })

/-! ## Journal -/

/-- The loop of `jfs_journal_flush`. -/
def flushEntries (journal : JfsJournal) (start : Nat) : (count : Nat) → Disk → Disk
  | 0, disk => disk
  | i + 1, disk =>
      let idx := (journal.head + i) % journalSlots
      ataWriteSector (flushEntries journal start i disk) (u32 (start + idx))
        (encodeEntry (journal.entries idx))

def jfsJournalFlush (s : Volume) : Volume :=
  let disk := flushEntries s.journal s.super.journal_start s.journal.count s.disk
  { s with disk := ataWriteSector disk jfsSuperLba (encodeSuper s.super)
           journal := { s.journal with head := s.journal.tail, count := 0 } }

/-- The journal with an entry added at its tail; `data` is `none` for a null pointer. -/
def pushEntry (journal : JfsJournal) (op : JournalOp) (ino offset size : Nat)
    (data : Option (List UInt8)) : JfsJournal :=
  let old := (journal.entries journal.tail).data
  let bytes := match data with
    | some data => if size ≤ jfsBlockSize - 32 then patch old 0 (data.take size) else old
    | none => old
  { journal with
    entries := Function.update journal.entries journal.tail ⟨op.code, ino, offset, size, bytes⟩
    tail := (journal.tail + 1) % journalSlots
    count := journal.count + 1 }

def jfsJournalCommit (s : Volume) (op : JournalOp) (ino offset size : Nat)
    (data : Option (List UInt8)) : Volume :=
  let s := { s with journal := pushEntry s.journal op ino offset size data }
  if journalSlots ≤ s.journal.count then jfsJournalFlush s else s

/-! ## Files -/

/-- Replace an inode. -/
def Volume.setInode (s : Volume) (ino : Nat) (inode : JfsInode) : Volume :=
  { s with inodes := Function.update s.inodes ino inode }

@[simp] theorem setInode_inodes_self (s : Volume) (ino : Nat) (inode : JfsInode) :
    (s.setInode ino inode).inodes ino = inode := Function.update_self _ _ _

@[simp] theorem setInode_super (s : Volume) (ino : Nat) (inode : JfsInode) :
    (s.setInode ino inode).super = s.super := rfl

theorem setInode_inodes_of_ne (s : Volume) {ino other : Nat} (inode : JfsInode)
    (ne : other ≠ ino) : (s.setInode ino inode).inodes other = s.inodes other :=
  Function.update_of_ne ne _ _

/-- The inode `jfs_create` and `jfs_mkdir` fill in. -/
def newInode (type : InodeType) (mode : Nat) : JfsInode := ⟨mode, type, 0, 0, 0, 0, fun _ => 0⟩

/-- The common body of `jfs_create` and `jfs_mkdir`. -/
def makeInode (s : Volume) (type : InodeType) (op : JournalOp) (mode : Nat) : Int × Volume :=
  match jfsAllocInode s with
  | none => (enospc, s)
  | some (ino, s) =>
      let s := s.setInode ino (newInode type mode)
      (ino, jfsJournalFlush (jfsJournalCommit s op ino 0 0 none))

def jfsCreate (s : Volume) (mode : Nat) : Int × Volume := makeInode s .file .create mode

def jfsMkdir (s : Volume) (mode : Nat) : Int × Volume := makeInode s .dir .mkdir mode

/-- Record a block in an inode. -/
def Volume.assignBlock (s : Volume) (ino b blk : Nat) : Volume :=
  let inode := s.inodes ino
  s.setInode ino { inode with block_ptrs := Function.update inode.block_ptrs b blk
                              blocks := inode.blocks + 1 }

/-- Make sure that a direct block of an inode is allocated. -/
def ensureBlock (s : Volume) (ino block_idx : Nat) : Option Volume :=
  if (s.inodes ino).block_ptrs block_idx = 0 then
    (jfsAllocBlock s).map fun (blk, s) => s.assignBlock ino block_idx blk
  else some s

/-- The part of a round of `jfs_write` that stores bytes. -/
def storeBytes (s : Volume) (ino block_idx block_off : Nat) (bytes : List UInt8) : Option Volume :=
  if block_idx < directBlocks then
    (ensureBlock s ino block_idx).map fun s =>
      let lba := dataLba s ((s.inodes ino).block_ptrs block_idx)
      let buf : Sector :=
        if block_off = 0 ∧ bytes.length = jfsBlockSize then fun _ => 0 else ataReadSector s.disk lba
      { s with disk := ataWriteSector s.disk lba (patch buf block_off bytes) }
  else some s

/-- Index of the block of a byte position. -/
def blockIdx (position : Nat) : Nat := u32 (u64 position / jfsBlockSize)

/-- Offset of a byte position in its block. -/
def blockOff (position : Nat) : Nat := u64 position % jfsBlockSize

/-- Bytes a round of `jfs_write` or `jfs_read` transfers at a position when `left`
are left. -/
def roundSize (position left : Nat) : Nat := min (jfsBlockSize - blockOff position) left

theorem blockOff_lt (position : Nat) : blockOff position < jfsBlockSize :=
  Nat.mod_lt _ (by decide)

theorem roundSize_pos (position : Nat) {left : Nat} (more : 0 < left) : 0 < roundSize position left := by
  have inside := blockOff_lt position
  unfold roundSize
  omega

/-- The loop of `jfs_write`: the state, the bytes written and whether the disk is
full. -/
def jfsWriteLoop (ino offset : Nat) (data : List UInt8) (written : Nat) (s : Volume) :
    Volume × Nat × Bool :=
  if written < data.length then
    let position := offset + written
    let to_write := roundSize position (data.length - written)
    let bytes := (data.drop written).take to_write
    match storeBytes s ino (blockIdx position) (blockOff position) bytes with
    | none => (s, written, true)
    | some s =>
        let s := jfsJournalCommit s .write ino (u64 position) to_write (some bytes)
        jfsWriteLoop ino offset data (written + to_write) s
  else (s, written, false)
termination_by data.length - written
decreasing_by
  have positive := roundSize_pos (offset + written) (show 0 < data.length - written by omega)
  omega

def jfsWrite (s : Volume) (ino : Nat) (data : List UInt8) (offset : Nat) : Int × Volume :=
  if jfsMaxInodes ≤ ino ∨ (s.inodes ino).type ≠ .file then (ebadf, s)
  else
    match jfsWriteLoop ino offset data 0 s with
    | (s, written, true) => (if written ≠ 0 then written else enospc, s)
    | (s, written, false) =>
        let inode := s.inodes ino
        let s :=
          if inode.size < u64 (offset + written) then
            s.setInode ino { inode with size := u64 (offset + written) }
          else s
        (written, jfsJournalFlush s)

/-- A byte of a file: what its block holds, zero where it has no block. -/
def fileByte (s : Volume) (ino position : Nat) : UInt8 :=
  let inode := s.inodes ino
  let block_idx := blockIdx position
  if block_idx < directBlocks ∧ inode.block_ptrs block_idx ≠ 0 then
    ataReadSector s.disk (dataLba s (inode.block_ptrs block_idx)) (blockOff position)
  else 0

/-- A round of `jfs_read`: `to_read` bytes of one block. -/
def readRound (s : Volume) (ino position to_read : Nat) : List UInt8 :=
  let inode := s.inodes ino
  let block_idx := blockIdx position
  if block_idx < directBlocks ∧ inode.block_ptrs block_idx ≠ 0 then
    let buf := ataReadSector s.disk (dataLba s (inode.block_ptrs block_idx))
    (List.range to_read).map fun i => buf (blockOff position + i)
  else List.replicate to_read 0

/-- The loop of `jfs_read`. -/
def jfsReadLoop (s : Volume) (ino offset count total : Nat) : List UInt8 :=
  if total < count then
    let to_read := roundSize (offset + total) (count - total)
    readRound s ino (offset + total) to_read ++ jfsReadLoop s ino offset count (total + to_read)
  else []
termination_by count - total
decreasing_by
  have positive := roundSize_pos (offset + total) (show 0 < count - total by omega)
  omega

/-- `jfs_read`: the result and the bytes put into the buffer. -/
def jfsRead (s : Volume) (ino count offset : Nat) : Int × List UInt8 :=
  if jfsMaxInodes ≤ ino ∨ (s.inodes ino).type ≠ .file then (ebadf, [])
  else
    let size := (s.inodes ino).size
    if size ≤ offset then (0, [])
    else
      let count := if size < u64 (offset + count) then size - offset else count
      (count, jfsReadLoop s ino offset count 0)

/-- The loop of `jfs_unlink` over the direct blocks. -/
def freeBlocks (ino : Nat) : (count : Nat) → Volume → Volume
  | 0, s => s
  | i + 1, s =>
      let s := freeBlocks ino i s
      let inode := s.inodes ino
      if inode.block_ptrs i ≠ 0 then
        (jfsFreeBlock s (inode.block_ptrs i)).setInode ino
          { inode with block_ptrs := Function.update inode.block_ptrs i 0 }
      else s

/-- The assignments of `jfs_unlink` that give an inode back. -/
def releaseInode (s : Volume) (ino : Nat) : Volume :=
  let s := s.setInode ino { s.inodes ino with type := .free, size := 0, blocks := 0 }
  { s with super := s.super.setFreeInodes (u64 (s.super.free_inodes + 1)) }

def jfsUnlink (s : Volume) (ino : Nat) : Int × Volume :=
  if jfsMaxInodes ≤ ino then (enoent, s)
  else
    let s := jfsJournalCommit s .unlink ino 0 (s.inodes ino).size none
    (0, jfsJournalFlush (releaseInode (freeBlocks ino directBlocks s) ino))

end Systrix.Jfs
