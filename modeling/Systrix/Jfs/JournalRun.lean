import Systrix.Jfs.Journal

/-!
# What a flush leaves on disk

Which of the records committed since the previous flush can be read back after
`jfs_journal_flush`, over runs of every length.
-/

namespace Systrix.Jfs

open ByteMemory Machine

/-! ## What a flush owes -/

/-- A call of `jfs_journal_flush`: the state it is called in, and the records committed since the
previous flush. -/
structure Flush where
  before : Volume
  records : List Record

/-- The records pending after some events. -/
def pendingAfter : List Record → List JournalEvent → List Record
  | pending, [] => pending
  | pending, .commit record :: events => pendingAfter (pending ++ [record]) events
  | _, .flush _ :: events => pendingAfter [] events

/-- The flushes among some events. -/
def flushes : List Record → List JournalEvent → List Flush
  | _, [] => []
  | pending, .commit record :: events => flushes (pending ++ [record]) events
  | pending, .flush before :: events => ⟨before, pending⟩ :: flushes [] events

/-- A sector holds a record, with its data if it has any. -/
structure Holds (sector : Sector) (record : Record) : Prop where
  op : (decodeEntry sector).op = record.op.code
  ino : (decodeEntry sector).ino = record.ino
  offset : (decodeEntry sector).offset = record.offset
  size : (decodeEntry sector).size = record.size
  data : ∀ bytes, record.data = some bytes → (decodeEntry sector).bytes = bytes

namespace Flush

variable (f : Flush)

/-- The state after the flush. -/
def after : Volume := jfsJournalFlush f.before

/-- The disk address of the journal sector of a record. -/
def recordLba (record : Record) : Nat := u32 (f.before.super.journal_start + record.slot)

/-- Every record committed since the previous flush can be read, no later one has taken the slot of an
earlier one, and the superblock sector holds the superblock, so that `jfs_init` accepts it. -/
structure Good : Prop where
  readable : ∀ record ∈ f.records, Holds (f.after.disk (f.recordLba record)) record
  apart : (f.records.map Record.slot).Nodup
  super : f.after.disk jfsSuperLba = encodeSuper f.after.super
  accepted : (jfsInit f.after.disk).super = f.after.super ∧ (jfsInit f.after.disk).disk = f.after.disk

/-- No record was committed at slot 0, and none with more data than a record has room for. -/
def Fits : Prop := ∀ record ∈ f.records, record.slot ≠ 0 ∧ (record.data = none ∨ record.size ≤ entryData)

end Flush

/-! ## Sectors -/

/-- The fields of a superblock have the widths they have on disk. -/
structure SuperFits (super : JfsSuper) : Prop where
  magic : super.magic < 256 ^ 8
  version : super.version < 256 ^ 4
  block_size : super.block_size < 256 ^ 4
  total_blocks : super.total_blocks < 256 ^ 8
  free_blocks : super.free_blocks < 256 ^ 8
  total_inodes : super.total_inodes < 256 ^ 8
  free_inodes : super.free_inodes < 256 ^ 8
  journal_start : super.journal_start < 256 ^ 4
  journal_blocks : super.journal_blocks < 256 ^ 4
  data_start : super.data_start < 256 ^ 4

theorem superFits_decode (buf : Sector) : SuperFits (decodeSuper buf) := by
  constructor <;> exact load_lt _ _ _

theorem SuperFits.setFreeBlocks {super : JfsSuper} (fits : SuperFits super) {n : Nat} (small : n < 2 ^ 64) :
    SuperFits (super.setFreeBlocks n) :=
  { fits with free_blocks := small }

theorem SuperFits.setFreeInodes {super : JfsSuper} (fits : SuperFits super) {n : Nat} (small : n < 2 ^ 64) :
    SuperFits (super.setFreeInodes n) :=
  { fits with free_inodes := small }

theorem superFits_fresh : SuperFits freshSuper := by
  constructor <;> decide

theorem decodeSuper_encodeSuper {super : JfsSuper} (fits : SuperFits super) :
    decodeSuper (encodeSuper super) = super := by
  obtain ⟨magic, version, block_size, total_blocks, free_blocks, total_inodes, free_inodes, journal_start,
    journal_blocks, data_start⟩ := fits
  cases super
  simp only [decodeSuper, encodeSuper, JfsSuper.mk.injEq]
  simp (disch := omega) only [load_store_of_apart, load_store_of_lt, and_self]

/-- What a journal sector says of the entry it was written from. -/
theorem decodeEntry_encodeEntry (entry : JournalEntry) :
    (decodeEntry (encodeEntry entry)).op = u32 entry.op ∧ (decodeEntry (encodeEntry entry)).ino = u32 entry.ino ∧
      (decodeEntry (encodeEntry entry)).offset = u64 entry.offset ∧
      (decodeEntry (encodeEntry entry)).size = u64 entry.size ∧
      ∀ i, i < entryData → (decodeEntry (encodeEntry entry)).data i = entry.data i := by
  refine ⟨?_, ?_, ?_, ?_, fun i inside => ?_⟩
  · simp (disch := omega) only [decodeEntry, encodeEntry, load_store_of_apart, load_store_self]
    rfl
  · simp (disch := omega) only [decodeEntry, encodeEntry, load_store_of_apart, load_store_self]
    rfl
  · simp (disch := omega) only [decodeEntry, encodeEntry, load_store_of_apart, load_store_self]
    rfl
  · simp only [decodeEntry, encodeEntry, load_store_self]
    rfl
  · have room : entryData = 480 := rfl
    simp (disch := omega) only [decodeEntry, encodeEntry, store_apply_outside]
    rw [if_pos (by omega), Nat.add_sub_cancel_left]

/-! ## The ring of records -/

/-- An entry of the ring was written for a record. -/
structure Stored (entry : JournalEntry) (record : Record) : Prop where
  op : entry.op = record.op.code
  ino : u32 entry.ino = record.ino
  offset : u64 entry.offset = record.offset
  size : u64 entry.size = record.size
  length : ∀ bytes, record.data = some bytes → bytes.length = record.size
  data : ∀ bytes, record.data = some bytes → record.size ≤ entryData → slice entry.data 0 record.size = bytes

/-- The ring holds the pending records in the order they were committed, each in the slot it was
committed at. -/
structure Journaled (s : Volume) (pending : List Record) : Prop where
  fits : SuperFits s.super
  magic : s.super.magic = jfsMagic
  journalStart : s.super.journal_start = jfsJournalStart
  count : s.journal.count = pending.length
  tail : s.journal.tail = (s.journal.head + pending.length) % journalSlots
  few : pending.length ≤ journalSlots
  slot : ∀ k (inside : k < pending.length), pending[k].slot = (s.journal.head + k) % journalSlots
  stored : ∀ record ∈ pending, Stored (s.journal.entries record.slot) record

/-- Records that are in the ring at the same time are in different slots. -/
theorem Journaled.apart {s : Volume} {pending : List Record} (inv : Journaled s pending) :
    (pending.map Record.slot).Nodup := by
  rw [List.nodup_iff_injective_getElem]
  rintro ⟨i, insideI⟩ ⟨j, insideJ⟩ same
  rw [List.length_map] at insideI insideJ
  have few := inv.few
  have capacity : journalSlots = 16 := rfl
  simp only [List.getElem_map, inv.slot i insideI, inv.slot j insideJ, capacity] at same
  refine Fin.ext (show i = j from ?_)
  omega

/-- The sector of a slot of the ring after the loop of a flush. -/
theorem flushEntries_inside (journal : JfsJournal) (start : Nat) {count k : Nat} (inside : k < count) (disk : Disk) :
    flushEntries journal start count disk (u32 (start + (journal.head + k) % journalSlots)) =
      encodeEntry (journal.entries ((journal.head + k) % journalSlots)) := by
  induction count with
  | zero => omega
  | succ i ih =>
      have small : ∀ n, n % journalSlots < 16 := fun n => Nat.mod_lt n (by decide)
      rw [flushEntries]
      by_cases same : u32 (start + (journal.head + k) % journalSlots) = u32 (start + (journal.head + i) % journalSlots)
      · have left := small (journal.head + k)
        have right := small (journal.head + i)
        have slots : (journal.head + k) % journalSlots = (journal.head + i) % journalSlots := by
          unfold u32 at same
          omega
        rw [same, ataWriteSector_self, slots]
      · rw [ataWriteSector_of_ne _ _ same]
        have other : k ≠ i := fun equal => same (by rw [equal])
        exact ih (by omega)

theorem Flush.after_super (f : Flush) : f.after.disk jfsSuperLba = encodeSuper f.before.super := by
  rw [Flush.after, jfsJournalFlush]
  dsimp only
  exact ataWriteSector_self _ _ _

section FlushLaw

variable {f : Flush} (inv : Journaled f.before f.records)

include inv

theorem Flush.accepted : (jfsInit f.after.disk).super = f.after.super ∧ (jfsInit f.after.disk).disk = f.after.disk := by
  have decoded : decodeSuper (ataReadSector f.after.disk jfsSuperLba) = f.before.super := by
    rw [ataReadSector, f.after_super, decodeSuper_encodeSuper inv.fits]
  have valid : ¬ f.before.super.magic ≠ jfsMagic := fun other => other inv.magic
  rw [jfsInit]
  simp only [decoded, if_neg valid, and_true]
  rfl

/-- What the sector of a record holds after the flush. -/
theorem Flush.recordSector {record : Record} (member : record ∈ f.records) :
    f.after.disk (f.recordLba record) =
      if record.slot = 0 then encodeSuper f.before.super
      else encodeEntry (f.before.journal.entries record.slot) := by
  obtain ⟨k, inside, rfl⟩ := List.getElem_of_mem member
  have slot := inv.slot k inside
  have small : f.records[k].slot < 16 := slot ▸ Nat.mod_lt _ (by decide)
  have address : f.recordLba f.records[k] = jfsSuperLba + f.records[k].slot := by
    have start : jfsJournalStart = 131072 := rfl
    have super : jfsSuperLba = 131072 := rfl
    rw [Flush.recordLba, inv.journalStart, u32_of_lt (by omega), start, super]
  by_cases first : f.records[k].slot = 0
  · rw [if_pos first, address, first, Nat.add_zero]
    exact f.after_super
  · have other : f.recordLba f.records[k] ≠ jfsSuperLba := by omega
    rw [if_neg first, Flush.after, jfsJournalFlush]
    dsimp only
    rw [ataWriteSector_of_ne _ _ other, Flush.recordLba, slot]
    exact flushEntries_inside _ _ (by rw [inv.count]; exact inside) _

/-- The record in the sector of its slot, when no superblock covers it. -/
theorem Flush.holds_iff {record : Record} (member : record ∈ f.records) :
    Holds (f.after.disk (f.recordLba record)) record ↔
      record.slot ≠ 0 ∧ (record.data = none ∨ record.size ≤ entryData) := by
  have stored := inv.stored record member
  rw [Flush.recordSector inv member]
  by_cases first : record.slot = 0
  · rw [if_pos first]
    refine iff_of_false (fun holds => ?_) fun fits => fits.1 first
    have op := holds.op
    have magic : (decodeEntry (encodeSuper f.before.super)).op = 0x4A465300 := by
      simp (disch := omega) only [decodeEntry, encodeSuper, load_store_of_apart]
      rw [inv.magic]
      decide
    rw [magic] at op
    cases code : record.op <;> rw [code] at op <;> exact absurd op (by decide)
  · rw [if_neg first]
    obtain ⟨op, ino, offset, size, data⟩ := decodeEntry_encodeEntry (f.before.journal.entries record.slot)
    have bytes : record.size ≤ entryData →
        (decodeEntry (encodeEntry (f.before.journal.entries record.slot))).bytes =
          slice (f.before.journal.entries record.slot).data 0 record.size := by
      intro room
      rw [JournalEntry.bytes, size, stored.size, Nat.min_eq_left room]
      refine slice_congr fun i _ inside => data i ?_
      omega
    constructor
    · intro holds
      refine ⟨first, ?_⟩
      cases given : record.data with
      | none => exact Or.inl rfl
      | some bytes =>
          have length := congrArg List.length (holds.data bytes given)
          rw [JournalEntry.bytes, length_slice, size, stored.size, stored.length bytes given] at length
          exact Or.inr (by omega)
    · rintro ⟨-, fits⟩
      refine ⟨?_, ino.trans stored.ino, offset.trans stored.offset, size.trans stored.size, fun given isData => ?_⟩
      · rw [op, stored.op]
        cases record.op <;> rfl
      · have room : record.size ≤ entryData := fits.resolve_left (by rw [isData]; exact Option.some_ne_none _)
        rw [bytes room]
        exact stored.data given isData room

/-- What a flush leaves on disk. -/
theorem Flush.good_iff : f.Good ↔ f.Fits := by
  constructor
  · intro good record member
    exact (Flush.holds_iff inv member).mp (good.readable record member)
  · intro fits
    exact ⟨fun record member => (Flush.holds_iff inv member).mpr (fits record member), inv.apart,
      f.after_super, Flush.accepted inv⟩

end FlushLaw

/-! ## Steps -/

namespace Journaled

variable {s s' : Volume} {pending : List Record}

/-- What leaves the journal and the layout alone. -/
theorem of_same (inv : Journaled s pending) (journal : s'.journal = s.journal) (fits : SuperFits s'.super)
    (magic : s'.super.magic = s.super.magic) (start : s'.super.journal_start = s.super.journal_start) :
    Journaled s' pending where
  fits := fits
  magic := magic.trans inv.magic
  journalStart := start.trans inv.journalStart
  count := by rw [journal, inv.count]
  tail := by rw [journal, inv.tail]
  few := inv.few
  slot := by rw [journal]; exact inv.slot
  stored := by rw [journal]; exact inv.stored

theorem flush (inv : Journaled s pending) : Journaled (jfsJournalFlush s) [] where
  fits := inv.fits
  magic := inv.magic
  journalStart := inv.journalStart
  count := rfl
  tail := by
    have wrapped : s.journal.tail < journalSlots := inv.tail ▸ Nat.mod_lt _ (by decide)
    exact (Nat.mod_eq_of_lt wrapped).symm
  few := Nat.zero_le _
  slot k inside := absurd inside (Nat.not_lt_zero k)
  stored _ member := absurd member List.not_mem_nil

/-- The entry `jfs_journal_commit` writes at the tail. -/
theorem stored_pushEntry (op : JournalOp) (ino offset size : Nat) {data : Option (List UInt8)}
    (whole : ∀ bytes, data = some bytes → bytes.length = size ∧ size ≤ jfsBlockSize) :
    Stored ((pushEntry s.journal op ino offset size data).entries s.journal.tail)
      (recordOf s op ino offset size data) := by
  unfold pushEntry
  dsimp only
  rw [Function.update_self]
  have exact_size : size ≤ jfsBlockSize → (recordOf s op ino offset size data).size = size := fun small =>
    u64_of_lt (Nat.lt_of_le_of_lt small (by decide))
  refine ⟨rfl, rfl, rfl, rfl, fun bytes given => ?_, fun bytes given room => ?_⟩
  · obtain ⟨length, small⟩ := whole bytes given
    rw [length, exact_size small]
  · obtain ⟨length, small⟩ := whole bytes given
    have isData : data = some bytes := given
    rw [exact_size small] at room ⊢
    have fits : size ≤ jfsBlockSize - 32 := room
    subst isData
    simp only [if_pos fits]
    apply List.ext_getElem
    · rw [length_slice, length]
    · intro i _ inside
      have taken : bytes.take size = bytes := List.take_of_length_le length.le
      have position := @patch_inside (s.journal.entries s.journal.tail).data 0 i bytes inside
      simp only [slice, List.getElem_map, List.getElem_range, taken]
      exact position

/-- A record joins the ring. -/
theorem push (inv : Journaled s pending) (room : pending.length < journalSlots) (op : JournalOp)
    (ino offset size : Nat) {data : Option (List UInt8)}
    (whole : ∀ bytes, data = some bytes → bytes.length = size ∧ size ≤ jfsBlockSize) :
    Journaled { s with journal := pushEntry s.journal op ino offset size data }
      (pending ++ [recordOf s op ino offset size data]) where
  fits := inv.fits
  magic := inv.magic
  journalStart := inv.journalStart
  count := by
    rw [List.length_append, List.length_singleton]
    exact congrArg (· + 1) inv.count
  tail := by
    show (s.journal.tail + 1) % journalSlots = _
    rw [List.length_append, List.length_singleton, inv.tail]
    exact Nat.mod_add_mod _ _ _
  few := by
    rw [List.length_append, List.length_singleton]
    exact room
  slot k inside := by
    rw [List.length_append, List.length_singleton] at inside
    rcases Nat.lt_or_ge k pending.length with earlier | last
    · rw [List.getElem_append_left earlier]
      exact inv.slot k earlier
    · have atEnd : k = pending.length := by omega
      subst atEnd
      rw [List.getElem_concat_length rfl]
      exact inv.tail
  stored record member := by
    rcases List.mem_append.mp member with earlier | last
    · have other : record.slot ≠ s.journal.tail := by
        obtain ⟨k, inside, rfl⟩ := List.getElem_of_mem earlier
        have capacity : journalSlots = 16 := rfl
        rw [inv.slot k inside, inv.tail, capacity]
        rw [capacity] at room
        omega
      have kept : (pushEntry s.journal op ino offset size data).entries record.slot = s.journal.entries record.slot :=
        Function.update_of_ne other _ _
      show Stored ((pushEntry s.journal op ino offset size data).entries record.slot) record
      rw [kept]
      exact inv.stored record earlier
    · rw [List.mem_singleton.mp last]
      exact stored_pushEntry op ino offset size whole

end Journaled

/-! ## Runs -/

theorem pendingAfter_append (pending : List Record) (events later : List JournalEvent) :
    pendingAfter pending (events ++ later) = pendingAfter (pendingAfter pending events) later := by
  induction events generalizing pending with
  | nil => rfl
  | cons event events ih => cases event <;> exact ih _

theorem flushes_append (pending : List Record) (events later : List JournalEvent) :
    flushes pending (events ++ later) = flushes pending events ++ flushes (pendingAfter pending events) later := by
  induction events generalizing pending with
  | nil => rfl
  | cons event events ih =>
      cases event with
      | commit record => exact ih _
      | flush before => exact congrArg (_ :: ·) (ih _)

/-- A computation that keeps the ring: afterwards it holds what is pending then and has room for one more,
and every flush on the way was good when its records fit. -/
structure Keeps {α : Type} (vol : α → Volume) (pending : List Record) (x : Logged JournalEvent α) : Prop where
  ring : Journaled (vol x.value) (pendingAfter pending x.log)
  room : (pendingAfter pending x.log).length < journalSlots
  law : ∀ f ∈ flushes pending x.log, f.Good ↔ f.Fits

namespace Keeps

variable {α β : Type} {pending : List Record}

theorem pure {vol : α → Volume} {a : α} (inv : Journaled (vol a) pending) (room : pending.length < journalSlots) :
    Keeps vol pending (Pure.pure a) :=
  ⟨inv, room, fun _ member => absurd member List.not_mem_nil⟩

theorem bind {vol : α → Volume} {vol' : β → Volume} {x : Logged JournalEvent α} {next : α → Logged JournalEvent β}
    (first : Keeps vol pending x) (second : Keeps vol' (pendingAfter pending x.log) (next x.value)) :
    Keeps vol' pending (x >>= next) where
  ring := by
    show Journaled (vol' (next x.value).value) (pendingAfter pending (x.log ++ (next x.value).log))
    rw [pendingAfter_append]
    exact second.ring
  room := by
    show (pendingAfter pending (x.log ++ (next x.value).log)).length < journalSlots
    rw [pendingAfter_append]
    exact second.room
  law f member := by
    have parts : f ∈ flushes pending x.log ++ flushes (pendingAfter pending x.log) (next x.value).log :=
      flushes_append pending x.log _ ▸ member
    rcases List.mem_append.mp parts with earlier | later
    · exact first.law f earlier
    · exact second.law f later

theorem map {vol : α → Volume} {vol' : β → Volume} {x : Logged JournalEvent α} (g : α → β) (first : Keeps vol pending x)
    (same : vol' (g x.value) = vol x.value) : Keeps vol' pending (g <$> x) :=
  first.bind (Keeps.pure (same ▸ first.ring) first.room)

variable {s : Volume}

theorem flush (inv : Journaled s pending) : Keeps id pending (loggedFlush s) where
  ring := inv.flush
  room := (by decide : 0 < journalSlots)
  law f member := by
    have only : f = ⟨s, pending⟩ := List.mem_singleton.mp member
    subst only
    exact Flush.good_iff inv

theorem commit (inv : Journaled s pending) (room : pending.length < journalSlots) (op : JournalOp)
    (ino offset size : Nat) {data : Option (List UInt8)}
    (whole : ∀ bytes, data = some bytes → bytes.length = size ∧ size ≤ jfsBlockSize) :
    Keeps id pending (loggedCommit s op ino offset size data) := by
  have pushed := inv.push room op ino offset size whole
  have count : (pushEntry s.journal op ino offset size data).count =
      (pending ++ [recordOf s op ino offset size data]).length := pushed.count
  unfold loggedCommit
  dsimp only
  rw [count]
  by_cases full : journalSlots ≤ (pending ++ [recordOf s op ino offset size data]).length
  · rw [if_pos full]
    refine ⟨pushed.flush, (by decide : 0 < journalSlots), fun f member => ?_⟩
    rw [List.mem_singleton.mp member]
    exact Flush.good_iff pushed
  · rw [if_neg full]
    exact ⟨pushed, Nat.lt_of_not_le full, fun _ member => absurd member List.not_mem_nil⟩

end Keeps

/-! ## Operations -/

theorem sub64_lt (left right : Nat) : sub64 left right < 2 ^ 64 := Nat.mod_lt _ (by decide)

namespace Journaled

variable {s : Volume} {pending : List Record}

theorem setInode (inv : Journaled s pending) (ino : Nat) (inode : JfsInode) :
    Journaled (s.setInode ino inode) pending :=
  inv.of_same rfl inv.fits rfl rfl

theorem withDisk (inv : Journaled s pending) (disk : Disk) : Journaled { s with disk := disk } pending :=
  inv.of_same rfl inv.fits rfl rfl

theorem setFreeInodes (inv : Journaled s pending) {n : Nat} (small : n < 2 ^ 64) :
    Journaled { s with super := s.super.setFreeInodes n } pending :=
  inv.of_same rfl (inv.fits.setFreeInodes small) rfl rfl

/-- Another bitmap, superblock and disk. -/
theorem withSuper (inv : Journaled s pending) (bitmap : Nat → Bool) (disk : Disk) {n : Nat} (small : n < 2 ^ 64) :
    Journaled { s with bitmap := bitmap, super := s.super.setFreeBlocks n, disk := disk } pending :=
  inv.of_same rfl (inv.fits.setFreeBlocks small) rfl rfl

theorem claimBlock (inv : Journaled s pending) (i : Nat) : Journaled (claimBlock s i) pending :=
  inv.withSuper _ _ (sub64_lt _ _)

theorem freeBlock (inv : Journaled s pending) (block : Nat) : Journaled (jfsFreeBlock s block) pending := by
  unfold jfsFreeBlock
  split_ifs
  · exact inv
  · exact inv.withSuper _ _ (u64_lt _)
  · exact inv

theorem freeBlocks (inv : Journaled s pending) (ino count : Nat) : Journaled (freeBlocks ino count s) pending := by
  induction count with
  | zero => exact inv
  | succ i ih =>
      rw [Jfs.freeBlocks]
      split_ifs
      · exact (ih.freeBlock _).setInode _ _
      · exact ih

theorem releaseInode (inv : Journaled s pending) (ino : Nat) : Journaled (releaseInode s ino) pending :=
  (inv.setInode ino _).setFreeInodes (u64_lt _)

theorem assignBlock (inv : Journaled s pending) (ino b blk : Nat) : Journaled (s.assignBlock ino b blk) pending :=
  inv.setInode ino _

theorem dirAdd (inv : Journaled s pending) (dir_ino : Nat) (name : Name) (child_ino : Nat) (type : InodeType) :
    Journaled (jfsDirAdd s dir_ino name child_ino type).2 pending := by
  unfold jfsDirAdd
  split_ifs
  · exact inv
  · cases (findSlot s dir_ino fun buf slot => slotIno buf slot = 0) with
    | some found => exact (inv.withDisk _).setInode _ _
    | none =>
        cases (List.range directBlocks).find? fun b => (s.inodes dir_ino).block_ptrs b = 0 with
        | none => exact inv
        | some b =>
            simp only [jfsAllocBlock]
            cases firstFree s.bitmap with
            | none => exact inv
            | some blk => exact (((inv.claimBlock blk).assignBlock dir_ino b blk).withDisk _).setInode _ _

theorem clearEntry (inv : Journaled s pending) (dir_ino : Nat) (name : Name) (child_ino : Nat) :
    Journaled (clearEntry s dir_ino name child_ino) pending := by
  unfold Jfs.clearEntry
  cases findSlot s dir_ino fun buf slot => slotIno buf slot = child_ino ∧ slotNamed buf slot name with
  | none => exact inv
  | some found => exact inv.withDisk _

theorem storeBytes {s' : Volume} (inv : Journaled s pending) {ino block_idx block_off : Nat} {bytes : List UInt8}
    (stored : storeBytes s ino block_idx block_off bytes = some s') : Journaled s' pending := by
  unfold Jfs.storeBytes at stored
  by_cases direct : block_idx < directBlocks
  · rw [if_pos direct] at stored
    obtain ⟨ensured, found, rfl⟩ := Option.map_eq_some_iff.mp stored
    refine Journaled.withDisk ?_ _
    unfold ensureBlock at found
    split_ifs at found
    · obtain ⟨claimed, allocated, rfl⟩ := Option.map_eq_some_iff.mp found
      obtain ⟨i, -, rfl⟩ := Option.map_eq_some_iff.mp allocated
      exact (inv.claimBlock i).assignBlock _ _ _
    · cases found
      exact inv
  · rw [if_neg direct] at stored
    cases stored
    exact inv

end Journaled

namespace Keeps

variable {s : Volume} {pending : List Record}

/-- A record without data. -/
theorem commitNone (inv : Journaled s pending) (room : pending.length < journalSlots) (op : JournalOp)
    (ino offset size : Nat) : Keeps id pending (loggedCommit s op ino offset size none) :=
  commit inv room op ino offset size fun _ given => nomatch given

theorem makeInode (inv : Journaled s pending) (room : pending.length < journalSlots) (type : InodeType)
    (op : JournalOp) (mode : Nat) : Keeps Prod.snd pending (loggedMakeInode s type op mode) := by
  unfold loggedMakeInode
  cases found : jfsAllocInode s with
  | none => exact Keeps.pure inv room
  | some result =>
      obtain ⟨ino, s'⟩ := result
      have counted : Journaled s' pending := by
        obtain ⟨i, -, same⟩ := Option.map_eq_some_iff.mp found
        cases same
        exact inv.setFreeInodes (sub64_lt _ _)
      have committed := commitNone (counted.setInode ino (newInode type mode)) room op ino 0 0
      have flushed := flush committed.ring
      exact committed.bind (flushed.bind (Keeps.pure flushed.ring flushed.room))

theorem unlink (inv : Journaled s pending) (room : pending.length < journalSlots) (ino : Nat) :
    Keeps Prod.snd pending (loggedUnlink s ino) := by
  unfold loggedUnlink
  split_ifs
  · exact Keeps.pure inv room
  · have committed := commitNone inv room .unlink ino 0 (s.inodes ino).size
    have flushed := flush ((committed.ring.freeBlocks ino directBlocks).releaseInode ino)
    exact committed.bind (flushed.bind (Keeps.pure flushed.ring flushed.room))

theorem writeLoop (inv : Journaled s pending) (room : pending.length < journalSlots) (ino offset : Nat)
    (data : List UInt8) (written : Nat) : Keeps Prod.fst pending (loggedWriteLoop ino offset data written s) := by
  revert pending
  induction written, s using jfsWriteLoop.induct ino offset data with
  | case1 written s more position to_write bytes =>
      rename_i full
      intro pending inv room
      rw [loggedWriteLoop, if_pos more]
      simp only [position, to_write, bytes] at full
      simp only [full]
      exact Keeps.pure inv room
  | case2 written s more position to_write bytes s' stored committed =>
      rename_i ih
      intro pending inv room
      rw [loggedWriteLoop, if_pos more]
      simp only [position, to_write, bytes] at stored
      simp only [stored]
      have fits : to_write ≤ data.length - written := Nat.min_le_right _ _
      have small : to_write ≤ jfsBlockSize := (Nat.min_le_left _ _).trans (Nat.sub_le _ _)
      have length : ((data.drop written).take to_write).length = to_write := by
        rw [List.length_take, List.length_drop]
        omega
      have first := commit (inv.storeBytes stored) room .write ino (u64 position) to_write
        fun bytes given => by rw [← Option.some.inj given]; exact ⟨length, small⟩
      refine first.bind ?_
      rw [loggedCommit_value]
      refine ih ?_ first.room
      have ring := first.ring
      rwa [loggedCommit_value] at ring
  | case3 written s done =>
      intro pending inv room
      rw [loggedWriteLoop, if_neg done]
      exact Keeps.pure inv room

theorem writeEnd (result : Volume × Nat × Bool) (inv : Journaled result.1 pending)
    (room : pending.length < journalSlots) (ino offset : Nat) :
    Keeps Prod.snd pending (loggedWriteEnd ino offset result) := by
  obtain ⟨s, written, full⟩ := result
  cases full with
  | true => exact Keeps.pure inv room
  | false =>
      have grown : Journaled
          (if (s.inodes ino).size < u64 (offset + written) then
            s.setInode ino { s.inodes ino with size := u64 (offset + written) }
          else s) pending := by
        split_ifs
        · exact Journaled.setInode inv _ _
        · exact inv
      have flushed := flush grown
      exact flushed.bind (Keeps.pure flushed.ring flushed.room)

theorem write (inv : Journaled s pending) (room : pending.length < journalSlots) (ino : Nat) (data : List UInt8)
    (offset : Nat) : Keeps Prod.snd pending (loggedWrite s ino data offset) := by
  unfold loggedWrite
  split_ifs
  · exact Keeps.pure inv room
  · have looped := writeLoop inv room ino offset data 0
    exact looped.bind (writeEnd _ looped.ring looped.room ino offset)

theorem opsCreate (inv : Journaled s pending) (room : pending.length < journalSlots) (dir_ino : Nat) (name : Name)
    (mode : Nat) : Keeps Prod.snd pending (loggedOpsCreate s dir_ino name mode) := by
  have created := makeInode inv room .file .create mode
  refine created.bind ?_
  have added := created.ring.dirAdd dir_ino name (loggedMakeInode s .file .create mode).value.1.toNat .file
  unfold loggedAddFile
  dsimp only
  split_ifs
  · exact Keeps.pure created.ring created.room
  · have unlinked := unlink added created.room (loggedMakeInode s .file .create mode).value.1.toNat
    exact unlinked.bind (Keeps.pure unlinked.ring unlinked.room)
  · exact Keeps.pure added created.room

theorem opsMkdir (inv : Journaled s pending) (room : pending.length < journalSlots) (dir_ino : Nat) (name : Name)
    (mode : Nat) : Keeps Prod.snd pending (loggedOpsMkdir s dir_ino name mode) := by
  have created := makeInode inv room .dir .mkdir mode
  refine created.bind ?_
  unfold loggedAddDir
  split_ifs
  · exact Keeps.pure created.ring created.room
  · exact Keeps.pure (created.ring.dirAdd dir_ino name _ .dir) created.room

theorem opsUnlink (inv : Journaled s pending) (room : pending.length < journalSlots) (dir_ino : Nat) (name : Name) :
    Keeps Prod.snd pending (loggedOpsUnlink s dir_ino name) := by
  unfold loggedOpsUnlink
  cases jfsDirLookup s dir_ino name with
  | error r => exact Keeps.pure inv room
  | ok child_ino => exact unlink (inv.clearEntry dir_ino name child_ino) room child_ino

/-- Every operation keeps the ring, and its flushes are good when their records fit. -/
theorem op (inv : Journaled s pending) (room : pending.length < journalSlots) (op : JfsOp) :
    Keeps id pending (op.logged s) := by
  cases op with
  | create mode => exact (makeInode inv room .file .create mode).map Prod.snd rfl
  | mkdir mode => exact (makeInode inv room .dir .mkdir mode).map Prod.snd rfl
  | write ino data offset => exact (write inv room ino data offset).map Prod.snd rfl
  | unlink ino => exact (unlink inv room ino).map Prod.snd rfl
  | flush => exact flush inv
  | opsCreate dir_ino name mode => exact (opsCreate inv room dir_ino name mode).map Prod.snd rfl
  | opsMkdir dir_ino name mode => exact (opsMkdir inv room dir_ino name mode).map Prod.snd rfl
  | opsUnlink dir_ino name => exact (opsUnlink inv room dir_ino name).map Prod.snd rfl

theorem run (inv : Journaled s pending) (room : pending.length < journalSlots) (ops : List JfsOp) :
    Keeps id pending (loggedRun s ops) := by
  induction ops generalizing s pending with
  | nil => exact Keeps.pure inv room
  | cons op ops ih =>
      have first := Keeps.op inv room op
      exact first.bind (ih first.ring first.room)

end Keeps

/-- A disk `jfs_init` can have left: it has no superblock, or one with the layout of the format. -/
def Formatted (disk : Disk) : Prop :=
  (decodeSuper (ataReadSector disk jfsSuperLba)).magic = jfsMagic →
    (decodeSuper (ataReadSector disk jfsSuperLba)).journal_start = jfsJournalStart

theorem Journaled.init {disk : Disk} (formatted : Formatted disk) : Journaled (jfsInit disk) [] := by
  unfold jfsInit
  dsimp only
  split_ifs with blank
  · exact ⟨superFits_fresh, rfl, rfl, rfl, rfl, Nat.zero_le _, fun k inside => absurd inside (Nat.not_lt_zero k),
      fun _ member => absurd member List.not_mem_nil⟩
  · have magic := not_not.mp blank
    exact ⟨superFits_decode _, magic, formatted magic, rfl, rfl, Nat.zero_le _,
      fun k inside => absurd inside (Nat.not_lt_zero k), fun _ member => absurd member List.not_mem_nil⟩

/-- The slots of the records of the flushes of a run. -/
def flushedSlots (s : Volume) (ops : List JfsOp) : List (List Nat) :=
  (flushes [] (loggedRun s ops).log).map fun f => f.records.map Record.slot

/-- In every run a flush leaves all records committed since the previous one on disk, and the superblock in
its sector, exactly when none of them was committed at slot 0 and none has more data than fits a record. -/
theorem journal_flush_iff {disk : Disk} (formatted : Formatted disk) (ops : List JfsOp) :
    ∀ f ∈ flushes [] (loggedRun (jfsInit disk) ops).log, f.Good ↔ f.Fits :=
  (Keeps.run (.init formatted) (by decide) ops).law

theorem journal_flush_iff_create :
    ∃ f, f ∈ flushes [] (loggedRun (jfsInit fun _ _ => 0) [.create 0]).log ∧ (f.Good ↔ f.Fits) := by
  have slots : flushedSlots (jfsInit fun _ _ => 0) [.create 0] = [[0]] := by decide
  obtain ⟨f, member, -⟩ := List.mem_map.mp (slots ▸ List.mem_singleton_self [0])
  exact ⟨f, member, journal_flush_iff (fun magic => absurd magic (by decide)) _ f member⟩

/-- The first record of all is lost: it is written to the sector of the superblock. -/
theorem create_record_lost : ¬ ∀ disk ops, Formatted disk →
    ∀ f ∈ flushes [] (loggedRun (jfsInit disk) ops).log, f.Good := by
  intro every
  have blank : Formatted fun _ _ => 0 := fun magic => absurd magic (by decide)
  have slots : flushedSlots (jfsInit fun _ _ => 0) [.create 0] = [[0]] := by decide
  obtain ⟨f, member, zero⟩ := List.mem_map.mp (slots ▸ List.mem_singleton_self [0])
  have good := every _ _ blank f member
  have fits := ((Keeps.run (.init blank) (by decide) _).law f member).mp good
  obtain ⟨record, isRecord, slot⟩ := List.mem_map.mp (zero ▸ List.mem_singleton_self 0)
  exact (fits record isRecord).1 slot

end Systrix.Jfs
