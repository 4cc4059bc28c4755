import Systrix.Jfs.Directory
import Systrix.Lib.Run

/-!
# Names in JFS

What directories promise: an inode in use has one entry, entries of a directory
differ in their names, and a lookup answers what the operations did.  Block
number 0 means that no block is there, and it is the first block a fresh file
system hands out, so that the first entry is lost.
-/

namespace Systrix.Jfs

open ByteMemory Machine

/-! ## The promise -/

/-- Place of a directory entry. -/
structure Entry where
  dir : Nat
  b : Nat
  slot : Nat

/-- `de.ino` of an entry. -/
def Entry.ino (s : Volume) (e : Entry) : Nat := slotIno (blockOf s e.dir e.b) e.slot

/-- Bytes of the name of an entry. -/
def Entry.name (s : Volume) (e : Entry) (i : Nat) : UInt8 := blockOf s e.dir e.b (e.slot * direntrySize + i)

/-- The entry is in use. -/
structure Entry.Holds (s : Volume) (e : Entry) : Prop where
  dir : e.dir < jfsMaxInodes
  isDir : (s.inodes e.dir).type = .dir
  b : e.b < directBlocks
  block : (s.inodes e.dir).block_ptrs e.b ≠ 0
  slot : e.slot < slots
  used : e.ino s ≠ 0

/-- Inodes in use have one entry, and names are not used twice. -/
structure Named (s : Volume) : Prop where
  referenced : ∀ ino, ino ≠ 0 → ino < jfsMaxInodes → (s.inodes ino).type ≠ .free →
    ∃! e : Entry, e.Holds s ∧ e.ino s = ino
  distinct : ∀ e e' : Entry, e.Holds s → e'.Holds s → e.dir = e'.dir →
    sameName (e.name s) (e'.name s) 63 = true → e = e'

/-- Operations on directories; `rmdir` is `unlink`. -/
inductive NameOp where
  | create (dir_ino : Nat) (name : Name) (mode : Nat)
  | mkdir (dir_ino : Nat) (name : Name) (mode : Nat)
  | unlink (dir_ino : Nat) (name : Name)
  | rmdir (dir_ino : Nat) (name : Name)

/-- Result and state after an operation. -/
def NameOp.run (s : Volume) : NameOp → Int × Volume
  | .create dir_ino name mode => jfsOpsCreate s dir_ino name mode
  | .mkdir dir_ino name mode => jfsOpsMkdir s dir_ino name mode
  | .unlink dir_ino name => jfsOpsUnlink s dir_ino name
  | .rmdir dir_ino name => jfsOpsUnlink s dir_ino name

/-- The state after an operation. -/
def NameOp.next (s : Volume) (op : NameOp) : Volume := (op.run s).2

/-- A lookup after an operation that succeeds finds the inode made, and no name removed. -/
def NameOp.Answers (s : Volume) (op : NameOp) : Prop :=
  (op.run s).1 = 0 → match op with
  | .create dir_ino name mode => jfsDirLookup (op.next s) dir_ino name = .ok (jfsCreate s mode).1.toNat
  | .mkdir dir_ino name mode => jfsDirLookup (op.next s) dir_ino name = .ok (jfsMkdir s mode).1.toNat
  | .unlink dir_ino name => ∀ ino, jfsDirLookup (op.next s) dir_ino name ≠ .ok ino
  | .rmdir dir_ino name => ∀ ino, jfsDirLookup (op.next s) dir_ino name ≠ .ok ino

/-- The promise for one operation. -/
def NameOp.Sound (s : Volume) (op : NameOp) : Prop := Named (op.next s) ∧ op.Answers s

/-- Nothing is made: no directory, and no file in the root. -/
def NameOp.MakesNothing : NameOp → Prop
  | .create dir_ino _ _ => dir_ino ≠ 0
  | .mkdir _ _ _ => False
  | .unlink _ _ => True
  | .rmdir _ _ => True

/-! ## Fresh states -/

/-- No inode has a block. -/
def Blockless (s : Volume) : Prop := ∀ ino b, (s.inodes ino).block_ptrs b = 0

/-- Only the root directory is there, and block 0 is free. -/
structure Fresh (s : Volume) : Prop where
  root : (s.inodes 0).type = .dir
  free : ∀ ino, ino ≠ 0 → (s.inodes ino).type = .free
  blockless : Blockless s
  first : firstFree s.bitmap = some 0

theorem Fresh.init {disk : Disk}
    (unformatted : (decodeSuper (ataReadSector disk jfsSuperLba)).magic ≠ jfsMagic) : Fresh (jfsInit disk) := by
  have inodes : (jfsInit disk).inodes = freshInodes := by rw [jfsInit, if_pos unformatted]
  have bitmap : (jfsInit disk).bitmap = fun _ => false := by rw [jfsInit, if_pos unformatted]
  have other : ∀ ino, ino ≠ 0 → freshInodes ino = JfsInode.zero := fun ino ne => Function.update_of_ne ne _ _
  refine ⟨?_, ?_, ?_, ?_⟩
  · rw [inodes]
    rfl
  · intro ino ne
    rw [inodes, other ino ne]
    rfl
  · intro ino b
    rw [inodes]
    by_cases root : ino = 0
    · subst root
      rfl
    · rw [other ino root]
      rfl
  · rw [bitmap, firstFree, List.find?_range_eq_some]
    exact ⟨rfl, List.mem_range.mpr (by decide), fun j less => absurd less (Nat.not_lt_zero j)⟩

theorem Blockless.not_holds {s : Volume} (blockless : Blockless s) (e : Entry) : ¬e.Holds s :=
  fun holds => holds.block (blockless e.dir e.b)

theorem Blockless.findSlot {s : Volume} (blockless : Blockless s) (dir_ino : Nat) (test : Sector → Nat → Bool) :
    findSlot s dir_ino test = none := by
  have nothing : scanBlocks s dir_ino = [] := by
    unfold scanBlocks
    rw [List.filter_eq_nil_iff]
    intro b _
    simp [blockless dir_ino b]
  rw [Jfs.findSlot, nothing]
  rfl

theorem Blockless.lookup {s : Volume} (blockless : Blockless s) (dir_ino : Nat) (name : Name) :
    jfsDirLookup s dir_ino name = .error enotdir ∨ jfsDirLookup s dir_ino name = .error enoent := by
  unfold jfsDirLookup
  rw [blockless.findSlot]
  split_ifs
  · exact .inl rfl
  · exact .inr rfl

theorem Fresh.named {s : Volume} (fresh : Fresh s) : Named s where
  referenced ino ne _ used := absurd (fresh.free ino ne) used
  distinct e _ holds := absurd holds (fresh.blockless.not_holds e)

/-- An inode in use that no entry refers to. -/
theorem Blockless.not_named {s : Volume} (blockless : Blockless s) (ino : Nat) (ne : ino ≠ 0)
    (inside : ino < jfsMaxInodes) (used : (s.inodes ino).type ≠ .free) : ¬Named s := by
  intro named
  obtain ⟨e, ⟨holds, -⟩, -⟩ := named.referenced ino ne inside used
  exact blockless.not_holds e holds

/-! ## Operations on fresh states -/

theorem jfsJournalFlush_inodes (s : Volume) : (jfsJournalFlush s).inodes = s.inodes := rfl

theorem jfsJournalFlush_bitmap (s : Volume) : (jfsJournalFlush s).bitmap = s.bitmap := rfl

theorem releaseInode_inodes (s : Volume) (ino : Nat) : (releaseInode s ino).inodes =
    Function.update s.inodes ino { s.inodes ino with type := .free, size := 0, blocks := 0 } := rfl

theorem releaseInode_bitmap (s : Volume) (ino : Nat) : (releaseInode s ino).bitmap = s.bitmap := rfl

theorem setInode_bitmap (s : Volume) (ino : Nat) (inode : JfsInode) : (s.setInode ino inode).bitmap = s.bitmap := rfl

theorem jfsJournalCommit_inodes (s : Volume) (op : JournalOp) (ino offset size : Nat) (data : Option (List UInt8)) :
    (jfsJournalCommit s op ino offset size data).inodes = s.inodes := by
  unfold jfsJournalCommit
  dsimp only
  split_ifs <;> rfl

theorem jfsJournalCommit_bitmap (s : Volume) (op : JournalOp) (ino offset size : Nat) (data : Option (List UInt8)) :
    (jfsJournalCommit s op ino offset size data).bitmap = s.bitmap := by
  unfold jfsJournalCommit
  dsimp only
  split_ifs <;> rfl

/-- One inode was made in a fresh state. -/
structure Made (s' s : Volume) (type : InodeType) : Prop where
  inodes : ∃ mode, s'.inodes = Function.update s.inodes 1 (newInode type mode)
  bitmap : s'.bitmap = s.bitmap

theorem Fresh.makeInode {s : Volume} (fresh : Fresh s) (type : InodeType) (op : JournalOp) (mode : Nat) :
    (makeInode s type op mode).1 = 1 ∧ Made (makeInode s type op mode).2 s type := by
  have first : (List.range jfsMaxInodes).find? (fun i => 1 ≤ i ∧ (s.inodes i).type = .free) = some 1 := by
    rw [List.find?_range_eq_some]
    refine ⟨by simp [fresh.free 1 (by decide)], by decide, fun j less => ?_⟩
    have zero : j = 0 := by omega
    simp [zero]
  unfold Jfs.makeInode jfsAllocInode
  rw [first]
  dsimp only [Option.map_some]
  refine ⟨rfl, ⟨mode, ?_⟩, ?_⟩
  · rw [jfsJournalFlush_inodes, jfsJournalCommit_inodes]
    rfl
  · rw [jfsJournalFlush_bitmap, jfsJournalCommit_bitmap, setInode_bitmap]

namespace Made

variable {s s' : Volume} {type : InodeType}

theorem blockless (made : Made s' s type) (fresh : Fresh s) : Blockless s' := by
  obtain ⟨mode, inodes⟩ := made.inodes
  intro ino b
  rw [inodes]
  by_cases same : ino = 1
  · rw [same, Function.update_self]
    rfl
  · rw [Function.update_of_ne same]
    exact fresh.blockless ino b

theorem type_self (made : Made s' s type) : (s'.inodes 1).type = type := by
  obtain ⟨mode, inodes⟩ := made.inodes
  rw [inodes, Function.update_self]
  rfl

theorem type_of_ne (made : Made s' s type) {ino : Nat} (ne : ino ≠ 1) :
    (s'.inodes ino).type = (s.inodes ino).type := by
  obtain ⟨mode, inodes⟩ := made.inodes
  rw [inodes, Function.update_of_ne ne]

theorem first (made : Made s' s type) (fresh : Fresh s) : firstFree s'.bitmap = some 0 := by
  rw [made.bitmap]
  exact fresh.first

end Made

/-- An entry that is added while no inode has a block goes into block 0, which no directory has. -/
theorem Blockless.dirAdd {s : Volume} (blockless : Blockless s) (first : firstFree s.bitmap = some 0)
    (dir_ino : Nat) (name : Name) (child_ino : Nat) (type : InodeType) :
    Blockless (jfsDirAdd s dir_ino name child_ino type).2 ∧
      ∀ ino, ((jfsDirAdd s dir_ino name child_ino type).2.inodes ino).type = (s.inodes ino).type := by
  have slot : (List.range directBlocks).find? (fun b => (s.inodes dir_ino).block_ptrs b = 0) = some 0 := by
    rw [List.find?_range_eq_some]
    refine ⟨by simp [blockless dir_ino 0], by decide, fun j less => absurd less (Nat.not_lt_zero j)⟩
  unfold jfsDirAdd
  split_ifs
  · exact ⟨blockless, fun _ => rfl⟩
  · rw [blockless.findSlot, slot, jfsAllocBlock, first]
    refine ⟨fun ino b => ?_, fun ino => ?_⟩
    · by_cases same : ino = dir_ino
      · subst same
        by_cases zero : b = 0
        · subst zero
          simp [growDir, Volume.assignBlock, Volume.setInode]
        · simp [growDir, Volume.assignBlock, Volume.setInode, claimBlock, zero, blockless ino b]
      · simp [growDir, Volume.assignBlock, Volume.setInode, claimBlock, same, blockless ino b]
    · by_cases same : ino = dir_ino
      · subst same
        simp [growDir, Volume.assignBlock, Volume.setInode, claimBlock]
      · simp [growDir, Volume.assignBlock, Volume.setInode, claimBlock, same]

theorem Blockless.dirAdd_root {s : Volume} (blockless : Blockless s) (isDir : (s.inodes 0).type = .dir)
    (first : firstFree s.bitmap = some 0) (name : Name) (child_ino : Nat) (type : InodeType) :
    (jfsDirAdd s 0 name child_ino type).1 = 0 := by
  have slot : (List.range directBlocks).find? (fun b => (s.inodes 0).block_ptrs b = 0) = some 0 := by
    rw [List.find?_range_eq_some]
    refine ⟨by simp [blockless 0 0], by decide, fun j less => absurd less (Nat.not_lt_zero j)⟩
  have inside : ¬(jfsMaxInodes ≤ 0 ∨ (s.inodes 0).type ≠ .dir) := by
    rw [isDir]
    decide
  rw [jfsDirAdd, if_neg inside, blockless.findSlot, slot, jfsAllocBlock, first]
  rfl

theorem jfsDirAdd_notDir {s : Volume} {dir_ino : Nat} (notDir : (s.inodes dir_ino).type ≠ .dir) (name : Name)
    (child_ino : Nat) (type : InodeType) : jfsDirAdd s dir_ino name child_ino type = (enotdir, s) := by
  rw [jfsDirAdd, if_pos (.inr notDir)]

theorem Fresh.mkdir_not_named {s : Volume} (fresh : Fresh s) (dir_ino : Nat) (name : Name) (mode : Nat) :
    ¬Named (jfsOpsMkdir s dir_ino name mode).2 := by
  obtain ⟨one, made⟩ := fresh.makeInode .dir .mkdir mode
  have added := (made.blockless fresh).dirAdd (made.first fresh) dir_ino name 1 .dir
  have result : jfsOpsMkdir s dir_ino name mode =
      jfsDirAdd (Jfs.makeInode s .dir .mkdir mode).2 dir_ino name 1 .dir := by
    unfold jfsOpsMkdir jfsMkdir
    simp [one]
  rw [result]
  refine added.1.not_named 1 (by decide) (by decide) ?_
  rw [added.2, made.type_self]
  decide

theorem Fresh.create_root_not_named {s : Volume} (fresh : Fresh s) (name : Name) (mode : Nat) :
    ¬Named (jfsOpsCreate s 0 name mode).2 := by
  obtain ⟨one, made⟩ := fresh.makeInode .file .create mode
  have added := (made.blockless fresh).dirAdd (made.first fresh) 0 name 1 .file
  have isDir : ((Jfs.makeInode s .file .create mode).2.inodes 0).type = .dir := by
    rw [made.type_of_ne (by decide)]
    exact fresh.root
  have succeeds := (made.blockless fresh).dirAdd_root isDir (made.first fresh) name 1 .file
  have result : (jfsOpsCreate s 0 name mode).2 =
      (jfsDirAdd (Jfs.makeInode s .file .create mode).2 0 name 1 .file).2 := by
    unfold jfsOpsCreate jfsCreate
    simp [one, succeeds]
  rw [result]
  refine added.1.not_named 1 (by decide) (by decide) ?_
  rw [added.2, made.type_self]
  decide

theorem freeBlocks_none {s : Volume} {ino : Nat} (none : ∀ b, (s.inodes ino).block_ptrs b = 0) (count : Nat) :
    freeBlocks ino count s = s := by
  induction count with
  | zero => rfl
  | succ i ih => rw [freeBlocks, ih, if_neg (Decidable.not_not.mpr (none i))]

/-- The inode that was made is given back. -/
theorem Made.unlink {s s' : Volume} (made : Made s' s .file) (fresh : Fresh s) : Fresh (jfsUnlink s' 1).2 := by
  have committed := jfsJournalCommit_inodes s' .unlink 1 0 (s'.inodes 1).size none
  have blocks := jfsJournalCommit_bitmap s' .unlink 1 0 (s'.inodes 1).size none
  have result : (jfsUnlink s' 1).2 =
      jfsJournalFlush (releaseInode (jfsJournalCommit s' .unlink 1 0 (s'.inodes 1).size none) 1) := by
    have noBlocks : ∀ b, ((jfsJournalCommit s' .unlink 1 0 (s'.inodes 1).size none).inodes 1).block_ptrs b = 0 := by
      intro b
      rw [committed]
      exact made.blockless fresh 1 b
    rw [jfsUnlink, if_neg (by decide)]
    dsimp only
    rw [freeBlocks_none noBlocks]
  have inodes : (jfsUnlink s' 1).2.inodes =
      Function.update s'.inodes 1 { s'.inodes 1 with type := .free, size := 0, blocks := 0 } := by
    rw [result, jfsJournalFlush_inodes, releaseInode_inodes, committed]
  have bitmap : (jfsUnlink s' 1).2.bitmap = s'.bitmap := by
    rw [result, jfsJournalFlush_bitmap, releaseInode_bitmap, blocks]
  refine ⟨?_, ?_, ?_, ?_⟩
  · rw [inodes, Function.update_of_ne (by decide), made.type_of_ne (by decide)]
    exact fresh.root
  · intro ino ne
    rw [inodes]
    by_cases same : ino = 1
    · rw [same, Function.update_self]
    · rw [Function.update_of_ne same, made.type_of_ne same]
      exact fresh.free ino ne
  · intro ino b
    rw [inodes]
    by_cases same : ino = 1
    · rw [same, Function.update_self]
      exact made.blockless fresh 1 b
    · rw [Function.update_of_ne same]
      exact made.blockless fresh ino b
  · rw [bitmap]
    exact made.first fresh

theorem Fresh.create_other {s : Volume} (fresh : Fresh s) {dir_ino : Nat} (other : dir_ino ≠ 0) (name : Name)
    (mode : Nat) : (jfsOpsCreate s dir_ino name mode).1 = enotdir ∧ Fresh (jfsOpsCreate s dir_ino name mode).2 := by
  obtain ⟨one, made⟩ := fresh.makeInode .file .create mode
  have notDir : ((Jfs.makeInode s .file .create mode).2.inodes dir_ino).type ≠ .dir := by
    by_cases same : dir_ino = 1
    · rw [same, made.type_self]
      decide
    · rw [made.type_of_ne same, fresh.free dir_ino other]
      decide
  have result : jfsOpsCreate s dir_ino name mode =
      (enotdir, (jfsUnlink (Jfs.makeInode s .file .create mode).2 1).2) := by
    unfold jfsOpsCreate jfsCreate
    simp [one, jfsDirAdd_notDir notDir, enotdir]
  rw [result]
  exact ⟨rfl, made.unlink fresh⟩

theorem Fresh.unlink {s : Volume} (fresh : Fresh s) (dir_ino : Nat) (name : Name) :
    (jfsOpsUnlink s dir_ino name).1 ≠ 0 ∧ (jfsOpsUnlink s dir_ino name).2 = s := by
  unfold jfsOpsUnlink
  rcases fresh.blockless.lookup dir_ino name with failed | failed
  · rw [failed]
    exact ⟨(by decide : enotdir ≠ 0), rfl⟩
  · rw [failed]
    exact ⟨(by decide : enoent ≠ 0), rfl⟩

/-! ## Runs -/

/-- An operation that makes nothing leaves a fresh state fresh and answers. -/
theorem Fresh.step {s : Volume} (fresh : Fresh s) {op : NameOp} (nothing : op.MakesNothing) :
    Fresh (op.next s) ∧ (op.run s).1 ≠ 0 := by
  cases op with
  | create dir_ino name mode =>
      have created := fresh.create_other nothing name mode
      refine ⟨created.2, ?_⟩
      show (jfsOpsCreate s dir_ino name mode).1 ≠ 0
      rw [created.1]
      decide
  | mkdir => exact nothing.elim
  | unlink dir_ino name =>
      obtain ⟨failed, same⟩ := fresh.unlink dir_ino name
      refine ⟨?_, failed⟩
      rw [NameOp.next, NameOp.run, same]
      exact fresh
  | rmdir dir_ino name =>
      obtain ⟨failed, same⟩ := fresh.unlink dir_ino name
      refine ⟨?_, failed⟩
      rw [NameOp.next, NameOp.run, same]
      exact fresh

/-- An operation that makes something breaks the promise. -/
theorem Fresh.not_sound {s : Volume} (fresh : Fresh s) {op : NameOp} (makes : ¬op.MakesNothing) :
    ¬Named (op.next s) := by
  cases op with
  | create dir_ino name mode =>
      have root : dir_ino = 0 := Decidable.not_not.mp makes
      rw [root]
      exact fresh.create_root_not_named name mode
  | mkdir dir_ino name mode => exact fresh.mkdir_not_named dir_ino name mode
  | unlink => exact absurd trivial makes
  | rmdir => exact absurd trivial makes

theorem Fresh.sound_iff {s : Volume} (fresh : Fresh s) (op : NameOp) : op.Sound s ↔ op.MakesNothing := by
  constructor
  · intro sound
    by_contra makes
    exact fresh.not_sound makes sound.1
  · intro nothing
    obtain ⟨stays, failed⟩ := fresh.step nothing
    exact ⟨stays.named, fun succeeded => absurd succeeded failed⟩

/-- From a fresh format the promise is kept exactly by the runs in which nothing is made. -/
theorem namespace_iff {disk : Disk}
    (unformatted : (decodeSuper (ataReadSector disk jfsSuperLba)).magic ≠ jfsMagic) (ops : List NameOp) :
    Run.Meets NameOp.next NameOp.Sound (jfsInit disk) ops ↔ ∀ op ∈ ops, op.MakesNothing := by
  have fresh := Fresh.init unformatted
  generalize jfsInit disk = s at fresh
  induction ops generalizing s with
  | nil => exact ⟨fun _ op mem => absurd mem List.not_mem_nil, fun _ => trivial⟩
  | cons op ops ih =>
      rw [List.forall_mem_cons, Run.Meets, fresh.sound_iff op]
      exact and_congr_right fun nothing => ih _ (fresh.step nothing).1

theorem namespace_iff_blank :
    Run.Meets NameOp.next NameOp.Sound (jfsInit fun _ _ => 0) [.create 7 [97] 0, .unlink 0 [97]] ↔
      ∀ op ∈ [NameOp.create 7 [97] 0, .unlink 0 [97]], op.MakesNothing :=
  namespace_iff (by decide) _

theorem blank_unformatted : (decodeSuper (ataReadSector (fun _ _ => 0) jfsSuperLba)).magic ≠ jfsMagic := by decide

/-- The first file of a fresh file system is made, and no entry refers to it. -/
theorem first_file_lost : ¬(NameOp.create 0 [97] 0o644).Sound (jfsInit fun _ _ => 0) :=
  fun sound => (Fresh.init blank_unformatted).create_root_not_named [97] 0o644 sound.1

end Systrix.Jfs
