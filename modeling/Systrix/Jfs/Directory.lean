import Systrix.Jfs.Volume

/-!
# JFS directories

Directory entries in the direct blocks of directory inodes, and the operations
the VFS calls.
-/

namespace Systrix.Jfs

open ByteMemory Machine

/-- A C string without its terminator. -/
abbrev Name := List UInt8

/-- `sizeof(jfs_direntry_t)` -/
def direntrySize : Nat := 72

/-- Entries of a directory block. -/
def slots : Nat := jfsBlockSize / direntrySize

/-- The bytes of a `jfs_direntry_t` that names `child_ino`. -/
def direntry (name : Name) (child_ino : Nat) (type : InodeType) : List UInt8 :=
  let nlen := if 64 ≤ name.length then 63 else name.length
  let typeCode : UInt8 := match type with
    | .free => 0
    | .file => 1
    | .dir => 2
  name.take nlen ++ List.replicate (64 - nlen) 0 ++
    (List.range 4).map (fun i => UInt8.ofNat (child_ino / 256 ^ i)) ++ [typeCode, 0, 0, 0]

/-- `de.ino` of a slot. -/
def slotIno (buf : Sector) (slot : Nat) : Nat := load buf (slot * direntrySize + 64) 4

/-- `strncmp(left, right, n) == 0` on null-terminated bytes. -/
def sameName (left right : Nat → UInt8) : (n : Nat) → Bool
  | 0 => true
  | n + 1 => left 0 = right 0 ∧
      (left 0 = 0 ∨ sameName (fun i => left (i + 1)) (fun i => right (i + 1)) n)

/-- `strncmp(de.name, name, 63) == 0` for the entry in a slot. -/
def slotNamed (buf : Sector) (slot : Nat) (name : Name) : Bool :=
  sameName (fun i => buf (slot * direntrySize + i)) (fun i => name.getD i 0) 63

/-- The blocks of a directory in the order they are scanned. -/
def scanBlocks (s : Volume) (dir_ino : Nat) : List Nat :=
  (List.range directBlocks).filter fun b => (s.inodes dir_ino).block_ptrs b ≠ 0

/-- The contents of a direct block. -/
def blockOf (s : Volume) (ino block_idx : Nat) : Sector :=
  ataReadSector s.disk (dataLba s ((s.inodes ino).block_ptrs block_idx))

/-- The first slot of a directory that satisfies a test, in scanning order. -/
def findSlot (s : Volume) (dir_ino : Nat) (test : Sector → Nat → Bool) : Option (Nat × Nat) :=
  (scanBlocks s dir_ino).findSome? fun b =>
    ((List.range slots).find? (test (blockOf s dir_ino b))).map fun slot => (b, slot)

/-- Overwrite part of a direct block. -/
def patchBlock (s : Volume) (ino block_idx offset : Nat) (bytes : List UInt8) : Volume :=
  let lba := dataLba s ((s.inodes ino).block_ptrs block_idx)
  { s with disk := ataWriteSector s.disk lba (patch (ataReadSector s.disk lba) offset bytes) }

/-- `dir->size += sizeof(de)` -/
def growDir (s : Volume) (dir_ino : Nat) : Volume :=
  let dir := s.inodes dir_ino
  s.setInode dir_ino { dir with size := u64 (dir.size + direntrySize) }

def jfsDirAdd (s : Volume) (dir_ino : Nat) (name : Name) (child_ino : Nat) (type : InodeType) :
    Int × Volume :=
  if jfsMaxInodes ≤ dir_ino ∨ (s.inodes dir_ino).type ≠ .dir then (enotdir, s)
  else
    match findSlot s dir_ino fun buf slot => slotIno buf slot = 0 with
    | some (b, slot) =>
        (0, growDir (patchBlock s dir_ino b (slot * direntrySize) (direntry name child_ino type))
          dir_ino)
    | none =>
        -- no free slot: a new block, and the entry is its first
        match (List.range directBlocks).find? fun b => (s.inodes dir_ino).block_ptrs b = 0 with
        | none => (enospc, s)
        | some b =>
            match jfsAllocBlock s with
            | none => (enospc, s)
            | some (blk, s) =>
                let s := s.assignBlock dir_ino b blk
                let buf := patch (fun _ => 0) 0 (direntry name child_ino type)
                (0, growDir { s with disk := ataWriteSector s.disk (dataLba s blk) buf } dir_ino)

/-- `jfs_dir_lookup`; the error or the inode number found. -/
def jfsDirLookup (s : Volume) (dir_ino : Nat) (name : Name) : Except Int Nat :=
  if jfsMaxInodes ≤ dir_ino ∨ (s.inodes dir_ino).type ≠ .dir then .error enotdir
  else
    match findSlot s dir_ino fun buf slot => slotIno buf slot ≠ 0 ∧ slotNamed buf slot name with
    | some (b, slot) => .ok (slotIno (blockOf s dir_ino b) slot)
    | none => .error enoent

/-- `jfs_ops_create`, without the copy of the new inode's attributes. -/
def jfsOpsCreate (s : Volume) (dir_ino : Nat) (name : Name) (mode : Nat) : Int × Volume :=
  match jfsCreate s mode with
  | (ino, s) =>
      if ino < 0 then (ino, s)
      else
        match jfsDirAdd s dir_ino name ino.toNat .file with
        | (r, s) => if r < 0 then (r, (jfsUnlink s ino.toNat).2) else (0, s)

def jfsOpsMkdir (s : Volume) (dir_ino : Nat) (name : Name) (mode : Nat) : Int × Volume :=
  match jfsMkdir s mode with
  | (ino, s) => if ino < 0 then (ino, s) else jfsDirAdd s dir_ino name ino.toNat .dir

/-- `jfs_ops_unlink`, which is also the `rmdir` operation. -/
def jfsOpsUnlink (s : Volume) (dir_ino : Nat) (name : Name) : Int × Volume :=
  match jfsDirLookup s dir_ino name with
  | .error r => (r, s)
  | .ok child_ino =>
      let s :=
        match findSlot s dir_ino fun buf slot =>
          slotIno buf slot = child_ino ∧ slotNamed buf slot name with
        | some (b, slot) =>
            patchBlock s dir_ino b (slot * direntrySize) (List.replicate direntrySize 0)
        | none => s
      jfsUnlink s child_ino

end Systrix.Jfs
