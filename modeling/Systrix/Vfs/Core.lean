import Systrix.Ipc.Pipe

/-!
# The VFS core

The tables of `kernel/vfs.c` with the objects on the heap that they refer to, and its calls.
-/

namespace Systrix.Vfs

/-!
## Names

C strings, the components of a path, and the two functions that make an 8.3 name of one:
`to_83` and `format_83_name` of `kernel/kernel.c`.
-/

/-- The characters of a C string, without the zero at its end. -/
abbrev Chars := List UInt8

/-- `'/'` -/
def slash : UInt8 := 47

/-- `'.'` -/
def dot : UInt8 := 46

/-- `' '` -/
def space : UInt8 := 32

/-- The nonempty parts between the slashes of a path, as `path_walk` looks them up. -/
def components (path : Chars) : List Chars := (path.splitOn slash).filter (· ≠ [])

/-- A letter in upper case. -/
def upper (c : UInt8) : UInt8 := if 97 ≤ c ∧ c ≤ 122 then c - 32 else c

/-- Fill a field with spaces. -/
def pad (n : Nat) (name : Chars) : Chars := name ++ List.replicate (n - name.length) space

def to83 (name : Chars) : Chars :=
  let base := (name.take 8).takeWhile (· ≠ dot)
  let ext := ((name.drop base.length).dropWhile (· ≠ dot)).drop 1
  pad 8 (base.map upper) ++ pad 3 ((ext.take 3).map upper)

/-- `format_83_name`: unlike `to_83`, a space ends either part. -/
def format83Name (src : Chars) : Chars :=
  let base := (src.take 8).takeWhile fun c => c ≠ dot ∧ c ≠ space
  let ext := ((src.drop base.length).dropWhile (· ≠ dot)).drop 1
  pad 8 (base.map upper) ++ pad 3 (((ext.take 3).takeWhile (· ≠ space)).map upper)

/-! ## The tables -/

open Ipc Machine

def maxInode : Nat := 1024

def maxMount : Nat := 8

def maxPath : Nat := 256

def fdMax : Nat := 256

def itFile : Nat := 1

def itDir : Nat := 2

def itPipe : Nat := 3

/-- An address on the heap. -/
abbrev Addr := Nat

/-- `inode_attr_t` -/
structure Attr where
  type : Nat
  mode : Nat
  uid : Nat
  gid : Nat
  size : Nat
  nlink : Nat
  blksize : Nat
  blocks : Nat
  atime : Nat
  mtime : Nat
  ctime : Nat
  deriving DecidableEq

/-- `inode_ops_t`: the two tables of operations there are. -/
inductive Ops where
  | fat32
  | jfs
  deriving DecidableEq

/-- `vfs_inode_t` -/
structure Inode where
  valid : Bool
  ino : Nat
  dev : Nat
  rdev : Nat
  refcount : Nat
  attr : Attr
  ops : Ops
  fs_data : Option Addr
  deriving DecidableEq

/-- `vfs_mount_t` -/
structure Mount where
  valid : Bool
  path : Chars
  dev : Nat
  root : Inode

/-- `vfs_fd_t`; an inode is given by its index in the table. -/
structure Fd where
  in_use : Bool
  inode : Option Nat
  offset : Nat
  flags : Nat
  type : Nat
  pipe_data : Option Addr
  deriving DecidableEq

/-- `FD`: the file object of the FAT driver. -/
structure FD where
  in_use : Bool
  size : Nat
  start_clus : Nat
  cur_clus : Nat
  pos : Nat
  name83 : Chars
  dir_clus : Nat

/-- What the two file systems find, read and write on their disk. -/
structure Driver (Disk : Type) where
  /-- `fat32_find_raw_in`: the cluster and size of an entry of a directory. -/
  fatFind : Disk → Nat → Chars → Option (Nat × Nat)
  fatRead : Disk → FD → Nat → Nat → Int × List UInt8 × FD
  fatWrite : Disk → FD → List UInt8 → Nat → Int × Disk × FD
  fatReaddir : Disk → Nat → Nat → List UInt8
  /-- `jfs_dir_lookup`, with what the inode it finds holds. -/
  jfsFind : Disk → Nat → Chars → Except Int (Nat × Attr)
  /-- Errors are negative. -/
  jfsFind_neg : ∀ disk dir name e, jfsFind disk dir name = .error e → e < 0
  jfsRead : Disk → Nat → Nat → Nat → Int × List UInt8
  jfsWrite : Disk → Nat → List UInt8 → Nat → Int × Disk
  jfsReaddir : Disk → Nat → Nat → List UInt8
  jfsSize : Disk → Nat → Int

/-- The tables and the heap. -/
structure State (Disk : Type) where
  inode_table : Nat → Inode
  mount_table : Nat → Mount
  fd_table : Nat → Fd
  next_ino : Nat
  disk : Disk
  files : Addr → Option FD
  pipes : Addr → Option Pipe
  /-- What `heap_malloc` returns from here on; without memory it is empty. -/
  supply : List Addr
  /-- Objects that were used or freed although they were free. -/
  faults : List Addr

variable {Disk : Type} (driver : Driver Disk) (v : State Disk)

/-! ## Heap -/

def heapFree (a : Addr) : State Disk :=
  if (v.files a).isSome || (v.pipes a).isSome then
    { v with files := Function.update v.files a none, pipes := Function.update v.pipes a none }
  else { v with faults := v.faults ++ [a] }

/-- `heap_malloc` and the store of a file object. -/
def newFile (f : FD) : Option (Addr × State Disk) :=
  match v.supply with
  | [] => none
  | a :: supply => some (a, { v with files := Function.update v.files a (some f), supply := supply })

/-- `pipe_create` -/
def newPipe : Option (Addr × State Disk) :=
  match v.supply with
  | [] => none
  | a :: supply => some (a, { v with pipes := Function.update v.pipes a (some pipeCreate), supply := supply })

/-! ## Tables -/

def State.setFd (fd : Nat) (f : Fd) : State Disk :=
  { v with fd_table := Function.update v.fd_table fd f }

def State.setInode (i : Nat) (inode : Inode) : State Disk :=
  { v with inode_table := Function.update v.inode_table i inode }

def inodeAlloc : Option (Nat × State Disk) :=
  ((List.range maxInode).find? fun i => !(v.inode_table i).valid).map fun i =>
    (i, { v.setInode i { v.inode_table i with valid := true, ino := v.next_ino, refcount := 1 } with
      next_ino := v.next_ino + 1 })

def inodeRef (i : Nat) : State Disk :=
  v.setInode i { v.inode_table i with refcount := u32 ((v.inode_table i).refcount + 1) }

/-- The rest of `inode_deref` when there is no reference left. -/
def inodeFree (i : Nat) : State Disk :=
  let v := v.setInode i { v.inode_table i with valid := false }
  let v :=
    match (v.inode_table i).fs_data with
    | none => v
    | some a => heapFree v a
  v.setInode i { v.inode_table i with fs_data := none }

/-- `inode_deref`, once the reference is given up. -/
def inodeKeep (i refcount : Nat) : State Disk :=
  let v := v.setInode i { v.inode_table i with refcount := refcount }
  if refcount > 0 then v else inodeFree v i

def inodeDeref (i : Nat) : State Disk := inodeKeep v i (sub32 (v.inode_table i).refcount 1)

/-- The first descriptor that is not in use. -/
def freeFd (taken : Option Nat) : Option Nat :=
  ((List.range fdMax).drop 3).find? fun fd => !(v.fd_table fd).in_use && taken != some fd

def fdAlloc : Option (Nat × State Disk) :=
  (freeFd v none).map fun fd => (fd, v.setFd fd { v.fd_table fd with in_use := true })

def fdGet (fd : Nat) : Option Fd :=
  if fd ≥ fdMax || !(v.fd_table fd).in_use then none else some (v.fd_table fd)

/-! ## Paths -/

/-- One round of the loop of `find_mount`. -/
def betterMount (path : Chars) (best : Option Mount × Nat) (i : Nat) : Option Mount × Nat :=
  let mount := v.mount_table i
  let mlen := mount.path.length
  if !mount.valid then best
  else if mlen > path.length then best
  else if mlen > 1 && path.getD mlen 0 != slash then best
  else if path.take mlen == mount.path && mlen > best.2 then (some mount, mlen)
  else best

/-- `find_mount`, with `rel_path`. -/
def findMount (path : Chars) : Option (Mount × Chars) :=
  ((List.range maxMount).foldl (betterMount v path) (none, 0)).1.map fun mount =>
    let rel := if mount.path.length < path.length then path.drop mount.path.length else [slash]
    (mount, if rel.head? = some slash then rel.drop 1 else rel)

/-- `fat32_ops_lookup` -/
def fat32Lookup (dir : Inode) (name : Chars) : Except Int Inode × State Disk :=
  match driver.fatFind v.disk dir.ino (to83 name) with
  | none => (.error enoent, v)
  | some (clus, size) =>
      match newFile v ⟨true, size, clus, clus, 0, to83 name, dir.ino⟩ with
      | none => (.error enomem, v)
      | some (a, v) =>
          (.ok { valid := true, ino := clus, dev := dir.dev, rdev := 0, refcount := 1
                 attr := ⟨itFile, 0o644, 0, 0, size, 1, 512, (size + 511) / 512, 0, 0, 0⟩
                 ops := dir.ops, fs_data := some a }, v)

/-- `jfs_ops_lookup` -/
def jfsLookup (dir : Inode) (name : Chars) : Except Int Inode × State Disk :=
  match driver.jfsFind v.disk dir.ino name with
  | .error e => (.error e, v)
  | .ok (ino, attr) =>
      (.ok { valid := true, ino := ino, dev := dir.dev, rdev := 0, refcount := 1
             attr := { attr with type := if attr.type = itDir then itDir else itFile, nlink := 1, blksize := 512 }
             ops := dir.ops, fs_data := none }, v)

/-- `ops->lookup` -/
def lookup (dir : Inode) (name : Chars) : Except Int Inode × State Disk :=
  match dir.ops with
  | .fat32 => fat32Lookup driver v dir name
  | .jfs => jfsLookup driver v dir name

/-- The loop of `path_walk` over the components. -/
def walkLoop (v : State Disk) (cur : Inode) : List Chars → Except Int Inode × State Disk
  | [] => (.ok cur, v)
  | name :: names =>
      match lookup driver v cur name with
      | (.error e, v) => (.error e, v)
      | (.ok next, v) => walkLoop v next names

def pathWalk (start : Inode) (path : Chars) : Except Int Inode × State Disk :=
  if !start.valid then (.error enoent, v)
  else if path = [] then (.ok start, v)
  else if path.length ≥ maxPath then (.error enametoolong, v)
  else walkLoop driver v start (components path)

/-! ## Calls -/

def vfsOpen (path : Chars) : Int × State Disk :=
  match findMount v path with
  | none => (enoent, v)
  | some (mount, rel) =>
      match pathWalk driver v mount.root rel with
      | (.error e, v) => (e, v)
      | (.ok inode, v) =>
          match fdAlloc v with
          | none => (enomem, v)
          | some (fd, v) =>
              match inodeAlloc v with
              | none => (enomem, v.setFd fd { v.fd_table fd with in_use := false, inode := none })
              | some (i, v) =>
                  let v := v.setInode i inode
                  (fd, v.setFd fd ⟨true, some i, 0, 0, inode.attr.type, none⟩)

def pipeDestroy (p : Option Addr) : State Disk :=
  match p with
  | none => v
  | some a => heapFree v a

def vfsClose (fd : Nat) : Int × State Disk :=
  match fdGet v fd with
  | none => (ebadf, v)
  | some f =>
      let v :=
        match f.inode with
        | none => v
        | some i => inodeDeref v i
      let v := if f.type = itPipe then pipeDestroy v f.pipe_data else v
      (0, v.setFd fd { v.fd_table fd with in_use := false, inode := none, pipe_data := none })

/-- What `vfs_stat` and `vfs_fstat` store. -/
structure StatBuf where
  dev : Nat
  ino : Nat
  rdev : Nat
  attr : Attr

def vfsStat (path : Chars) : Except Int StatBuf × State Disk :=
  match findMount v path with
  | none => (.error enoent, v)
  | some (mount, rel) =>
      match pathWalk driver v mount.root rel with
      | (.error e, v) => (.error e, v)
      | (.ok inode, v) => (.ok ⟨inode.dev, inode.ino, inode.rdev, inode.attr⟩, v)

def vfsReaddir (fd count : Nat) : Except Int (List UInt8) :=
  match fdGet v fd with
  | none => .error ebadf
  | some f =>
      match f.inode with
      | none => .error ebadf
      | some i =>
          let inode := v.inode_table i
          match inode.ops with
          | .fat32 => .ok (driver.fatReaddir v.disk inode.ino count)
          | .jfs => .ok (driver.jfsReaddir v.disk inode.ino count)

/-- The reference that a copy of a descriptor takes. -/
def refCopy (f : Fd) : State Disk :=
  match f.inode with
  | none => v
  | some i => inodeRef v i

def vfsDup (oldfd : Nat) : Int × State Disk :=
  match fdGet v oldfd with
  | none => (ebadf, v)
  | some _ =>
      match fdAlloc v with
      | none => (enomem, v)
      | some (newfd, v) =>
          let old := v.fd_table oldfd
          (newfd, refCopy (v.setFd newfd old) old)

def vfsDup2 (oldfd newfd : Nat) : Int × State Disk :=
  if oldfd = newfd then (newfd, v)
  else
    match fdGet v oldfd with
    | none => (ebadf, v)
    | some _ =>
        if newfd ≥ fdMax then (ebadf, v)
        else
          let v := if (v.fd_table newfd).in_use then (vfsClose v newfd).2 else v
          let old := v.fd_table oldfd
          (newfd, refCopy (v.setFd newfd { old with in_use := true }) old)

/-- `sys_pipe`: the descriptors of the two ends. -/
def sysPipe : Except Int (Nat × Nat) × State Disk :=
  match newPipe v with
  | none => (.error enomem, v)
  | some (p, v) =>
      match freeFd v none with
      | none => (.error enomem, pipeDestroy v (some p))
      | some rfd =>
          match freeFd v (some rfd) with
          | none => (.error enomem, pipeDestroy v (some p))
          | some wfd =>
              let v := v.setFd rfd ⟨true, none, 0, 0, itPipe, some p⟩
              (.ok (rfd, wfd), v.setFd wfd ⟨true, none, 0, 1, itPipe, some p⟩)

/-! ## Reading and writing -/

/-- `pipe_read` through a pointer. -/
def pipeReadAt (p : Option Addr) (n : Nat) : Int × List UInt8 × State Disk :=
  match p with
  | none => (ebadf, [], v)
  | some a =>
      match v.pipes a with
      | none => (ebadf, [], { v with faults := v.faults ++ [a] })
      | some pipe =>
          match pipeRead pipe n with
          | (result, bytes, pipe) =>
              (result, bytes, { v with pipes := Function.update v.pipes a (some pipe) })

/-- `pipe_write` through a pointer. -/
def pipeWriteAt (p : Option Addr) (buf : List UInt8) : Int × State Disk :=
  match p with
  | none => (ebadf, v)
  | some a =>
      match v.pipes a with
      | none => (ebadf, { v with faults := v.faults ++ [a] })
      | some pipe =>
          match pipeWrite pipe buf with
          | (result, pipe) => (result, { v with pipes := Function.update v.pipes a (some pipe) })

/-- `fat32_ops_read` -/
def fat32Read (inode : Inode) (n offset : Nat) : Int × List UInt8 × State Disk :=
  match inode.fs_data with
  | none => (einval, [], v)
  | some a =>
      match v.files a with
      | none => (einval, [], { v with faults := v.faults ++ [a] })
      | some f =>
          match driver.fatRead v.disk f n offset with
          | (result, bytes, f) => (result, bytes, { v with files := Function.update v.files a (some f) })

/-- `fat32_ops_write` -/
def fat32Write (i : Nat) (buf : List UInt8) (offset : Nat) : Int × State Disk :=
  match (v.inode_table i).fs_data with
  | none => (einval, v)
  | some a =>
      match v.files a with
      | none => (einval, { v with faults := v.faults ++ [a] })
      | some f =>
          match driver.fatWrite v.disk f buf offset with
          | (result, disk, f) =>
              let v := { v with disk := disk, files := Function.update v.files a (some f) }
              let inode := v.inode_table i
              (result, v.setInode i { inode with attr := { inode.attr with size := f.size } })

/-- `ops->read` -/
def opsRead (inode : Inode) (n offset : Nat) : Int × List UInt8 × State Disk :=
  match inode.ops with
  | .fat32 => fat32Read driver v inode n offset
  | .jfs => ((driver.jfsRead v.disk inode.ino n offset).1, (driver.jfsRead v.disk inode.ino n offset).2, v)

/-- `ops->write` -/
def opsWrite (i : Nat) (buf : List UInt8) (offset : Nat) : Int × State Disk :=
  match (v.inode_table i).ops with
  | .fat32 => fat32Write driver v i buf offset
  | .jfs =>
      match driver.jfsWrite v.disk (v.inode_table i).ino buf offset with
      | (result, disk) => (result, { v with disk := disk })

/-- The offset after a call that returned `result`. -/
def advance (fd : Nat) (result : Int) : State Disk :=
  if result > 0 then v.setFd fd { v.fd_table fd with offset := (v.fd_table fd).offset + result.toNat }
  else v

/-- `vfs_read`: the result, the bytes put into `buf`, and the tables. -/
def vfsRead (fd n : Nat) : Int × List UInt8 × State Disk :=
  match fdGet v fd with
  | none => (ebadf, [], v)
  | some f =>
      match f.inode with
      | none => (ebadf, [], v)
      | some i =>
          if f.type = itPipe then pipeReadAt v f.pipe_data n
          else
            match opsRead driver v (v.inode_table i) n f.offset with
            | (result, bytes, v) => (result, bytes, advance v fd result)

def vfsWrite (fd : Nat) (buf : List UInt8) : Int × State Disk :=
  match fdGet v fd with
  | none => (ebadf, v)
  | some f =>
      match f.inode with
      | none => (ebadf, v)
      | some i =>
          if f.type = itPipe then pipeWriteAt v f.pipe_data buf
          else
            match opsWrite driver v i buf f.offset with
            | (result, v) => (result, advance v fd result)

/-- `ops->getsize` -/
def opsGetsize (inode : Inode) : Int :=
  match inode.ops with
  | .fat32 =>
      match inode.fs_data.bind v.files with
      | none => inode.attr.size
      | some f => f.size
  | .jfs => driver.jfsSize v.disk inode.ino

def vfsSeek (fd : Nat) (offset : Int) (whence : Nat) : Int × State Disk :=
  match fdGet v fd with
  | none => (ebadf, v)
  | some f =>
      match f.inode with
      | none => (ebadf, v)
      | some i =>
          let sz := opsGetsize driver v (v.inode_table i)
          let go (target : Int) : Int × State Disk :=
            ((BitVec.ofInt 64 target).toInt, v.setFd fd { f with offset := (BitVec.ofInt 64 target).toNat })
          match whence with
          | 0 => go offset
          | 1 => go (f.offset + offset)
          | 2 => go (sz + offset)
          | _ => (einval, v)

/-! ## Mounts -/

/-- The attributes of a mount root. -/
def rootAttr : Attr := ⟨itDir, 0o755, 0, 0, 0, 1, 512, 0, 0, 0, 0⟩

def vfsMountFs (path : Chars) (dev : Nat) (root : Inode) : Int × State Disk :=
  if path.length ≥ maxPath then (einval, v)
  else
    match (List.range maxMount).find? fun i => !(v.mount_table i).valid with
    | none => (enomem, v)
    | some i => (0, { v with mount_table := Function.update v.mount_table i ⟨true, path, dev, root⟩ })

def vfsRegisterFat32 (root_clus : Nat) : State Disk :=
  match newFile v ⟨true, 0, root_clus, root_clus, 0, List.replicate 11 0, root_clus⟩ with
  | none => v
  | some (a, v) =>
      (vfsMountFs v [slash] 1
        { valid := true, ino := root_clus, dev := 1, rdev := 0, refcount := 1, attr := rootAttr
          ops := .fat32, fs_data := some a }).2

def vfsRegisterJfs : State Disk :=
  (vfsMountFs v [slash, 106, 102, 115] 2
    { valid := true, ino := 0, dev := 2, rdev := 0, refcount := 1, attr := rootAttr
      ops := .jfs, fs_data := none }).2

/-- An inode and a descriptor of a table that was cleared. -/
def zeroInode : Inode := ⟨false, 0, 0, 0, 0, ⟨0, 0, 0, 0, 0, 0, 0, 0, 0, 0, 0⟩, .fat32, none⟩

def zeroFd : Fd := ⟨false, none, 0, 0, 0, none⟩

def vfsCoreInit (disk : Disk) : State Disk where
  inode_table _ := zeroInode
  mount_table _ := ⟨false, [], 0, zeroInode⟩
  fd_table fd := if fd < 3 then { zeroFd with in_use := true, type := itFile } else zeroFd
  next_ino := 1
  disk := disk
  files _ := none
  pipes _ := none
  supply := []
  faults := []

/-- A FAT volume with the file `A.TXT` and the directory `D` in its root directory, which is
cluster 2, and the file `X` in `D`; its JFS is empty. -/
def smallDriver : Driver Unit where
  fatFind _ clus name :=
    if clus = 2 ∧ name = to83 [65, 46, 84, 88, 84] then some (5, 10)
    else if clus = 2 ∧ name = to83 [68] then some (7, 0)
    else if clus = 7 ∧ name = to83 [88] then some (9, 3)
    else none
  fatRead _ f n _ := (min n f.size, List.replicate (min n f.size) 0, f)
  fatWrite _ f _ _ := (0, (), f)
  fatReaddir _ _ _ := []
  jfsFind _ _ _ := .error enoent
  jfsFind_neg _ _ _ e isError := by
    cases isError
    decide
  jfsRead _ _ _ _ := (0, [])
  jfsWrite _ _ _ _ := (0, ())
  jfsReaddir _ _ _ := []
  jfsSize _ _ := 0

/-- The tables after boot with this volume; `supply` is what `heap_malloc` has. -/
def bootState (supply : List Addr) : State Unit :=
  { vfsRegisterJfs (vfsRegisterFat32 { vfsCoreInit () with supply := [0x200010] } 2) with supply := supply }

end Systrix.Vfs
