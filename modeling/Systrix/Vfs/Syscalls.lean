import Systrix.Lib.Run
import Systrix.Vfs.Resolution
import Systrix.Vmm.PageFault

/-!
# File system calls

The calls of `kernel/syscall.c` on descriptors. Some look them up in the table of the VFS,
others in the older table of `kernel/kernel.c`, which nothing fills any more.
-/

namespace Systrix.Vfs

open Vmm Machine

def maxFiles : Nat := 8

/-- `VMA`, with the offset in the file. -/
structure Mapping extends Vma where
  file_offset : Word
  deriving DecidableEq

/-- The tables of the VFS, `fd_table` of `kernel/kernel.c`, and what `sys_mmap` uses of the
running process: without one `pcb` is missing, and a process may have no VMAs. -/
structure Sys (Disk : Type) where
  v : State Disk
  fd_table : Nat → FD
  mmap_bump : Word
  pcb : Option (Option (List Mapping))

variable {Disk : Type} (driver : Driver Disk) (k : Sys Disk)

/-- The line that `sys_read` reads at the keyboard; it waits when there are no keys left. -/
def readLine (n : Nat) (out : List UInt8) : List UInt8 → Option (List UInt8)
  | [] => if out.length < n then none else some out
  | c :: keys =>
      if out.length < n then
        if c = 13 ∨ c = 10 then some (out ++ [10])
        else if c = 8 ∧ 0 < out.length then readLine n out.dropLast keys
        else if c < 32 then readLine n out keys
        else readLine n (out ++ [c]) keys
      else some out

/-- `sys_read`: the result, the bytes put into `buf`, and the tables. -/
def sysRead (keys : List UInt8) (fd n : Nat) : Option (Int × List UInt8 × Sys Disk) :=
  if fd = 0 then (readLine n [] keys).map fun line => (line.length, line, k)
  else if fd = 1 ∨ fd = 2 then some (0, [], k)
  else
    match vfsRead driver k.v fd n with
    | (result, bytes, v) => some (result, bytes, { k with v := v })

def sysWrite (fd : Nat) (buf : List UInt8) : Int × Sys Disk :=
  if fd = 1 ∨ fd = 2 then (buf.length, k)
  else
    match vfsWrite driver k.v fd buf with
    | (result, v) => (result, { k with v := v })

def sysOpen (path : Chars) : Int × Sys Disk :=
  match vfsOpen driver k.v (format83Name (path.dropWhile (· = slash))) with
  | (result, v) => (result, { k with v := v })

def sysClose (fd : Nat) : Int × Sys Disk :=
  match vfsClose k.v fd with
  | (result, v) => (result, { k with v := v })

/-- A descriptor that is in use in the table of `kernel/kernel.c`. -/
def Sys.file (fd : Nat) : Option FD :=
  if fd ≥ maxFiles || !(k.fd_table fd).in_use then none else some (k.fd_table fd)

def sysLseek (fd : Nat) (offset : Int) (whence : Nat) : Int × Sys Disk :=
  if fd < 3 then (einval, k)
  else
    match k.file fd with
    | none => (ebadf, k)
    | some f =>
        let go (new_pos : Nat) : Int × Sys Disk :=
          let new_pos := if new_pos > f.size then f.size else new_pos
          (new_pos, { k with v := (vfsSeek driver k.v fd new_pos 0).2 })
        match whence with
        | 0 => go (offset.emod (2 ^ 32)).toNat
        | 1 => go ((f.pos + offset).emod (2 ^ 32)).toNat
        | 2 => go ((f.size + offset).emod (2 ^ 32)).toNat
        | _ => (einval, k)

def sysDup (oldfd : Nat) : Int × Sys Disk :=
  if oldfd < 3 then (oldfd, k)
  else
    match k.file oldfd with
    | none => (ebadf, k)
    | some src =>
        match ((List.range maxFiles).drop 3).find? fun fd => !(k.fd_table fd).in_use with
        | none => (enomem, k)
        | some newfd => (newfd, { k with fd_table := Function.update k.fd_table newfd src })

def sysFstat (fd : Nat) : Except Int StatBuf :=
  if fd < 3 then .ok ⟨0, 0, 0, ⟨0, 0x2180, 0, 0, 0, 0, 0, 0, 0, 0, 0⟩⟩
  else
    match k.file fd with
    | none => .error ebadf
    | some f => .ok ⟨1, if f.start_clus = 0 then 1 else f.start_clus, 0, ⟨0, 0x81a4, 0, 0, f.size, 1, 512, 0, 0, 0, 0⟩⟩

/-- The flags of a new VMA. -/
def vmaFlags (anon : Bool) (prot : Word) : BitVec 32 :=
  let vma_flags : BitVec 32 := if anon then 1 <<< 3 else 1 <<< 5
  let vma_flags := if prot.getLsbD 0 then vma_flags ||| 1 else vma_flags
  let vma_flags := if prot.getLsbD 1 then vma_flags ||| 2 else vma_flags
  if prot.getLsbD 2 then vma_flags ||| 4 else vma_flags

/-- The first empty slot gets the new VMA, if there is one. -/
def fillVma (new : Mapping) : List Mapping → List Mapping
  | [] => []
  | vma :: vmas => if vma.start = vma.stop then new :: vmas else vma :: fillVma new vmas

/-- `sys_mmap`: the address, or an error code. -/
def sysMmap (addr len prot flags fd off : Word) : Except Int Word × Sys Disk :=
  let is_anon := flags.getLsbD 5 || fd.msb
  if !is_anon && (k.file fd.toNat).isNone then (.error ebadf, k)
  else
    let len := (len + 0xfff) &&& ~~~(0xfff : Word)
    if len = 0 then (.error enomem, k)
    else
      let virt := if addr ≠ 0 ∧ flags.getLsbD 4 then addr &&& ~~~(0xfff : Word) else k.mmap_bump
      match k.pcb with
      | none => (.error enomem, k)
      | some vmas =>
          let new : Mapping := ⟨⟨virt, virt + len, vmaFlags is_anon prot, if is_anon then -1 else fd.toInt⟩,
            if is_anon then 0 else off⟩
          (.ok virt, { k with
            pcb := some (vmas.map (fillVma new))
            mmap_bump := if flags.getLsbD 4 then k.mmap_bump else k.mmap_bump + len })

/-- The system after boot. -/
def bootSys (supply : List Addr) : Sys Unit where
  v := bootState supply
  fd_table _ := ⟨false, 0, 0, 0, 0, List.replicate 11 0, 0⟩
  mmap_bump := 0x2000000
  pcb := some (some (List.replicate 32 ⟨⟨0, 0, 0, 0⟩, 0⟩))

/-! ## Opening by path -/

/-- Mounts have absolute paths. -/
def State.Absolute (v : State Disk) : Prop :=
  ∀ m, (v.mount_table m).valid = true → (v.mount_table m).path.head? = some slash

/-- `sys_open` and `vfs_open` agree on a path, and `sys_open` opens what the path denotes. -/
structure OneFile (path : Chars) : Prop where
  succeeds : 0 ≤ (sysOpen driver k path).1 ↔ 0 ≤ (vfsOpen driver k.v path).1
  denotes : ∀ fd : Nat, (sysOpen driver k path).1 = fd → ∃ mount rel inode v' i,
    findMount k.v path = some (mount, rel) ∧ pathWalk driver k.v mount.root rel = (.ok inode, v') ∧
    (sysOpen driver k path).2.v.owner fd = some i ∧
    ((sysOpen driver k path).2.v.inode_table i).ops = inode.ops ∧
    ((sysOpen driver k path).2.v.inode_table i).dev = inode.dev ∧
    ((sysOpen driver k path).2.v.inode_table i).ino = inode.ino

theorem upper_ne_slash {c : UInt8} (other : c ≠ slash) : upper c ≠ slash := by
  unfold upper
  split
  · rename_i letter
    rw [UInt8.le_iff_toNat_le, UInt8.le_iff_toNat_le] at letter
    intro same
    have value : (c - 32).toNat = 47 := congrArg UInt8.toNat same
    rw [UInt8.toNat_sub] at value
    change 97 ≤ c.toNat ∧ c.toNat ≤ 122 at letter
    change (2 ^ 8 - 32 + c.toNat) % 2 ^ 8 = 47 at value
    omega
  · exact other

/-- An 8.3 name does not start with a slash. -/
theorem head_format83Name {src : Chars} (noSlash : src.head? ≠ some slash) :
    (format83Name src).head? ≠ some slash := by
  unfold format83Name
  cases src with
  | nil => decide
  | cons c src =>
      by_cases stop : c ≠ dot ∧ c ≠ space
      · have base : ((c :: src).take 8).takeWhile (fun c => decide (c ≠ dot ∧ c ≠ space)) =
            c :: (src.take 7).takeWhile fun c => decide (c ≠ dot ∧ c ≠ space) := by
          simp only [List.take_succ_cons, List.takeWhile_cons, decide_eq_true stop, if_true]
        intro isSlash
        dsimp only at isSlash
        rw [base] at isSlash
        have first : upper c = slash := Option.some.inj isSlash
        exact upper_ne_slash (fun same => noSlash (congrArg some same)) first
      · have base : ((c :: src).take 8).takeWhile (fun c => decide (c ≠ dot ∧ c ≠ space)) = [] := by
          simp only [List.take_succ_cons, List.takeWhile_cons, decide_eq_false stop, Bool.false_eq_true, if_false]
        dsimp only
        rw [base]
        exact fun isSlash => absurd (Option.some.inj isSlash) (by decide)

theorem head_dropWhile (path : Chars) : (path.dropWhile (· = slash)).head? ≠ some slash := by
  intro isSlash
  have stop := List.head?_dropWhile_not (· = slash) path
  rw [isSlash] at stop
  cases stop

/-- No mount covers a relative path. -/
theorem findMount_relative {v : State Disk} (absolute : v.Absolute) {path : Chars}
    (relative : path.head? ≠ some slash) :
    findMount v path = none := by
  have skip : ∀ i, betterMount v path (none, 0) i = (none, 0) := fun i => by
    unfold betterMount
    dsimp only
    split
    · rfl
    · rename_i valid
      rw [Bool.not_eq_true', Bool.not_eq_false] at valid
      split
      · rfl
      · split
        · rfl
        · split
          · rename_i covers
            rw [Bool.and_eq_true, beq_iff_eq] at covers
            have isSlash := absolute i valid
            rw [← covers.1] at isSlash
            rw [List.head?_take] at isSlash
            split at isSlash
            · cases isSlash
            · exact absurd isSlash relative
          · rfl
  have all : ∀ is : List Nat, is.foldl (betterMount v path) (none, 0) = (none, 0) := fun is => by
    induction is with
    | nil => rfl
    | cons i is ih => rw [List.foldl_cons, skip, ih]
  unfold findMount
  rw [all]
  rfl

/-- `sys_open` finds nothing. -/
theorem sysOpen_fails (absolute : k.v.Absolute) (path : Chars) : sysOpen driver k path = (enoent, k) := by
  unfold sysOpen vfsOpen
  rw [findMount_relative absolute (head_format83Name (head_dropWhile path))]

/-- `sys_open` and `vfs_open` agree just on the paths of files that cannot be opened. -/
theorem one_file_iff (absolute : k.v.Absolute) (path : Chars) :
    OneFile driver k path ↔ ¬ k.v.CanOpen driver path := by
  have fails := sysOpen_fails driver k absolute path
  have isError : ¬ (0 : Int) ≤ enoent := by decide
  rcases vfsOpen_cases driver k.v path with ⟨can, fd, -, opened⟩ | ⟨cannot, failed⟩
  · refine iff_of_false (fun same => isError ?_) fun cannot => cannot can
    have success := same.succeeds
    rw [fails, opened] at success
    exact success.mpr (Int.natCast_nonneg fd)
  · refine iff_of_true ⟨?_, fun fd opened => ?_⟩ cannot
    · rw [fails]
      exact iff_of_false isError (Int.not_le.mpr failed)
    · rw [fails] at opened
      have negative : (fd : Int) < 0 := by
        rw [← opened]
        exact (by decide : enoent < 0)
      omega

theorem absolute_boot (supply : List Addr) : (bootState supply).Absolute := fun m valid => by
  rcases mount_boot valid with mount | mount
  · rw [mount]
    rfl
  · rw [mount]
    rfl

theorem one_file_iff_boot : OneFile smallDriver (bootSys [0x200020]) pathB := by
  refine (one_file_iff smallDriver (bootSys [0x200020]) (absolute_boot _) pathB).mpr ?_
  rintro ⟨⟨mount, rel, found, -, empty | ⟨-, resolves, -⟩⟩, -⟩
  · cases found
    cases empty
  · cases found
    obtain ⟨clus, size, entry, -⟩ := resolves
    cases entry

/-- `vfs_open` opens a file that `sys_open` does not find. -/
theorem file_not_found : (vfsOpen smallDriver (bootState [0x200020]) pathA).1 = 3 ∧
    (sysOpen smallDriver (bootSys [0x200020]) pathA).1 = enoent ∧
    ¬ OneFile smallDriver (bootSys [0x200020]) pathA := by
  have opened : (vfsOpen smallDriver (bootState [0x200020]) pathA).1 = 3 := by decide +kernel
  have failed : (sysOpen smallDriver (bootSys [0x200020]) pathA).1 = enoent := by decide +kernel
  refine ⟨opened, failed, fun same => ?_⟩
  have success := same.succeeds
  rw [failed] at success
  exact absurd (success.mpr (opened.symm ▸ by decide)) (by decide)

/-! ## Descriptors of open files -/

/-- The calls; `supply` is what `heap_malloc` has for one. -/
inductive SysCall where
  | vfsOpen (path : Chars) (supply : List Addr)
  | open (path : Chars) (supply : List Addr)
  | read (keys : List UInt8) (fd n : Nat)
  | write (fd : Nat) (buf : List UInt8)
  | lseek (fd : Nat) (offset : Int) (whence : Nat)
  | dup (oldfd : Nat)
  | fstat (fd : Nat)
  | mmap (addr len prot flags fd off : Word)
  | close (fd : Nat)

/-- The system, with the descriptors that were returned by an open and not closed. -/
structure SysSession (Disk : Type) where
  k : Sys Disk
  opened : List Nat

def SysSession.returned (s : SysSession Disk) : Int × Sys Disk → SysSession Disk
  | (result, k) => ⟨k, if 0 ≤ result then result.toNat :: s.opened else s.opened⟩

def SysSession.call (s : SysSession Disk) : SysCall → SysSession Disk
  | .vfsOpen path supply =>
      s.returned ((vfsOpen driver { s.k.v with supply := supply } path).1,
        { s.k with v := (vfsOpen driver { s.k.v with supply := supply } path).2 })
  | .open path supply => s.returned (sysOpen driver { s.k with v := { s.k.v with supply := supply } } path)
  | .read keys fd n => { s with k := (sysRead driver s.k keys fd n).elim s.k fun r => r.2.2 }
  | .write fd buf => { s with k := (sysWrite driver s.k fd buf).2 }
  | .lseek fd offset whence => { s with k := (sysLseek driver s.k fd offset whence).2 }
  | .dup oldfd => { s with k := (sysDup s.k oldfd).2 }
  | .fstat _ => s
  | .mmap addr len prot flags fd off => { s with k := (sysMmap s.k addr len prot flags fd off).2 }
  | .close fd => ⟨(sysClose s.k fd).2, s.opened.filter (· ≠ fd)⟩

/-- The calls on a descriptor act on the file that it is open for: they read and write it,
seek in it, copy the descriptor, tell its inode and size, map it and close it. -/
structure OneDescriptor (fd : Nat) : Prop where
  read : ∀ keys n, (sysRead driver k keys fd n).map (fun r => (r.1, r.2.1)) =
    some ((vfsRead driver k.v fd n).1, (vfsRead driver k.v fd n).2.1)
  write : ∀ buf, (sysWrite driver k fd buf).1 = (vfsWrite driver k.v fd buf).1
  lseek : (sysLseek driver k fd 0 0).1 = 0 ∧ ((sysLseek driver k fd 0 0).2.v.fd_table fd).offset = 0
  dup : (freeFd k.v none).isSome = true →
    ∃ newfd : Nat, (sysDup k fd).1 = newfd ∧ (sysDup k fd).2.v.owner newfd = k.v.owner fd
  fstat : ∃ i buf, k.v.owner fd = some i ∧ sysFstat k fd = .ok buf ∧ buf.ino = (k.v.inode_table i).ino
  mmap : ∀ addr len prot flags off : Word, (sysMmap k addr len prot flags (BitVec.ofNat 64 fd) off).1 ≠ .error ebadf
  close : ¬ (sysClose k fd).2.v.IsOpen fd

/-- The table of `kernel/kernel.c` has no file, and no standard descriptor came from an open. -/
structure Forgotten (s : SysSession Disk) : Prop where
  empty : ∀ fd, s.k.file fd = none
  large : ∀ fd ∈ s.opened, 3 ≤ fd

theorem Forgotten.returned {s : SysSession Disk} (forgotten : Forgotten s) {result : Int} {k : Sys Disk}
    (table : k.fd_table = s.k.fd_table) (large : result < 0 ∨ ∃ fd : Nat, 3 ≤ fd ∧ result = fd) :
    Forgotten (s.returned (result, k)) := by
  refine ⟨fun fd => ?_, fun fd member => ?_⟩
  · show k.file fd = none
    rw [Sys.file, table]
    exact forgotten.empty fd
  · rcases large with failed | ⟨new, isLarge, rfl⟩
    · rw [SysSession.returned, if_neg (Int.not_le.mpr failed)] at member
      exact forgotten.large fd member
    · rw [SysSession.returned, if_pos (Int.natCast_nonneg new), Int.toNat_natCast] at member
      rcases List.mem_cons.mp member with rfl | old
      · exact isLarge
      · exact forgotten.large fd old

/-- No call fills the table. -/
theorem Forgotten.call {s : SysSession Disk} (forgotten : Forgotten s) (call : SysCall) :
    Forgotten (s.call driver call) := by
  have same : ∀ k : Sys Disk, k.fd_table = s.k.fd_table → Forgotten { s with k := k } := fun k table =>
    ⟨fun fd => by
      show k.file fd = none
      rw [Sys.file, table]
      exact forgotten.empty fd, forgotten.large⟩
  have opens : ∀ v path, (vfsOpen driver v path).1 < 0 ∨ ∃ fd : Nat, 3 ≤ fd ∧ (vfsOpen driver v path).1 = fd :=
    fun v path => (vfsOpen_cases driver v path).elim (fun success => .inr success.2) fun failed => .inl failed.2
  cases call with
  | vfsOpen path supply => exact forgotten.returned rfl (opens _ path)
  | «open» path supply => exact forgotten.returned rfl (opens _ _)
  | read keys fd n =>
      refine same _ ?_
      unfold sysRead
      split
      · cases readLine n [] keys <;> rfl
      · split <;> rfl
  | write fd buf =>
      refine same _ ?_
      unfold sysWrite
      split <;> rfl
  | lseek fd offset whence =>
      refine same _ ?_
      unfold sysLseek
      rw [forgotten.empty]
      split <;> rfl
  | dup oldfd =>
      refine same _ ?_
      unfold sysDup
      rw [forgotten.empty]
      split <;> rfl
  | fstat fd => exact forgotten
  | mmap addr len prot flags fd off =>
      refine same _ ?_
      unfold sysMmap
      dsimp only
      split
      · rfl
      · split
        · rfl
        · cases s.k.pcb <;> rfl
  | close fd =>
      exact ⟨forgotten.empty, fun fd' member => forgotten.large fd' (List.mem_filter.mp member).1⟩

/-- The calls that look a descriptor up in the table of `kernel/kernel.c` do not know it. -/
structure Refused (fd : Nat) : Prop where
  lseek : ∀ offset whence, sysLseek driver k fd offset whence = (ebadf, k)
  dup : sysDup k fd = (ebadf, k)
  fstat : sysFstat k fd = .error ebadf
  mmap : ∀ addr len prot flags fd' off : Word, fd'.toNat = fd → flags.getLsbD 5 = false → fd'.msb = false →
    sysMmap k addr len prot flags fd' off = (.error ebadf, k)

theorem Forgotten.refused {s : SysSession Disk} (forgotten : Forgotten s) {fd : Nat} (large : 3 ≤ fd) :
    Refused driver s.k fd := by
  have unknown := forgotten.empty fd
  refine ⟨fun offset whence => ?_, ?_, ?_, fun addr len prot flags fd' off same file positive => ?_⟩
  · unfold sysLseek
    rw [if_neg (by omega), unknown]
  · unfold sysDup
    rw [if_neg (by omega), unknown]
  · unfold sysFstat
    rw [if_neg (by omega), unknown]
  · unfold sysMmap
    dsimp only
    rw [same, unknown, file, positive]
    rfl

/-- `sys_lseek`, `sys_dup`, `sys_fstat` and `sys_mmap` refuse every descriptor of an open file,
so none is one for all calls. -/
theorem descriptors_differ {s : SysSession Disk} (empty : ∀ fd, (s.k.fd_table fd).in_use = false)
    (fresh : s.opened = []) (calls : List SysCall) :
    ∀ fd ∈ (Run.final (SysSession.call driver) s calls).opened,
      Refused driver (Run.final (SysSession.call driver) s calls).k fd ∧
        ¬ OneDescriptor driver (Run.final (SysSession.call driver) s calls).k fd := by
  have start : Forgotten s :=
    ⟨fun fd => by rw [Sys.file, empty, Bool.not_false, Bool.or_true, if_pos rfl], fun fd member => by
      rw [fresh] at member
      cases member⟩
  have forgotten : Forgotten (Run.final (SysSession.call driver) s calls) :=
    Run.invariant (fun s call forgotten => forgotten.call driver call) start calls
  intro fd member
  have refused := forgotten.refused driver (forgotten.large fd member)
  refine ⟨refused, fun one => ?_⟩
  obtain ⟨i, buf, -, found, -⟩ := one.fstat
  rw [refused.fstat] at found
  cases found

/-- The system with `/A.TXT` open. -/
def openA : SysSession Unit :=
  Run.final (SysSession.call smallDriver) ⟨bootSys [], []⟩ [.vfsOpen pathA [0x200020]]

theorem descriptors_differ_boot : ¬ OneDescriptor smallDriver openA.k 3 :=
  (descriptors_differ smallDriver (fun _ => rfl) rfl [.vfsOpen pathA [0x200020]] 3 (by decide +kernel)).2

/-- `sys_read` reads the file behind a descriptor that `sys_lseek` does not know. -/
theorem descriptor_not_seekable : openA.opened = [3] ∧
    (sysRead smallDriver openA.k [] 3 2).map (·.1) = some 2 ∧ (sysLseek smallDriver openA.k 3 0 0).1 = ebadf ∧
    ¬ OneDescriptor smallDriver openA.k 3 := by
  have refused : (sysLseek smallDriver openA.k 3 0 0).1 = ebadf := by decide +kernel
  refine ⟨by decide +kernel, by decide +kernel, refused, fun one => ?_⟩
  have success := one.lseek.1
  rw [refused] at success
  exact absurd success (by decide)

end Systrix.Vfs
