import Systrix.Fat.Volume
import Systrix.Jfs.Directory
import Systrix.Lib.BoundedListing
import Systrix.Vfs.Core

/-!
# Listing directories

`vfs_readdir` over the `readdir` operations of the two file systems, and what repeated calls give.
-/

namespace Systrix.Vfs

open BoundedListing ByteMemory Fat Machine

/-- The two file systems. -/
structure Volumes where
  fat : Fat.Volume
  jfs : Jfs.Volume

/-- What a call stores: the records in `buf`, one behind the other, and how much of its temporary they took. -/
structure Listing where
  records : List (List UInt8)
  tmp : Nat

/-- A call that has stored nothing. -/
def Listing.empty : Listing := ⟨[], 0⟩

/-- The bytes in `buf`. -/
def Listing.written (l : Listing) : Nat := l.records.flatten.length

/-- A record goes into the temporary and from there to the end of what is written. -/
def Listing.put (l : Listing) (record : List UInt8) : Listing := ⟨l.records ++ [record], max l.tmp record.length⟩

/-! ## FAT32 -/

/-- The bytes that `fat32_ops_readdir` clears in its temporary and copies for each entry. -/
def fatRecordSize : Nat := 64

/-- `sizeof(tmp)` -/
def fatTmpSize : Nat := 32

/-- The name as it is shown: both parts up to a space, with a dot between them. -/
def displayName (de : Entry) : Chars :=
  let base := (de.take 8).takeWhile (· ≠ space)
  if de.byte 8 ≠ space then base ++ dot :: ((de.drop 8).take 3).takeWhile (· ≠ space) else base

/-- What is copied for an entry. -/
def fatRecord (de : Entry) : List UInt8 :=
  displayName de ++ List.replicate (fatRecordSize - (displayName de).length) 0

/-- An entry in the loops of `fat32_ops_readdir`; an error is a jump to their end. -/
def fatVisit (count : Nat) (l : Listing) (de : Entry) : Except Listing Listing :=
  if de.IsEnd then .error l
  else if de.IsDeleted then .ok l
  else if de.IsLabel then .ok l
  else if de.IsDir then .ok l
  else if l.written + fatRecordSize > count then .error l
  else .ok (l.put (fatRecord de))

/-- The loop over the clusters; the fuel bounds them. -/
def fatLoop (vol : Fat.Volume) (count : Nat) : (fuel clus : Nat) → Listing → Option Listing
  | 0, _, _ => none
  | fuel + 1, clus, l =>
      if clus < endOfChain ∧ l.written + fatRecordSize ≤ count then
        match (clusterEntries vol clus).foldlM (fatVisit count) l with
        | .error l => some l
        | .ok l => fatLoop vol count fuel (fat32NextCluster vol clus) l
      else some l

/-- `fat32_ops_readdir`, with the offset behind the call.  No chain that ends has more clusters than the fuel. -/
def fat32OpsReaddir (vol : Fat.Volume) (inode : Inode) (count offset : Nat) : Option (Listing × Nat) :=
  (fatLoop vol count (endOfChain + 1) (u32 inode.ino) .empty).map fun l => (l, u64 (offset + l.written))

/-! ## JFS -/

/-- `de.ino` -/
def direntIno (de : List UInt8) : Nat := load (fun i => de.getD i 0) 64 4

/-- The slots of a directory, in the order they are read. -/
def jfsEntries (s : Jfs.Volume) (dir_ino : Nat) : List (List UInt8) :=
  (Jfs.scanBlocks s dir_ino).flatMap fun b =>
    (List.range Jfs.slots).map fun slot => slice (Jfs.blockOf s dir_ino b) (slot * Jfs.direntrySize) Jfs.direntrySize

/-- A slot in the loops of `jfs_ops_readdir`; both end when there is no room for one more. -/
def jfsVisit (count : Nat) (l : Listing) (de : List UInt8) : Except Listing Listing :=
  if l.written + Jfs.direntrySize > count then .error l
  else if direntIno de = 0 then .ok l
  else .ok (l.put de)

/-- `jfs_ops_readdir`, with the offset behind the call. -/
def jfsOpsReaddir (s : Jfs.Volume) (inode : Inode) (count offset : Nat) : Except Int (Listing × Nat) :=
  let dir_ino := u32 inode.ino
  if Jfs.jfsMaxInodes ≤ dir_ino ∨ (s.inodes dir_ino).type ≠ .dir then .error enotdir
  else
    let l := outcome ((jfsEntries s dir_ino).foldlM (jfsVisit count) .empty)
    .ok (l, u64 (offset + l.written))

/-! ## The call -/

/-- `ops->readdir` -/
def opsReaddir (vol : Volumes) (inode : Inode) (count offset : Nat) : Option (Except Int (Listing × Nat)) :=
  match inode.ops with
  | .fat32 => (fat32OpsReaddir vol.fat inode count offset).map .ok
  | .jfs => some (jfsOpsReaddir vol.jfs inode count offset)

/-- `vfs_readdir`: the offset it passes on is its own, and starts at 0. -/
def Volumes.vfsReaddir (v : State Volumes) (fd count : Nat) : Option (Except Int Listing × State Volumes) :=
  match (fdGet v fd).bind Fd.inode with
  | none => some (.error ebadf, v)
  | some i => (opsReaddir v.disk (v.inode_table i) count 0).map fun result => (result.map Prod.fst, v)

/-- The state after some calls. -/
def readdirRun (v : State Volumes) (fd count : Nat) : Nat → State Volumes
  | 0 => v
  | n + 1 =>
      match Volumes.vfsReaddir (readdirRun v fd count n) fd count with
      | none => readdirRun v fd count n
      | some (_, v) => v

/-! ## Directories -/

/-- A descriptor on a directory of the FAT volume, whose chain of clusters ends. -/
structure OpenFat (v : State Volumes) (fd : Nat) where
  inode : Nat
  clusters : List Nat
  opened : (fdGet v fd).bind Fd.inode = some inode
  ops : (v.inode_table inode).ops = .fat32
  chain : Chain v.disk.fat (u32 (v.inode_table inode).ino) clusters

/-- A descriptor on a directory of the JFS volume. -/
structure OpenJfs (v : State Volumes) (fd : Nat) where
  inode : Nat
  opened : (fdGet v fd).bind Fd.inode = some inode
  ops : (v.inode_table inode).ops = .jfs
  inside : u32 (v.inode_table inode).ino < Jfs.jfsMaxInodes
  isDir : (v.disk.jfs.inodes (u32 (v.inode_table inode).ino)).type = .dir

variable {v : State Volumes} {fd : Nat}

/-- The entries of a directory in a cluster chain. -/
def OpenFat.entries (dir : OpenFat v fd) : List Entry := dir.clusters.flatMap (clusterEntries v.disk.fat)

/-- The files and subdirectories of a directory. -/
def OpenFat.live (dir : OpenFat v fd) : List Entry :=
  BoundedListing.live Entry.IsEnd (fun de => de.IsDeleted ∨ de.IsLabel) dir.entries

/-- The slots in use. -/
def OpenJfs.live (dir : OpenJfs v fd) : List (List UInt8) :=
  (jfsEntries v.disk.jfs (u32 (v.inode_table dir.inode).ino)).filter (direntIno · ≠ 0)

/-- A descriptor on a directory of either file system. -/
inductive OpenDir (v : State Volumes) (fd : Nat) where
  | fat (dir : OpenFat v fd)
  | jfs (dir : OpenJfs v fd)

namespace OpenDir

/-- The size of the temporary: `tmp`, or the entry `de` of the JFS. -/
def tmpSize : OpenDir v fd → Nat
  | .fat _ => fatTmpSize
  | .jfs _ => Jfs.direntrySize

/-- The live entries, each as its bytes on the disk. -/
def live : OpenDir v fd → List (List UInt8)
  | .fat dir => dir.live
  | .jfs dir => dir.live

/-- The record for an entry. -/
def record : OpenDir v fd → List UInt8 → List UInt8
  | .fat _ => fatRecord
  | .jfs _ => id

/-- A lookup of the name in the record finds the file of the entry; this is asked of a FAT directory. -/
def Found : OpenDir v fd → List UInt8 → Prop
  | .fat dir, de =>
      fat32FindRawIn v.disk.fat (to83 ((fatRecord de).takeWhile (· ≠ 0))) (endOfChain + 1)
        (u32 (v.inode_table dir.inode).ino) = some (some (Entry.cluster de, Entry.size de))
  | .jfs _, _ => True

end OpenDir

/-- What is asked of the calls: `listing i` is what the call after `i` others stores. -/
structure ListedBy (dir : OpenDir v fd) (count : Nat) (listing : Nat → Listing) : Prop where
  answers : ∀ i, (Volumes.vfsReaddir (readdirRun v fd count i) fd count).map Prod.fst = some (.ok (listing i))
  /-- The first calls give every entry once, and all others nothing. -/
  complete : ∃ calls order, List.Perm order dir.live ∧
    ((List.range calls).flatMap fun i => (listing i).records) = order.map dir.record ∧
    ∀ i, calls ≤ i → (listing i).written = 0
  inside : ∀ i, (listing i).written ≤ count ∧ (listing i).tmp ≤ dir.tmpSize
  names : ∀ i, ∀ de ∈ dir.live, dir.record de ∈ (listing i).records → dir.Found de

/-- Repeated calls list the directory. -/
def Listed (dir : OpenDir v fd) (count : Nat) : Prop := ∃ listing, ListedBy dir count listing

end Systrix.Vfs

/-!
## What listings give

A call gives the first entries, as many as there is room for, and the next call gives the same ones again.
-/

namespace Systrix.Vfs

open BoundedListing Fat Machine

/-! ## Records -/

@[simp] theorem written_empty : Listing.empty.written = 0 := rfl

theorem written_put (l : Listing) (record : List UInt8) : (l.put record).written = l.written + record.length := by
  simp only [Listing.written, Listing.put, List.flatten_append, List.flatten_cons, List.flatten_nil, List.append_nil,
    List.length_append]

theorem length_displayName_le (de : Entry) : (displayName de).length ≤ 12 := by
  have base : ((de.take 8).takeWhile (· ≠ space)).length ≤ 8 :=
    Nat.le_trans (List.takeWhile_prefix _).length_le (List.length_take_le 8 de)
  have ext : (((de.drop 8).take 3).takeWhile (· ≠ space)).length ≤ 3 :=
    Nat.le_trans (List.takeWhile_prefix _).length_le (List.length_take_le 3 _)
  rw [displayName]
  split
  · rw [List.length_append, List.length_cons]
    omega
  · exact Nat.le_trans base (by decide)

@[simp] theorem length_fatRecord (de : Entry) : (fatRecord de).length = fatRecordSize := by
  have short := length_displayName_le de
  rw [fatRecord, List.length_append, List.length_replicate, fatRecordSize]
  omega

/-! ## A call on a FAT directory -/

/-- The entries that a call passes over; subdirectories are among them. -/
def Unlisted (de : Entry) : Prop := de.IsDeleted ∨ de.IsLabel ∨ de.IsDir

instance (de : Entry) : Decidable (Unlisted de) := inferInstanceAs (Decidable (_ ∨ _))

theorem fatVisit_visits (count : Nat) :
    Visits Entry.IsEnd Unlisted (fun l => count < l.written + fatRecordSize) (fun l de => l.put (fatRecord de))
      (fatVisit count) where
  at_full l de isFull := by
    rw [fatVisit]
    split_ifs
    · exact .inr rfl
    · exact .inl rfl
    · exact .inl rfl
    · exact .inl rfl
    · exact .inr rfl
  at_stop l de _ isEnd := if_pos isEnd
  at_skip l de _ inside unlisted := by
    rw [fatVisit, if_neg inside]
    split_ifs with deleted label dir
    · rfl
    · rfl
    · rfl
    · exact absurd unlisted (not_or.mpr ⟨deleted, not_or.mpr ⟨label, dir⟩⟩)
  at_use l de room inside listed := by
    obtain ⟨deleted, listed⟩ := not_or.mp listed
    obtain ⟨label, dir⟩ := not_or.mp listed
    rw [fatVisit, if_neg inside, if_neg deleted, if_neg label, if_neg dir, if_neg room]

variable {vol : Fat.Volume} {clus : Nat} {clusters : List Nat}

/-- With enough fuel the loop reaches the end of the directory. -/
theorem fatLoop_eq (chain : Chain vol clus clusters) {fuel : Nat} (enough : clusters.length < fuel) (count : Nat)
    (l : Listing) :
    fatLoop vol count fuel clus l =
      some (outcome ((clusters.flatMap (clusterEntries vol)).foldlM (fatVisit count) l)) := by
  induction chain generalizing fuel l with
  | done isEnd =>
      obtain ⟨fuel, rfl⟩ := Nat.exists_eq_succ_of_ne_zero (Nat.ne_of_gt enough)
      rw [fatLoop, if_neg fun inside => absurd inside.1 (Nat.not_lt.mpr isEnd)]
      rfl
  | @link clus clusters inside _ ih =>
      obtain ⟨fuel, rfl⟩ := Nat.exists_eq_succ_of_ne_zero (Nat.ne_of_gt (Nat.zero_lt_of_lt enough))
      by_cases room : l.written + fatRecordSize ≤ count
      · rw [fatLoop, if_pos ⟨inside, room⟩, List.flatMap_cons, List.foldlM_append]
        cases (clusterEntries vol clus).foldlM (fatVisit count) l with
        | error l => rfl
        | ok l => exact ih (Nat.lt_of_succ_lt_succ enough) l
      · rw [fatLoop, if_neg fun enters => room enters.2,
          (fatVisit_visits count).outcome_of_full (Nat.not_le.mp room)]

/-- A call gives the first files of the directory, as many as there is room for. -/
theorem fat32OpsReaddir_eq {inode : Inode} (chain : Chain vol (u32 inode.ino) clusters) (count offset : Nat) :
    ∃ l, fat32OpsReaddir vol inode count offset = some (l, u64 (offset + l.written)) ∧
      l = ((live Entry.IsEnd Unlisted (clusters.flatMap (clusterEntries vol))).take (count / fatRecordSize)).foldl
        (fun l de => l.put (fatRecord de)) .empty := by
  refine ⟨_, ?_, rfl⟩
  have reads := (fatVisit_visits count).outcome_eq Listing.written (by decide) (fun _ => Iff.rfl)
    (clusters.flatMap (clusterEntries vol))
    (fun de _ l => (written_put l _).trans (congrArg (l.written + ·) (length_fatRecord de))) .empty
  rw [written_empty, Nat.sub_zero] at reads
  rw [fat32OpsReaddir, fatLoop_eq chain (Nat.lt_succ_of_le chain.length_le), reads]
  rfl

/-! ## A call on a JFS directory -/

theorem jfsVisit_visits (count : Nat) :
    Visits (fun _ => False) (fun de => direntIno de = 0) (fun l => count < l.written + Jfs.direntrySize) Listing.put
      (jfsVisit count) where
  at_full l de isFull := .inr (if_pos isFull)
  at_stop _ _ _ isEnd := isEnd.elim
  at_skip l de room _ unused := by rw [jfsVisit, if_neg room, if_pos unused]
  at_use l de room _ used := by rw [jfsVisit, if_neg room, if_neg used]

theorem length_of_mem_jfsEntries {s : Jfs.Volume} {dir_ino : Nat} {de : List UInt8} (member : de ∈ jfsEntries s dir_ino) :
    de.length = Jfs.direntrySize := by
  obtain ⟨b, -, member⟩ := List.mem_flatMap.mp member
  obtain ⟨slot, -, rfl⟩ := List.mem_map.mp member
  exact ByteMemory.length_slice _ _ _

/-- A call gives the first slots in use, as many as there is room for. -/
theorem jfsOpsReaddir_eq {s : Jfs.Volume} {inode : Inode} (inside : u32 inode.ino < Jfs.jfsMaxInodes)
    (isDir : (s.inodes (u32 inode.ino)).type = .dir) (count offset : Nat) :
    ∃ l, jfsOpsReaddir s inode count offset = .ok (l, u64 (offset + l.written)) ∧
      l = (((jfsEntries s (u32 inode.ino)).filter (direntIno · ≠ 0)).take (count / Jfs.direntrySize)).foldl
        Listing.put .empty := by
  refine ⟨_, ?_, rfl⟩
  have reads := (jfsVisit_visits count).outcome_eq Listing.written (by decide) (fun _ => Iff.rfl)
    (jfsEntries s (u32 inode.ino))
    (fun de member l => (written_put l _).trans (congrArg (l.written + ·) (length_of_mem_jfsEntries member))) .empty
  have used : live (fun _ => False) (fun de => direntIno de = 0) (jfsEntries s (u32 inode.ino)) =
      (jfsEntries s (u32 inode.ino)).filter (direntIno · ≠ 0) := by
    rw [live_eq_filter fun _ _ => not_false]
    simp only [ne_eq, decide_not]
  rw [written_empty, Nat.sub_zero, used] at reads
  rw [jfsOpsReaddir, if_neg (not_or.mpr ⟨Nat.not_le.mpr inside, not_not.mpr isDir⟩), reads]

/-! ## Repeated calls -/

variable {v : State Volumes} {fd : Nat}

/-- The calls change nothing that the next one depends on. -/
theorem readdirRun_eq (v : State Volumes) (fd count n : Nat) : readdirRun v fd count n = v := by
  induction n with
  | zero => rfl
  | succ n ih =>
      rw [readdirRun, ih, Volumes.vfsReaddir]
      cases (fdGet v fd).bind Fd.inode with
      | none => rfl
      | some i =>
          dsimp only
          cases opsReaddir v.disk (v.inode_table i) count 0 with
          | none => rfl
          | some result => rfl

/-- Every record has bytes. -/
theorem OpenDir.record_ne_nil (dir : OpenDir v fd) {de : List UInt8} (member : de ∈ dir.live) : dir.record de ≠ [] := by
  cases dir with
  | fat dir => exact List.ne_nil_of_length_eq_add_one (length_fatRecord de)
  | jfs dir => exact List.ne_nil_of_length_eq_add_one (length_of_mem_jfsEntries (List.mem_of_mem_filter member))

/-- The call on a directory that has no live entries. -/
theorem vfsReaddir_of_empty (dir : OpenDir v fd) (count : Nat) (nothing : dir.live = []) :
    Volumes.vfsReaddir v fd count = some (.ok .empty, v) := by
  cases dir with
  | fat dir =>
      obtain ⟨l, call, listing⟩ := fat32OpsReaddir_eq dir.chain count 0
      have unlisted : live Entry.IsEnd Unlisted dir.entries = [] :=
        live_eq_nil_of_imp (fun _ skipped => skipped.imp_right .inl) nothing
      rw [show dir.clusters.flatMap (clusterEntries v.disk.fat) = dir.entries from rfl, unlisted, List.take_nil] at listing
      rw [Volumes.vfsReaddir, dir.opened]
      simp only [opsReaddir, dir.ops, call, listing]
      rfl
  | jfs dir =>
      obtain ⟨l, call, listing⟩ := jfsOpsReaddir_eq dir.inside dir.isDir count 0
      rw [show (jfsEntries v.disk.jfs (u32 (v.inode_table dir.inode).ino)).filter (direntIno · ≠ 0) = [] from nothing,
        List.take_nil] at listing
      rw [Volumes.vfsReaddir, dir.opened]
      simp only [opsReaddir, dir.ops, call, listing]
      rfl

/-- What is listed by calls that all give the same, and nothing in the end, is empty. -/
theorem ListedBy.live_eq_nil {dir : OpenDir v fd} {count : Nat} {listing : Nat → Listing}
    (listed : ListedBy dir count listing) : dir.live = [] := by
  obtain ⟨calls, order, perm, whole, silent⟩ := listed.complete
  have same : ∀ i, listing i = listing calls := by
    intro i
    have first := listed.answers i
    have last := listed.answers calls
    rw [readdirRun_eq] at first last
    exact Except.ok.inj (Option.some.inj (first.symm.trans last))
  have bare : (listing calls).records.flatten = [] := List.eq_nil_of_length_eq_zero (silent calls (Nat.le_refl calls))
  refine List.eq_nil_iff_forall_not_mem.mpr fun de member => dir.record_ne_nil member ?_
  have given : dir.record de ∈ order.map dir.record := List.mem_map_of_mem (perm.mem_iff.mpr member)
  rw [← whole] at given
  obtain ⟨i, -, given⟩ := List.mem_flatMap.mp given
  rw [same i] at given
  exact List.flatten_eq_nil_iff.mp bare _ given

/-- Repeated calls list a directory just if there is nothing in it. -/
theorem listed_iff (dir : OpenDir v fd) (count : Nat) : Listed dir count ↔ dir.live = [] := by
  refine ⟨fun ⟨_, listed⟩ => listed.live_eq_nil, fun nothing => ⟨fun _ => .empty, ?_, ?_, ?_, ?_⟩⟩
  · intro i
    rw [readdirRun_eq, vfsReaddir_of_empty dir count nothing]
    rfl
  · refine ⟨0, [], nothing ▸ List.Perm.refl _, rfl, fun _ _ => rfl⟩
  · exact fun i => ⟨Nat.zero_le _, Nat.zero_le _⟩
  · intro i de member
    rw [nothing] at member
    cases member

/-- A driver with the listings of the two file systems. -/
def Driver.withListings (driver : Driver Volumes) : Driver Volumes :=
  { driver with
    fatReaddir := fun vol ino count =>
      (fatLoop vol.fat count (endOfChain + 1) (u32 ino) .empty).elim [] fun l => l.records.flatten
    jfsReaddir := fun vol ino count =>
      (outcome ((jfsEntries vol.jfs (u32 ino)).foldlM (jfsVisit count) .empty)).records.flatten }

/-- The call of the core, with these listings, gives the bytes that this one stores. -/
theorem vfsReaddir_withListings (driver : Driver Volumes) (dir : OpenDir v fd) (count : Nat) :
    (Volumes.vfsReaddir v fd count).map (fun result => result.1.map fun l => l.records.flatten) =
      some (Vfs.vfsReaddir driver.withListings v fd count) := by
  cases dir with
  | fat dir =>
      obtain ⟨f, found, inode⟩ := Option.bind_eq_some_iff.mp dir.opened
      have ends := fatLoop_eq dir.chain (Nat.lt_succ_of_le dir.chain.length_le) count .empty
      rw [Volumes.vfsReaddir, dir.opened]
      simp only [opsReaddir, dir.ops, fat32OpsReaddir, ends, Vfs.vfsReaddir, found, inode, Driver.withListings]
      rfl
  | jfs dir =>
      obtain ⟨f, found, inode⟩ := Option.bind_eq_some_iff.mp dir.opened
      have isDir := not_or.mpr ⟨Nat.not_le.mpr dir.inside, not_not.mpr dir.isDir⟩
      rw [Volumes.vfsReaddir, dir.opened]
      simp only [opsReaddir, dir.ops, jfsOpsReaddir, if_neg isDir, Vfs.vfsReaddir, found, inode, Driver.withListings]
      rfl

/-- A volume of one sector to the cluster; its root directory is cluster 2 and has the file `A`. -/
def oneFile : Fat.Volume where
  disk lba := if lba = 0 then fun i => if i < 11 then 0xFF else 0x0F
    else fun i => if i = 0 then 65 else if i < 11 then space else if i = 11 then 0x20 else 0
  fat32_spc := 1
  fat32_fat_start := 0
  fat32_data_start := 1

/-- The system with this volume, and its root directory at descriptor 3. -/
def rootOpen : State Volumes :=
  let v := vfsRegisterFat32 { vfsCoreInit ⟨oneFile, Jfs.jfsInit fun _ _ => 0⟩ with supply := [4096] } 2
  (v.setInode 0 (v.mount_table 0).root).setFd 3 ⟨true, some 0, 0, 0, itDir, none⟩

/-- The root directory of this system. -/
def rootDir : OpenDir rootOpen 3 :=
  .fat { inode := 0, clusters := [2], opened := rfl, ops := rfl
         chain := .link (by decide) (.done (by decide +kernel)) }

/-- Its listing never ends. -/
theorem not_listed_rootDir : ¬Listed rootDir 64 := by
  rw [listed_iff]
  decide +kernel

end Systrix.Vfs
