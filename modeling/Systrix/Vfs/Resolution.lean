import Systrix.Vfs.Tables

/-!
# Resolving paths

When `vfs_open` finds a file: a mount covers the path, the volume has its components, and
there is room for the objects and in the tables.
-/

namespace Systrix.Vfs

variable {Disk : Type} (driver : Driver Disk) {v : State Disk}

/-- The volume has a path of these names below the directory. -/
def Driver.Resolves (disk : Disk) (ops : Ops) : Nat → List Chars → Prop
  | _, [] => True
  | dir, name :: names =>
      match ops with
      | .fat32 => ∃ clus size, driver.fatFind disk dir (to83 name) = some (clus, size) ∧
          Driver.Resolves disk ops clus names
      | .jfs => ∃ ino attr, driver.jfsFind disk dir name = .ok (ino, attr) ∧
          Driver.Resolves disk ops ino names

/-- The volume has the names, and on a FAT volume there is memory for an object each. -/
def State.CanWalk (v : State Disk) (ops : Ops) (dir : Nat) (names : List Chars) : Prop :=
  driver.Resolves v.disk ops dir names ∧ (ops = .fat32 → names.length ≤ v.supply.length)

/-- A file of this path can be opened. -/
def State.CanOpen (v : State Disk) (path : Chars) : Prop :=
  (∃ mount rel, findMount v path = some (mount, rel) ∧ mount.root.valid = true ∧
    (rel = [] ∨ rel.length < maxPath ∧ v.CanWalk driver mount.root.ops mount.root.ino (components rel))) ∧
  (∃ fd, 3 ≤ fd ∧ fd < fdMax ∧ (v.fd_table fd).in_use = false) ∧
  ∃ i < maxInode, (v.inode_table i).valid = false

theorem walkLoop_cases (names : List Chars) (cur : Inode) :
    (v.CanWalk driver cur.ops cur.ino names ∧ ∃ inode v', walkLoop driver v cur names = (.ok inode, v') ∧
      v'.fd_table = v.fd_table ∧ v'.inode_table = v.inode_table) ∨
    (¬ v.CanWalk driver cur.ops cur.ino names ∧ ∃ e v', e < 0 ∧ walkLoop driver v cur names = (.error e, v')) := by
  induction names generalizing cur v with
  | nil => exact .inl ⟨⟨trivial, fun _ => Nat.zero_le _⟩, cur, v, rfl, rfl, rfl⟩
  | cons name names ih =>
      obtain ⟨valid, dir, dev, rdev, refcount, attr, ops, fs_data⟩ := cur
      unfold walkLoop lookup State.CanWalk
      cases ops with
      | jfs =>
          dsimp only
          unfold jfsLookup
          cases found : driver.jfsFind v.disk dir name with
          | error e =>
              refine .inr ⟨?_, e, v, driver.jfsFind_neg _ _ _ e found, rfl⟩
              rintro ⟨⟨ino, attr, isFound, -⟩, -⟩
              rw [found] at isFound
              cases isFound
          | ok entry =>
              obtain ⟨ino, attr⟩ := entry
              dsimp only
              have same : (driver.Resolves v.disk .jfs dir (name :: names) ∧ (Ops.jfs = .fat32 →
                  (name :: names).length ≤ v.supply.length)) ↔ v.CanWalk driver .jfs ino names := by
                refine and_congr ⟨?_, fun resolves => ⟨ino, attr, found, resolves⟩⟩ ⟨nofun, nofun⟩
                rintro ⟨ino', attr', isFound, resolves⟩
                rw [found] at isFound
                cases isFound
                exact resolves
              rw [same]
              exact ih ⟨true, ino, dev, 0, 1, { attr with
                type := if attr.type = itDir then itDir else itFile, nlink := 1, blksize := 512 }, .jfs, none⟩
      | fat32 =>
          dsimp only
          unfold fat32Lookup
          cases found : driver.fatFind v.disk dir (to83 name) with
          | none =>
              refine .inr ⟨?_, enoent, v, by decide, rfl⟩
              rintro ⟨⟨clus, size, isFound, -⟩, -⟩
              rw [found] at isFound
              cases isFound
          | some entry =>
              obtain ⟨clus, size⟩ := entry
              dsimp only
              unfold newFile
              cases memory : v.supply with
              | nil =>
                  refine .inr ⟨?_, enomem, v, by decide, rfl⟩
                  rintro ⟨-, enough⟩
                  exact absurd (enough rfl) (Nat.not_succ_le_zero _)
              | cons a supply =>
                  dsimp only
                  have same : (driver.Resolves v.disk .fat32 dir (name :: names) ∧ (Ops.fat32 = .fat32 →
                      (name :: names).length ≤ (a :: supply).length)) ↔
                      driver.Resolves v.disk .fat32 clus names ∧
                        (Ops.fat32 = .fat32 → names.length ≤ supply.length) := by
                    refine and_congr ⟨?_, fun resolves => ⟨clus, size, found, resolves⟩⟩
                      (forall_congr' fun _ => Nat.succ_le_succ_iff)
                    rintro ⟨clus', size', isFound, resolves⟩
                    rw [found] at isFound
                    cases isFound
                    exact resolves
                  rw [same]
                  rcases ih (v := { v with
                      files := Function.update v.files a (some ⟨true, size, clus, clus, 0, to83 name, dir⟩)
                      supply := supply })
                    ⟨true, clus, dev, 0, 1, ⟨itFile, 0o644, 0, 0, size, 1, 512, (size + 511) / 512, 0, 0, 0⟩,
                      .fat32, some a⟩ with ⟨canWalk, inode, v', walk, fds, inodes⟩ | failed
                  · exact .inl ⟨canWalk, inode, v', walk, fds, inodes⟩
                  · exact .inr failed

/-- `path_walk` succeeds just when the path is short enough and there. -/
theorem pathWalk_outcome (root : Inode) (rel : Chars) :
    ((root.valid = true ∧ (rel = [] ∨ rel.length < maxPath ∧ v.CanWalk driver root.ops root.ino (components rel))) ∧
      ∃ inode v', pathWalk driver v root rel = (.ok inode, v') ∧
        v'.fd_table = v.fd_table ∧ v'.inode_table = v.inode_table) ∨
    (¬ (root.valid = true ∧ (rel = [] ∨ rel.length < maxPath ∧ v.CanWalk driver root.ops root.ino (components rel))) ∧
      ∃ e v', e < 0 ∧ pathWalk driver v root rel = (.error e, v')) := by
  unfold pathWalk
  cases root.valid with
  | false => exact .inr ⟨fun can => Bool.false_ne_true can.1, enoent, v, by decide, rfl⟩
  | true =>
      rw [Bool.not_true, if_neg Bool.false_ne_true]
      by_cases empty : rel = []
      · rw [if_pos empty]
        exact .inl ⟨⟨rfl, .inl empty⟩, root, v, rfl, rfl, rfl⟩
      · rw [if_neg empty]
        by_cases long : rel.length ≥ maxPath
        · rw [if_pos long]
          refine .inr ⟨?_, enametoolong, v, by decide, rfl⟩
          rintro ⟨-, isEmpty | ⟨short, -⟩⟩
          · exact empty isEmpty
          · omega
        · rw [if_neg long]
          rcases walkLoop_cases driver (v := v) (components rel) root with
            ⟨canWalk, walked⟩ | ⟨cannot, failed⟩
          · exact .inl ⟨⟨rfl, .inr ⟨by omega, canWalk⟩⟩, walked⟩
          · refine .inr ⟨?_, failed⟩
            rintro ⟨-, isEmpty | ⟨-, canWalk⟩⟩
            · exact empty isEmpty
            · exact cannot canWalk

theorem drop_range_fdMax : (List.range fdMax).drop 3 = List.range' 3 (fdMax - 3) := by
  rw [List.range_eq_range', List.drop_range']

theorem freeFd_isSome_iff : (freeFd v none).isSome = true ↔
    ∃ fd, 3 ≤ fd ∧ fd < fdMax ∧ (v.fd_table fd).in_use = false := by
  have bound : fdMax = 256 := rfl
  unfold freeFd
  rw [List.find?_isSome, drop_range_fdMax]
  refine exists_congr fun fd => ?_
  rw [List.mem_range'_1, and_assoc.symm]
  refine and_congr (by omega) ?_
  cases (v.fd_table fd).in_use with
  | false => exact ⟨fun _ => rfl, fun _ => rfl⟩
  | true => exact ⟨nofun, nofun⟩

/-- Descriptors are given out from 3 on. -/
theorem freeFd_ge {fd : Nat} (free : freeFd v none = some fd) : 3 ≤ fd := by
  have member := List.mem_of_find?_eq_some free
  rw [drop_range_fdMax, List.mem_range'_1] at member
  exact member.1

/-- `vfs_open` succeeds just when the file can be opened. -/
theorem vfsOpen_cases (v : State Disk) (path : Chars) :
    (v.CanOpen driver path ∧ ∃ fd : Nat, 3 ≤ fd ∧ (vfsOpen driver v path).1 = fd) ∨
      (¬ v.CanOpen driver path ∧ (vfsOpen driver v path).1 < 0) := by
  cases found : findMount v path with
  | none =>
      refine .inr ⟨?_, ?_⟩
      · rintro ⟨⟨mount, rel, isFound, -⟩, -⟩
        rw [found] at isFound
        cases isFound
      · unfold vfsOpen
        rw [found]
        exact (by decide : enoent < 0)
  | some mounted =>
      obtain ⟨mount, rel⟩ := mounted
      rcases pathWalk_outcome driver (v := v) mount.root rel with
        ⟨can, inode, v₁, walk, fds, inodes⟩ | ⟨cannot, e, v₁, failed, walk⟩
      · rw [vfsOpen_walked driver found walk]
        have same : freeFd v₁ none = freeFd v none := by rw [freeFd, freeFd, fds]
        rw [same, inodes]
        cases free : freeFd v none with
        | none =>
            refine .inr ⟨fun canOpen => ?_, (by decide : enomem < 0)⟩
            have isSome := freeFd_isSome_iff.mpr canOpen.2.1
            rw [free] at isSome
            cases isSome
        | some fd =>
            cases room : (List.range maxInode).find? fun i => !(v.inode_table i).valid with
            | none =>
                refine .inr ⟨?_, (by decide : enomem < 0)⟩
                rintro ⟨-, -, i, small, unused⟩
                have used := List.find?_eq_none.mp room i (List.mem_range.mpr small)
                rw [unused] at used
                exact used rfl
            | some i =>
                have unused := List.find?_some room
                rw [Bool.not_eq_true'] at unused
                have small := List.mem_range.mp (List.mem_of_find?_eq_some room)
                exact .inl ⟨⟨⟨mount, rel, found, can⟩, freeFd_isSome_iff.mp (by rw [free]; rfl), i, small, unused⟩,
                  fd, freeFd_ge free, rfl⟩
      · refine .inr ⟨?_, ?_⟩
        · rintro ⟨⟨mount', rel', isFound, can⟩, -⟩
          rw [found] at isFound
          cases isFound
          exact cannot can
        · unfold vfsOpen
          rw [found]
          dsimp only
          rw [walk]
          exact failed

end Systrix.Vfs
