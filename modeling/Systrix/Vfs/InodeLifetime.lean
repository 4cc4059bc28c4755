import Systrix.Lib.Run
import Systrix.Vfs.Tables

/-!
# How long file objects live

A walk makes a file object for every component below a FAT mount and keeps the last one only;
the objects of the mount roots are handed to whoever opens a root.
-/

namespace Systrix.Vfs

variable {Disk : Type} (driver : Driver Disk) {v : State Disk}

/-- An open descriptor of an inode with the object. -/
def State.Holds (v : State Disk) (fd : Nat) (a : Addr) : Prop :=
  ∃ i, v.owner fd = some i ∧ (v.inode_table i).fs_data = some a

/-- The object of a mount root. -/
def State.Root (v : State Disk) (a : Addr) : Prop :=
  ∃ m, (v.mount_table m).valid = true ∧ (v.mount_table m).root.fs_data = some a

/-- A file object that nothing refers to. -/
def State.Lost (v : State Disk) (a : Addr) : Prop :=
  (v.files a).isSome = true ∧ (∀ fd, ¬ v.Holds fd a) ∧ ¬ v.Root a

/-- What open descriptors and mount roots refer to is on the heap, and nothing was used or
freed that was free already. -/
structure ObjectsLive (v : State Disk) : Prop where
  faults : v.faults = []
  held : ∀ fd a, v.Holds fd a → (v.files a).isSome = true
  root : ∀ a, v.Root a → (v.files a).isSome = true

/-- An inode as it is when it comes into the table. -/
structure Inode.Ready (inode : Inode) : Prop where
  valid : inode.valid = true
  refcount : inode.refcount = 1
  type : inode.attr.type ≠ itPipe

/-- Inodes count their descriptors, and only the mount roots share their objects. -/
structure Settled (v : State Disk) : Prop where
  owned : Owned v.Root v
  roots : ∀ m, (v.mount_table m).valid = true →
    (v.mount_table m).root.refcount = 1 ∧ (v.mount_table m).root.attr.type ≠ itPipe
  noPipe : ∀ fd f, fdGet v fd = some f → f.type ≠ itPipe

theorem Settled.live (settled : Settled v) : ObjectsLive v where
  faults := settled.owned.faults
  held fd a := by
    rintro ⟨i, owner, isObject⟩
    obtain ⟨f, opened, isInode⟩ := Option.bind_eq_some_iff.mp owner
    exact settled.owned.object i a (holders_pos opened isInode) isObject
  root := settled.owned.kept

/-! ## Walks -/

/-- `find_mount` returns a mount of the table. -/
theorem findMount_mem {path rel : Chars} {mount : Mount} (found : findMount v path = some (mount, rel)) :
    ∃ m, v.mount_table m = mount ∧ mount.valid = true := by
  have all : ∀ (is : List Nat) (best : Option Mount × Nat),
      (∀ mount, best.1 = some mount → ∃ m, v.mount_table m = mount ∧ mount.valid = true) →
      ∀ mount, (is.foldl (betterMount v path) best).1 = some mount →
        ∃ m, v.mount_table m = mount ∧ mount.valid = true := by
    intro is
    induction is with
    | nil => exact fun _ known => known
    | cons i is ih =>
        intro best known
        refine ih _ fun mount isBest => ?_
        unfold betterMount at isBest
        dsimp only at isBest
        split at isBest
        · exact known mount isBest
        · rename_i valid
          rw [Bool.not_eq_true', Bool.not_eq_false] at valid
          split at isBest
          · exact known mount isBest
          · split at isBest
            · exact known mount isBest
            · split at isBest
              · cases isBest
                exact ⟨i, rfl, valid⟩
              · exact known mount isBest
  unfold findMount at found
  obtain ⟨best, isBest, same⟩ := Option.map_eq_some_iff.mp found
  have isMount : best = mount := congrArg Prod.fst same
  rw [isMount] at isBest
  exact all _ (none, 0) (fun _ none => by cases none) mount isBest

/-- The walk of a path makes a file object for its first component below a FAT mount; `names`
are the components after that one. -/
def State.Allocates (v : State Disk) (path : Chars) (names : List Chars) : Prop :=
  ∃ mount rel name, findMount v path = some (mount, rel) ∧ mount.root.valid = true ∧
    mount.root.ops = .fat32 ∧ rel.length < maxPath ∧ components rel = name :: names ∧
    (driver.fatFind v.disk mount.root.ino (to83 name)).isSome = true ∧ v.supply ≠ []

/-- Walks in a JFS make no file objects. -/
theorem walkLoop_jfs (names : List Chars) (cur : Inode) (isJfs : cur.ops = .jfs) :
    (∃ e, e < 0 ∧ walkLoop driver v cur names = (.error e, v)) ∨
      ∃ inode, walkLoop driver v cur names = (.ok inode, v) ∧
        (inode = cur ∨ inode.Ready ∧ inode.fs_data = none) := by
  induction names generalizing cur with
  | nil => exact .inr ⟨cur, rfl, .inl rfl⟩
  | cons name names ih =>
      unfold walkLoop lookup
      rw [isJfs]
      dsimp only
      unfold jfsLookup
      cases found : driver.jfsFind v.disk cur.ino name with
      | error e => exact .inl ⟨e, driver.jfsFind_neg _ _ _ e found, rfl⟩
      | ok entry =>
          obtain ⟨ino, attr⟩ := entry
          dsimp only
          rcases ih ⟨true, ino, cur.dev, 0, 1, { attr with
              type := if attr.type = itDir then itDir else itFile, nlink := 1, blksize := 512 }, cur.ops, none⟩
            isJfs with failed | ⟨inode, walk, same | ready⟩
          · exact .inl failed
          · refine .inr ⟨inode, walk, .inr ?_⟩
            rw [same]
            refine ⟨⟨rfl, rfl, ?_⟩, rfl⟩
            dsimp only
            split <;> decide
          · exact .inr ⟨inode, walk, .inr ready⟩

/-- A walk that makes one file object at most hands it over. -/
theorem pathWalk_cases (settled : Settled v) {path rel : Chars} {mount : Mount}
    (found : findMount v path = some (mount, rel))
    (single : ∀ names, v.Allocates driver path names → names = []) :
    (∃ e, e < 0 ∧ pathWalk driver v mount.root rel = (.error e, v)) ∨
    (∃ inode, pathWalk driver v mount.root rel = (.ok inode, v) ∧ inode.Ready ∧
      ∀ a, inode.fs_data = some a → v.Root a) ∨
    ∃ inode a f supply, v.Allocates driver path [] ∧ v.supply = a :: supply ∧
      pathWalk driver v mount.root rel =
        (.ok inode, { v with files := Function.update v.files a (some f), supply := supply }) ∧
      inode.Ready ∧ inode.fs_data = some a := by
  obtain ⟨m, isMount, validMount⟩ := findMount_mem found
  have root : ∀ a, mount.root.fs_data = some a → v.Root a := fun a isObject =>
    ⟨m, isMount ▸ validMount, isMount ▸ isObject⟩
  obtain ⟨refcount, type⟩ := settled.roots m (isMount ▸ validMount)
  rw [isMount] at refcount type
  unfold pathWalk
  cases valid : mount.root.valid with
  | false => exact .inl ⟨enoent, by decide, rfl⟩
  | true =>
      have ready : mount.root.Ready := ⟨valid, refcount, type⟩
      rw [Bool.not_true, if_neg Bool.false_ne_true]
      by_cases empty : rel = []
      · rw [if_pos empty]
        exact .inr (.inl ⟨mount.root, rfl, ready, root⟩)
      · rw [if_neg empty]
        by_cases long : rel.length ≥ maxPath
        · rw [if_pos long]
          exact .inl ⟨enametoolong, by decide, rfl⟩
        · rw [if_neg long]
          cases isOps : mount.root.ops with
          | jfs =>
              rcases walkLoop_jfs driver (v := v) (components rel) mount.root isOps with
                failed | ⟨inode, walk, same | ⟨isReady, noObject⟩⟩
              · exact .inl failed
              · rw [same] at walk
                exact .inr (.inl ⟨mount.root, walk, ready, root⟩)
              · refine .inr (.inl ⟨inode, walk, isReady, fun a isObject => ?_⟩)
                rw [noObject] at isObject
                cases isObject
          | fat32 =>
              cases parts : components rel with
              | nil => exact .inr (.inl ⟨mount.root, rfl, ready, root⟩)
              | cons name names =>
                  unfold walkLoop lookup
                  rw [isOps]
                  dsimp only
                  unfold fat32Lookup
                  cases entry : driver.fatFind v.disk mount.root.ino (to83 name) with
                  | none => exact .inl ⟨enoent, by decide, rfl⟩
                  | some place =>
                      obtain ⟨clus, size⟩ := place
                      dsimp only
                      unfold newFile
                      cases memory : v.supply with
                      | nil => exact .inl ⟨enomem, by decide, rfl⟩
                      | cons a supply =>
                          have allocates : v.Allocates driver path names :=
                            ⟨mount, rel, name, found, valid, isOps, by omega, parts, by rw [entry]; rfl,
                              by rw [memory]; exact List.cons_ne_nil _ _⟩
                          cases single names allocates
                          have kind : itFile ≠ itPipe := by decide
                          exact .inr (.inr ⟨_, a, _, supply, allocates, rfl, rfl, ⟨rfl, rfl, kind⟩, rfl⟩)

/-! ## Opening -/

@[simp] theorem store_inode_self (v : State Disk) (fd i : Nat) (inode : Inode) :
    (v.store fd i inode).inode_table i = inode := Function.update_self _ _ _

theorem store_inode_of_ne {i j : Nat} (ne : j ≠ i) (fd : Nat) (inode : Inode) :
    (v.store fd i inode).inode_table j = v.inode_table j := Function.update_of_ne ne _ _

section Store

variable {shared : Addr → Prop} {fd i : Nat} {inode : Inode} (small : fd < fdMax) (noOwner : v.owner fd = none)
  (unused : (v.inode_table i).valid = false)

theorem not_held (owned : Owned shared v) (unused : (v.inode_table i).valid = false) : v.holders i = 0 := by
  refine Classical.byContradiction fun held => ?_
  have valid := (owned.count i held).1
  rw [unused] at valid
  cases valid

theorem not_holds (noOwner : v.owner fd = none) (a : Addr) : ¬ v.Holds fd a := by
  rintro ⟨j, owner, -⟩
  rw [noOwner] at owner
  cases owner

include small

theorem fdGet_store (fd' : Nat) : fdGet (v.store fd i inode) fd' =
    if fd' = fd then some ⟨true, some i, 0, 0, inode.attr.type, none⟩ else fdGet v fd' := by
  have table : fdGet (v.store fd i inode) fd' =
      fdGet (v.setFd fd ⟨true, some i, 0, 0, inode.attr.type, none⟩) fd' := fdGet_congr rfl fd'
  rw [table]
  split
  · rename_i same
    rw [same, fdGet_setFd_self small]
    rfl
  · rename_i other
    exact fdGet_setFd_of_ne other _

include noOwner unused

/-- The new descriptor has the object of its inode, the others keep theirs. -/
theorem holds_store (owned : Owned shared v) (fd' : Nat) (a : Addr) :
    (v.store fd i inode).Holds fd' a ↔ (fd' = fd ∧ inode.fs_data = some a) ∨ v.Holds fd' a := by
  have noHolder := not_held owned unused
  unfold State.Holds State.owner
  rw [fdGet_store small]
  by_cases same : fd' = fd
  · have no : ¬ v.Holds fd a := not_holds noOwner a
    unfold State.Holds State.owner at no
    rw [if_pos same, same, or_iff_left no]
    constructor
    · rintro ⟨j, owner, isObject⟩
      cases owner
      exact ⟨rfl, by rwa [store_inode_self] at isObject⟩
    · rintro ⟨-, isObject⟩
      exact ⟨i, rfl, by rwa [store_inode_self]⟩
  · rw [if_neg same, or_iff_right fun isNew => same isNew.1]
    refine exists_congr fun j => and_congr_right fun owner => ?_
    obtain ⟨f, opened, isInode⟩ := Option.bind_eq_some_iff.mp owner
    have other : j ≠ i := by
      rintro rfl
      exact holders_pos opened isInode noHolder
    rw [store_inode_of_ne other]

theorem Owned.store (owned : Owned shared v) (ready : inode.Ready)
    (object : ∀ a, inode.fs_data = some a → (v.files a).isSome = true ∧ (shared a ∨ ∀ fd', ¬ v.Holds fd' a)) :
    Owned shared (v.store fd i inode) := by
  have noHolder := not_held owned unused
  have count : ∀ j, (v.store fd i inode).holders j = v.holders j + if some i = some j then 1 else 0 := fun j => by
    rw [← holders_store small noOwner (f := ⟨true, some i, 0, 0, inode.attr.type, none⟩) rfl j]
    exact holders_congr rfl j
  have still : ∀ {j}, j ≠ i → (v.store fd i inode).holders j = v.holders j := fun {j} ne => by
    rw [count, if_neg fun same => ne (Option.some.inj same).symm, Nat.add_zero]
  have alone : ∀ j a, j ≠ i → v.holders j ≠ 0 → inode.fs_data = some a → (v.inode_table j).fs_data = some a →
      shared a := fun j a _ held isNew isObject => by
    rcases (object a isNew).2 with isShared | noHolds
    · exact isShared
    · obtain ⟨fd', f, opened, isInode⟩ := holder_of_pos held
      exact absurd ⟨j, Option.bind_eq_some_iff.mpr ⟨f, opened, isInode⟩, isObject⟩ (noHolds fd')
  refine ⟨fun j held => ?_, fun j a held isObject => ?_, fun j k a heldJ heldK isJ isK ne => ?_,
    owned.kept, owned.apart, fun fd' f j opened isInode => ?_, owned.faults⟩
  · by_cases same : j = i
    · rw [same, store_inode_self, count, noHolder, if_pos rfl]
      exact ⟨ready.valid, ready.refcount⟩
    · rw [still same] at held ⊢
      rw [store_inode_of_ne same]
      exact owned.count j held
  · by_cases same : j = i
    · rw [same, store_inode_self] at isObject
      exact (object a isObject).1
    · rw [still same] at held
      rw [store_inode_of_ne same] at isObject
      exact owned.object j a held isObject
  · by_cases sameJ : j = i
    · have neK : k ≠ i := fun sameK => ne (sameJ.trans sameK.symm)
      rw [sameJ, store_inode_self] at isJ
      rw [store_inode_of_ne neK] at isK
      rw [still neK] at heldK
      exact alone k a neK heldK isJ isK
    · rw [store_inode_of_ne sameJ] at isJ
      rw [still sameJ] at heldJ
      by_cases sameK : k = i
      · rw [sameK, store_inode_self] at isK
        exact alone j a sameJ heldJ isK isJ
      · rw [store_inode_of_ne sameK] at isK
        rw [still sameK] at heldK
        exact owned.distinct j k a heldJ heldK isJ isK ne
  · rw [fdGet_store small] at opened
    split at opened
    · cases opened
      exact ready.type
    · exact owned.typed fd' f j opened isInode

end Store

/-! ## What a call changes -/

/-- A call keeps the invariant and loses no object; only `changed` refers to something else
afterwards. -/
structure Effect (v v' : State Disk) (changed : Option Nat) : Prop where
  settled : Settled v'
  mounts : v'.mount_table = v.mount_table
  lost : ∀ a, v'.Lost a ↔ v.Lost a
  others : ∀ fd, changed ≠ some fd → ∀ a, v'.Holds fd a ↔ v.Holds fd a

theorem root_congr {v' : State Disk} (mounts : v'.mount_table = v.mount_table) : v'.Root = v.Root := by
  unfold State.Root
  rw [mounts]

/-- Tables with the same references. -/
theorem Effect.same (settled : Settled v) {v' : State Disk} (links : ∀ fd, v'.link fd = v.link fd)
    (inodes : v'.inode_table = v.inode_table) (mounts : v'.mount_table = v.mount_table)
    (files : v'.files = v.files) (pipes : v'.pipes = v.pipes) (faults : v'.faults = v.faults)
    (changed : Option Nat) : Effect v v' changed := by
  have owner : ∀ fd, v'.owner fd = v.owner fd := fun fd => by
    have link := congrArg (·.bind Prod.fst) (links fd)
    simp only [State.link, Option.bind_map, Function.comp_def] at link
    exact link
  have holds : ∀ fd a, v'.Holds fd a ↔ v.Holds fd a := fun fd a => by
    unfold State.Holds
    rw [owner, inodes]
  refine ⟨⟨?_, ?_, fun fd f opened => ?_⟩, mounts, fun a => ?_, fun fd _ => holds fd⟩
  · rw [root_congr mounts]
    exact settled.owned.frame links (fun i => by rw [inodes]; exact ⟨rfl, rfl, rfl⟩)
      (fun a => by rw [files]) (fun a _ none => by rw [pipes, none]) faults
  · rw [mounts]
    exact settled.roots
  · have link := links fd
    rw [State.link, State.link, opened] at link
    obtain ⟨g, opened', same⟩ := Option.map_eq_some_iff.mp link.symm
    have type : g.type = f.type := congrArg Prod.snd same
    rw [← type]
    exact settled.noPipe fd g opened'
  · unfold State.Lost
    rw [files, root_congr mounts]
    simp only [holds]

theorem Effect.refl (settled : Settled v) (changed : Option Nat) : Effect v v changed :=
  .same settled (fun _ => rfl) rfl rfl rfl rfl rfl changed

/-- A descriptor that is not open stays so. -/
theorem Effect.clear (settled : Settled v) {fd : Nat} (small : fd < fdMax) (closed : fdGet v fd = none) {f : Fd}
    (free : f.in_use = false) : Effect v (v.setFd fd f) none := by
  have links : ∀ fd', (v.setFd fd f).link fd' = v.link fd' := fun fd' => by
    by_cases same : fd' = fd
    · rw [same, State.link, State.link, closed, fdGet_setFd_self small, free]
      rfl
    · rw [State.link, State.link, fdGet_setFd_of_ne same]
  exact .same settled links rfl rfl rfl rfl rfl none

/-- A new file object before anything refers to it. -/
theorem Settled.newFile (settled : Settled v) {a : Addr} (noPipe : v.pipes a = none) (f : FD)
    (supply : List Addr) :
    Settled { v with files := Function.update v.files a (some f), supply := supply } := by
  have live : ∀ b, (Function.update v.files a (some f) b).isSome = true ↔ (v.files b).isSome = true ∨ b = a :=
    fun b => by
      by_cases same : b = a
      · simp [same]
      · simp [same]
  have owned := settled.owned
  refine ⟨⟨owned.count, fun i b held isObject => ?_, owned.distinct, fun b isRoot => ?_, fun b isFile => ?_,
    owned.typed, owned.faults⟩, settled.roots, settled.noPipe⟩
  · exact (live b).mpr (.inl (owned.object i b held isObject))
  · exact (live b).mpr (.inl (owned.kept b isRoot))
  · rcases (live b).mp isFile with wasFile | same
    · exact owned.apart b wasFile
    · rw [same]
      exact noPipe

/-- The tables after a descriptor was opened on an inode with a root's object, a new one or
none. -/
theorem store_effect (settled : Settled v) {fd i : Nat} {inode : Inode} (small : fd < fdMax)
    (noOwner : v.owner fd = none) (unused : (v.inode_table i).valid = false) (ready : inode.Ready)
    (object : ∀ a, inode.fs_data = some a → (v.files a).isSome = true ∧ (v.Root a ∨ ∀ fd', ¬ v.Holds fd' a)) :
    Settled (v.store fd i inode) ∧
      ∀ fd', fd' ≠ fd → ∀ a, (v.store fd i inode).Holds fd' a ↔ v.Holds fd' a := by
  have holds : ∀ fd' a, (v.store fd i inode).Holds fd' a ↔ _ := holds_store small noOwner unused settled.owned
  refine ⟨⟨settled.owned.store small noOwner unused ready object, settled.roots, fun fd' f opened => ?_⟩,
    fun fd' other a => ?_⟩
  · rw [fdGet_store small] at opened
    split at opened
    · cases opened
      exact ready.type
    · exact settled.noPipe fd' f opened
  · rw [holds fd' a, or_iff_right fun isNew => other isNew.1]

/-- `heap_malloc` returns memory nobody has. -/
def State.FreshSupply (v : State Disk) : Prop := ∀ a ∈ v.supply.head?, v.files a = none ∧ v.pipes a = none

theorem open_effect (settled : Settled v) {path : Chars} (fresh : v.FreshSupply)
    (careful : ∀ names, v.Allocates driver path names →
      names = [] ∧ (freeFd v none).isSome = true ∧ ∃ i < maxInode, (v.inode_table i).valid = false) :
    ((vfsOpen driver v path).1 < 0 ∧ Effect v (vfsOpen driver v path).2 none) ∨
      ∃ fd : Nat, (vfsOpen driver v path).1 = fd ∧ (∀ a, ¬ v.Holds fd a) ∧
        Effect v (vfsOpen driver v path).2 (some fd) := by
  cases found : findMount v path with
  | none =>
      unfold vfsOpen
      rw [found]
      exact .inl ⟨(by decide : enoent < 0), .refl settled none⟩
  | some mounted =>
      obtain ⟨mount, rel⟩ := mounted
      rcases pathWalk_cases driver settled found fun names allocates => (careful names allocates).1 with
        ⟨e, failed, walk⟩ | ⟨inode, walk, ready, root⟩ | ⟨inode, a, f, supply, allocates, memory, walk, ready, object⟩
      · unfold vfsOpen
        rw [found]
        dsimp only
        rw [walk]
        exact .inl ⟨failed, .refl settled none⟩
      · rw [vfsOpen_walked driver found walk]
        cases free : freeFd v none with
        | none => exact .inl ⟨(by decide : enomem < 0), .refl settled none⟩
        | some fd =>
            obtain ⟨small, isFree, -⟩ := freeFd_spec free
            have closed := not_open_of_free isFree
            have noOwner : v.owner fd = none := by rw [State.owner, closed]; rfl
            cases room : (List.range maxInode).find? fun i => !(v.inode_table i).valid with
            | none =>
                exact .inl ⟨(by decide : enomem < 0), .clear settled small closed rfl⟩
            | some i =>
                have unused : (v.inode_table i).valid = false := by
                  have holds := List.find?_some room
                  rwa [Bool.not_eq_true'] at holds
                have holds : ∀ fd' a, (v.store fd i inode).Holds fd' a ↔ _ :=
                  holds_store small noOwner unused settled.owned
                obtain ⟨settled', others⟩ := store_effect settled small noOwner unused ready fun a isObject =>
                  ⟨settled.owned.kept a (root a isObject), .inl (root a isObject)⟩
                refine .inr ⟨fd, rfl, not_holds noOwner, settled', rfl, fun a => ?_, fun fd' other =>
                  others fd' fun same => other (congrArg some same.symm)⟩
                show _ ∧ (∀ fd', ¬ (v.store fd i inode).Holds fd' a) ∧ ¬ v.Root a ↔ _
                simp only [holds]
                refine and_congr_right fun _ => and_congr_left fun notRoot => forall_congr' fun fd' =>
                  not_congr (or_iff_right fun isNew => notRoot (root a isNew.2))
      · obtain ⟨-, isFree, isRoom⟩ := careful [] allocates
        obtain ⟨noFile, noPipe⟩ := fresh a (by rw [memory]; rfl)
        obtain ⟨fd, free⟩ := Option.isSome_iff_exists.mp isFree
        obtain ⟨small, isFree, -⟩ := freeFd_spec free
        have noOwner : v.owner fd = none := by rw [State.owner, not_open_of_free isFree]; rfl
        obtain ⟨i, room⟩ : ∃ i, ((List.range maxInode).find? fun i => !(v.inode_table i).valid) = some i := by
          obtain ⟨j, smallJ, unusedJ⟩ := isRoom
          refine Option.isSome_iff_exists.mp (List.find?_isSome.mpr ⟨j, List.mem_range.mpr smallJ, ?_⟩)
          rw [unusedJ]
          rfl
        have unused : (v.inode_table i).valid = false := by
          have holds := List.find?_some room
          rwa [Bool.not_eq_true'] at holds
        rw [vfsOpen_walked driver found walk]
        set v₁ : State Disk := { v with files := Function.update v.files a (some f), supply := supply }
        have free₁ : freeFd v₁ none = some fd := free
        have room₁ : ((List.range maxInode).find? fun i => !(v₁.inode_table i).valid) = some i := room
        rw [free₁, room₁]
        dsimp only
        have settled₁ : Settled v₁ := settled.newFile noPipe f supply
        have unheld : ∀ fd', ¬ v.Holds fd' a := fun fd' held => by
          have isFile := settled.live.held fd' a held
          rw [noFile] at isFile
          cases isFile
        have notRoot : ¬ v.Root a := fun isRoot => by
          have isFile := settled.owned.kept a isRoot
          rw [noFile] at isFile
          cases isFile
        have isFile : (v₁.files a).isSome = true := by
          show (Function.update v.files a (some f) a).isSome = true
          rw [Function.update_self]
          rfl
        have holds : ∀ fd' a, (v₁.store fd i inode).Holds fd' a ↔ _ :=
          holds_store small noOwner unused settled₁.owned
        obtain ⟨settled', others⟩ := store_effect settled₁ small noOwner unused ready fun b isObject => by
          rw [object] at isObject
          cases isObject
          exact ⟨isFile, .inr unheld⟩
        refine .inr ⟨fd, rfl, not_holds noOwner, settled', rfl, fun b => ?_, fun fd' other =>
          others fd' fun same => other (congrArg some same.symm)⟩
        show (v₁.files b).isSome = true ∧ (∀ fd', ¬ (v₁.store fd i inode).Holds fd' b) ∧ ¬ v.Root b ↔ _
        by_cases same : b = a
        · rw [same]
          refine iff_of_false (fun lost => lost.2.1 fd ((holds fd a).mpr (.inl ⟨rfl, object⟩))) fun lost => ?_
          rw [State.Lost, noFile] at lost
          cases lost.1
        · have files : v₁.files b = v.files b := Function.update_of_ne same _ _
          rw [files]
          refine and_congr_right fun _ => and_congr_left fun _ => forall_congr' fun fd' => not_congr ?_
          rw [holds, or_iff_right fun isNew => same (Option.some.inj (isNew.2.symm.trans object))]
          exact Iff.rfl

/-! ## Other calls -/

theorem stat_effect (settled : Settled v) {path : Chars} (careful : ∀ names, ¬ v.Allocates driver path names) :
    Effect v (vfsStat driver v path).2 none := by
  unfold vfsStat
  cases found : findMount v path with
  | none => exact .refl settled none
  | some mounted =>
      obtain ⟨mount, rel⟩ := mounted
      dsimp only
      rcases pathWalk_cases driver settled found fun names allocates => absurd allocates (careful names) with
        ⟨e, -, walk⟩ | ⟨inode, walk, -, -⟩ | ⟨inode, a, f, supply, allocates, -⟩
      · rw [walk]
        exact .refl settled none
      · rw [walk]
        exact .refl settled none
      · exact absurd allocates (careful [])

theorem dup_effect (settled : Settled v) (oldfd : Nat) :
    ((vfsDup v oldfd).1 < 0 ∧ Effect v (vfsDup v oldfd).2 none) ∨
      ∃ fd : Nat, (vfsDup v oldfd).1 = fd ∧ (∀ a, ¬ v.Holds fd a) ∧ Effect v (vfsDup v oldfd).2 (some fd) := by
  cases opened : fdGet v oldfd with
  | none =>
      unfold vfsDup
      rw [opened]
      exact .inl ⟨(by decide : ebadf < 0), .refl settled none⟩
  | some f =>
      cases free : freeFd v none with
      | none =>
          unfold vfsDup fdAlloc
          rw [opened, free]
          exact .inl ⟨(by decide : enomem < 0), .refl settled none⟩
      | some newfd =>
          obtain ⟨small, isFree, -⟩ := freeFd_spec free
          have noOwner : v.owner newfd = none := by rw [State.owner, not_open_of_free isFree]; rfl
          obtain ⟨-, inUse, isOld⟩ := fdGet_eq_some.mp opened
          have inUse : f.in_use = true := by rwa [isOld] at inUse
          rw [vfsDup_eq opened free]
          dsimp only
          have notPipe := settled.noPipe oldfd f opened
          have owned : Owned v.Root (refCopy (v.setFd newfd f) f) :=
            settled.owned.copy small noOwner inUse fun i isInode => ⟨holders_pos opened isInode, notPipe⟩
          have table := refCopy_fd_table (v.setFd newfd f) f
          have mounts := refCopy_mount_table (v.setFd newfd f) f
          have object : ∀ i, ((refCopy (v.setFd newfd f) f).inode_table i).fs_data = (v.inode_table i).fs_data :=
            refCopy_object (v.setFd newfd f) f
          have others : ∀ fd', fd' ≠ newfd → ∀ a,
              (refCopy (v.setFd newfd f) f).Holds fd' a ↔ v.Holds fd' a := fun fd' other a => by
            unfold State.Holds State.owner
            rw [fdGet_congr table, fdGet_setFd_of_ne other]
            simp only [object]
          have copied : ∀ a, (refCopy (v.setFd newfd f) f).Holds newfd a ↔ v.Holds oldfd a := fun a => by
            unfold State.Holds State.owner
            rw [fdGet_congr table, fdGet_setFd_self small, if_pos inUse, opened]
            simp only [object]
          refine .inr ⟨newfd, rfl, not_holds noOwner, ⟨?_, ?_, fun fd' g opened' => ?_⟩, mounts, fun a => ?_,
            fun fd' other => others fd' fun same => other (congrArg some same.symm)⟩
          · rw [root_congr mounts]
            exact owned
          · rw [mounts]
            exact settled.roots
          · rw [fdGet_congr table] at opened'
            by_cases same : fd' = newfd
            · rw [same, fdGet_setFd_self small, if_pos inUse] at opened'
              cases opened'
              exact notPipe
            · rw [fdGet_setFd_of_ne same] at opened'
              exact settled.noPipe fd' g opened'
          · unfold State.Lost
            rw [refCopy_files, root_congr mounts]
            refine and_congr_right fun _ => and_congr_left fun _ => ?_
            constructor
            · intro unheld fd' held
              have other : fd' ≠ newfd := by
                rintro rfl
                exact not_holds noOwner a held
              exact unheld fd' ((others fd' other a).mpr held)
            · intro unheld fd' held
              by_cases same : fd' = newfd
              · rw [same] at held
                exact unheld oldfd ((copied a).mp held)
              · exact unheld fd' ((others fd' same a).mp held)

section Close

variable {fd : Nat} {f : Fd} (settled : Settled v) (opened : fdGet v fd = some f)
  (careful : ∀ i a, v.owner fd = some i → v.holders i = 1 → (v.inode_table i).fs_data = some a → ¬ v.Root a)

include settled opened

/-- The other descriptors keep their objects. -/
theorem holds_close (fd' : Nat) (a : Addr) :
    (vfsClose v fd).2.Holds fd' a ↔ fd' ≠ fd ∧ v.Holds fd' a := by
  have notPipe := settled.noPipe fd f opened
  obtain ⟨table, -, -⟩ := vfsClose_frame opened notPipe settled.owned
  have small := (fdGet_eq_some.mp opened).1
  by_cases same : fd' = fd
  · refine iff_of_false ?_ fun other => other.1 same
    rintro ⟨i, owner, -⟩
    rw [same, State.owner, fdGet_congr (v := v.setFd fd f.closed) table, fdGet_setFd_self small] at owner
    cases owner
  · have owner : (vfsClose v fd).2.owner fd' = v.owner fd' := by
      rw [State.owner, fdGet_congr (v := v.setFd fd f.closed) table, fdGet_setFd_of_ne same]
      rfl
    have objects : ∀ j, v.owner fd' = some j →
        ((vfsClose v fd).2.inode_table j).fs_data = (v.inode_table j).fs_data := fun j isOwner => by
      cases isInode : f.inode with
      | none =>
          rw [vfsClose_plain opened isInode notPipe]
          rfl
      | some i =>
          by_cases last : v.holders i = 1
          · have other : j ≠ i := by
              rintro rfl
              have rest := holders_close opened (w := (vfsClose v fd).2) table isInode j
              rw [if_pos rfl, last] at rest
              obtain ⟨g, opened', isInode'⟩ := Option.bind_eq_some_iff.mp (owner.trans isOwner)
              exact holders_pos opened' isInode' (by omega)
            rw [vfsClose_last opened isInode settled.owned last]
            exact congrArg Inode.fs_data (Function.update_of_ne other _ _)
          · rw [vfsClose_one opened isInode settled.owned last]
            show (Function.update v.inode_table i _ j).fs_data = _
            by_cases eq : j = i
            · rw [eq, Function.update_self]
            · rw [Function.update_of_ne eq]
    unfold State.Holds
    rw [owner, and_iff_right same]
    refine exists_congr fun j => and_congr_right fun isOwner => ?_
    rw [objects j isOwner]

/-- An object that a descriptor or a root has left is not freed, and others only with their
last descriptor. -/
theorem files_close (a : Addr) :
    ((vfsClose v fd).2.files a).isSome = true ↔ (v.files a).isSome = true ∧
      ∀ i, f.inode = some i → v.holders i = 1 → (v.inode_table i).fs_data ≠ some a := by
  have notPipe := settled.noPipe fd f opened
  cases isInode : f.inode with
  | none =>
      rw [vfsClose_plain opened isInode notPipe]
      exact (and_iff_left nofun).symm
  | some i =>
      have only : (∀ j, some i = some j → v.holders j = 1 → (v.inode_table j).fs_data ≠ some a) ↔
          (v.holders i = 1 → (v.inode_table i).fs_data ≠ some a) :=
        ⟨fun all => all i rfl, fun one j same => by cases same; exact one⟩
      rw [only]
      by_cases last : v.holders i = 1
      · rw [vfsClose_last opened isInode settled.owned last]
        show (dropObject v.files (v.inode_table i).fs_data a).isSome = true ↔ _
        constructor
        · intro isFile
          obtain ⟨isFile, other⟩ := of_isSome_dropObject isFile
          exact ⟨isFile, fun _ => other⟩
        · rintro ⟨isFile, other⟩
          rw [dropObject_of_ne (other last)]
          exact isFile
      · rw [vfsClose_one opened isInode settled.owned last]
        exact (and_iff_left fun one => absurd one last).symm

include careful

theorem close_effect_open : Effect v (vfsClose v fd).2 (some fd) := by
  have notPipe := settled.noPipe fd f opened
  obtain ⟨table, -, mounts⟩ := vfsClose_frame opened notPipe settled.owned
  have holds := holds_close settled opened
  have ownerFd : ∀ {i}, f.inode = some i → v.owner fd = some i := fun isInode => by
    rw [State.owner, opened]
    exact isInode
  refine ⟨⟨?_, ?_, fun fd' g opened' => ?_⟩, mounts, fun a => ?_, fun fd' other a => ?_⟩
  · rw [root_congr mounts]
    cases isInode : f.inode with
    | none =>
        rw [vfsClose_plain opened isInode notPipe]
        refine settled.owned.setPlain (fdGet_eq_some.mp opened).1 ?_ rfl
        rw [State.owner, opened]
        exact isInode
    | some i => exact settled.owned.close opened isInode fun last a => careful i a (ownerFd isInode) last
  · rw [mounts]
    exact settled.roots
  · exact settled.noPipe fd' g (fdGet_close opened table opened').2
  · unfold State.Lost
    rw [root_congr mounts, files_close settled opened]
    constructor
    · rintro ⟨⟨isFile, kept⟩, unheld, notRoot⟩
      refine ⟨isFile, fun fd' held => ?_, notRoot⟩
      by_cases same : fd' = fd
      · obtain ⟨i, owner, isObject⟩ := same ▸ held
        rw [State.owner, opened] at owner
        -- Another descriptor of the inode has the object too.
        have several : v.holders i ≠ 1 := fun last => kept i owner last isObject
        have rest := holders_close opened (w := (vfsClose v fd).2) table owner i
        have pos := holders_pos opened owner
        rw [if_pos rfl] at rest
        obtain ⟨fd₂, g, opened₂, isInode₂⟩ := holder_of_pos (v := (vfsClose v fd).2) (i := i) (by omega)
        obtain ⟨other, was⟩ := fdGet_close opened table opened₂
        exact unheld fd₂ ((holds fd₂ a).mpr ⟨other, i, Option.bind_eq_some_iff.mpr ⟨g, was, isInode₂⟩, isObject⟩)
      · exact unheld fd' ((holds fd' a).mpr ⟨same, held⟩)
    · rintro ⟨isFile, unheld, notRoot⟩
      exact ⟨⟨isFile, fun i isInode _ isObject => unheld fd ⟨i, ownerFd isInode, isObject⟩⟩,
        fun fd' held => unheld fd' ((holds fd' a).mp held).2, notRoot⟩
  · rw [holds, and_iff_right fun same => other (congrArg some same.symm)]

end Close

theorem close_effect (settled : Settled v) {fd : Nat} (careful : ∀ i a, v.owner fd = some i → v.holders i = 1 →
    (v.inode_table i).fs_data = some a → ¬ v.Root a) :
    (∀ a, ¬ (vfsClose v fd).2.Holds fd a) ∧ Effect v (vfsClose v fd).2 (some fd) := by
  cases opened : fdGet v fd with
  | none =>
      have same : vfsClose v fd = (ebadf, v) := by
        unfold vfsClose
        rw [opened]
      rw [same]
      exact ⟨not_holds (by rw [State.owner, opened]; rfl), .refl settled _⟩
  | some f =>
      exact ⟨fun a held => ((holds_close settled opened fd a).mp held).1 rfl,
        close_effect_open settled opened careful⟩

/-! ## Runs -/

/-- The calls; `supply` is what `heap_malloc` has for one. -/
inductive PathCall where
  | open (path : Chars) (supply : List Addr)
  | close (fd : Nat)
  | dup (oldfd : Nat)
  | stat (path : Chars) (supply : List Addr)
  | readdir (fd count : Nat)

/-- The tables, with the descriptors that a run has opened and not closed. -/
structure Session (Disk : Type) where
  v : State Disk
  opened : List Nat

/-- The session after a call that returned a new descriptor or an error. -/
def Session.returned (s : Session Disk) : Int × State Disk → Session Disk
  | (result, v) => ⟨v, if 0 ≤ result then result.toNat :: s.opened else s.opened⟩

def Session.call (s : Session Disk) : PathCall → Session Disk
  | .open path supply => s.returned (vfsOpen driver { s.v with supply := supply } path)
  | .close fd => ⟨(vfsClose s.v fd).2, s.opened.filter (· ≠ fd)⟩
  | .dup oldfd => s.returned (vfsDup s.v oldfd)
  | .stat path supply => ⟨(vfsStat driver { s.v with supply := supply } path).2, s.opened⟩
  | .readdir _ _ => s

/-- `heap_malloc` returns memory nobody has. -/
def PathCall.Fresh (v : State Disk) : PathCall → Prop
  | .open _ supply => State.FreshSupply { v with supply := supply }
  | .stat _ supply => State.FreshSupply { v with supply := supply }
  | _ => True

/-- A file is opened below a FAT mount only by one component and with room in the tables, and
asked about only when it is not there; the last descriptor of a root is not closed. -/
def PathCall.Careful (v : State Disk) : PathCall → Prop
  | .open path supply => ∀ names, State.Allocates driver { v with supply := supply } path names →
      names = [] ∧ (freeFd v none).isSome = true ∧ ∃ i < maxInode, (v.inode_table i).valid = false
  | .close fd => ∀ i a, v.owner fd = some i → v.holders i = 1 → (v.inode_table i).fs_data = some a → ¬ v.Root a
  | .stat path supply => ∀ names, ¬ State.Allocates driver { v with supply := supply } path names
  | _ => True

/-- No file is closed that the run has not opened. -/
def PathCall.ClosesOwn (s : Session Disk) : PathCall → Prop
  | .close fd => ∀ a, s.v.Holds fd a → fd ∈ s.opened
  | _ => True

theorem Settled.withSupply (settled : Settled v) (supply : List Addr) :
    Settled { v with supply := supply } :=
  have owned := settled.owned
  ⟨⟨owned.count, owned.object, owned.distinct, owned.kept, owned.apart, owned.typed, owned.faults⟩,
    settled.roots, settled.noPipe⟩

theorem returned_cases {s : Session Disk} {result : Int × State Disk}
    (cases : (result.1 < 0 ∧ Effect v result.2 none) ∨
      ∃ fd : Nat, result.1 = fd ∧ (∀ a, ¬ v.Holds fd a) ∧ Effect v result.2 (some fd)) :
    ((s.returned result).opened = s.opened ∧ Effect v (s.returned result).v none) ∨
      ∃ fd, (s.returned result).opened = fd :: s.opened ∧ (∀ a, ¬ v.Holds fd a) ∧
        Effect v (s.returned result).v (some fd) := by
  obtain ⟨value, v'⟩ := result
  rcases cases with ⟨failed, effect⟩ | ⟨fd, isFd, unheld, effect⟩
  · exact .inl ⟨if_neg (Int.not_le.mpr failed), effect⟩
  · dsimp only at isFd
    subst isFd
    refine .inr ⟨fd, ?_, unheld, effect⟩
    unfold Session.returned
    dsimp only
    rw [if_pos (Int.natCast_nonneg fd), Int.toNat_natCast]

/-- A call opens a descriptor, closes one or leaves all as they are. -/
theorem session_cases {s : Session Disk} (settled : Settled s.v) {call : PathCall} (fresh : call.Fresh s.v)
    (careful : call.Careful driver s.v) :
    ((s.call driver call).opened = s.opened ∧ Effect s.v (s.call driver call).v none) ∨
    (∃ fd, (s.call driver call).opened = fd :: s.opened ∧ (∀ a, ¬ s.v.Holds fd a) ∧
      Effect s.v (s.call driver call).v (some fd)) ∨
    ∃ fd, call = .close fd ∧ (s.call driver call).opened = s.opened.filter (· ≠ fd) ∧
      (∀ a, ¬ (s.call driver call).v.Holds fd a) ∧ Effect s.v (s.call driver call).v (some fd) := by
  cases call with
  | «open» path supply =>
      rcases returned_cases (open_effect driver (settled.withSupply supply) fresh careful) with ⟨same, effect⟩ |
        ⟨fd, new, unheld, effect⟩
      · exact .inl ⟨same, effect.settled, effect.mounts, effect.lost, effect.others⟩
      · exact .inr (.inl ⟨fd, new, unheld, effect.settled, effect.mounts, effect.lost, effect.others⟩)
  | close fd =>
      obtain ⟨unheld, effect⟩ := close_effect settled careful
      exact .inr (.inr ⟨fd, rfl, rfl, unheld, effect⟩)
  | dup oldfd =>
      rcases returned_cases (dup_effect settled oldfd) with ⟨same, effect⟩ | new
      · exact .inl ⟨same, effect⟩
      · exact .inr (.inl new)
  | stat path supply =>
      have effect := stat_effect driver (settled.withSupply supply) careful
      exact .inl ⟨rfl, effect.settled, effect.mounts, effect.lost, effect.others⟩
  | readdir fd count => exact .inl ⟨rfl, .refl settled none⟩

/-- What a careful run keeps from its start. -/
structure Keeps (v : State Disk) (s : Session Disk) : Prop where
  settled : Settled s.v
  mounts : s.v.mount_table = v.mount_table
  lost : ∀ a, s.v.Lost a ↔ v.Lost a

theorem Keeps.call {s : Session Disk} (keeps : Keeps v s) {call : PathCall} (fresh : call.Fresh s.v)
    (careful : call.Careful driver s.v) : Keeps v (s.call driver call) := by
  have after : ∀ {changed}, Effect s.v (s.call driver call).v changed → Keeps v (s.call driver call) :=
    fun effect => ⟨effect.settled, effect.mounts.trans keeps.mounts,
      fun a => (effect.lost a).trans (keeps.lost a)⟩
  rcases session_cases driver keeps.settled fresh careful with ⟨-, effect⟩ | ⟨fd, -, -, effect⟩ |
    ⟨fd, -, -, -, effect⟩
  · exact after effect
  · exact after effect
  · exact after effect

/-- The files of the start are still open, and others only in descriptors of the run. -/
structure Apart (v : State Disk) (s : Session Disk) : Prop where
  before : ∀ fd a, v.Holds fd a → fd ∉ s.opened ∧ s.v.Holds fd a
  after : ∀ fd a, s.v.Holds fd a → fd ∉ s.opened → v.Holds fd a

theorem Apart.call {s : Session Disk} (settled : Settled s.v) (apart : Apart v s) {call : PathCall}
    (fresh : call.Fresh s.v) (careful : call.Careful driver s.v) (own : call.ClosesOwn s) :
    Apart v (s.call driver call) := by
  rcases session_cases driver settled fresh careful with ⟨same, effect⟩ | ⟨fd, new, unheld, effect⟩ |
    ⟨fd, rfl, gone, unheld, effect⟩
  · refine ⟨fun fd a held => ?_, fun fd a held notOwn => ?_⟩
    · rw [same, effect.others fd (by nofun)]
      exact apart.before fd a held
    · rw [same] at notOwn
      exact apart.after fd a ((effect.others fd (by nofun) a).mp held) notOwn
  · refine ⟨fun fd' a held => ?_, fun fd' a held notOwn => ?_⟩
    · obtain ⟨notOwn, held⟩ := apart.before fd' a held
      have other : fd' ≠ fd := by
        rintro rfl
        exact unheld a held
      rw [new, effect.others fd' fun eq => other (Option.some.inj eq).symm]
      exact ⟨fun own => (List.mem_cons.mp own).elim other notOwn, held⟩
    · rw [new, List.mem_cons, not_or] at notOwn
      exact apart.after fd' a ((effect.others fd' (fun eq => notOwn.1 (Option.some.inj eq).symm) a).mp held)
        notOwn.2
  · refine ⟨fun fd' a held => ?_, fun fd' a held notOwn => ?_⟩
    · obtain ⟨notOwn, held⟩ := apart.before fd' a held
      have other : fd' ≠ fd := by
        rintro rfl
        exact notOwn (own a held)
      rw [gone, effect.others fd' fun eq => other (Option.some.inj eq).symm]
      exact ⟨fun isOwn => notOwn (List.mem_filter.mp isOwn).1, held⟩
    · have other : fd' ≠ fd := by
        rintro rfl
        exact unheld a held
      rw [gone, List.mem_filter, not_and] at notOwn
      exact apart.after fd' a ((effect.others fd' (fun eq => other (Option.some.inj eq).symm) a).mp held)
        fun isOwn => notOwn isOwn (decide_eq_true other)

/-- Every file object is held, a root's or lost. -/
theorem Settled.isFile_iff (settled : Settled v) (a : Addr) :
    (v.files a).isSome = true ↔ v.Lost a ∨ (∃ fd, v.Holds fd a) ∨ v.Root a := by
  constructor
  · intro isFile
    by_cases held : ∃ fd, v.Holds fd a
    · exact .inr (.inl held)
    · by_cases isRoot : v.Root a
      · exact .inr (.inr isRoot)
      · exact .inl ⟨isFile, fun fd holds => held ⟨fd, holds⟩, isRoot⟩
  · rintro (lost | ⟨fd, held⟩ | isRoot)
    · exact lost.1
    · exact settled.live.held fd a held
    · exact settled.live.root a isRoot

/-- In a careful run, an object is on the heap as long as a descriptor or a mount root refers
to it, and a run that has closed what it opened leaves the file objects there were. -/
theorem inode_lifetime (settled : Settled v) {calls : List PathCall}
    (fresh : Run.Meets (Session.call driver) (fun s call => call.Fresh s.v) ⟨v, []⟩ calls)
    (careful : Run.Meets (Session.call driver) (fun s call => call.Careful driver s.v) ⟨v, []⟩ calls) :
    ObjectsLive (Run.final (Session.call driver) ⟨v, []⟩ calls).v ∧
      (Run.Meets (Session.call driver) (fun s call => call.ClosesOwn s) ⟨v, []⟩ calls →
        (Run.final (Session.call driver) ⟨v, []⟩ calls).opened = [] →
        ∀ a, ((Run.final (Session.call driver) ⟨v, []⟩ calls).v.files a).isSome = (v.files a).isSome) := by
  have allowed := fresh.and careful
  have keeps : Keeps v (Run.final (Session.call driver) ⟨v, []⟩ calls) :=
    allowed.invariant (fun s call keeps ok => keeps.call driver ok.1 ok.2)
      ⟨settled, rfl, fun _ => Iff.rfl⟩
  refine ⟨keeps.settled.live, fun own closed a => ?_⟩
  have both : Keeps v (Run.final (Session.call driver) ⟨v, []⟩ calls) ∧
      Apart v (Run.final (Session.call driver) ⟨v, []⟩ calls) :=
    (allowed.and own).invariant (I := fun s => Keeps v s ∧ Apart v s)
      (fun s call both ok => ⟨both.1.call driver ok.1.1 ok.1.2,
        both.2.call driver both.1.settled ok.1.1 ok.1.2 ok.2⟩)
      ⟨⟨settled, rfl, fun _ => Iff.rfl⟩, fun _ _ held => ⟨List.not_mem_nil, held⟩, fun _ _ held _ => held⟩
  have holds : ∀ fd, (Run.final (Session.call driver) ⟨v, []⟩ calls).v.Holds fd a ↔ v.Holds fd a := fun fd =>
    ⟨fun held => both.2.after fd a held (by rw [closed]; exact List.not_mem_nil),
      fun held => (both.2.before fd a held).2⟩
  rw [Bool.eq_iff_iff, keeps.settled.isFile_iff, settled.isFile_iff, keeps.lost, root_congr keeps.mounts]
  simp only [holds]

theorem root_boot {supply : List Addr} {a : Addr} (isRoot : (bootState supply).Root a) : a = 0x200010 := by
  obtain ⟨m, valid, object⟩ := isRoot
  rcases mount_boot valid with mount | mount
  · rw [mount] at object
    cases object
    rfl
  · rw [mount] at object
    cases object

/-- The only file object after boot is that of the FAT root. -/
theorem settled_boot (supply : List Addr) : Settled (bootState supply) where
  owned := {
    count := fun i held => absurd (holders_boot supply i) held
    object := fun i _ held => absurd (holders_boot supply i) held
    distinct := fun i _ _ held => absurd (holders_boot supply i) held
    kept := fun a isRoot => by
      rw [root_boot isRoot]
      rfl
    apart := fun _ _ => rfl
    typed := fun _ _ _ opened _ => (fdGet_boot opened).2
    faults := rfl }
  roots m valid := by
    rcases mount_boot valid with mount | mount
    · rw [mount]
      exact ⟨rfl, by decide⟩
    · rw [mount]
      exact ⟨rfl, by decide⟩
  noPipe _ _ opened := (fdGet_boot opened).2

/-- A file opened, read as a directory and closed, with a question about one that is missing. -/
def openClose : List PathCall := [.open pathA [0x200020], .stat pathB [0x200040], .readdir 3 64, .close 3]

set_option maxRecDepth 8000 in
theorem inode_lifetime_boot :
    ObjectsLive (Run.final (Session.call smallDriver) ⟨bootState [], []⟩ openClose).v ∧
    ∀ a, ((Run.final (Session.call smallDriver) ⟨bootState [], []⟩ openClose).v.files a).isSome =
      ((bootState []).files a).isSome := by
  have fresh : Run.Meets (Session.call smallDriver) (fun s call => call.Fresh s.v) ⟨bootState [], []⟩ openClose := by
    refine ⟨fun a isHead => ?_, fun a isHead => ?_, trivial, trivial, trivial⟩
    · cases isHead
      exact ⟨rfl, rfl⟩
    · cases isHead
      exact ⟨rfl, rfl⟩
  have careful : Run.Meets (Session.call smallDriver) (fun s call => call.Careful smallDriver s.v)
      ⟨bootState [], []⟩ openClose := by
    have notRoot : ¬ (bootState []).Root 0x200020 := fun isRoot => by cases root_boot isRoot
    refine ⟨?_, ?_, trivial, ?_, trivial⟩
    · rintro names ⟨mount, rel, name, found, -, -, -, parts, -⟩
      cases found
      cases parts
      exact ⟨rfl, rfl, 0, by decide, rfl⟩
    · rintro names ⟨mount, rel, name, found, -, -, -, parts, entry, -⟩
      cases found
      cases parts
      cases entry
    · intro i a owner _ object
      cases owner
      cases object
      exact notRoot
  obtain ⟨live, balanced⟩ := inode_lifetime smallDriver (settled_boot []) fresh careful
  exact ⟨live, balanced ⟨trivial, trivial, trivial, fun _ _ => by decide, trivial⟩ rfl⟩

/-- Closing the last descriptor of the root frees the object that the mount still has, and
opening a file in a directory leaves an object behind. -/
theorem root_freed_and_object_leaked :
    ¬ ObjectsLive (Run.final (Session.call smallDriver) ⟨bootState [], []⟩ [.open pathRoot [], .close 3]).v ∧
    Run.Meets (Session.call smallDriver) (fun s call => call.ClosesOwn s) ⟨bootState [], []⟩
      [.open pathDX [0x200020, 0x200040], .close 3] ∧
    (Run.final (Session.call smallDriver) ⟨bootState [], []⟩
      [.open pathDX [0x200020, 0x200040], .close 3]).opened = [] ∧
    ¬ ∀ a, ((Run.final (Session.call smallDriver) ⟨bootState [], []⟩
      [.open pathDX [0x200020, 0x200040], .close 3]).v.files a).isSome = ((bootState []).files a).isSome := by
  refine ⟨fun live => ?_, ⟨trivial, fun _ _ => by decide +kernel, trivial⟩, by decide +kernel, fun same => ?_⟩
  · have isFile := live.root 0x200010 ⟨0, by decide +kernel, by decide +kernel⟩
    exact absurd isFile (by decide +kernel)
  · exact absurd (same 0x200020) (by decide +kernel)

end Systrix.Vfs
