import Systrix.Lib.Counting
import Systrix.Vfs.Core

/-!
# What the calls change in the tables

Descriptors refer to inodes and inodes to file objects; as long as every inode counts its
descriptors, closing one frees what no other descriptor has.
-/

namespace Systrix.Vfs

open Machine

variable {Disk : Type} {v : State Disk}

/-! ## Descriptors -/

/-- The descriptor is open. -/
def State.IsOpen (v : State Disk) (fd : Nat) : Prop := (fdGet v fd).isSome = true

instance (v : State Disk) (fd : Nat) : Decidable (v.IsOpen fd) := inferInstanceAs (Decidable (_ = true))

theorem fdGet_eq_some {fd : Nat} {f : Fd} :
    fdGet v fd = some f ↔ fd < fdMax ∧ (v.fd_table fd).in_use = true ∧ v.fd_table fd = f := by
  unfold fdGet
  split
  · rename_i closed
    rw [Bool.or_eq_true, decide_eq_true_eq, Bool.not_eq_true'] at closed
    constructor
    · exact fun none => by cases none
    · rintro ⟨small, inUse, -⟩
      rcases closed with large | free
      · omega
      · rw [free] at inUse
        cases inUse
  · rename_i opened
    rw [Bool.or_eq_true, decide_eq_true_eq, Bool.not_eq_true', not_or, Bool.not_eq_false] at opened
    exact ⟨fun same => ⟨by omega, opened.2, Option.some.inj same⟩, fun ⟨_, _, same⟩ => congrArg some same⟩

theorem fdGet_congr {v' : State Disk} (same : v'.fd_table = v.fd_table) (fd : Nat) :
    fdGet v' fd = fdGet v fd := by
  rw [fdGet, fdGet, same]

@[simp] theorem setFd_self (fd : Nat) (f : Fd) : (v.setFd fd f).fd_table fd = f := by
  unfold State.setFd
  exact Function.update_self _ _ _

theorem setFd_of_ne {fd other : Nat} (ne : other ≠ fd) (f : Fd) :
    (v.setFd fd f).fd_table other = v.fd_table other := by
  unfold State.setFd
  exact Function.update_of_ne ne _ _

theorem not_open_of_free {fd : Nat} (free : (v.fd_table fd).in_use = false) : fdGet v fd = none := by
  unfold fdGet
  rw [free, Bool.not_false, Bool.or_true, if_pos rfl]

theorem fdGet_setFd_self {fd : Nat} (small : fd < fdMax) (f : Fd) :
    fdGet (v.setFd fd f) fd = if f.in_use then some f else none := by
  cases inUse : f.in_use with
  | false => exact not_open_of_free (by rw [setFd_self, inUse])
  | true => exact fdGet_eq_some.mpr ⟨small, by rw [setFd_self, inUse], setFd_self fd f⟩

theorem fdGet_setFd_of_ne {fd other : Nat} (ne : other ≠ fd) (f : Fd) :
    fdGet (v.setFd fd f) other = fdGet v other := by
  simp only [fdGet, setFd_of_ne ne]

/-- A free descriptor, as the loops of `fd_alloc` and `sys_pipe` find it. -/
theorem freeFd_spec {taken : Option Nat} {fd : Nat} (free : freeFd v taken = some fd) :
    fd < fdMax ∧ (v.fd_table fd).in_use = false ∧ taken ≠ some fd := by
  have holds := List.find?_some free
  have member := List.mem_of_mem_drop (List.mem_of_find?_eq_some free)
  rw [Bool.and_eq_true, Bool.not_eq_true', bne_iff_ne] at holds
  exact ⟨List.mem_range.mp member, holds⟩

/-! ## Heap -/

section HeapFree

variable (v) (a : Addr)

@[simp] theorem heapFree_fd_table : (heapFree v a).fd_table = v.fd_table := by
  unfold heapFree
  split <;> rfl

end HeapFree

@[simp] theorem pipeDestroy_fd_table (v : State Disk) (p : Option Addr) :
    (pipeDestroy v p).fd_table = v.fd_table := by
  cases p with
  | none => rfl
  | some a => exact heapFree_fd_table v a

/-! ## Who refers to an inode -/

/-- The inode of an open descriptor. -/
def State.owner (v : State Disk) (fd : Nat) : Option Nat := (fdGet v fd).bind Fd.inode

/-- How many open descriptors refer to an inode. -/
def State.holders (v : State Disk) (i : Nat) : Nat :=
  ((Finset.range fdMax).filter fun fd => v.owner fd = some i).card

theorem holders_congr {v' : State Disk} (same : v'.fd_table = v.fd_table) (i : Nat) :
    v'.holders i = v.holders i := by
  unfold State.holders State.owner
  simp only [fdGet_congr same]

theorem holders_le (v : State Disk) (i : Nat) : v.holders i ≤ fdMax := by
  refine (Finset.card_filter_le _ _).trans ?_
  rw [Finset.card_range]

theorem holders_setFd {fd : Nat} (small : fd < fdMax) (f : Fd) (i : Nat) :
    (v.setFd fd f).holders i + (if v.owner fd = some i then 1 else 0) =
      v.holders i + if (if f.in_use then f.inode else none) = some i then 1 else 0 := by
  have total := Counting.card_update (Finset.range fdMax) (f := v.owner) (g := (v.setFd fd f).owner)
    (Finset.mem_range.mpr small) (fun x other => congrArg (·.bind Fd.inode) (fdGet_setFd_of_ne other f))
    (some i)
  have self : (v.setFd fd f).owner fd = if f.in_use then f.inode else none := by
    unfold State.owner
    rw [fdGet_setFd_self small]
    cases f.in_use <;> rfl
  rw [self] at total
  exact total

theorem holders_pos {fd i : Nat} {f : Fd} (opened : fdGet v fd = some f) (isInode : f.inode = some i) :
    v.holders i ≠ 0 := by
  have small := (fdGet_eq_some.mp opened).1
  refine Finset.card_ne_zero_of_mem (a := fd) ?_
  rw [Finset.mem_filter, Finset.mem_range]
  refine ⟨small, ?_⟩
  rw [State.owner, opened]
  exact isInode

theorem holder_of_pos {i : Nat} (held : v.holders i ≠ 0) :
    ∃ fd f, fdGet v fd = some f ∧ f.inode = some i := by
  obtain ⟨fd, member⟩ := Finset.card_ne_zero.mp held
  have owner := (Finset.mem_filter.mp member).2
  obtain ⟨f, opened, isInode⟩ := Option.bind_eq_some_iff.mp owner
  exact ⟨fd, f, opened, isInode⟩

/-! ## The invariant -/

/-- Inodes that are in use count their descriptors and have a file object of their own,
unless it is a shared one. -/
structure Owned (shared : Addr → Prop) (v : State Disk) : Prop where
  count : ∀ i, v.holders i ≠ 0 →
    (v.inode_table i).valid = true ∧ (v.inode_table i).refcount = v.holders i
  object : ∀ i a, v.holders i ≠ 0 → (v.inode_table i).fs_data = some a → (v.files a).isSome = true
  distinct : ∀ i j a, v.holders i ≠ 0 → v.holders j ≠ 0 → (v.inode_table i).fs_data = some a →
    (v.inode_table j).fs_data = some a → i ≠ j → shared a
  kept : ∀ a, shared a → (v.files a).isSome = true
  apart : ∀ a, (v.files a).isSome = true → v.pipes a = none
  typed : ∀ fd f i, fdGet v fd = some f → f.inode = some i → f.type ≠ itPipe
  faults : v.faults = []

/-- What the invariant sees of a descriptor. -/
def State.link (v : State Disk) (fd : Nat) : Option (Option Nat × Nat) :=
  (fdGet v fd).map fun f => (f.inode, f.type)

/-- The invariant is about who refers to what, not about contents. -/
theorem Owned.frame {shared : Addr → Prop} (owned : Owned shared v) {v' : State Disk}
    (links : ∀ fd, v'.link fd = v.link fd)
    (inodes : ∀ i, (v'.inode_table i).valid = (v.inode_table i).valid ∧
      (v'.inode_table i).refcount = (v.inode_table i).refcount ∧
      (v'.inode_table i).fs_data = (v.inode_table i).fs_data)
    (files : ∀ a, (v'.files a).isSome = (v.files a).isSome)
    (pipes : ∀ a, (v.files a).isSome = true → v.pipes a = none → v'.pipes a = none) (faults : v'.faults = v.faults) :
    Owned shared v' := by
  have owner : ∀ fd, v'.owner fd = v.owner fd := fun fd => by
    have link := congrArg (·.bind Prod.fst) (links fd)
    simp only [State.link, Option.bind_map, Function.comp_def] at link
    exact link
  have count : ∀ i, v'.holders i = v.holders i := fun i => by
    unfold State.holders
    simp only [owner]
  refine ⟨fun i held => ?_, fun i a held isObject => ?_, fun i j a held held' isI isJ => ?_,
    fun a isShared => ?_, fun a isFile => ?_, fun fd f i opened isInode => ?_, faults.trans owned.faults⟩
  · rw [count] at held ⊢
    rw [(inodes i).1, (inodes i).2.1]
    exact owned.count i held
  · rw [count] at held
    rw [(inodes i).2.2] at isObject
    rw [files]
    exact owned.object i a held isObject
  · rw [count] at held held'
    rw [(inodes i).2.2] at isI
    rw [(inodes j).2.2] at isJ
    exact owned.distinct i j a held held' isI isJ
  · rw [files]
    exact owned.kept a isShared
  · rw [files] at isFile
    exact pipes a isFile (owned.apart a isFile)
  · have link := links fd
    rw [State.link, State.link, opened] at link
    obtain ⟨g, opened', same⟩ := Option.map_eq_some_iff.mp link.symm
    rw [Prod.mk.injEq] at same
    rw [← same.2]
    exact owned.typed fd g i opened' (same.1.trans isInode)

/-- The file objects without one of them. -/
def dropObject (files : Addr → Option FD) : Option Addr → Addr → Option FD
  | none => files
  | some a => Function.update files a none

theorem dropObject_of_ne {files : Addr → Option FD} {object : Option Addr} {a : Addr}
    (other : object ≠ some a) : dropObject files object a = files a := by
  cases object with
  | none => rfl
  | some b => exact Function.update_of_ne (fun same => other (congrArg some same.symm)) _ _

theorem of_isSome_dropObject {files : Addr → Option FD} {object : Option Addr} {a : Addr}
    (isFile : (dropObject files object a).isSome = true) : (files a).isSome = true ∧ object ≠ some a := by
  by_cases same : object = some a
  · rw [same, dropObject, Function.update_self] at isFile
    cases isFile
  · rw [dropObject_of_ne same] at isFile
    exact ⟨isFile, same⟩

/-- Freeing an inode whose file object is there. -/
theorem inodeFree_eq {i : Nat}
    (live : ∀ a, (v.inode_table i).fs_data = some a → (v.files a).isSome = true ∧ v.pipes a = none) :
    inodeFree v i = { v with
      inode_table := Function.update v.inode_table i { v.inode_table i with valid := false, fs_data := none }
      files := dropObject v.files (v.inode_table i).fs_data } := by
  unfold inodeFree
  simp only [State.setInode, Function.update_self]
  cases isObject : (v.inode_table i).fs_data with
  | none => simp [dropObject]
  | some a =>
      obtain ⟨isFile, noPipe⟩ := live a isObject
      have same : Function.update v.pipes a none = v.pipes := Function.update_eq_self_iff.mpr noPipe.symm
      simp [heapFree, isFile, same, dropObject]

/-! ## Closing -/

/-- What is left of a descriptor that was closed. -/
def Fd.closed (f : Fd) : Fd := { f with in_use := false, inode := none, pipe_data := none }

/-- The tables after one of several descriptors of an inode was closed. -/
def State.closeOne (v : State Disk) (fd i : Nat) (f : Fd) : State Disk :=
  { v with
    inode_table := Function.update v.inode_table i { v.inode_table i with refcount := v.holders i - 1 }
    fd_table := Function.update v.fd_table fd f.closed }

/-- The tables after the last descriptor of an inode was closed. -/
def State.closeLast (v : State Disk) (fd i : Nat) (f : Fd) : State Disk :=
  { v with
    inode_table := Function.update v.inode_table i
      { v.inode_table i with refcount := 0, valid := false, fs_data := none }
    files := dropObject v.files (v.inode_table i).fs_data
    fd_table := Function.update v.fd_table fd f.closed }

theorem inodeFree_fd_table (v : State Disk) (i : Nat) : (inodeFree v i).fd_table = v.fd_table := by
  unfold inodeFree
  simp only [State.setInode, Function.update_self]
  split
  · rfl
  · simp only [heapFree_fd_table]

theorem inodeDeref_fd_table (v : State Disk) (i : Nat) : (inodeDeref v i).fd_table = v.fd_table := by
  have kept : ∀ refcount, (inodeKeep v i refcount).fd_table = v.fd_table := fun refcount => by
    unfold inodeKeep
    dsimp only
    split
    · rfl
    · rw [inodeFree_fd_table]
      rfl
  exact kept _

section Close

variable {fd i : Nat} {f : Fd} (opened : fdGet v fd = some f) (isInode : f.inode = some i)
  {shared : Addr → Prop} (owned : Owned shared v)

section After

variable {w : State Disk} (after : w.fd_table = Function.update v.fd_table fd f.closed)

include opened after

/-- The references of the other inodes stay. -/
theorem holders_close (isInode : f.inode = some i) (j : Nat) :
    w.holders j + (if i = j then 1 else 0) = v.holders j := by
  have small := (fdGet_eq_some.mp opened).1
  have total := holders_setFd (v := v) small f.closed j
  have owner : v.owner fd = some i := by rw [State.owner, opened]; exact isInode
  rw [owner] at total
  rw [holders_congr (v := v.setFd fd f.closed) after j]
  simpa [Fd.closed] using total

theorem fdGet_close {fd' : Nat} {f' : Fd} (opened' : fdGet w fd' = some f') :
    fd' ≠ fd ∧ fdGet v fd' = some f' := by
  rw [fdGet_congr (v := v.setFd fd f.closed) after] at opened'
  by_cases same : fd' = fd
  · rw [same, fdGet_setFd_self (fdGet_eq_some.mp opened).1] at opened'
    cases opened'
  · exact ⟨same, by rwa [fdGet_setFd_of_ne same] at opened'⟩

end After

include opened isInode owned

theorem vfsClose_inode : vfsClose v fd = (0, (inodeDeref v i).setFd fd f.closed) := by
  unfold vfsClose
  rw [opened]
  dsimp only
  rw [isInode]
  dsimp only
  rw [if_neg (owned.typed fd f i opened isInode), inodeDeref_fd_table, (fdGet_eq_some.mp opened).2.2]
  rfl

omit isInode owned in
/-- Closing a descriptor that has neither an inode nor a pipe. -/
theorem vfsClose_plain (noInode : f.inode = none) (notPipe : f.type ≠ itPipe) :
    vfsClose v fd = (0, v.setFd fd f.closed) := by
  unfold vfsClose
  rw [opened]
  dsimp only
  rw [noInode]
  dsimp only
  rw [if_neg notPipe, (fdGet_eq_some.mp opened).2.2]
  rfl

theorem vfsClose_one (several : v.holders i ≠ 1) : (vfsClose v fd).2 = v.closeOne fd i f := by
  have held := holders_pos opened isInode
  obtain ⟨-, refcount⟩ := owned.count i held
  have bound := holders_le v i
  have small : fdMax < 2 ^ 32 := by decide
  have less : sub32 (v.holders i) 1 = v.holders i - 1 := sub32_of_le (by omega) (by omega)
  rw [vfsClose_inode opened isInode owned, inodeDeref, refcount, less, inodeKeep]
  dsimp only
  rw [if_pos (by omega)]
  rfl

theorem vfsClose_last (last : v.holders i = 1) : (vfsClose v fd).2 = v.closeLast fd i f := by
  have held := holders_pos opened isInode
  obtain ⟨-, refcount⟩ := owned.count i held
  have less : sub32 1 1 = 0 := sub32_of_le (Nat.le_refl 1) (by decide)
  rw [vfsClose_inode opened isInode owned, inodeDeref, refcount, last, less, inodeKeep]
  dsimp only
  rw [if_neg (Nat.lt_irrefl 0), inodeFree_eq]
  · simp only [State.setInode, State.setFd, Function.update_self, Function.update_idem]
    rfl
  · intro a isObject
    simp only [State.setInode, Function.update_self] at isObject ⊢
    have isFile := owned.object i a held isObject
    exact ⟨isFile, owned.apart a isFile⟩

/-- Closing a descriptor of an inode keeps the invariant, unless the inode is freed while its
object is shared. -/
theorem Owned.close (alone : v.holders i = 1 → ∀ a, (v.inode_table i).fs_data = some a → ¬ shared a) :
    Owned shared (vfsClose v fd).2 := by
  have held := holders_pos opened isInode
  by_cases last : v.holders i = 1
  · rw [vfsClose_last opened isInode owned last]
    have total := holders_close opened (w := v.closeLast fd i f) rfl isInode
    have still : ∀ {j}, (v.closeLast fd i f).holders j ≠ 0 → j ≠ i ∧ v.holders j ≠ 0 ∧
        (v.closeLast fd i f).holders j = v.holders j ∧
        (v.closeLast fd i f).inode_table j = v.inode_table j := fun {j} heldJ => by
      have now := total j
      by_cases same : i = j
      · subst same
        rw [if_pos rfl] at now
        omega
      · rw [if_neg same, Nat.add_zero] at now
        exact ⟨Ne.symm same, now ▸ heldJ, now, Function.update_of_ne (Ne.symm same) _ _⟩
    refine ⟨fun j heldJ => ?_, fun j a heldJ isObject => ?_, fun j k a heldJ heldK isJ isK => ?_,
      fun a isShared => ?_, fun a isFile => ?_, fun fd' f' j opened' => ?_, owned.faults⟩
    · obtain ⟨-, wasHeld, count, same⟩ := still heldJ
      rw [count, same]
      exact owned.count j wasHeld
    · obtain ⟨other, wasHeld, -, same⟩ := still heldJ
      rw [same] at isObject
      show (dropObject v.files (v.inode_table i).fs_data a).isSome = true
      rw [dropObject_of_ne fun isI =>
        alone last a isI (owned.distinct j i a wasHeld held isObject isI other)]
      exact owned.object j a wasHeld isObject
    · obtain ⟨-, wasHeld, -, same⟩ := still heldJ
      obtain ⟨-, wasHeld', -, same'⟩ := still heldK
      rw [same] at isJ
      rw [same'] at isK
      exact owned.distinct j k a wasHeld wasHeld' isJ isK
    · show (dropObject v.files (v.inode_table i).fs_data a).isSome = true
      rw [dropObject_of_ne fun isI => alone last a isI isShared]
      exact owned.kept a isShared
    · exact owned.apart a (of_isSome_dropObject isFile).1
    · exact owned.typed fd' f' j (fdGet_close opened (w := v.closeLast fd i f) rfl opened').2
  · rw [vfsClose_one opened isInode owned last]
    have total := holders_close opened (w := v.closeOne fd i f) rfl isInode
    have still : ∀ {j}, (v.closeOne fd i f).holders j ≠ 0 → v.holders j ≠ 0 := fun {j} heldJ => by
      have now := total j
      omega
    have object : ∀ j, ((v.closeOne fd i f).inode_table j).fs_data = (v.inode_table j).fs_data := fun j => by
      show (Function.update v.inode_table i _ j).fs_data = _
      by_cases same : j = i
      · rw [same, Function.update_self]
      · rw [Function.update_of_ne same]
    refine ⟨fun j heldJ => ?_, fun j a heldJ isObject => ?_, fun j k a heldJ heldK isJ isK => ?_,
      owned.kept, owned.apart, fun fd' f' j opened' => ?_, owned.faults⟩
    · obtain ⟨valid, refcount⟩ := owned.count j (still heldJ)
      have now := total j
      show (Function.update v.inode_table i _ j).valid = true ∧
        (Function.update v.inode_table i _ j).refcount = _
      by_cases same : i = j
      · subst same
        rw [Function.update_self]
        rw [if_pos rfl] at now
        exact ⟨valid, by dsimp only; omega⟩
      · rw [Function.update_of_ne (Ne.symm same)]
        rw [if_neg same] at now
        exact ⟨valid, by omega⟩
    · rw [object] at isObject
      exact owned.object j a (still heldJ) isObject
    · rw [object] at isJ isK
      exact owned.distinct j k a (still heldJ) (still heldK) isJ isK
    · exact owned.typed fd' f' j (fdGet_close opened (w := v.closeOne fd i f) rfl opened').2

end Close

section CloseFile

variable {fd : Nat} {f : Fd} (opened : fdGet v fd = some f) (notPipe : f.type ≠ itPipe)
  {shared : Addr → Prop} (owned : Owned shared v)

include opened notPipe owned

theorem vfsClose_frame : (vfsClose v fd).2.fd_table = Function.update v.fd_table fd f.closed ∧
    (vfsClose v fd).2.pipes = v.pipes ∧ (vfsClose v fd).2.mount_table = v.mount_table := by
  cases isInode : f.inode with
  | none =>
      rw [vfsClose_plain opened isInode notPipe]
      exact ⟨rfl, rfl, rfl⟩
  | some i =>
      by_cases last : v.holders i = 1
      · rw [vfsClose_last opened isInode owned last]
        exact ⟨rfl, rfl, rfl⟩
      · rw [vfsClose_one opened isInode owned last]
        exact ⟨rfl, rfl, rfl⟩

end CloseFile

/-! ## Storing descriptors -/

section RefCopy

variable (v) (f : Fd)

@[simp] theorem refCopy_fd_table : (refCopy v f).fd_table = v.fd_table := by
  unfold refCopy
  cases f.inode <;> rfl

@[simp] theorem refCopy_mount_table : (refCopy v f).mount_table = v.mount_table := by
  unfold refCopy
  cases f.inode <;> rfl

@[simp] theorem refCopy_files : (refCopy v f).files = v.files := by
  unfold refCopy
  cases f.inode <;> rfl

@[simp] theorem refCopy_pipes : (refCopy v f).pipes = v.pipes := by
  unfold refCopy
  cases f.inode <;> rfl

@[simp] theorem refCopy_object (i : Nat) :
    ((refCopy v f).inode_table i).fs_data = (v.inode_table i).fs_data := by
  unfold refCopy
  cases f.inode with
  | none => rfl
  | some j =>
      show (Function.update v.inode_table j _ i).fs_data = _
      by_cases same : i = j
      · rw [same, Function.update_self]
      · rw [Function.update_of_ne same]

end RefCopy

theorem vfsDup_eq {oldfd newfd : Nat} {f : Fd} (opened : fdGet v oldfd = some f)
    (free : freeFd v none = some newfd) : vfsDup v oldfd = ((newfd : Int), refCopy (v.setFd newfd f) f) := by
  have isFree := (freeFd_spec free).2.1
  obtain ⟨-, inUse, same⟩ := fdGet_eq_some.mp opened
  have other : oldfd ≠ newfd := by
    rintro rfl
    rw [isFree] at inUse
    cases inUse
  have idem : ∀ g h : Fd, (v.setFd newfd g).setFd newfd h = v.setFd newfd h := fun g h => by
    simp only [State.setFd, Function.update_idem]
  unfold vfsDup fdAlloc
  rw [opened, free]
  simp only [Option.map_some, setFd_of_ne other, idem, same]

section Store

variable {shared : Addr → Prop} {fd : Nat} (small : fd < fdMax) (noOwner : v.owner fd = none)

include small noOwner

/-- A descriptor is opened or copied. -/
theorem holders_store {f : Fd} (inUse : f.in_use = true) (i : Nat) :
    (v.setFd fd f).holders i = v.holders i + if f.inode = some i then 1 else 0 := by
  have total := holders_setFd (v := v) small f i
  rw [noOwner, if_neg (fun none => by cases none), if_pos inUse] at total
  exact total

/-- A descriptor without an inode is stored or cleared. -/
theorem Owned.setPlain (owned : Owned shared v) {f : Fd} (noInode : f.inode = none) :
    Owned shared (v.setFd fd f) := by
  have same : ∀ i, (v.setFd fd f).holders i = v.holders i := fun i => by
    have total := holders_setFd (v := v) small f i
    rw [noOwner, noInode] at total
    simpa using total
  refine ⟨fun i held => ?_, fun i a held => ?_, fun i j a held held' => ?_, owned.kept, owned.apart,
    fun fd' f' i opened isInode => ?_, owned.faults⟩
  · rw [same] at held ⊢
    exact owned.count i held
  · rw [same] at held
    exact owned.object i a held
  · rw [same] at held held'
    exact owned.distinct i j a held held'
  · by_cases eq : fd' = fd
    · rw [eq, fdGet_setFd_self small] at opened
      cases inUse : f.in_use with
      | false =>
          rw [inUse] at opened
          cases opened
      | true =>
          rw [inUse] at opened
          rw [← Option.some.inj opened, noInode] at isInode
          cases isInode
    · rw [fdGet_setFd_of_ne eq] at opened
      exact owned.typed fd' f' i opened isInode

/-- A descriptor is copied, with a reference to its inode. -/
theorem Owned.copy (owned : Owned shared v) {f : Fd} (inUse : f.in_use = true)
    (isCopy : ∀ i, f.inode = some i → v.holders i ≠ 0 ∧ f.type ≠ itPipe) :
    Owned shared (refCopy (v.setFd fd f) f) := by
  cases isInode : f.inode with
  | none =>
      rw [refCopy, isInode]
      exact owned.setPlain small noOwner isInode
  | some i =>
      obtain ⟨held, notPipe⟩ := isCopy i isInode
      obtain ⟨valid, refcount⟩ := owned.count i held
      have bound : fdMax < 2 ^ 32 - 1 := by decide
      have limit := holders_le v i
      have more : u32 (v.holders i + 1) = v.holders i + 1 := u32_of_lt (by omega)
      have isRef : refCopy (v.setFd fd f) f = (v.setFd fd f).setInode i
          { v.inode_table i with refcount := v.holders i + 1 } := by
        rw [refCopy, isInode]
        dsimp only
        rw [inodeRef]
        show (v.setFd fd f).setInode i
          { v.inode_table i with refcount := u32 ((v.inode_table i).refcount + 1) } = _
        rw [refcount, more]
      have count : ∀ j, (refCopy (v.setFd fd f) f).holders j =
          v.holders j + if some i = some j then 1 else 0 := fun j => by
        rw [isRef, ← isInode, ← holders_store small noOwner inUse j]
        exact holders_congr rfl j
      have still : ∀ {j}, (refCopy (v.setFd fd f) f).holders j ≠ 0 → v.holders j ≠ 0 := fun {j} heldJ => by
        rw [count] at heldJ
        by_cases same : some i = some j
        · rw [← Option.some.inj same]
          exact held
        · rw [if_neg same] at heldJ
          exact heldJ
      rw [isRef] at count still ⊢
      have object : ∀ j, (((v.setFd fd f).setInode i
          { v.inode_table i with refcount := v.holders i + 1 }).inode_table j).fs_data =
          (v.inode_table j).fs_data := fun j => by
        show (Function.update v.inode_table i _ j).fs_data = _
        by_cases same : j = i
        · rw [same, Function.update_self]
        · rw [Function.update_of_ne same]
      refine ⟨fun j heldJ => ?_, fun j a heldJ isObject => ?_, fun j k a heldJ heldK isJ isK => ?_,
        owned.kept, owned.apart, fun fd' f' j opened isInode' => ?_, owned.faults⟩
      · have was := owned.count j (still heldJ)
        rw [count]
        show (Function.update v.inode_table i _ j).valid = true ∧
          (Function.update v.inode_table i _ j).refcount = _
        by_cases same : j = i
        · subst same
          rw [Function.update_self, if_pos rfl]
          exact ⟨valid, rfl⟩
        · rw [Function.update_of_ne same, if_neg fun eq => same (Option.some.inj eq).symm]
          exact was
      · rw [object] at isObject
        exact owned.object j a (still heldJ) isObject
      · rw [object] at isJ isK
        exact owned.distinct j k a (still heldJ) (still heldK) isJ isK
      · have same : fdGet ((v.setFd fd f).setInode i
            { v.inode_table i with refcount := v.holders i + 1 }) fd' = fdGet (v.setFd fd f) fd' :=
          fdGet_congr rfl fd'
        rw [same] at opened
        by_cases eq : fd' = fd
        · rw [eq, fdGet_setFd_self small, if_pos inUse] at opened
          cases opened
          exact notPipe
        · rw [fdGet_setFd_of_ne eq] at opened
          exact owned.typed fd' f' j opened isInode'

end Store

/-! ## Opening -/

/-- The tables after a descriptor of an inode was opened. -/
def State.store (v : State Disk) (fd i : Nat) (inode : Inode) : State Disk :=
  { v with
    inode_table := Function.update v.inode_table i inode
    fd_table := Function.update v.fd_table fd ⟨true, some i, 0, 0, inode.attr.type, none⟩
    next_ino := v.next_ino + 1 }

/-- What `vfs_open` does once the path is resolved. -/
theorem vfsOpen_walked (driver : Driver Disk) {path rel : Chars} {mount : Mount} {inode : Inode} {v₁ : State Disk}
    (found : findMount v path = some (mount, rel))
    (walk : pathWalk driver v mount.root rel = (.ok inode, v₁)) :
    vfsOpen driver v path =
      match freeFd v₁ none, (List.range maxInode).find? fun i => !(v₁.inode_table i).valid with
      | none, _ => (enomem, v₁)
      | some fd, none => (enomem, v₁.setFd fd { v₁.fd_table fd with in_use := false, inode := none })
      | some fd, some i => ((fd : Int), v₁.store fd i inode) := by
  unfold vfsOpen fdAlloc inodeAlloc
  rw [found]
  dsimp only
  rw [walk]
  dsimp only
  cases freeFd v₁ none with
  | none => rfl
  | some fd =>
      have idem : ∀ g h : Fd, (v₁.setFd fd g).setFd fd h = v₁.setFd fd h := fun g h => by
        simp only [State.setFd, Function.update_idem]
      dsimp only [Option.map_some]
      have same : ∀ f, (v₁.setFd fd f).inode_table = v₁.inode_table := fun _ => rfl
      rw [same]
      cases (List.range maxInode).find? fun i => !(v₁.inode_table i).valid with
      | none =>
          dsimp only [Option.map_none]
          rw [idem, setFd_self]
      | some i =>
          simp only [Option.map_some, State.setFd, State.setInode, State.store, Function.update_idem]

/-! ## After boot -/

/-- There are no descriptors but the standard ones after boot. -/
theorem fdGet_boot {supply : List Addr} {fd : Nat} {f : Fd} (opened : fdGet (bootState supply) fd = some f) :
    f.inode = none ∧ f.type ≠ itPipe := by
  obtain ⟨-, -, isFd⟩ := fdGet_eq_some.mp opened
  rw [← isFd]
  show (if fd < 3 then _ else zeroFd : Fd).inode = none ∧ (if fd < 3 then _ else zeroFd : Fd).type ≠ itPipe
  split <;> exact ⟨rfl, by decide⟩

theorem holders_boot (supply : List Addr) (i : Nat) : (bootState supply).holders i = 0 := by
  refine Classical.byContradiction fun held => ?_
  obtain ⟨fd, f, opened, isInode⟩ := holder_of_pos held
  rw [(fdGet_boot opened).1] at isInode
  cases isInode

/-- `/A.TXT`, `/B`, `/D/X` and `/` -/
def pathA : Chars := [slash, 65, dot, 84, 88, 84]

def pathB : Chars := [slash, 66]

def pathDX : Chars := [slash, 68, slash, 88]

def pathRoot : Chars := [slash]

/-- The root of the FAT volume, which has the only file object. -/
def fatRoot : Inode := ⟨true, 2, 1, 0, 1, rootAttr, .fat32, some 0x200010⟩

/-- The root of the JFS. -/
def jfsRoot : Inode := ⟨true, 0, 2, 0, 1, rootAttr, .jfs, none⟩

/-- The two mounts after boot. -/
theorem mount_boot {supply : List Addr} {m : Nat} (valid : ((bootState supply).mount_table m).valid = true) :
    (bootState supply).mount_table m = ⟨true, [slash], 1, fatRoot⟩ ∨
      (bootState supply).mount_table m = ⟨true, [slash, 106, 102, 115], 2, jfsRoot⟩ := by
  have table : (bootState supply).mount_table = Function.update (Function.update (fun _ => ⟨false, [], 0, zeroInode⟩)
      0 ⟨true, [slash], 1, fatRoot⟩) 1 ⟨true, [slash, 106, 102, 115], 2, jfsRoot⟩ := rfl
  rw [table] at valid ⊢
  by_cases second : m = 1
  · rw [second, Function.update_self]
    exact .inr rfl
  · rw [Function.update_of_ne second] at valid ⊢
    by_cases first : m = 0
    · rw [first, Function.update_self]
      exact .inl rfl
    · rw [Function.update_of_ne first] at valid
      cases valid

end Systrix.Vfs
