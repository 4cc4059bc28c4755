import Systrix.Lib.Run
import Systrix.Vfs.Tables

/-!
# How long pipes live

`vfs_close` frees the pipe of a descriptor without asking for its other descriptors, of which
there always is one.
-/

namespace Systrix.Vfs

open Ipc

variable {Disk : Type} (driver : Driver Disk) {v : State Disk}

/-- An open descriptor of either end of a pipe. -/
def State.Refers (v : State Disk) (fd : Nat) (p : Addr) : Prop :=
  ∃ f, fdGet v fd = some f ∧ f.type = itPipe ∧ f.pipe_data = some p

/-- An open descriptor of some pipe. -/
def State.IsPipe (v : State Disk) (fd : Nat) : Prop := ∃ f, fdGet v fd = some f ∧ f.type = itPipe

/-- The pipe objects on the heap are those that open descriptors refer to, and nothing was
used or freed that was free already. -/
structure PipesLive (v : State Disk) : Prop where
  faults : v.faults = []
  live : ∀ fd p, v.Refers fd p → (v.pipes p).isSome = true
  referred : ∀ p, (v.pipes p).isSome = true → ∃ fd, v.Refers fd p

/-- The calls; `supply` is what `heap_malloc` has for one. -/
inductive FdCall where
  | pipe (supply : List Addr)
  | dup (oldfd : Nat)
  | dup2 (oldfd newfd : Nat)
  | read (fd n : Nat)
  | write (fd : Nat) (buf : List UInt8)
  | close (fd : Nat)

def State.call (v : State Disk) : FdCall → State Disk
  | .pipe supply => (sysPipe { v with supply := supply }).2
  | .dup oldfd => (vfsDup v oldfd).2
  | .dup2 oldfd newfd => (vfsDup2 v oldfd newfd).2
  | .read fd n => (vfsRead driver v fd n).2.2
  | .write fd buf => (vfsWrite driver v fd buf).2
  | .close fd => (vfsClose v fd).2

/-- `heap_malloc` returns memory nobody has. -/
def FdCall.Fresh (v : State Disk) : FdCall → Prop
  | .pipe supply => ∀ a ∈ supply.head?, v.files a = none ∧ v.pipes a = none
  | _ => True

/-- The call closes no descriptor of a pipe. -/
def FdCall.KeepsPipes (v : State Disk) : FdCall → Prop
  | .close fd => ¬ v.IsPipe fd
  | .dup2 oldfd newfd => oldfd ≠ newfd → v.IsOpen oldfd → newfd < fdMax → ¬ v.IsPipe newfd
  | _ => True

/-- Every pipe has two descriptors. -/
structure Paired (v : State Disk) : Prop where
  owned : Owned (fun _ => False) v
  ends : ∀ fd f, fdGet v fd = some f → f.type = itPipe →
    f.inode = none ∧ ∃ p, f.pipe_data = some p ∧ (v.pipes p).isSome = true
  pair : ∀ p, (v.pipes p).isSome = true → ∃ fd fd', fd ≠ fd' ∧ v.Refers fd p ∧ v.Refers fd' p

theorem Paired.live (paired : Paired v) : PipesLive v where
  faults := paired.owned.faults
  live fd p := by
    rintro ⟨f, opened, isPipe, isData⟩
    obtain ⟨-, q, isData', live⟩ := paired.ends fd f opened isPipe
    rw [isData] at isData'
    cases isData'
    exact live
  referred p live := by
    obtain ⟨fd, -, -, refers, -⟩ := paired.pair p live
    exact ⟨fd, refers⟩

/-- The pipes stay when their descriptors stay and no others come but copies. -/
theorem Paired.transfer (paired : Paired v) {v' : State Disk} (owned : Owned (fun _ => False) v')
    (stays : ∀ fd p, v.Refers fd p → v'.Refers fd p)
    (copies : ∀ fd f, fdGet v' fd = some f → f.type = itPipe →
      ∃ fd' f', fdGet v fd' = some f' ∧ f'.type = itPipe ∧ f'.inode = f.inode ∧ f'.pipe_data = f.pipe_data)
    (pipes : v'.pipes = v.pipes) : Paired v' where
  owned := owned
  ends fd f opened isPipe := by
    obtain ⟨fd', f', opened', isPipe', inode, data⟩ := copies fd f opened isPipe
    rw [← inode, ← data, pipes]
    exact paired.ends fd' f' opened' isPipe'
  pair p live := by
    rw [pipes] at live
    obtain ⟨fd, fd', other, refers, refers'⟩ := paired.pair p live
    exact ⟨fd, fd', other, stays fd p refers, stays fd' p refers'⟩

/-! ## Descriptors that are no pipes -/

theorem close_paired (paired : Paired v) {fd : Nat} (keeps : ¬ v.IsPipe fd) : Paired (vfsClose v fd).2 := by
  cases opened : fdGet v fd with
  | none =>
      unfold vfsClose
      rw [opened]
      exact paired
  | some f =>
      have notPipe : f.type ≠ itPipe := fun isPipe => keeps ⟨f, opened, isPipe⟩
      obtain ⟨after, pipes, -⟩ := vfsClose_frame opened notPipe paired.owned
      have owned : Owned (fun _ => False) (vfsClose v fd).2 := by
        cases isInode : f.inode with
        | none =>
            rw [vfsClose_plain opened isInode notPipe]
            refine paired.owned.setPlain (fdGet_eq_some.mp opened).1 ?_ rfl
            rw [State.owner, opened]
            exact isInode
        | some i => exact paired.owned.close opened isInode fun _ _ _ => id
      refine paired.transfer owned (fun fd' p => ?_) (fun fd' f' opened' isPipe => ?_) pipes
      · rintro ⟨f', opened', isPipe, isData⟩
        have other : fd' ≠ fd := by
          rintro rfl
          exact keeps ⟨f', opened', isPipe⟩
        refine ⟨f', ?_, isPipe, isData⟩
        rw [fdGet_congr (v := v.setFd fd f.closed) after, fdGet_setFd_of_ne other]
        exact opened'
      · exact ⟨fd', f', (fdGet_close opened after opened').2, isPipe, rfl, rfl⟩

/-- A copy into a descriptor that is not open. -/
theorem copy_paired (paired : Paired v) {newfd oldfd : Nat} (small : newfd < fdMax)
    (free : fdGet v newfd = none) {f : Fd} (opened : fdGet v oldfd = some f) :
    Paired (refCopy (v.setFd newfd f) f) := by
  have inUse : f.in_use = true := by
    obtain ⟨-, inUse, same⟩ := fdGet_eq_some.mp opened
    rwa [same] at inUse
  have owned : Owned (fun _ => False) (refCopy (v.setFd newfd f) f) := by
    refine paired.owned.copy small ?_ inUse fun i isInode => ?_
    · rw [State.owner, free]
      rfl
    · exact ⟨holders_pos opened isInode, paired.owned.typed oldfd f i opened isInode⟩
  have after := refCopy_fd_table (v.setFd newfd f) f
  refine paired.transfer owned (fun fd p => ?_) (fun fd g opened' isPipe => ?_) (refCopy_pipes _ f)
  · rintro ⟨g, opened', isPipe, isData⟩
    have other : fd ≠ newfd := by
      rintro rfl
      rw [free] at opened'
      cases opened'
    refine ⟨g, ?_, isPipe, isData⟩
    rw [fdGet_congr after, fdGet_setFd_of_ne other]
    exact opened'
  · rw [fdGet_congr after] at opened'
    by_cases same : fd = newfd
    · rw [same, fdGet_setFd_self small, if_pos inUse] at opened'
      cases opened'
      exact ⟨oldfd, f, opened, isPipe, rfl, rfl⟩
    · rw [fdGet_setFd_of_ne same] at opened'
      exact ⟨fd, g, opened', isPipe, rfl, rfl⟩

theorem dup_paired (paired : Paired v) (oldfd : Nat) : Paired (vfsDup v oldfd).2 := by
  cases opened : fdGet v oldfd with
  | none =>
      unfold vfsDup
      rw [opened]
      exact paired
  | some f =>
      cases free : freeFd v none with
      | none =>
          unfold vfsDup fdAlloc
          rw [opened, free]
          exact paired
      | some newfd =>
          obtain ⟨small, isFree, -⟩ := freeFd_spec free
          rw [vfsDup_eq opened free]
          exact copy_paired paired small (not_open_of_free isFree) opened

theorem dup2_paired (paired : Paired v) {oldfd newfd : Nat}
    (keeps : oldfd ≠ newfd → v.IsOpen oldfd → newfd < fdMax → ¬ v.IsPipe newfd) :
    Paired (vfsDup2 v oldfd newfd).2 := by
  unfold vfsDup2
  by_cases same : oldfd = newfd
  · rw [if_pos same]
    exact paired
  · rw [if_neg same]
    cases opened : fdGet v oldfd with
    | none => exact paired
    | some f =>
        by_cases small : newfd < fdMax
        · rw [if_neg (by omega)]
          have isOpen : v.IsOpen oldfd := by rw [State.IsOpen, opened]; rfl
          have keeps := keeps same isOpen small
          obtain ⟨v', isClosed, paired', free, opened'⟩ : ∃ v' : State Disk,
              (if (v.fd_table newfd).in_use then (vfsClose v newfd).2 else v) = v' ∧ Paired v' ∧
                fdGet v' newfd = none ∧ fdGet v' oldfd = some f := by
            cases inUse : (v.fd_table newfd).in_use with
            | false => exact ⟨v, rfl, paired, not_open_of_free inUse, opened⟩
            | true =>
                have openedNew := fdGet_eq_some.mpr ⟨small, inUse, rfl⟩
                have notPipe : (v.fd_table newfd).type ≠ itPipe := fun isPipe => keeps ⟨_, openedNew, isPipe⟩
                obtain ⟨after, -, -⟩ := vfsClose_frame openedNew notPipe paired.owned
                refine ⟨(vfsClose v newfd).2, rfl, close_paired paired keeps, ?_, ?_⟩
                · rw [fdGet_congr (v := v.setFd newfd _) after, fdGet_setFd_self small]
                  rfl
                · rw [fdGet_congr (v := v.setFd newfd _) after, fdGet_setFd_of_ne same]
                  exact opened
          obtain ⟨-, inUse, isOld⟩ := fdGet_eq_some.mp opened'
          have copy : { v'.fd_table oldfd with in_use := true } = f := by
            rw [isOld] at inUse ⊢
            rw [← inUse]
          rw [isClosed]
          dsimp only
          rw [copy, isOld]
          exact copy_paired paired' small free opened'
        · rw [if_pos (by omega)]
          exact paired

/-! ## Contents of files -/

/-- Only contents differ: offsets, file objects and what is on disk. -/
structure SameTables (v v' : State Disk) : Prop where
  fds : ∀ fd, ∃ offset, v'.fd_table fd = { v.fd_table fd with offset := offset }
  inodes : ∀ i, (v'.inode_table i).valid = (v.inode_table i).valid ∧
    (v'.inode_table i).refcount = (v.inode_table i).refcount ∧
    (v'.inode_table i).fs_data = (v.inode_table i).fs_data
  files : ∀ a, (v'.files a).isSome = (v.files a).isSome
  pipes : v'.pipes = v.pipes
  faults : v'.faults = v.faults

theorem SameTables.refl (v : State Disk) : SameTables v v :=
  ⟨fun _ => ⟨_, rfl⟩, fun _ => ⟨rfl, rfl, rfl⟩, fun _ => rfl, rfl, rfl⟩

theorem SameTables.advance {v' : State Disk} (same : SameTables v v') (fd : Nat) (result : Int) :
    SameTables v (advance v' fd result) := by
  unfold Vfs.advance
  split
  · refine ⟨fun other => ?_, same.inodes, same.files, same.pipes, same.faults⟩
    obtain ⟨offset, isFd⟩ := same.fds other
    by_cases eq : other = fd
    · subst eq
      refine ⟨offset + result.toNat, ?_⟩
      rw [setFd_self, isFd]
    · exact ⟨offset, by rw [setFd_of_ne eq, isFd]⟩
  · exact same

theorem SameTables.fdGet {v' : State Disk} (same : SameTables v v') (fd : Nat) :
    ∃ offset, fdGet v' fd = (fdGet v fd).map fun f => { f with offset := offset } := by
  obtain ⟨offset, isFd⟩ := same.fds fd
  refine ⟨offset, ?_⟩
  unfold Vfs.fdGet
  rw [isFd]
  dsimp only
  split <;> rfl

theorem SameTables.paired {v' : State Disk} (same : SameTables v v') (paired : Paired v) : Paired v' := by
  refine paired.transfer (paired.owned.frame (fun fd => ?_) same.inodes same.files (fun a _ none => ?_) same.faults)
    (fun fd p => ?_) (fun fd f opened isPipe => ?_) same.pipes
  · obtain ⟨offset, isFd⟩ := same.fdGet fd
    rw [State.link, isFd, Option.map_map]
    rfl
  · rw [same.pipes, none]
  · rintro ⟨f, opened, isPipe, isData⟩
    obtain ⟨offset, isFd⟩ := same.fdGet fd
    rw [opened] at isFd
    exact ⟨_, isFd, isPipe, isData⟩
  · obtain ⟨offset, isFd⟩ := same.fdGet fd
    rw [isFd] at opened
    obtain ⟨g, opened', rfl⟩ := Option.map_eq_some_iff.mp opened
    exact ⟨fd, g, opened', isPipe, rfl, rfl⟩

/-- A file that is stored anew is the only one that changes. -/
theorem isSome_update {a : Addr} (isFile : (v.files a).isSome = true) (f : FD) (b : Addr) :
    (Function.update v.files a (some f) b).isSome = (v.files b).isSome := by
  by_cases same : b = a
  · rw [same, Function.update_self, isFile]
    rfl
  · rw [Function.update_of_ne same]

section Contents

variable {shared : Addr → Prop} (owned : Owned shared v) {i : Nat} (held : v.holders i ≠ 0)

include owned held

theorem opsRead_same (n offset : Nat) :
    SameTables v (opsRead driver v (v.inode_table i) n offset).2.2 := by
  unfold opsRead fat32Read
  cases (v.inode_table i).ops with
  | jfs => exact SameTables.refl v
  | fat32 =>
      dsimp only
      cases isObject : (v.inode_table i).fs_data with
      | none => exact SameTables.refl v
      | some a =>
          have isFile := owned.object i a held isObject
          obtain ⟨f, found⟩ := Option.isSome_iff_exists.mp isFile
          dsimp only
          rw [found]
          exact ⟨fun _ => ⟨_, rfl⟩, fun _ => ⟨rfl, rfl, rfl⟩, isSome_update isFile _, rfl, rfl⟩

theorem opsWrite_same (buf : List UInt8) (offset : Nat) :
    SameTables v (opsWrite driver v i buf offset).2 := by
  unfold opsWrite fat32Write
  cases (v.inode_table i).ops with
  | jfs => exact ⟨fun _ => ⟨_, rfl⟩, fun _ => ⟨rfl, rfl, rfl⟩, fun _ => rfl, rfl, rfl⟩
  | fat32 =>
      dsimp only
      cases isObject : (v.inode_table i).fs_data with
      | none => exact SameTables.refl v
      | some a =>
          have isFile := owned.object i a held isObject
          obtain ⟨f, found⟩ := Option.isSome_iff_exists.mp isFile
          dsimp only
          rw [found]
          refine ⟨fun _ => ⟨_, rfl⟩, fun j => ?_, isSome_update isFile _, rfl, rfl⟩
          · show (Function.update v.inode_table i _ j).valid = _ ∧
              (Function.update v.inode_table i _ j).refcount = _ ∧
              (Function.update v.inode_table i _ j).fs_data = _
            by_cases same : j = i
            · rw [same, Function.update_self]
              exact ⟨rfl, rfl, isObject.symm⟩
            · rw [Function.update_of_ne same]
              exact ⟨rfl, rfl, rfl⟩

end Contents

theorem vfsRead_same {shared : Addr → Prop} (owned : Owned shared v) (fd n : Nat) :
    SameTables v (vfsRead driver v fd n).2.2 := by
  unfold vfsRead
  cases opened : fdGet v fd with
  | none => exact SameTables.refl v
  | some f =>
      dsimp only
      cases isInode : f.inode with
      | none => exact SameTables.refl v
      | some i =>
          dsimp only
          rw [if_neg (owned.typed fd f i opened isInode)]
          exact (opsRead_same driver owned (holders_pos opened isInode) n f.offset).advance fd _

theorem vfsWrite_same {shared : Addr → Prop} (owned : Owned shared v) (fd : Nat) (buf : List UInt8) :
    SameTables v (vfsWrite driver v fd buf).2 := by
  unfold vfsWrite
  cases opened : fdGet v fd with
  | none => exact SameTables.refl v
  | some f =>
      dsimp only
      cases isInode : f.inode with
      | none => exact SameTables.refl v
      | some i =>
          dsimp only
          rw [if_neg (owned.typed fd f i opened isInode)]
          exact (opsWrite_same driver owned (holders_pos opened isInode) buf f.offset).advance fd _

/-! ## New pipes -/

/-- A new pipe that gets no descriptors is freed again. -/
theorem pipeDestroy_new {a : Addr} (noFile : v.files a = none) (noPipe : v.pipes a = none)
    (supply : List Addr) : SameTables v (pipeDestroy
      { v with pipes := Function.update v.pipes a (some pipeCreate), supply := supply } (some a)) := by
  have files : Function.update v.files a none = v.files := Function.update_eq_self_iff.mpr noFile.symm
  have pipes : Function.update v.pipes a none = v.pipes := Function.update_eq_self_iff.mpr noPipe.symm
  have freed : pipeDestroy { v with pipes := Function.update v.pipes a (some pipeCreate), supply := supply }
      (some a) = { v with supply := supply } := by
    simp [pipeDestroy, heapFree, files, pipes]
  rw [freed]
  exact ⟨fun _ => ⟨_, rfl⟩, fun _ => ⟨rfl, rfl, rfl⟩, fun _ => rfl, rfl, rfl⟩

/-- The two descriptors of a new pipe. -/
theorem ends_paired (paired : Paired v) {a : Addr} (noFile : v.files a = none) (noPipe : v.pipes a = none)
    (supply : List Addr) {rfd wfd : Nat} (smallR : rfd < fdMax) (smallW : wfd < fdMax)
    (freeR : fdGet v rfd = none) (freeW : fdGet v wfd = none) (other : rfd ≠ wfd) :
    Paired (({ v with pipes := Function.update v.pipes a (some pipeCreate), supply := supply } : State Disk).setFd
      rfd ⟨true, none, 0, 0, itPipe, some a⟩ |>.setFd wfd ⟨true, none, 0, 1, itPipe, some a⟩) := by
  set v₁ : State Disk := { v with pipes := Function.update v.pipes a (some pipeCreate), supply := supply }
  have notOwner : ∀ fd, fdGet v fd = none → v.owner fd = none := fun fd free => by
    rw [State.owner, free]
    rfl
  have owned₁ : Owned (fun _ => False) v₁ :=
    paired.owned.frame (fun _ => rfl) (fun _ => ⟨rfl, rfl, rfl⟩) (fun _ => rfl) (fun b isFile none => by
      refine (Function.update_of_ne ?_ _ _).trans none
      rintro rfl
      rw [noFile] at isFile
      cases isFile) rfl
  have owned₂ := owned₁.setPlain smallR (show v₁.owner rfd = none from notOwner rfd freeR)
    (f := ⟨true, none, 0, 0, itPipe, some a⟩) rfl
  have freeW₂ : fdGet (v₁.setFd rfd ⟨true, none, 0, 0, itPipe, some a⟩) wfd = none := by
    rw [fdGet_setFd_of_ne other.symm]
    exact freeW
  have owned₃ := owned₂.setPlain smallW (by rw [State.owner, freeW₂]; rfl)
    (f := ⟨true, none, 0, 1, itPipe, some a⟩) rfl
  have isR : fdGet ((v₁.setFd rfd ⟨true, none, 0, 0, itPipe, some a⟩).setFd wfd
      ⟨true, none, 0, 1, itPipe, some a⟩) rfd = some ⟨true, none, 0, 0, itPipe, some a⟩ := by
    rw [fdGet_setFd_of_ne other, fdGet_setFd_self smallR]
    rfl
  have isW : fdGet ((v₁.setFd rfd ⟨true, none, 0, 0, itPipe, some a⟩).setFd wfd
      ⟨true, none, 0, 1, itPipe, some a⟩) wfd = some ⟨true, none, 0, 1, itPipe, some a⟩ := by
    rw [fdGet_setFd_self smallW]
    rfl
  have isOther : ∀ fd, fd ≠ rfd → fd ≠ wfd → fdGet ((v₁.setFd rfd ⟨true, none, 0, 0, itPipe, some a⟩).setFd wfd
      ⟨true, none, 0, 1, itPipe, some a⟩) fd = fdGet v fd := fun fd neR neW => by
    rw [fdGet_setFd_of_ne neW, fdGet_setFd_of_ne neR]
    rfl
  have new : (Function.update v.pipes a (some pipeCreate) a).isSome = true := by
    rw [Function.update_self]
    rfl
  refine ⟨owned₃, fun fd f opened isPipe => ?_, fun p live => ?_⟩
  · by_cases eqW : fd = wfd
    · rw [eqW, isW] at opened
      cases opened
      exact ⟨rfl, a, rfl, new⟩
    · by_cases eqR : fd = rfd
      · rw [eqR, isR] at opened
        cases opened
        exact ⟨rfl, a, rfl, new⟩
      · rw [isOther fd eqR eqW] at opened
        obtain ⟨noInode, p, isData, live⟩ := paired.ends fd f opened isPipe
        refine ⟨noInode, p, isData, ?_⟩
        show (Function.update v.pipes a (some pipeCreate) p).isSome = true
        by_cases same : p = a
        · rw [same]
          exact new
        · rw [Function.update_of_ne same]
          exact live
  · by_cases same : p = a
    · rw [same]
      exact ⟨rfd, wfd, other, ⟨_, isR, rfl, rfl⟩, ⟨_, isW, rfl, rfl⟩⟩
    · have live : (Function.update v.pipes a (some pipeCreate) p).isSome = true := live
      rw [Function.update_of_ne same] at live
      have stays : ∀ fd, v.Refers fd p → ((v₁.setFd rfd ⟨true, none, 0, 0, itPipe, some a⟩).setFd wfd
          ⟨true, none, 0, 1, itPipe, some a⟩).Refers fd p := by
        rintro fd ⟨f, opened, isPipe, isData⟩
        refine ⟨f, ?_, isPipe, isData⟩
        rw [isOther fd (fun eq => ?_) (fun eq => ?_), opened]
        · rw [eq, freeR] at opened
          cases opened
        · rw [eq, freeW] at opened
          cases opened
      obtain ⟨fd, fd', ne, refers, refers'⟩ := paired.pair p live
      exact ⟨fd, fd', ne, stays fd refers, stays fd' refers'⟩

/-- A new pipe has its two descriptors, or is freed again. -/
theorem pipe_paired (paired : Paired v) {supply : List Addr}
    (fresh : ∀ a ∈ supply.head?, v.files a = none ∧ v.pipes a = none) :
    Paired (sysPipe { v with supply := supply }).2 := by
  have withSupply : ∀ supply : List Addr, Paired { v with supply := supply } := fun supply =>
    SameTables.paired ⟨fun _ => ⟨_, rfl⟩, fun _ => ⟨rfl, rfl, rfl⟩, fun _ => rfl, rfl, rfl⟩ paired
  unfold sysPipe newPipe
  cases supply with
  | nil => exact withSupply []
  | cons a supply =>
      obtain ⟨noFile, noPipe⟩ := fresh a rfl
      dsimp only
      have gone := (pipeDestroy_new noFile noPipe supply).paired paired
      split
      · exact gone
      · rename_i rfd freeR
        split
        · exact gone
        · rename_i wfd freeW
          obtain ⟨smallR, isFreeR, -⟩ := freeFd_spec freeR
          obtain ⟨smallW, isFreeW, other⟩ := freeFd_spec freeW
          exact ends_paired paired noFile noPipe supply smallR smallW (not_open_of_free isFreeR)
            (not_open_of_free isFreeW) fun same => other (congrArg some same)

/-! ## Runs -/

/-- A call that closes no descriptor of a pipe keeps the pairs. -/
theorem call_paired (paired : Paired v) {call : FdCall} (fresh : call.Fresh v) (keeps : call.KeepsPipes v) :
    Paired (v.call driver call) := by
  cases call with
  | pipe supply => exact pipe_paired paired fresh
  | dup oldfd => exact dup_paired paired oldfd
  | dup2 oldfd newfd => exact dup2_paired paired keeps
  | read fd n => exact (vfsRead_same driver paired.owned fd n).paired paired
  | write fd buf => exact (vfsWrite_same driver paired.owned fd buf).paired paired
  | close fd => exact close_paired paired keeps

/-- Closing a descriptor of a pipe frees it although another one refers to it. -/
theorem close_pipe (paired : Paired v) {fd : Nat} (isPipe : v.IsPipe fd) :
    ∃ fd' p, fd' ≠ fd ∧ (vfsClose v fd).2.Refers fd' p ∧ (vfsClose v fd).2.pipes p = none := by
  obtain ⟨f, opened, isPipe⟩ := isPipe
  obtain ⟨noInode, p, isData, live⟩ := paired.ends fd f opened isPipe
  have isClosed : vfsClose v fd = (0, (heapFree v p).setFd fd f.closed) := by
    unfold vfsClose pipeDestroy
    rw [opened]
    dsimp only
    rw [noInode]
    dsimp only
    rw [if_pos isPipe, isData]
    dsimp only
    rw [heapFree_fd_table, (fdGet_eq_some.mp opened).2.2]
    rfl
  obtain ⟨fd', other, refers⟩ : ∃ fd', fd' ≠ fd ∧ v.Refers fd' p := by
    obtain ⟨fd₁, fd₂, ne, refers₁, refers₂⟩ := paired.pair p live
    by_cases same : fd₁ = fd
    · exact ⟨fd₂, same ▸ ne.symm, refers₂⟩
    · exact ⟨fd₁, same, refers₁⟩
  refine ⟨fd', p, other, ?_, ?_⟩
  · obtain ⟨f', opened', isPipe', isData'⟩ := refers
    refine ⟨f', ?_, isPipe', isData'⟩
    rw [isClosed, fdGet_setFd_of_ne other, fdGet_congr (heapFree_fd_table v p)]
    exact opened'
  · rw [isClosed]
    show (heapFree v p).pipes p = none
    unfold heapFree
    rw [live, Bool.or_true, if_pos rfl]
    exact Function.update_self _ _ _

theorem not_live_close (paired : Paired v) {fd : Nat} (isPipe : v.IsPipe fd) : ¬ PipesLive (vfsClose v fd).2 := by
  obtain ⟨fd', p, -, refers, freed⟩ := close_pipe paired isPipe
  intro live
  have isLive := live.live fd' p refers
  rw [freed] at isLive
  cases isLive

theorem not_live_dup2 (paired : Paired v) {oldfd newfd : Nat} (other : oldfd ≠ newfd)
    (isOpen : v.IsOpen oldfd) (isPipe : v.IsPipe newfd) : ¬ PipesLive (vfsDup2 v oldfd newfd).2 := by
  obtain ⟨fd, p, ne, ⟨g, opened, isEnd, isData⟩, freed⟩ := close_pipe paired isPipe
  obtain ⟨f, openedNew, -⟩ := isPipe
  obtain ⟨small, inUse, -⟩ := fdGet_eq_some.mp openedNew
  obtain ⟨old, openedOld⟩ := Option.isSome_iff_exists.mp isOpen
  have isDup : (vfsDup2 v oldfd newfd).2 = refCopy ((vfsClose v newfd).2.setFd newfd
      { (vfsClose v newfd).2.fd_table oldfd with in_use := true }) ((vfsClose v newfd).2.fd_table oldfd) := by
    unfold vfsDup2
    rw [if_neg other, openedOld]
    dsimp only
    rw [if_neg (by omega), inUse]
    rfl
  intro live
  have isLive := live.live fd p ⟨g, ?_, isEnd, isData⟩
  · rw [isDup, refCopy_pipes] at isLive
    change ((vfsClose v newfd).2.pipes p).isSome = true at isLive
    rw [freed] at isLive
    cases isLive
  · rw [isDup, fdGet_congr (refCopy_fd_table _ _), fdGet_setFd_of_ne ne]
    exact opened

/-- The pipes live as they should after a call just when it closes no descriptor of one. -/
theorem call_live_iff (paired : Paired v) {call : FdCall} (fresh : call.Fresh v) :
    PipesLive (v.call driver call) ↔ call.KeepsPipes v := by
  refine ⟨fun live => ?_, fun keeps => (call_paired driver paired fresh keeps).live⟩
  cases call with
  | pipe supply => trivial
  | dup oldfd => trivial
  | dup2 oldfd newfd => exact fun other isOpen _ isPipe => not_live_dup2 paired other isOpen isPipe live
  | read fd n => trivial
  | write fd buf => trivial
  | close fd => exact fun isPipe => not_live_close paired isPipe live

/-- Along a run, the pipes live as they should just when no call closes a descriptor of one. -/
theorem pipe_lifetime_iff (paired : Paired v) {calls : List FdCall}
    (fresh : Run.Meets (State.call driver) (fun v call => call.Fresh v) v calls) :
    Run.Meets (State.call driver) (fun v call => PipesLive (v.call driver call)) v calls ↔
      Run.Meets (State.call driver) (fun v call => call.KeepsPipes v) v calls :=
  Run.meets_iff (I := Paired) (fun _ _ paired fresh => call_live_iff driver paired fresh)
    (fun _ _ paired fresh keeps => call_paired driver paired fresh keeps) paired fresh

theorem paired_boot (supply : List Addr) : Paired (bootState supply) where
  owned := {
    count := fun i held => absurd (holders_boot supply i) held
    object := fun i _ held => absurd (holders_boot supply i) held
    distinct := fun i _ _ held => absurd (holders_boot supply i) held
    kept := nofun
    apart := fun _ _ => rfl
    typed := fun _ _ _ opened _ => (fdGet_boot opened).2
    faults := rfl }
  ends _ _ opened isPipe := absurd isPipe (fdGet_boot opened).2
  pair _ := nofun

theorem pipe_lifetime_iff_boot :
    Run.Meets (State.call smallDriver) (fun v call => PipesLive (v.call smallDriver call)) (bootState [])
      [.pipe [0x200020], .dup 3, .write 4 [1, 2], .read 3 2, .dup2 4 9, .close 0] := by
  refine (pipe_lifetime_iff smallDriver (paired_boot []) ?_).mpr ?_
  · refine ⟨fun a isHead => ?_, trivial, trivial, trivial, trivial, trivial, trivial⟩
    cases isHead
    exact ⟨rfl, rfl⟩
  · refine ⟨trivial, trivial, trivial, trivial, fun _ _ _ => ?_, ?_, trivial⟩
    · rintro ⟨f, opened, -⟩
      cases opened
    · rintro ⟨f, opened, isPipe⟩
      cases opened
      cases isPipe

/-- Closing one end frees the pipe that the other one refers to, and closing the other one
frees it again. -/
theorem pipe_freed_twice :
    ¬ Run.Meets (State.call smallDriver) (fun v call => PipesLive (v.call smallDriver call)) (bootState [])
      [.pipe [0x200020], .close 3] ∧
    (Run.final (State.call smallDriver) (bootState []) [.pipe [0x200020], .close 3, .close 4]).faults =
      [0x200020] := by
  refine ⟨fun lives => ?_, rfl⟩
  have isLive := lives.2.1.live 4 0x200020 ⟨⟨true, none, 0, 1, itPipe, some 0x200020⟩, rfl, rfl, rfl⟩
  cases isLive

end Systrix.Vfs
