import Systrix.Lib.Run
import Systrix.Vfs.Tables

/-!
# Pipes through descriptors

The two descriptors of a pipe have no inode, and `vfs_read` and `vfs_write` ask for one before
they look at the pipe.
-/

namespace Systrix.Vfs

variable {Disk : Type} (driver : Driver Disk) (rfd wfd : Nat)

/-- The calls on the two descriptors of a pipe. -/
inductive PipeCall where
  | read (n : Nat)
  | write (buf : List UInt8)
  | closeRead
  | closeWrite

/-- The tables, with the bytes that were accepted and returned so far. -/
structure PipeHistory (Disk : Type) where
  v : State Disk
  accepted : List UInt8
  returned : List UInt8

def PipeHistory.step (h : PipeHistory Disk) : PipeCall → PipeHistory Disk
  | .read n =>
      match vfsRead driver h.v rfd n with
      | (result, bytes, v) => { h with v := v, returned := h.returned ++ bytes.take result.toNat }
  | .write buf =>
      match vfsWrite driver h.v wfd buf with
      | (result, v) => { h with v := v, accepted := h.accepted ++ buf.take result.toNat }
  | .closeRead => { h with v := (vfsClose h.v rfd).2 }
  | .closeWrite => { h with v := (vfsClose h.v wfd).2 }

/-- What a call on one end of a pipe promises: bytes come in order and none is lost, the end
of the stream after the last writer, and no writes after the last reader. -/
def PipeHistory.Lawful (h : PipeHistory Disk) (call : PipeCall) : Prop :=
  (h.step driver rfd wfd call).returned <+: (h.step driver rfd wfd call).accepted ∧
    match call with
    | .read n =>
        (h.v.IsOpen rfd → ¬ h.v.IsOpen wfd → h.returned = h.accepted → (vfsRead driver h.v rfd n).1 = 0) ∧
          (0 < n → (vfsRead driver h.v rfd n).1 = 0 → h.returned = h.accepted)
    | .write buf => h.v.IsOpen wfd → ¬ h.v.IsOpen rfd → (vfsWrite driver h.v wfd buf).1 < 0
    | .closeRead => True
    | .closeWrite => True

/-- No read from a pipe whose write end is closed. -/
def PipeHistory.InTime (h : PipeHistory Disk) : PipeCall → Prop
  | .read _ => h.v.IsOpen rfd → h.v.IsOpen wfd
  | _ => True

/-! ## Descriptors without an inode -/

section NoInode

variable {v : State Disk} {fd : Nat} (noInode : (v.fd_table fd).inode = none)

include noInode

theorem vfsRead_noInode (n : Nat) : vfsRead driver v fd n = (ebadf, [], v) := by
  unfold vfsRead fdGet
  by_cases closed : (fd ≥ fdMax || !(v.fd_table fd).in_use) = true
  · rw [if_pos closed]
  · rw [if_neg closed]
    dsimp only
    rw [noInode]

theorem vfsWrite_noInode (buf : List UInt8) : vfsWrite driver v fd buf = (ebadf, v) := by
  unfold vfsWrite fdGet
  by_cases closed : (fd ≥ fdMax || !(v.fd_table fd).in_use) = true
  · rw [if_pos closed]
  · rw [if_neg closed]
    dsimp only
    rw [noInode]

end NoInode

/-! ## Closing -/

/-- Closing a descriptor without an inode clears it, and changes no other one. -/
theorem fd_table_vfsClose {v : State Disk} {fd : Nat} (noInode : (v.fd_table fd).inode = none) :
    (vfsClose v fd).2.fd_table = v.fd_table ∨ (vfsClose v fd).2.fd_table =
      Function.update v.fd_table fd { v.fd_table fd with in_use := false, inode := none, pipe_data := none } := by
  unfold vfsClose fdGet
  by_cases closed : (fd ≥ fdMax || !(v.fd_table fd).in_use) = true
  · rw [if_pos closed]
    exact .inl rfl
  · rw [if_neg closed]
    dsimp only
    rw [noInode]
    refine .inr ?_
    dsimp only
    have same : (if (v.fd_table fd).type = itPipe then pipeDestroy v (v.fd_table fd).pipe_data else v).fd_table =
        v.fd_table := by
      split
      · exact pipeDestroy_fd_table v _
      · rfl
    show Function.update _ fd _ = _
    rw [same]

theorem noInode_vfsClose {v : State Disk} {fd : Nat} (noInode : (v.fd_table fd).inode = none) {other : Nat}
    (noInode' : (v.fd_table other).inode = none) : ((vfsClose v fd).2.fd_table other).inode = none := by
  rcases fd_table_vfsClose noInode with same | same
  · rw [same, noInode']
  · rw [same]
    by_cases eq : other = fd
    · rw [eq, Function.update_self]
    · rw [Function.update_of_ne eq, noInode']

/-! ## The two ends -/

/-- Neither descriptor has an inode, so nothing was accepted and nothing returned. -/
structure PipeHistory.Silent (h : PipeHistory Disk) : Prop where
  noInode : (h.v.fd_table rfd).inode = none ∧ (h.v.fd_table wfd).inode = none
  accepted : h.accepted = []
  returned : h.returned = []

variable {rfd wfd}

theorem PipeHistory.Silent.step {h : PipeHistory Disk} (silent : h.Silent rfd wfd) (call : PipeCall) :
    (h.step driver rfd wfd call).Silent rfd wfd := by
  obtain ⟨⟨noRead, noWrite⟩, accepted, returned⟩ := silent
  cases call with
  | read n =>
      unfold PipeHistory.step
      dsimp only
      rw [vfsRead_noInode driver noRead]
      exact ⟨⟨noRead, noWrite⟩, accepted, by rw [returned]; rfl⟩
  | write buf =>
      unfold PipeHistory.step
      dsimp only
      rw [vfsWrite_noInode driver noWrite]
      exact ⟨⟨noRead, noWrite⟩, by rw [accepted]; rfl, returned⟩
  | closeRead =>
      exact ⟨⟨noInode_vfsClose noRead noRead, noInode_vfsClose noRead noWrite⟩, accepted, returned⟩
  | closeWrite =>
      exact ⟨⟨noInode_vfsClose noWrite noRead, noInode_vfsClose noWrite noWrite⟩, accepted, returned⟩

/-- A call on such descriptors breaks the promise just when it is a read after the last
writer: instead of the end of the stream there is an error. -/
theorem PipeHistory.Silent.lawful_iff {h : PipeHistory Disk} (silent : h.Silent rfd wfd) (call : PipeCall) :
    h.Lawful driver rfd wfd call ↔ h.InTime rfd wfd call := by
  have next := silent.step driver call
  obtain ⟨⟨noRead, noWrite⟩, accepted, returned⟩ := silent
  have isError : ebadf ≠ 0 := by decide
  have failed : ebadf < 0 := by decide
  unfold PipeHistory.Lawful
  rw [next.returned, next.accepted]
  cases call with
  | read n =>
      dsimp only
      rw [vfsRead_noInode driver noRead, accepted, returned]
      constructor
      · rintro ⟨-, atEnd, -⟩ readOpen
        exact Classical.byContradiction fun writeClosed => isError (atEnd readOpen writeClosed rfl)
      · intro inTime
        exact ⟨List.prefix_rfl, fun readOpen writeClosed _ => absurd (inTime readOpen) writeClosed,
          fun _ _ => rfl⟩
  | write buf =>
      dsimp only
      rw [vfsWrite_noInode driver noWrite]
      exact ⟨fun _ => trivial, fun _ => ⟨List.prefix_rfl, fun _ _ => failed⟩⟩
  | closeRead => exact ⟨fun _ => trivial, fun _ => ⟨List.prefix_rfl, trivial⟩⟩
  | closeWrite => exact ⟨fun _ => trivial, fun _ => ⟨List.prefix_rfl, trivial⟩⟩

theorem silent_sysPipe {v v' : State Disk} (opened : sysPipe v = (.ok (rfd, wfd), v')) :
    (⟨v', [], []⟩ : PipeHistory Disk).Silent rfd wfd := by
  unfold sysPipe at opened
  cases created : newPipe v with
  | none =>
      rw [created] at opened
      cases opened
  | some new =>
      obtain ⟨p, v₁⟩ := new
      rw [created] at opened
      dsimp only at opened
      cases first : freeFd v₁ none with
      | none =>
          rw [first] at opened
          cases opened
      | some fd =>
          rw [first] at opened
          dsimp only at opened
          cases second : freeFd v₁ (some fd) with
          | none =>
              rw [second] at opened
              cases opened
          | some fd' =>
              rw [second] at opened
              cases opened
              refine ⟨⟨?_, ?_⟩, rfl, rfl⟩
              · show (Function.update (Function.update v₁.fd_table rfd _) wfd _ rfd).inode = none
                by_cases eq : rfd = wfd
                · rw [eq, Function.update_self]
                · rw [Function.update_of_ne eq, Function.update_self]
              · show (Function.update (Function.update v₁.fd_table rfd _) wfd _ wfd).inode = none
                rw [Function.update_self]

/-- The ends of a pipe keep their promises in a run of calls just when nothing is read after
the write end was closed. -/
theorem pipe_ends_iff {v v' : State Disk} (opened : sysPipe v = (.ok (rfd, wfd), v'))
    (calls : List PipeCall) :
    Run.Meets (PipeHistory.step driver rfd wfd) (PipeHistory.Lawful driver rfd wfd) ⟨v', [], []⟩ calls ↔
      Run.Meets (PipeHistory.step driver rfd wfd) (PipeHistory.InTime rfd wfd) ⟨v', [], []⟩ calls :=
  Run.meets_congr (fun _ call silent => silent.step driver call)
    (fun _ call silent => silent.lawful_iff driver call) (silent_sysPipe opened) calls

/-- The tables with a first pipe. -/
def firstPipe : State Unit := (sysPipe (bootState [0x200020])).2

theorem sysPipe_boot : sysPipe (bootState [0x200020]) = (.ok (3, 4), firstPipe) := rfl

theorem pipe_ends_iff_firstPipe :
    Run.Meets (PipeHistory.step smallDriver 3 4) (PipeHistory.Lawful smallDriver 3 4) ⟨firstPipe, [], []⟩
      [.write [1, 2], .read 2, .closeRead, .write [3]] :=
  (pipe_ends_iff smallDriver sysPipe_boot _).mpr ⟨trivial, fun _ => rfl, trivial, trivial, trivial⟩

/-- A read after the write end was closed is an error, not the end of the stream. -/
theorem read_after_close :
    sysPipe (bootState [0x200020]) = (.ok (3, 4), firstPipe) ∧
      ¬ Run.Meets (PipeHistory.step smallDriver 3 4) (PipeHistory.Lawful smallDriver 3 4) ⟨firstPipe, [], []⟩
        [.closeWrite, .read 1] := by
  refine ⟨sysPipe_boot, fun lawful => ?_⟩
  have result : (vfsRead smallDriver (vfsClose firstPipe 4).2 3 1).1 = 0 :=
    lawful.2.1.2.1 rfl (by decide) rfl
  cases result

end Systrix.Vfs
