import Systrix.Lib.Ring
import Systrix.Kernel.Layout

/-!
# Pipes

The anonymous pipes of `kernel/pipe.c`: a byte stream through a circular buffer,
without blocking.
-/

namespace Systrix.Ipc

def pipeBufSize : Nat := 4096

/-- `Pipe`; the ring is `buf`, `head`, `tail` and `count`. -/
structure Pipe extends RingBuffer UInt8 where
  read_open : Bool
  write_open : Bool

/-- `pipe_create`, once its memory is allocated. -/
def pipeCreate : Pipe := ⟨RingBuffer.empty 0, true, true⟩

/-- The queued bytes. -/
def Pipe.queued (pipe : Pipe) : List UInt8 := pipe.contents pipeBufSize

/-- The loop of `pipe_read`: the result, the bytes put into `buf` from here on, and
the pipe. -/
def pipeReadLoop (bytes_read : Nat) : (left : Nat) → Pipe → Int × List UInt8 × Pipe
  | 0, pipe => (bytes_read, [], pipe)
  | left + 1, pipe =>
      if pipe.count = 0 then
        if !pipe.write_open then (bytes_read, [], pipe)
        else (if bytes_read > 0 then bytes_read else eagain, [], pipe)
      else
        let byte := pipe.front
        let pipe := { pipe with toRingBuffer := pipe.pop pipeBufSize }
        match pipeReadLoop (bytes_read + 1) left pipe with
        | (result, bytes, pipe) => (result, byte :: bytes, pipe)

/-- `pipe_read` on a pipe that is not `NULL`. -/
def pipeRead (pipe : Pipe) (count : Nat) : Int × List UInt8 × Pipe :=
  if !pipe.read_open then (ebadf, [], pipe)
  else if count = 0 then (0, [], pipe)
  else pipeReadLoop 0 count pipe

/-- The loop of `pipe_write` over the bytes that are left. -/
def pipeWriteLoop (bytes_written : Nat) : (left : List UInt8) → Pipe → Int × Pipe
  | [], pipe => (bytes_written, pipe)
  | byte :: left, pipe =>
      if pipe.count = pipeBufSize then
        (if bytes_written > 0 then bytes_written else eagain, pipe)
      else
        pipeWriteLoop (bytes_written + 1) left { pipe with toRingBuffer := pipe.push pipeBufSize byte }

/-- `pipe_write` on a pipe that is not `NULL`. -/
def pipeWrite (pipe : Pipe) (buf : List UInt8) : Int × Pipe :=
  if !pipe.write_open then (ebadf, pipe)
  else if buf.length = 0 then (0, pipe)
  else pipeWriteLoop 0 buf pipe

/-! ## One call -/

/-- The invariant of a pipe. -/
abbrev Pipe.Valid (pipe : Pipe) : Prop := RingBuffer.Valid pipeBufSize pipe.toRingBuffer

/-- What the read loop returns was at the front of the queue. -/
theorem pipeReadLoop_spec {pipe : Pipe} (valid : pipe.Valid) (bytes_read left : Nat) :
    ∃ bytes pipe', pipeReadLoop bytes_read left pipe =
        (if bytes_read + bytes.length = 0 ∧ left ≠ 0 ∧ pipe.write_open then eagain
          else (bytes_read + bytes.length : Nat), bytes, pipe') ∧
      pipe'.Valid ∧ bytes ++ pipe'.queued = pipe.queued ∧
      pipe'.read_open = pipe.read_open ∧ pipe'.write_open = pipe.write_open := by
  induction left generalizing pipe bytes_read with
  | zero =>
      refine ⟨[], pipe, ?_, valid, rfl, rfl, rfl⟩
      simp [pipeReadLoop]
  | succ left ih =>
      by_cases drained : pipe.count = 0
      · refine ⟨[], pipe, ?_, valid, rfl, rfl, rfl⟩
        cases isOpen : pipe.write_open <;>
          simp only [pipeReadLoop, drained, isOpen, if_true, Bool.not_true, Bool.not_false]
        · simp
        · by_cases first : bytes_read = 0
          · simp [first]
          · simp [first, Nat.pos_of_ne_zero first]
      · have some : 0 < pipe.count := Nat.pos_of_ne_zero drained
        obtain ⟨bytes, pipe', result, valid', queued, readOpen, writeOpen⟩ :=
          @ih { pipe with toRingBuffer := pipe.pop pipeBufSize } (valid.pop some) (bytes_read + 1)
        refine ⟨pipe.front :: bytes, pipe', ?_, valid', ?_, readOpen, writeOpen⟩
        · rw [pipeReadLoop, if_neg drained]
          simp only [result, List.length_cons]
          have moved : bytes_read + 1 + bytes.length = bytes_read + (bytes.length + 1) := by omega
          rw [moved, if_neg (by omega), if_neg (by omega)]
        · rw [List.cons_append, queued]
          exact (valid.contents_pop some).symm

/-- What the write loop accepts is appended to the queue. -/
theorem pipeWriteLoop_spec {pipe : Pipe} (valid : pipe.Valid) (bytes_written : Nat)
    (left : List UInt8) :
    ∃ k pipe', pipeWriteLoop bytes_written left pipe =
        (if bytes_written + k = 0 ∧ left ≠ [] then eagain else (bytes_written + k : Nat), pipe') ∧
      pipe'.Valid ∧ pipe'.queued = pipe.queued ++ left.take k ∧ k ≤ left.length ∧
      pipe'.read_open = pipe.read_open ∧ pipe'.write_open = pipe.write_open := by
  induction left generalizing pipe bytes_written with
  | nil =>
      refine ⟨0, pipe, ?_, valid, ?_, Nat.le_refl 0, rfl, rfl⟩
      · simp [pipeWriteLoop]
      · simp
  | cons byte left ih =>
      by_cases full : pipe.count = pipeBufSize
      · refine ⟨0, pipe, ?_, valid, ?_, Nat.zero_le _, rfl, rfl⟩
        · rw [pipeWriteLoop, if_pos full]
          by_cases first : bytes_written = 0
          · simp [first]
          · simp [first, Nat.pos_of_ne_zero first]
        · simp
      · have room : pipe.count < pipeBufSize := Nat.lt_of_le_of_ne valid.count_le full
        obtain ⟨k, pipe', result, valid', queued, small, readOpen, writeOpen⟩ :=
          @ih { pipe with toRingBuffer := pipe.push pipeBufSize byte } (valid.push room byte)
            (bytes_written + 1)
        refine ⟨k + 1, pipe', ?_, valid', ?_, Nat.succ_le_succ small, readOpen, writeOpen⟩
        · rw [pipeWriteLoop, if_neg full, result]
          have moved : bytes_written + 1 + k = bytes_written + (k + 1) := by omega
          rw [moved, if_neg (by omega), if_neg (by omega)]
        · rw [queued, List.take_succ_cons]
          change (pipe.push pipeBufSize byte).contents pipeBufSize ++ _ = _
          rw [valid.contents_push room, List.append_assoc]
          rfl

/-! ## Runs -/

/-- What can happen to a pipe: the two calls, and an assignment to the flags of its
ends, which the module leaves to the owner. -/
inductive PipeStep where
  | read (count : Nat)
  | write (buf : List UInt8)
  | setOpen (read_open write_open : Bool)
  deriving Repr

/-- A pipe with the bytes its writes accepted and its reads returned so far. -/
structure PipeRun where
  pipe : Pipe
  accepted : List UInt8
  returned : List UInt8

/-- The history of a new pipe. -/
def PipeRun.start : PipeRun := ⟨pipeCreate, [], []⟩

/-- A call accepts or returns as many bytes as its result says. -/
def PipeRun.step (run : PipeRun) : PipeStep → PipeRun
  | .read count =>
      match pipeRead run.pipe count with
      | (result, buf, pipe) =>
          { run with pipe := pipe, returned := run.returned ++ buf.take result.toNat }
  | .write buf =>
      match pipeWrite run.pipe buf with
      | (result, pipe) =>
          { run with pipe := pipe, accepted := run.accepted ++ buf.take result.toNat }
  | .setOpen read_open write_open =>
      { run with pipe := { run.pipe with read_open := read_open, write_open := write_open } }

/-- The history after some steps. -/
def pipeRun (steps : List PipeStep) : PipeRun := steps.foldl PipeRun.step PipeRun.start

/-- What was accepted has been returned or is still queued, in order. -/
structure PipeRun.Fifo (run : PipeRun) : Prop where
  valid : run.pipe.Valid
  order : run.returned ++ run.pipe.queued = run.accepted

theorem pipeRead_spec {pipe : Pipe} (valid : pipe.Valid) (count : Nat) :
    ∃ result bytes pipe', pipeRead pipe count = (result, bytes, pipe') ∧ pipe'.Valid ∧
      bytes.take result.toNat ++ pipe'.queued = pipe.queued := by
  unfold pipeRead
  by_cases readOpen : pipe.read_open = true
  · by_cases none : count = 0
    · refine ⟨0, [], pipe, ?_, valid, rfl⟩
      rw [if_neg (by simp [readOpen]), if_pos none]
    · obtain ⟨bytes, pipe', result, valid', queued, -, -⟩ := pipeReadLoop_spec valid 0 count
      rw [if_neg (by simp [readOpen]), if_neg none, result]
      refine ⟨_, bytes, pipe', rfl, valid', ?_⟩
      split_ifs with blocked
      · have nothing : bytes = [] := List.length_eq_zero_iff.mp (by omega)
        rw [← queued, nothing]
        rfl
      · rw [Int.toNat_natCast, Nat.zero_add, List.take_length, queued]
  · refine ⟨ebadf, [], pipe, ?_, valid, rfl⟩
    rw [if_pos (by simp [readOpen])]

theorem pipeWrite_spec {pipe : Pipe} (valid : pipe.Valid) (buf : List UInt8) :
    ∃ result pipe', pipeWrite pipe buf = (result, pipe') ∧ pipe'.Valid ∧
      pipe'.queued = pipe.queued ++ buf.take result.toNat := by
  have unchanged : ∀ result : Int, result.toNat = 0 →
      pipe.queued = pipe.queued ++ buf.take result.toNat := by
    intro result nothing
    rw [nothing, List.take_zero, List.append_nil]
  unfold pipeWrite
  by_cases writeOpen : pipe.write_open = true
  · by_cases none : buf.length = 0
    · refine ⟨0, pipe, ?_, valid, unchanged 0 rfl⟩
      rw [if_neg (by simp [writeOpen]), if_pos none]
    · obtain ⟨k, pipe', result, valid', queued, -, -, -⟩ := pipeWriteLoop_spec valid 0 buf
      rw [if_neg (by simp [writeOpen]), if_neg none, result]
      refine ⟨_, pipe', rfl, valid', ?_⟩
      split_ifs with blocked
      · have nothing : k = 0 := by omega
        rw [queued, nothing]
        rfl
      · rw [Int.toNat_natCast, Nat.zero_add, queued]
  · refine ⟨ebadf, pipe, ?_, valid, unchanged ebadf rfl⟩
    rw [if_pos (by simp [writeOpen])]

theorem PipeRun.Fifo.step {run : PipeRun} (fifo : run.Fifo) (step : PipeStep) :
    (run.step step).Fifo := by
  cases step with
  | read count =>
      obtain ⟨result, bytes, pipe', call, valid', queued⟩ := pipeRead_spec fifo.valid count
      refine ⟨?_, ?_⟩ <;> simp only [PipeRun.step, call]
      · exact valid'
      · rw [List.append_assoc, queued, fifo.order]
  | write buf =>
      obtain ⟨result, pipe', call, valid', queued⟩ := pipeWrite_spec fifo.valid buf
      refine ⟨?_, ?_⟩ <;> simp only [PipeRun.step, call]
      · exact valid'
      · rw [queued, ← List.append_assoc, fifo.order]
  | setOpen read_open write_open => exact ⟨fifo.valid, fifo.order⟩

theorem pipeRun_fifo (steps : List PipeStep) : (pipeRun steps).Fifo := by
  have extend : ∀ (steps : List PipeStep) (run : PipeRun), run.Fifo →
      (steps.foldl PipeRun.step run).Fifo := by
    intro steps
    induction steps with
    | nil => exact fun _ fifo => fifo
    | cons step steps ih => exact fun run fifo => ih (run.step step) (fifo.step step)
  refine extend steps _ ⟨RingBuffer.Valid.empty (by decide) 0, ?_⟩
  exact RingBuffer.contents_empty pipeBufSize 0

/-- An empty pipe reports the end of the stream exactly when its writer is closed. -/
theorem pipeRead_empty {pipe : Pipe} (drained : pipe.count = 0) (readOpen : pipe.read_open = true)
    {count : Nat} (positive : 0 < count) :
    pipeRead pipe count = (if pipe.write_open then eagain else 0, [], pipe) := by
  obtain ⟨left, rfl⟩ : ∃ left, count = left + 1 := ⟨count - 1, by omega⟩
  rw [pipeRead, if_neg (by simp [readOpen]), if_neg (by omega), pipeReadLoop, if_pos drained]
  cases isOpen : pipe.write_open <;> simp

/-- A pipe is a queue of bytes. -/
theorem pipe_fifo (steps : List PipeStep) :
    let run := pipeRun steps
    run.returned ++ run.pipe.queued = run.accepted ∧ run.returned <+: run.accepted ∧
      run.returned.length + run.pipe.count = run.accepted.length ∧
      run.pipe.count ≤ pipeBufSize ∧
      run.pipe.tail = (run.pipe.head + run.pipe.count) % pipeBufSize ∧
      ∀ count, 0 < count → run.pipe.read_open = true → run.pipe.count = 0 →
        (pipeRead run.pipe count).1 = if run.pipe.write_open then eagain else 0 := by
  have fifo := pipeRun_fifo steps
  refine ⟨fifo.order, ⟨_, fifo.order⟩, ?_, fifo.valid.count_le, fifo.valid.tail_eq, ?_⟩
  · rw [← fifo.order, List.length_append, Pipe.queued, RingBuffer.length_contents]
  · intro count positive readOpen drained
    rw [pipeRead_empty drained readOpen positive]

/-- A read of no bytes returns 0 although the writer is open, and a read through a
closed read end fails although the writer is closed. -/
theorem pipe_end_of_file_exceptions :
    ¬(∀ steps count, (pipeRun steps).pipe.count = 0 → (pipeRun steps).pipe.write_open = true →
        (pipeRead (pipeRun steps).pipe count).1 ≠ 0) ∧
      ¬(∀ steps count, 0 < count → (pipeRun steps).pipe.count = 0 →
        (pipeRun steps).pipe.write_open = false → (pipeRead (pipeRun steps).pipe count).1 = 0) := by
  refine ⟨fun claim => claim [] 0 rfl rfl rfl, fun claim => ?_⟩
  have failed : ebadf = 0 := claim [.setOpen false false] 1 Nat.one_pos rfl rfl
  cases failed

end Systrix.Ipc
