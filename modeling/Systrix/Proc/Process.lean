import Systrix.Kernel.Layout
import Systrix.Proc.State

/-!
# Processes

What `kernel/process.c`, `kernel/fork_exec.c`, `kernel/signal.c`, `kernel/futex.c`,
`kernel/resilience.c` and the assembly of `kernel/isr.S` do to the process table.
-/

namespace Systrix.Proc

open Machine

def processCurrentPcb (k : Kernel) : Option Nat := findPcb k.table fun t => t.state = .running

/-- The first slot `process_run` and `elf_load` take for a process identifier. -/
def pcbOfPid (k : Kernel) (pid : Nat) : Option Nat := findPcb k.table fun t => t.pid = pid

/-- What the allocators return to `process_create`: `vmm_create_space`, `heap_malloc`
and `vmm_vma_alloc`; `none` is a failure. -/
structure Resources where
  cr3 : Option Nat
  kstack : Option Nat
  vmas : Option Nat

/-- The process control block `process_create` fills in. -/
def newPcb (i entry : Nat) (name : List UInt8) (cr3 kstack_base : Nat) (vmas : Option Nat) : Pcb where
  state := .empty
  kstack := kstack_base + procKstackSz
  ursp := procStackTop
  entry := entry
  pid := i + 1
  cr3 := cr3
  brk := brkBase
  name := name.take 15
  kbase := kstack_base
  vma_table := vmas.getD 0

/-- `process_create`, with the slot it filled; `none` is the result `-1`. -/
def createIn (k : Kernel) (r : Resources) (entry : Nat) (name : List UInt8) : Option (Nat × Kernel) :=
  match findPcb k.table fun t => t.state = .empty with
  | none => none
  | some i =>
      match r.cr3 with
      | none => none
      | some cr3 =>
          match r.kstack with
          | none => none
          | some kstack_base => some (i, k.setPcb i (newPcb i entry name cr3 kstack_base r.vmas))

/-- A created process is in the first slot that was empty, which is still empty. -/
theorem createIn_spec {k k' : Kernel} {r : Resources} {entry i : Nat} {name : List UInt8}
    (created : createIn k r entry name = some (i, k')) :
    findPcb k.table (fun t => t.state = .empty) = some i ∧
      ∃ cr3 kstack_base, k' = k.setPcb i (newPcb i entry name cr3 kstack_base r.vmas) := by
  unfold createIn at created
  split at created
  · cases created
  · rename_i found
    split at created
    · cases created
    · split at created
      · cases created
      · cases created
        exact ⟨found, _, _, rfl⟩

def processCreate (k : Kernel) (r : Resources) (entry : Nat) (name : List UInt8) : Int × Kernel :=
  match createIn k r entry name with
  | none => (-1, k)
  | some (i, k) => ((i + 1 : Nat), k)

/-- `process_run`, up to its `iretq`. -/
def processRun (k : Kernel) (pid : Nat) : Kernel :=
  match pcbOfPid k pid with
  | none => k
  | some i => k.setState i .running

def processDestroy (k : Kernel) (i : Nat) : Kernel :=
  k.setPcb i { k.table i with vma_table := 0, cr3 := 0, kbase := 0, state := .empty }

/-- `get_pcb`; the slot the pointer arithmetic reaches. -/
def getPcb (pid : Nat) : Nat := pid

/-- What a successful `sys_fork` did: the identifier it returns, the slot it took for
the child, the arguments of its call of `vmm_cow_fork` and the new state. -/
structure Fork where
  child_pid : Nat
  child : Nat
  parent_cr3 : Nat
  child_cr3 : Nat
  kernel : Kernel

/-- `sys_fork`; `none` is the result `-1`. -/
def sysFork (k : Kernel) (r : Resources) : Option Fork :=
  match processCurrentPcb k with
  | none => none
  | some i =>
      let parent := k.table i
      match createIn k r parent.entry parent.name with
      | none => none
      | some (slot, k) =>
          let child_pid := slot + 1
          let child := getPcb child_pid
          -- `parent` is a pointer, read again after the child was created
          let parent := k.table i
          let cow := (parent.cr3, (k.table child).cr3)
          let k := k.setPcb child { k.table child with
            ursp := parent.ursp, entry := parent.entry, brk := parent.brk }
          some ⟨child_pid, child, cow.1, cow.2, processRun k child_pid⟩

def schedulerExit (k : Kernel) : Kernel :=
  match processCurrentPcb k with
  | none => k
  | some i => k.setState i .dead

def sysExitGroup (k : Kernel) : Kernel :=
  match processCurrentPcb k with
  | none => k
  | some i => processDestroy k i

/-- The victim of `oom_kill` or of the recovery of `kernel_panic`: a process that is
neither gone nor the kernel. -/
def killVictim (k : Kernel) (i : Nat) : Kernel :=
  if i < procMax ∧ (k.table i).state ≠ .empty ∧ (k.table i).state ≠ .dead ∧ (k.table i).pid ≠ 0 then
    k.setState i .dead
  else k

/-! ## Signals -/

def maxSignal : Nat := 32

def sigkill : Nat := 9

def sigchld : Nat := 17

def sigcont : Nat := 18

def sigDfl : Nat := 0

def sigIgn : Nat := 1

/-- Replace the signal state of a slot. -/
def setSignals (k : Kernel) (i : Nat) (ss : SignalState) : Kernel :=
  { k with signals := Function.update k.signals i ss }

/-- `sys_kill` for a signal number that is not negative. -/
def sysKill (k : Kernel) (pid signum : Nat) : Int × Kernel :=
  if maxSignal ≤ signum then (einval, k)
  else if pid = 0 then (eperm, k)
  else
    match findPcb k.table fun t =>
      t.state ≠ .empty ∧ t.state ≠ .dead ∧ (t.pid = pid ∨ pid = 2 ^ 64 - 1) with
    | none => (esrch, k)
    | some i =>
        if signum = 0 then (0, k)
        else if signum = sigkill then (0, k.setState i .dead)
        else
          let ss := k.signals i
          (0, setSignals k i { ss with pending := Function.update ss.pending signum true })

/-- The loop of `signal_deliver` over the signals from `sig` on; `idx` is the slot of the
signal state and `i` that of the process. -/
def deliverLoop (idx i : Nat) (pending : Nat → Bool) (sig : Nat) : (left : Nat) → Kernel → Kernel
  | 0, k => k
  | left + 1, k =>
      if pending sig then
        let ss := k.signals idx
        let k := setSignals k idx { ss with pending := Function.update ss.pending sig false }
        let handler := ss.handler sig
        if handler = sigDfl then
          if sig = sigchld ∨ sig = sigcont then deliverLoop idx i pending (sig + 1) left k
          else k.setState i .dead
        else if handler = sigIgn then deliverLoop idx i pending (sig + 1) left k
        else
          let pcb := k.table i
          k.setPcb i { pcb with ursp := sub64 pcb.ursp 16, entry := handler }
      else deliverLoop idx i pending (sig + 1) left k

/-- `signal_deliver`, without the two words it pushes on the user stack. -/
def signalDeliver (k : Kernel) (i : Nat) : Kernel :=
  let pid := (k.table i).pid
  if pid = 0 ∨ procMax < pid then k
  else
    let ss := k.signals (pid - 1)
    deliverLoop (pid - 1) i (fun sig => ss.pending sig && !ss.blocked sig) 1 (maxSignal - 1) k

/-- `sys_signal`, for a signal whose action may be set. -/
def sysSignal (k : Kernel) (signum handler : Nat) : Kernel :=
  if signum < 1 ∨ maxSignal ≤ signum ∨ signum = sigkill ∨ signum = 19 then k
  else
    match processCurrentPcb k with
    | none => k
    | some i =>
        let idx := (k.table i).pid - 1
        if (k.table i).pid = 0 ∨ procMax ≤ idx then k
        else
          let ss := k.signals idx
          setSignals k idx { ss with handler := Function.update ss.handler signum handler }

/-! ## Futexes -/

/-- A `FUTEX_WAIT` that has put its process to sleep: the slot of the waiter table, the
deadline, and whether the loop has found the deadline passed. -/
structure FutexWait where
  slot : Nat
  deadline : Nat
  expired : Bool

def futexAllocSlot (k : Kernel) : Option Nat :=
  (List.range futexMaxWaiters).find? fun i => (k.futex_table i).addr = 0

/-- Assign to an entry of the waiter table. -/
def setWaiter (k : Kernel) (i : Nat) (waiter : FutexWaiter) : Kernel :=
  { k with futex_table := Function.update k.futex_table i waiter }

/-- `sys_futex` with `FUTEX_WAIT` up to its loop; `word` is what `addr` points to.  The
error, or the slot of the caller with its wait. -/
def futexWait (k : Kernel) (addr word val timeout_ms : Nat) : Except Int (Nat × FutexWait × Kernel) :=
  if addr = 0 then .error einval
  else if word ≠ val then .error eagain
  else
    match processCurrentPcb k with
    | none => .error einval
    | some i =>
        match futexAllocSlot k with
        | none => .error enomem
        | some slot =>
            let deadline := if timeout_ms ≠ 0 then u64 (k.pit_ticks + timeout_ms) else 0
            .ok (i, ⟨slot, deadline, false⟩, (setWaiter k slot ⟨addr, some i⟩).setState i .blocked)

/-- What the loop of `FUTEX_WAIT` does when it gets the processor; the wait is over when
the result has none.  Interrupts are on, so the test and the assignments after it are
two steps. -/
def futexPoll (k : Kernel) (i : Nat) (wait : FutexWait) : Option FutexWait × Kernel :=
  if wait.expired then
    (none, (setWaiter k wait.slot ⟨0, none⟩).setState i .running)
  else if (k.table i).state ≠ .blocked then (none, k)
  else if wait.deadline ≠ 0 ∧ wait.deadline ≤ k.pit_ticks then (some { wait with expired := true }, k)
  else (some wait, k)

/-- The loop of `FUTEX_WAKE` from entry `i` on; the number of processes woken. -/
def futexWakeLoop (addr val : Nat) (i : Nat) : (left woken : Nat) → Kernel → Nat × Kernel
  | 0, woken, k => (woken, k)
  | left + 1, woken, k =>
      if woken < val then
        match (k.futex_table i).pcb with
        | some pcb =>
            if (k.futex_table i).addr = addr then
              futexWakeLoop addr val (i + 1) left (woken + 1)
                ((setWaiter k i ⟨0, none⟩).setState pcb .ready)
            else futexWakeLoop addr val (i + 1) left woken k
        | none => futexWakeLoop addr val (i + 1) left woken k
      else (woken, k)

/-- `sys_futex` with `FUTEX_WAKE` -/
def futexWake (k : Kernel) (addr val : Nat) : Int × Kernel :=
  if addr = 0 then (einval, k)
  else
    match futexWakeLoop addr val 0 futexMaxWaiters 0 k with
    | (woken, k) => (woken, k)

/-! ## The timer interrupt -/

/-- The search of `timer_isr` for a process that can run, from an index on. -/
def nextReady (table : Table) (start : Nat) : Option Nat :=
  ((List.range procMax).map fun j => (start + j) % procMax).find? fun i =>
    (table i).state = .ready

/-- `timer_isr`: the process that was running keeps `rsp` and `cr3`, the next one that is
ready runs. -/
def timerIsr (k : Kernel) (rsp cr3 : Nat) : Kernel :=
  let k := { k with pit_ticks := u64 (k.pit_ticks + 1) }
  match processCurrentPcb k with
  | some cur =>
      let k := k.setPcb cur { k.table cur with kstack := rsp, cr3 := cr3, state := .ready }
      match nextReady k.table (cur + 1) with
      | some next => { k.setState next .running with current_pid := (k.table next).pid }
      | none => k.setState cur .running
  | none =>
      match nextReady k.table 0 with
      | some next => { k.setState next .running with current_pid := (k.table next).pid }
      | none => k

end Systrix.Proc
