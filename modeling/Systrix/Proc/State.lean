import Systrix.Lib.Ring

/-!
# Process state

The process table and the tables the process-related parts of the kernel keep beside
it: inboxes and server names of `kernel/ipc.c`, waiters of `kernel/futex.c` and
signal state of `kernel/signal.c`.
-/

namespace Systrix.Proc

def procMax : Nat := 64

def procKstackSz : Nat := 4096

def procStackTop : Nat := 0x700000

def brkBase : Nat := 0x1000000

/-- `PSTATE_*` -/
inductive PState where
  | empty
  | ready
  | running
  | dead
  | blocked
  deriving DecidableEq, Repr

/-- `PCB` -/
structure Pcb where
  state : PState
  kstack : Nat
  ursp : Nat
  entry : Nat
  pid : Nat
  cr3 : Nat
  brk : Nat
  name : List UInt8
  kbase : Nat
  vma_table : Nat
  deriving DecidableEq, Repr

/-- A process control block of zero bytes. -/
def Pcb.zero : Pcb := ⟨.empty, 0, 0, 0, 0, 0, 0, [], 0, 0⟩

/-- `PROC_TABLE`; only the first `procMax` entries belong to it, the rest is the
memory behind. -/
abbrev Table := Nat → Pcb

/-- The first slot of the table that passes a test. -/
def findPcb (table : Table) (test : Pcb → Bool) : Option Nat :=
  (List.range procMax).find? fun i => test (table i)

theorem findPcb_lt {table : Table} {test : Pcb → Bool} {i : Nat}
    (found : findPcb table test = some i) : i < procMax := by
  unfold findPcb at found
  exact List.mem_range.mp (List.mem_of_find?_eq_some found)

theorem findPcb_test {table : Table} {test : Pcb → Bool} {i : Nat}
    (found : findPcb table test = some i) : test (table i) = true := by
  unfold findPcb at found
  exact List.find?_some (p := fun i => test (table i)) found

theorem findPcb_none {table : Table} {test : Pcb → Bool} (none : findPcb table test = none)
    {i : Nat} (inside : i < procMax) : test (table i) = false := by
  unfold findPcb at none
  simpa using List.find?_eq_none.mp none i (List.mem_range.mpr inside)

/-! ## Tables beside the process table -/

def ipcQueueDepth : Nat := 16

def ipcNameMax : Nat := 16

def ipcServerMax : Nat := 32

/-- `IpcMsg`; `sender` is its `from`. -/
structure IpcMsg where
  type : Nat
  sender : Nat
  data : Fin 6 → Nat

/-- A message of zero bytes. -/
def IpcMsg.zero : IpcMsg := ⟨0, 0, fun _ => 0⟩

/-- `IpcQueue`; the ring is `msgs`, `head`, `tail` and `count`. -/
structure IpcQueue extends RingBuffer IpcMsg where
  waiting : Bool

/-- `IpcServer`; the characters of `name` without the terminator. -/
structure IpcServer where
  name : List UInt8
  pid : Nat
  active : Bool
  deriving DecidableEq

def futexMaxWaiters : Nat := 64

/-- `FutexWaiter`; `pcb` is the slot of the sleeping process. -/
structure FutexWaiter where
  addr : Nat
  pcb : Option Nat
  deriving DecidableEq

/-- `signal_state_t`; `handler` is that of each action. -/
structure SignalState where
  handler : Nat → Nat
  blocked : Nat → Bool
  pending : Nat → Bool

/-- The state of the process-related parts of the kernel. -/
structure Kernel where
  table : Table
  current_pid : Nat
  pit_ticks : Nat
  queues : Nat → IpcQueue
  servers : Nat → IpcServer
  futex_table : Nat → FutexWaiter
  signals : Nat → SignalState

/-- The state after the `*_init` functions. -/
def Kernel.start : Kernel where
  table := fun _ => Pcb.zero
  current_pid := 0
  pit_ticks := 0
  queues := fun _ => ⟨RingBuffer.empty IpcMsg.zero, false⟩
  servers := fun _ => ⟨[], 0, false⟩
  futex_table := fun _ => ⟨0, none⟩
  signals := fun _ => ⟨fun _ => 0, fun _ => false, fun _ => false⟩

/-- Replace a process control block. -/
def Kernel.setPcb (k : Kernel) (i : Nat) (pcb : Pcb) : Kernel :=
  { k with table := Function.update k.table i pcb }

/-- Assign to the `state` of a process control block. -/
def Kernel.setState (k : Kernel) (i : Nat) (state : PState) : Kernel :=
  k.setPcb i { k.table i with state := state }

section SetState

variable (k : Kernel) (i : Nat) (pcb : Pcb) (state : PState)

@[simp] theorem setPcb_table_self : (k.setPcb i pcb).table i = pcb := Function.update_self _ _ _

theorem setPcb_table_of_ne {j : Nat} (ne : j ≠ i) : (k.setPcb i pcb).table j = k.table j :=
  Function.update_of_ne ne _ _

@[simp] theorem setState_state_self : ((k.setState i state).table i).state = state := by
  rw [Kernel.setState, setPcb_table_self]

theorem setState_table_of_ne {j : Nat} (ne : j ≠ i) : (k.setState i state).table j = k.table j :=
  setPcb_table_of_ne k i _ ne

@[simp] theorem setState_pid (j : Nat) : ((k.setState i state).table j).pid = (k.table j).pid := by
  by_cases same : j = i
  · subst same
    rw [Kernel.setState, setPcb_table_self]
  · rw [setState_table_of_ne k i state same]

end SetState

end Systrix.Proc
