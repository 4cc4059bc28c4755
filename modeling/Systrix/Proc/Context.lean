import Mathlib.Data.Fin.VecNotation
import Systrix.Lib.WordMemory
import Systrix.Proc.StateLaws

/-!
# Saved contexts

What `timer_isr`, `syscall_entry` and `process_run` do to the kernel stacks: the frame of
an interrupted process, and the return address of a system call under way.  The user
stack pointer of a call is in one global word.
-/

namespace Systrix.Proc

open Machine WordMemory

/-- Kernel memory by the address of a word. -/
abbrev Stack := Nat → Nat

/-- What an interrupt saves: the 15 registers in the order of the pops, then RIP, CS,
RFLAGS, RSP and SS. -/
abbrev Context := Fin 20 → Nat

/-- Bytes of a saved context. -/
def frameBytes : Nat := 160

/-- Bytes `syscall_entry` pushes: RCX, R11, RDI, RSI, RDX, R8, R9 and R10. -/
def callBytes : Nat := 64

/-- Bytes `process_run` pushes for its `iretq`. -/
def startBytes : Nat := 40

/-- Bytes of `exc_stack`. -/
def excStackBytes : Nat := 4096

def Context.rip (c : Context) : Nat := c 15

def Context.cs (c : Context) : Nat := c 16

def Context.rflags (c : Context) : Nat := c 17

def Context.rsp (c : Context) : Nat := c 18

/-- The context is one of ring 3. -/
def Context.user (c : Context) : Bool := c.cs % 4 = 3

/-- The interrupt flag, bit 9 of RFLAGS, is set. -/
def Context.interruptible (c : Context) : Bool := c.rflags / 0x200 % 2 = 1

/-- RFLAGS with the interrupt flag cleared, as `SFMASK` makes `syscall` do. -/
def maskFlags (rflags : Nat) : Nat := rflags - rflags / 0x200 % 2 * 0x200

/-- RFLAGS with the interrupt flag set. -/
def enableFlags (rflags : Nat) : Nat := maskFlags rflags + 0x200

/-- A process that was interrupted: where its context was saved, and the context. -/
structure Interrupted where
  addr : Nat
  context : Context

def Interrupted.region (f : Interrupted) : Region := ⟨f.addr, f.addr + frameBytes⟩

/-- A system call under way: the user stack pointer and return address of its caller, the
kernel stack it begins on and the bytes it uses of it. -/
structure Syscall where
  rsp : Nat
  rip : Nat
  top : Nat
  depth : Nat

def Syscall.region (c : Syscall) : Region := ⟨c.top - c.depth, c.top⟩

/-- What is observed: a process that was interrupted is resumed, another process is
resumed in place of the one whose frame was saved, a call starts or returns. -/
inductive Event where
  | resumed (interrupted loaded : Context)
  | switched (addr kstack : Nat)
  | started (caller : Nat) (call : Syscall) (saved : Nat → Option Interrupted)
      (calls : Nat → Option Syscall)
  | returned (call : Syscall) (rsp rip : Nat)

/-- The processor, the kernel stacks and the process table. -/
structure Core where
  kernel : Kernel
  mem : Stack
  /-- The slot of the process whose code is executed; `none` is the shell. -/
  executing : Option Nat
  cpu : Context
  /-- The processes that are interrupted. -/
  saved : Nat → Option Interrupted
  calls : Nat → Option Syscall
  sc_user_rsp : Nat
  log : List Event

/-- The kernel after its start, in its shell. -/
def Core.boot (mem : Stack) (cpu : Context) : Core :=
  ⟨Kernel.start, mem, none, cpu, fun _ => none, fun _ => none, 0, []⟩

/-- Where the stacks are that do not belong to a process. -/
structure StackLayout where
  exc_stack : Nat
  sc_emergency_stack_top : Nat

/-- `rsp0` of the task state segment. -/
def StackLayout.rsp0 (layout : StackLayout) : Nat := layout.exc_stack + excStackBytes

variable (layout : StackLayout)

/-! ## The timer interrupt -/

/-- The process `timer_isr` resumes; `none` when it returns to what it interrupted. -/
def timerTarget (k : Kernel) : Option Nat :=
  match processCurrentPcb k with
  | some cur =>
      match nextReady (k.setState cur .ready).table (cur + 1) with
      | some next => some next
      | none => some cur
  | none => nextReady k.table 0

/-- Where an interrupt saves its frame: below `rsp0` when it comes from ring 3, else below
the stack pointer, which the processor aligns. -/
def frameAddr (c : Context) : Nat :=
  (if c.user then layout.rsp0 else alignDown c.rsp 16) - frameBytes

/-- The stack an interrupt uses: the frame, and `depth` bytes for the calls of the
handler. -/
def interruptRegion (c : Context) (depth : Nat) : Region :=
  ⟨frameAddr layout c - depth, frameAddr layout c + frameBytes⟩

theorem interruptRegion_lo (c : Context) (depth : Nat) :
    (interruptRegion layout c depth).lo ≤ frameAddr layout c := Nat.sub_le _ _

/-- What `timer_isr` leaves on the stack: the frame, and garbage below it. -/
def interruptMem (s : Core) (depth : Nat) (garbage : Nat → Nat) : Stack :=
  let addr := frameAddr layout s.cpu
  fill (storeWords s.mem addr s.cpu) ⟨addr - depth, addr⟩ garbage

/-- The interrupted processes once the frame of the one that executes is at `addr`. -/
def Core.suspended (s : Core) (addr : Nat) : Nat → Option Interrupted :=
  match s.executing with
  | none => s.saved
  | some e => Function.update s.saved e (some ⟨addr, s.cpu⟩)

/-- A timer interrupt where interrupts are on. -/
def Core.interrupt (s : Core) (depth : Nat) (garbage : Nat → Nat) (cr3 : Nat) : Core :=
  let addr := frameAddr layout s.cpu
  let mem := interruptMem layout s depth garbage
  let kernel := timerIsr s.kernel addr cr3
  match timerTarget s.kernel with
  | none =>
      let cpu := readWords mem addr
      { s with kernel := kernel, mem := mem, cpu := cpu, log := s.log ++ [.resumed s.cpu cpu] }
  | some next =>
      let cpu := readWords mem (kernel.table next).kstack
      let saved := s.suspended addr
      let switch := match s.executing with
        | none => []
        | some e => if e = next then [] else [Event.switched addr (kernel.table e).kstack]
      let resume := match saved next with
        | none => []
        | some f => [Event.resumed f.context cpu]
      { s with
        kernel := kernel, mem := mem, executing := some next, cpu := cpu
        saved := Function.update saved next none
        log := s.log ++ (switch ++ resume) }

/-- A timer interrupt, which waits while interrupts are off. -/
def Core.tick (s : Core) (depth : Nat) (garbage : Nat → Nat) (cr3 : Nat) : Core :=
  if s.cpu.interruptible then s.interrupt layout depth garbage cr3 else s

/-! ## System calls -/

/-- The stack of a system call: that of the first process that is running. -/
def callTop (k : Kernel) : Nat :=
  match processCurrentPcb k with
  | some i => (k.table i).kstack
  | none => layout.sc_emergency_stack_top

/-- What `syscall_entry` stores in the process control block. -/
def noteCaller (k : Kernel) (cpu : Context) : Kernel :=
  match processCurrentPcb k with
  | some i => k.setPcb i { k.table i with ursp := cpu.rsp, entry := cpu.rip }
  | none => k

/-- The pushes of `syscall_entry`, the last one first. -/
def callWords (cpu : Context) : Fin 8 → Nat :=
  ![cpu 5, cpu 6, cpu 7, cpu 11, cpu 10, cpu 9, cpu.rflags, cpu.rip]

/-- `syscall_entry` up to its `call`: of `handler`, which uses `depth` bytes of stack, the
pushes included. -/
def Core.enter (s : Core) (depth handler : Nat) : Core :=
  match s.executing with
  | none => s
  | some e =>
      let top := callTop layout s.kernel
      -- the pushes and one interrupt fit above the bottom of memory
      if s.calls e = none ∧ s.cpu.user ∧ callBytes ≤ depth ∧ depth + frameBytes + 16 ≤ top then
        let call : Syscall := ⟨s.cpu.rsp, s.cpu.rip, top, depth⟩
        { s with
          kernel := noteCaller s.kernel s.cpu
          mem := storeWords s.mem (top - callBytes) (callWords s.cpu)
          cpu := fun i =>
            if i = 15 then handler else if i = 16 then 0x10
            else if i = 17 then maskFlags s.cpu.rflags else if i = 18 then top - callBytes
            else if i = 19 then 0x18 else s.cpu i
          calls := Function.update s.calls e (some call)
          sc_user_rsp := s.cpu.rsp
          log := s.log ++ [.started e call s.saved s.calls] }
      else s

/-- The registers after the pops of `syscall_entry` and its `sysretq`. -/
def sysret (mem : Stack) (top sc_user_rsp : Nat) (cpu : Context) : Context :=
  let words : Fin 8 → Nat := readWords mem (top - callBytes)
  ![cpu 0, cpu 1, cpu 2, cpu 3, words 6, words 0, words 1, words 2, cpu 8, words 5, words 4,
    words 3, words 7, cpu 13, cpu 14, words 7, 0x2b, words 6, sc_user_rsp, 0x23]

theorem sysret_user (mem : Stack) (top sc_user_rsp : Nat) (cpu : Context) :
    (sysret mem top sc_user_rsp cpu).user = true := decide_eq_true (rfl : 0x2b % 4 = 3)

/-- `syscall_entry` after its `call`. -/
def Core.leave (s : Core) : Core :=
  match s.executing with
  | none => s
  | some e =>
      match s.calls e with
      | none => s
      | some call =>
          let cpu := sysret s.mem call.top s.sc_user_rsp s.cpu
          { s with
            cpu := cpu
            calls := Function.update s.calls e none
            log := s.log ++ [.returned call cpu.rsp cpu.rip] }

/-! ## What else happens -/

/-- Code runs up to registers `cpu`: the shell, a process in ring 3, which cannot write
kernel memory, or the code of a system call, which writes its part of the stack. -/
def Core.advance (s : Core) (cpu : Context) (garbage : Nat → Nat) : Core :=
  match s.executing with
  | none => { s with cpu := cpu }
  | some e =>
      match s.calls e with
      | none => if cpu.user then { s with cpu := cpu } else s
      | some call =>
          if cpu.user = false ∧ call.top ≤ cpu.rsp + call.depth ∧ cpu.rsp + callBytes ≤ call.top then
            { s with
              cpu := cpu
              mem := fill s.mem ⟨call.top - call.depth, call.top - callBytes⟩ garbage }
          else s

/-- `process_create`; what was known of the process of the slot is void. -/
def Core.create (s : Core) (r : Resources) (entry : Nat) (name : List UInt8) : Core :=
  match createIn s.kernel r entry name with
  | none => s
  | some (i, kernel) =>
      { s with
        kernel := kernel
        executing := if s.executing = some i then none else s.executing
        saved := Function.update s.saved i none
        calls := Function.update s.calls i none }

/-- `process_run`; the registers it does not load keep the values `cpu`. -/
def Core.run (s : Core) (pid : Nat) (cpu : Context) : Core :=
  match pcbOfPid s.kernel pid with
  | none => s
  | some i =>
      let pcb := s.kernel.table i
      let words : Fin 5 → Nat := ![pcb.entry, 0x2b, enableFlags cpu.rflags, pcb.ursp, 0x23]
      { s with
        kernel := processRun s.kernel pid
        mem := storeWords s.mem (pcb.kstack - startBytes) words
        executing := some i
        cpu := fun j => if inside : 15 ≤ j.val then words ⟨j - 15, by omega⟩ else cpu j
        saved := Function.update s.saved i none
        calls := Function.update s.calls i none }

/-- The executing process exits by itself or with its group; the shell goes on with
registers `cpu`. -/
def Core.exit (s : Core) (group : Bool) (cpu : Context) : Core :=
  match s.executing with
  | none => s
  | some e =>
      { s with
        kernel := if group then sysExitGroup s.kernel else schedulerExit s.kernel
        executing := none
        cpu := cpu
        calls := Function.update s.calls e none }

/-- What happens next.  `assign` is an assignment to the `state` of a process control block:
by the futex calls, a signal or the recovery from a panic. -/
inductive Core.Op where
  | tick (depth : Nat) (garbage : Nat → Nat) (cr3 : Nat)
  | enter (depth handler : Nat)
  | leave
  | advance (cpu : Context) (garbage : Nat → Nat)
  | create (r : Resources) (entry : Nat) (name : List UInt8)
  | run (pid : Nat) (cpu : Context)
  | exit (group : Bool) (cpu : Context)
  | assign (i : Nat) (state : PState)

def Core.step (s : Core) : Core.Op → Core
  | .tick depth garbage cr3 => s.tick layout depth garbage cr3
  | .enter depth handler => s.enter layout depth handler
  | .leave => s.leave
  | .advance cpu garbage => s.advance cpu garbage
  | .create r entry name => s.create r entry name
  | .run pid cpu => s.run pid cpu
  | .exit group cpu => s.exit group cpu
  | .assign i state => { s with kernel := s.kernel.setState i state }

/-! ## What a timer interrupt does -/

section Interrupt

variable {layout} {s : Core} {depth : Nat} {garbage : Nat → Nat}

theorem interruptMem_outside :
    SameOutside (interruptRegion layout s.cpu depth) s.mem (interruptMem layout s depth garbage) := by
  have stored := storeWords_outside s.mem (frameAddr layout s.cpu) s.cpu
  have filled := fill_outside (storeWords s.mem (frameAddr layout s.cpu) s.cpu)
    ⟨frameAddr layout s.cpu - depth, frameAddr layout s.cpu⟩ garbage
  exact (stored.mono (by unfold interruptRegion; simp) (by unfold interruptRegion frameBytes; simp)).trans
    (filled.mono (by unfold interruptRegion; simp) (by unfold interruptRegion frameBytes; simp))

/-- The interrupted context is on the stack. -/
theorem readWords_interruptMem :
    readWords (interruptMem layout s depth garbage) (frameAddr layout s.cpu) = s.cpu := by
  unfold interruptMem
  rw [readWords_apart (fill_outside _ _ _) (.inl (Nat.le_refl _)), readWords_storeWords]

end Interrupt

section Kstack

variable (k : Kernel) (i j : Nat)

@[simp] theorem setState_kstack (state : PState) :
    ((k.setState i state).table j).kstack = (k.table j).kstack := by
  by_cases same : j = i
  · subst same
    rw [Kernel.setState, setPcb_table_self]
  · rw [setState_table_of_ne k i state same]

@[simp] theorem noteCaller_kstack (cpu : Context) :
    ((noteCaller k cpu).table j).kstack = (k.table j).kstack := by
  unfold noteCaller
  split
  · rename_i i _
    by_cases same : j = i
    · subst same
      rw [setPcb_table_self]
    · rw [setPcb_table_of_ne k i _ same]
  · rfl

@[simp] theorem processRun_kstack (pid : Nat) :
    ((processRun k pid).table j).kstack = (k.table j).kstack := by
  unfold processRun
  split
  · rfl
  · exact setState_kstack k _ j .running

@[simp] theorem schedulerExit_kstack : ((schedulerExit k).table j).kstack = (k.table j).kstack := by
  unfold schedulerExit
  split
  · rfl
  · exact setState_kstack k _ j .dead

@[simp] theorem sysExitGroup_kstack : ((sysExitGroup k).table j).kstack = (k.table j).kstack := by
  unfold sysExitGroup
  split
  · rfl
  · rename_i i _
    unfold processDestroy
    by_cases same : j = i
    · subst same
      rw [setPcb_table_self]
    · rw [setPcb_table_of_ne k i _ same]

/-- The timer records the frame in the process it found running, and nowhere else. -/
theorem timerIsr_kstack (addr cr3 : Nat) :
    ((timerIsr k addr cr3).table j).kstack =
      if processCurrentPcb k = some j then addr else (k.table j).kstack := by
  have noted : ∀ (k : Kernel) (cur : Nat) (pcb : Pcb), pcb.kstack = addr →
      ((k.setPcb cur pcb).table j).kstack = if some cur = some j then addr else (k.table j).kstack := by
    intro k cur pcb kstack
    by_cases same : cur = j
    · subst same
      rw [setPcb_table_self, if_pos rfl, kstack]
    · rw [setPcb_table_of_ne k cur pcb (Ne.symm same), if_neg (fun h => same (Option.some.inj h))]
  unfold timerIsr
  dsimp only
  split
  · rename_i cur isCurrent
    have isCurrent' : processCurrentPcb k = some cur := isCurrent
    rw [isCurrent']
    split
    · rw [setState_kstack, noted _ _ _ rfl]
    · rw [setState_kstack, noted _ _ _ rfl]
  · rename_i noCurrent
    have noCurrent' : processCurrentPcb k = none := noCurrent
    rw [noCurrent', if_neg (by simp)]
    split
    · rw [setState_kstack]
    · rfl

end Kstack

end Systrix.Proc
