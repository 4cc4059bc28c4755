import Mathlib.Data.List.Perm.Subperm
import Systrix.Proc.SignalLifetime

/-!
# Recycling of process resources

A process ends in four ways: `sys_exit_handler` with `scheduler_exit` of `kernel/isr.S`, `sys_exit_group`
with `process_destroy`, `SIGKILL`, and the default action of a signal.  Beside the kernel runs a ledger of the
processes created so far: what each one was given, and how often that was returned.
-/

namespace Systrix.Proc

open Run

/-- What `process_create` acquires for a process. -/
inductive Kind where
  | space
  | stack
  | vmas
  deriving DecidableEq

/-- What the allocators return for `process_create`, by kind. -/
def Resources.granted (r : Resources) : Kind → Option Nat
  | .space => r.cr3
  | .stack => r.kstack
  | .vmas => r.vmas

/-- What a process control block says it holds, by kind; 0 is nothing. -/
def Pcb.holds (t : Pcb) : Kind → Nat
  | .space => t.cr3
  | .stack => t.kbase
  | .vmas => t.vma_table

theorem setState_holds (k : Kernel) (i : Nat) (state : PState) (j : Nat) :
    ((k.setState i state).table j).holds = (k.table j).holds := by
  by_cases same : j = i
  · subst same
    rw [Kernel.setState, setPcb_table_self]
    rfl
  · rw [setState_table_of_ne k i state same]

/-- A process in the ledger. -/
structure Holding where
  slot : Nat
  address : Kind → Nat
  /-- How often it was returned. -/
  returned : Kind → Nat
  alive : Bool

namespace Holding

/-- A process that was just created. -/
def fresh (slot : Nat) (address : Kind → Nat) : Holding := ⟨slot, address, fun _ => 0, true⟩

variable (p : Holding)

/-- A resource of the process is returned. -/
def giveBack (kind : Kind) : Holding := { p with returned := Function.update p.returned kind (p.returned kind + 1) }

/-- The process is gone. -/
def leave : Holding := { p with alive := false }

/-- The process is gone, and all it had was returned once. -/
def cleared : Holding := ⟨p.slot, p.address, fun _ => 1, false⟩

end Holding

/-- Change the first entry that passes a test. -/
def updateFirst (test : Holding → Bool) (change : Holding → Holding) : List Holding → List Holding
  | [] => []
  | p :: ps => if test p then change p :: ps else p :: updateFirst test change ps

/-- An address is returned to its allocator: the last process it was given to gives it back. -/
def giveBack (kind : Kind) (address : Nat) (processes : List Holding) : List Holding :=
  updateFirst (fun p => p.address kind = address) (·.giveBack kind) processes

/-- An address is returned unless it is 0. -/
def giveBackHeld (kind : Kind) (address : Nat) (processes : List Holding) : List Holding :=
  if address = 0 then processes else giveBack kind address processes

/-- The process in a slot is gone. -/
def leaveSlot (slot : Nat) (processes : List Holding) : List Holding :=
  updateFirst (fun p => p.alive ∧ p.slot = slot) Holding.leave processes

/-! ## The machine -/

/-- The kernel, the register CR3, the slot of the process that has the processor, and the processes so far,
the newest first. -/
structure Recycling where
  kernel : Kernel
  cr3 : Nat
  cpu : Option Nat
  processes : List Holding

/-- What can happen. -/
inductive CycleOp where
  | create (r : Resources) (entry : Nat) (name : List UInt8)
  | run (pid : Nat)
  | tick (rsp : Nat)
  | exit
  | exitGroup
  | kill (pid signum : Nat)
  | signal (signum handler : Nat)
  | deliver (i : Fin procMax)

/-- The slot `timer_isr` goes on with. -/
def timerPick (k : Kernel) : Option Nat :=
  match processCurrentPcb k with
  | some cur => some ((nextReady (k.setState cur .ready).table (cur + 1)).getD cur)
  | none => nextReady k.table 0

namespace Recycling

/-- After boot, with the address space of the kernel. -/
def start (kernel_cr3 : Nat) : Recycling := ⟨Kernel.start, kernel_cr3, none, []⟩

variable (s : Recycling)

/-- `process_destroy` returns what the process control block holds. -/
def destroyed (i : Nat) : List Holding :=
  let t := s.kernel.table i
  giveBackHeld .stack t.kbase (giveBackHeld .space t.cr3 (giveBackHeld .vmas t.vma_table s.processes))

/-- `scheduler_exit` returns the address space and the kernel stack. -/
def exited (i : Nat) : List Holding :=
  let t := s.kernel.table i
  giveBack .stack t.kbase (giveBackHeld .space t.cr3 s.processes)

/-- One step; `kernel_cr3` is the address space of the kernel. -/
def step (kernel_cr3 : Nat) : CycleOp → Recycling
  | .create r entry name =>
      match createIn s.kernel r entry name with
      | none => s
      | some (i, k) =>
          { s with kernel := k, processes := .fresh i (fun kind => (r.granted kind).getD 0) :: s.processes }
  | .run pid =>
      match pcbOfPid s.kernel pid with
      | none => s
      | some i =>
          { s with kernel := processRun s.kernel pid, cr3 := (s.kernel.table i).cr3, cpu := some i }
  | .tick rsp =>
      let k := timerIsr s.kernel rsp s.cr3
      match timerPick s.kernel with
      | none => { s with kernel := k }
      | some i =>
          let cr3 := (k.table i).cr3
          { s with kernel := k, cr3 := if cr3 = 0 then s.cr3 else cr3, cpu := some i }
  | .exit =>
      match s.cpu with
      | none => s
      | some me =>
          { kernel := schedulerExit s.kernel
            cr3 := kernel_cr3
            cpu := none
            processes := leaveSlot me (match processCurrentPcb s.kernel with
              | none => s.processes
              | some i => s.exited i) }
  | .exitGroup =>
      match s.cpu with
      | none => s
      | some me =>
          { kernel := sysExitGroup s.kernel
            cr3 := s.cr3
            cpu := none
            processes := leaveSlot me (match processCurrentPcb s.kernel with
              | none => s.processes
              | some i => s.destroyed i) }
  | .kill pid signum =>
      let k := (sysKill s.kernel pid signum).2
      match killTarget s.kernel pid with
      | none => { s with kernel := k }
      | some i =>
          { s with
            kernel := k
            processes := if (k.table i).state = .dead then leaveSlot i s.processes else s.processes }
  | .signal signum handler => { s with kernel := sysSignal s.kernel signum handler }
  | .deliver i =>
      let k := signalDeliver s.kernel i
      { s with
        kernel := k
        processes := if (k.table i).state = .dead then leaveSlot i s.processes else s.processes }

/-- The processes that are alive. -/
def living : Nat := s.processes.countP (·.alive)

/-- The cycles of the claim: the allocators have memory that nobody holds, at most 63 processes are alive, and
what runs or gets a signal is a process that is alive. -/
def InCycle : CycleOp → Prop
  | .create r _ _ => s.living + 1 ≤ 63 ∧ ∀ kind, ∃ address, r.granted kind = some address ∧ address ≠ 0 ∧
      ∀ p ∈ s.processes, p.address kind = address → p.returned kind ≠ 0
  | .run pid => ∃ p ∈ s.processes, p.alive = true ∧ pid = p.slot + 1
  | .deliver i => ∃ p ∈ s.processes, p.alive = true ∧ p.slot = i
  | _ => True

/-- A process is created in a slot that no process alive has, and run when no process is running. -/
def Apart : CycleOp → Prop
  | .create _ _ _ => ∀ i, (findPcb s.kernel.table fun t => t.state = .empty) = some i →
      ∀ p ∈ s.processes, p.alive = true → p.slot ≠ i
  | .run _ => processCurrentPcb s.kernel = none
  | _ => True

/-- `signal_deliver` takes the default action of a signal that ends the process. -/
def Fatal (entry : Nat × Nat) : Prop := entry.2 = sigDfl ∧ ¬(entry.1 = sigchld ∨ entry.1 = sigcont)

/-- No process ends but by `sys_exit_group`. -/
def EndsByGroup : CycleOp → Prop
  | .exit => s.cpu = none
  | .kill pid signum => signum = sigkill → pid = 0 ∨ killTarget s.kernel pid = none
  | .deliver i => ∀ entry ∈ deliveredAt s.kernel i, ¬Fatal entry
  | _ => True

/-- Processes are recycled: `process_create` succeeds, and after the step all that processes had that are gone
was returned exactly once. -/
def Recycles (kernel_cr3 : Nat) (op : CycleOp) : Prop :=
  (∀ r entry name, op = .create r entry name → createIn s.kernel r entry name ≠ none) ∧
    ∀ p ∈ (s.step kernel_cr3 op).processes, p.alive = false → ∀ kind, p.returned kind = 1

end Recycling

/-! ## The ledger -/

theorem updateFirst_split {test : Holding → Bool} {change : Holding → Holding} {before after : List Holding}
    {p : Holding} (misses : ∀ q ∈ before, test q = false) (hits : test p = true) :
    updateFirst test change (before ++ p :: after) = before ++ change p :: after := by
  induction before with
  | nil => exact if_pos hits
  | cons q before ih =>
      rw [List.cons_append, updateFirst, if_neg (by rw [misses q List.mem_cons_self]; exact Bool.false_ne_true),
        ih fun r member => misses r (List.mem_cons_of_mem q member)]
      rfl

theorem giveBackHeld_split {kind : Kind} {address : Nat} {before after : List Holding} {p : Holding}
    (others : ∀ q ∈ before, q.address kind ≠ address) (own : p.address kind = address) (real : address ≠ 0) :
    giveBackHeld kind address (before ++ p :: after) = before ++ p.giveBack kind :: after := by
  unfold giveBackHeld giveBack
  rw [if_neg real]
  exact updateFirst_split (fun q member => decide_eq_false (others q member)) (decide_eq_true own)

theorem leaveSlot_split {slot : Nat} {before after : List Holding} {p : Holding}
    (others : ∀ q ∈ before, ¬(q.alive = true ∧ q.slot = slot)) (own : p.alive = true ∧ p.slot = slot) :
    leaveSlot slot (before ++ p :: after) = before ++ p.leave :: after :=
  updateFirst_split (fun q member => decide_eq_false (others q member)) (decide_eq_true own)

/-- A newer process has neither the slot nor an address of an older one that is alive. -/
def Newer (newer older : Holding) : Prop :=
  older.alive = true →
    (newer.alive = true → newer.slot ≠ older.slot) ∧ ∀ kind, newer.address kind ≠ older.address kind

/-- A process that is gone takes its place in the ledger. -/
theorem newer_replace {before after : List Holding} {p q : Holding}
    (apart : (before ++ p :: after).Pairwise Newer) (address : q.address = p.address) (gone : q.alive = false) :
    (before ++ q :: after).Pairwise Newer := by
  obtain ⟨early, late, between⟩ := List.pairwise_append.mp apart
  obtain ⟨first, rest⟩ := List.pairwise_cons.mp late
  refine List.pairwise_append.mpr ⟨early, List.pairwise_cons.mpr ⟨?_, rest⟩, ?_⟩
  · intro older member alive
    refine ⟨fun isAlive => ?_, ?_⟩
    · rw [gone] at isAlive
      cases isAlive
    · rw [address]
      exact (first older member alive).2
  · intro newer member older inLate
    rcases List.mem_cons.mp inLate with rfl | inAfter
    · intro alive
      rw [gone] at alive
      cases alive
    · exact between newer member older (List.mem_cons_of_mem p inAfter)

namespace Recycling

/-- The process control block of a process that is alive. -/
structure Fills (k : Kernel) (p : Holding) : Prop where
  inside : p.slot < procMax
  pid : (k.table p.slot).pid = p.slot + 1
  holds : (k.table p.slot).holds = p.address
  real : ∀ kind, p.address kind ≠ 0
  kept : ∀ kind, p.returned kind = 0

/-- What every run keeps in which processes end by `sys_exit_group` alone. -/
structure Inv (s : Recycling) : Prop where
  bySlot : PidsBySlot s.kernel
  fills : ∀ p ∈ s.processes, p.alive = true → Fills s.kernel p
  once : ∀ p ∈ s.processes, p.alive = false → ∀ kind, p.returned kind = 1
  apart : s.processes.Pairwise Newer
  held : ∀ i < procMax, (s.kernel.table i).state ≠ .empty → ∃ p ∈ s.processes, p.alive = true ∧ p.slot = i
  living : ∀ i < procMax, (s.kernel.table i).state ≠ .dead
  runs : ∀ i < procMax, (s.kernel.table i).state = .running ↔ s.cpu = some i
  loaded : ∀ i, s.cpu = some i → i < procMax ∧ s.cr3 = (s.kernel.table i).cr3

variable {s : Recycling}

/-- A process alive in the ledger, with what lies before and behind it there. -/
theorem Inv.split (inv : s.Inv) {p : Holding} (member : p ∈ s.processes) (alive : p.alive = true) :
    ∃ before after, s.processes = before ++ p :: after ∧
      (∀ q ∈ before, ¬(q.alive = true ∧ q.slot = p.slot)) ∧
      (∀ q ∈ before, ∀ kind, q.address kind ≠ p.address kind) ∧
      ∀ q ∈ after, q.alive = true → q.slot ≠ p.slot := by
  obtain ⟨before, after, whole⟩ := List.append_of_mem member
  have apart := inv.apart
  rw [whole] at apart
  obtain ⟨-, late, between⟩ := List.pairwise_append.mp apart
  have newer := fun q inBefore => between q inBefore p List.mem_cons_self alive
  refine ⟨before, after, whole, ?_, fun q inBefore => (newer q inBefore).2, ?_⟩
  · rintro q inBefore ⟨isAlive, same⟩
    exact (newer q inBefore).1 isAlive same
  · intro q inAfter isAlive same
    exact ((List.pairwise_cons.mp late).1 q inAfter isAlive).1 alive same.symm

/-- A step that leaves identifiers and holdings, and runs processes that are alive. -/
theorem Inv.retable (inv : s.Inv) {k : Kernel} {cr3 : Nat} {cpu : Option Nat}
    (pids : ∀ i, (k.table i).pid = (s.kernel.table i).pid)
    (holds : ∀ i, (k.table i).holds = (s.kernel.table i).holds)
    (held : ∀ i < procMax, (k.table i).state ≠ .empty → ∃ p ∈ s.processes, p.alive = true ∧ p.slot = i)
    (living : ∀ i < procMax, (k.table i).state ≠ .dead)
    (runs : ∀ i < procMax, (k.table i).state = .running ↔ cpu = some i)
    (loaded : ∀ i, cpu = some i → i < procMax ∧ cr3 = (k.table i).cr3) : Inv ⟨k, cr3, cpu, s.processes⟩ where
  bySlot i inside := by
    rw [pids]
    exact inv.bySlot i inside
  fills p member alive := by
    obtain ⟨inside, pid, holdsOwn, real, kept⟩ := inv.fills p member alive
    exact ⟨inside, (pids p.slot).trans pid, (holds p.slot).trans holdsOwn, real, kept⟩
  once := inv.once
  apart := inv.apart
  held := held
  living := living
  runs := runs
  loaded := loaded

/-- A step that changes neither identifiers nor holdings nor states. -/
theorem Inv.same (inv : s.Inv) {k : Kernel} (pids : ∀ i, (k.table i).pid = (s.kernel.table i).pid)
    (holds : ∀ i, (k.table i).holds = (s.kernel.table i).holds)
    (states : ∀ i, (k.table i).state = (s.kernel.table i).state) : Inv { s with kernel := k } := by
  refine inv.retable pids holds ?_ ?_ ?_ ?_
  · intro i inside nonempty
    rw [states] at nonempty
    exact inv.held i inside nonempty
  · intro i inside
    rw [states]
    exact inv.living i inside
  · intro i inside
    rw [states]
    exact inv.runs i inside
  · intro i isCpu
    obtain ⟨inside, cr3⟩ := inv.loaded i isCpu
    exact ⟨inside, cr3.trans (congrFun (holds i) .space).symm⟩

theorem inv_start (kernel_cr3 : Nat) : (start kernel_cr3).Inv where
  bySlot _ _ := .inl rfl
  fills _ member := absurd member List.not_mem_nil
  once _ member := absurd member List.not_mem_nil
  apart := List.Pairwise.nil
  held _ _ nonempty := absurd rfl nonempty
  living _ _ dead := by cases dead
  runs _ _ := ⟨(fun running => by cases running), (fun isCpu => by cases isCpu)⟩
  loaded _ isCpu := by cases isCpu

/-- The process that has the processor is the one running. -/
theorem Inv.current (inv : s.Inv) : processCurrentPcb s.kernel = s.cpu := by
  cases current : processCurrentPcb s.kernel with
  | none =>
      cases isCpu : s.cpu with
      | none => rfl
      | some me =>
          have inside := (inv.loaded me isCpu).1
          have idle := of_decide_eq_false (findPcb_none current inside)
          exact absurd ((inv.runs me inside).mpr isCpu) idle
  | some i => exact ((inv.runs i (findPcb_lt current)).mp (of_decide_eq_true (findPcb_test current))).symm

/-! ### Creating -/

theorem createIn_eq {k : Kernel} {r : Resources} {i cr3 kstack_base : Nat}
    (found : (findPcb k.table fun t => t.state = .empty) = some i) (space : r.cr3 = some cr3)
    (stack : r.kstack = some kstack_base) (entry : Nat) (name : List UInt8) :
    createIn k r entry name = some (i, k.setPcb i (newPcb i entry name cr3 kstack_base r.vmas)) := by
  unfold createIn
  rw [found, space, stack]

/-- With at most 62 processes alive a slot is empty. -/
theorem Inv.room (inv : s.Inv) (few : s.living + 1 ≤ 63) :
    ∃ i, (findPcb s.kernel.table fun t => t.state = .empty) = some i := by
  refine Option.ne_none_iff_exists'.mp fun full => ?_
  have slots : List.range procMax ⊆ (s.processes.filter (·.alive)).map Holding.slot := by
    intro i member
    have nonempty := of_decide_eq_false (findPcb_none full (List.mem_range.mp member))
    obtain ⟨p, isProcess, alive, slot⟩ := inv.held i (List.mem_range.mp member) nonempty
    exact List.mem_map.mpr ⟨p, List.mem_filter.mpr ⟨isProcess, alive⟩, slot⟩
  have fits := (List.subperm_of_subset List.nodup_range slots).length_le
  rw [List.length_range, List.length_map, ← List.countP_eq_length_filter] at fits
  have many : procMax ≤ s.living := fits
  unfold procMax at many
  omega

theorem Inv.create_works (inv : s.Inv) {r : Resources} {entry : Nat} {name : List UInt8}
    (cycle : s.InCycle (.create r entry name)) : createIn s.kernel r entry name ≠ none := by
  obtain ⟨few, granted⟩ := cycle
  obtain ⟨i, found⟩ := inv.room few
  obtain ⟨cr3, space, -⟩ := granted .space
  obtain ⟨kstack_base, stack, -⟩ := granted .stack
  rw [createIn_eq found space stack]
  exact Option.some_ne_none _

theorem Inv.create (inv : s.Inv) {r : Resources} {entry : Nat} {name : List UInt8}
    (cycle : s.InCycle (.create r entry name)) (apart : s.Apart (.create r entry name)) (kernel_cr3 : Nat) :
    (s.step kernel_cr3 (.create r entry name)).Inv := by
  obtain ⟨few, granted⟩ := cycle
  obtain ⟨i, found⟩ := inv.room few
  have vacant := apart i found
  have inside := findPcb_lt found
  have empty : (s.kernel.table i).state = .empty := of_decide_eq_true (findPcb_test found)
  obtain ⟨cr3, space, -⟩ := granted .space
  obtain ⟨kstack_base, stack, -⟩ := granted .stack
  simp only [Recycling.step, createIn_eq found space stack]
  have table : ∀ j, j ≠ i →
      (s.kernel.setPcb i (newPcb i entry name cr3 kstack_base r.vmas)).table j = s.kernel.table j :=
    fun j ne => setPcb_table_of_ne _ _ _ ne
  have notCpu : ∀ j, s.cpu = some j → j ≠ i := by
    rintro j isCpu rfl
    have running := (inv.runs j inside).mpr isCpu
    rw [empty] at running
    cases running
  refine ⟨inv.bySlot.setPcb (.inr rfl), ?_, ?_, ?_, ?_, ?_, ?_, ?_⟩
  · intro p member alive
    rcases List.mem_cons.mp member with rfl | old
    · refine ⟨inside, ?_, ?_, ?_, fun _ => rfl⟩
      · exact congrArg Pcb.pid (setPcb_table_self _ _ _)
      · refine (congrArg Pcb.holds (setPcb_table_self _ _ _)).trans (funext fun kind => ?_)
        cases kind with
        | space => exact (congrArg (Option.getD · 0) space).symm
        | stack => exact (congrArg (Option.getD · 0) stack).symm
        | vmas => rfl
      · intro kind
        obtain ⟨address, isGranted, real, -⟩ := granted kind
        show (r.granted kind).getD 0 ≠ 0
        rw [isGranted]
        exact real
    · obtain ⟨inside', pid, holds, real, kept⟩ := inv.fills p old alive
      have other := table p.slot (vacant p old alive)
      exact ⟨inside', (congrArg Pcb.pid other).trans pid, (congrArg Pcb.holds other).trans holds, real, kept⟩
  · intro p member gone
    rcases List.mem_cons.mp member with rfl | old
    · cases gone
    · exact inv.once p old gone
  · refine List.pairwise_cons.mpr ⟨?_, inv.apart⟩
    intro older member alive
    refine ⟨fun _ => (vacant older member alive).symm, fun kind same => ?_⟩
    obtain ⟨address, isGranted, -, unheld⟩ := granted kind
    have given : (r.granted kind).getD 0 = older.address kind := same
    rw [isGranted] at given
    exact unheld older member given.symm ((inv.fills older member alive).kept kind)
  · intro j inside' nonempty
    by_cases same : j = i
    · subst same
      exact absurd (congrArg Pcb.state (setPcb_table_self _ _ _)) nonempty
    · rw [table j same] at nonempty
      obtain ⟨p, member, alive, slot⟩ := inv.held j inside' nonempty
      exact ⟨p, List.mem_cons_of_mem _ member, alive, slot⟩
  · intro j inside'
    by_cases same : j = i
    · subst same
      rw [setPcb_table_self]
      exact fun dead => by cases dead
    · rw [table j same]
      exact inv.living j inside'
  · intro j inside'
    by_cases same : j = i
    · subst same
      rw [setPcb_table_self]
      exact ⟨(fun running => by cases running), fun isCpu => absurd rfl (notCpu j isCpu)⟩
    · rw [table j same]
      exact inv.runs j inside'
  · intro j isCpu
    obtain ⟨inside', loaded⟩ := inv.loaded j isCpu
    refine ⟨inside', loaded.trans ?_⟩
    rw [table j (notCpu j isCpu)]

/-! ### Running -/

theorem Inv.run (inv : s.Inv) {pid : Nat} (cycle : s.InCycle (.run pid)) (apart : s.Apart (.run pid))
    (kernel_cr3 : Nat) : (s.step kernel_cr3 (.run pid)).Inv := by
  obtain ⟨p, member, alive, rfl⟩ := cycle
  obtain ⟨inside, named, -, -, -⟩ := inv.fills p member alive
  have found := inv.bySlot.pcbOfPid inside named
  have started : processRun s.kernel (p.slot + 1) = s.kernel.setState p.slot .running := by
    unfold processRun
    rw [found]
  have idle : ∀ i < procMax, (s.kernel.table i).state ≠ .running := fun i inside =>
    of_decide_eq_false (findPcb_none apart inside)
  simp only [Recycling.step, found, started]
  refine inv.retable (setState_pid _ _ _) (setState_holds _ _ _) ?_ ?_ ?_ ?_
  · intro i inside' nonempty
    by_cases same : i = p.slot
    · exact ⟨p, member, alive, same.symm⟩
    · rw [setState_table_of_ne _ _ _ same] at nonempty
      exact inv.held i inside' nonempty
  · intro i inside'
    by_cases same : i = p.slot
    · rw [same, setState_state_self]
      exact fun dead => by cases dead
    · rw [setState_table_of_ne _ _ _ same]
      exact inv.living i inside'
  · intro i inside'
    by_cases same : i = p.slot
    · rw [same, setState_state_self]
      exact ⟨fun _ => rfl, fun _ => rfl⟩
    · rw [setState_table_of_ne _ _ _ same]
      exact ⟨fun running => absurd running (idle i inside'), fun isCpu => absurd (Option.some.inj isCpu).symm same⟩
  · intro i isCpu
    cases isCpu
    refine ⟨inside, ?_⟩
    exact (congrFun (setState_holds _ _ _ p.slot) .space).symm

theorem nextReady_congr {table table' : Table} (states : ∀ i, (table i).state = (table' i).state) (start : Nat) :
    nextReady table start = nextReady table' start := by
  unfold nextReady
  simp only [states]

theorem nextReady_ready {table : Table} {start i : Nat} (found : nextReady table start = some i) :
    i < procMax ∧ (table i).state = .ready := by
  unfold nextReady at found
  have ready : decide ((table i).state = .ready) = true :=
    List.find?_some (p := fun i => decide ((table i).state = .ready)) found
  obtain ⟨j, -, rfl⟩ := List.mem_map.mp (List.mem_of_find?_eq_some found)
  exact ⟨Nat.mod_lt _ (by decide), of_decide_eq_true ready⟩

/-- What `timer_isr` does to a slot. -/
structure Ticked (s : Recycling) (table : Table) (i : Nat) : Prop where
  pid : (table i).pid = (s.kernel.table i).pid
  holds : (table i).holds = (s.kernel.table i).holds
  state : (table i).state =
    if timerPick s.kernel = some i then .running
    else if s.cpu = some i then .ready else (s.kernel.table i).state

/-- The process `timer_isr` takes the processor from, as it is saved. -/
theorem Inv.saved (inv : s.Inv) {cur : Nat} (isCpu : s.cpu = some cur) (rsp i : Nat) :
    let saved := s.kernel.setPcb cur { s.kernel.table cur with kstack := rsp, cr3 := s.cr3, state := .ready }
    (saved.table i).pid = (s.kernel.table i).pid ∧ (saved.table i).holds = (s.kernel.table i).holds ∧
      (saved.table i).state = ((s.kernel.setState cur .ready).table i).state := by
  dsimp only
  by_cases same : i = cur
  · subst same
    rw [setPcb_table_self, setState_state_self, (inv.loaded i isCpu).2]
    exact ⟨rfl, rfl, rfl⟩
  · rw [setPcb_table_of_ne _ _ _ same, setState_table_of_ne _ _ _ same]
    exact ⟨rfl, rfl, rfl⟩

/-- The timer makes the process it goes on with running, and the one it takes the processor from ready. -/
theorem Inv.ticked (inv : s.Inv) (rsp i : Nat) : Ticked s (timerIsr s.kernel rsp s.cr3).table i := by
  have current : processCurrentPcb { s.kernel with pit_ticks := Machine.u64 (s.kernel.pit_ticks + 1) } = s.cpu :=
    inv.current
  have started : ∀ (k : Kernel) (next : Nat), (k.table i).pid = (s.kernel.table i).pid →
      (k.table i).holds = (s.kernel.table i).holds → timerPick s.kernel = some next →
      (i ≠ next → (k.table i).state = if s.cpu = some i then .ready else (s.kernel.table i).state) →
      Ticked s (k.setState next .running).table i := by
    intro k next pid holds pick others
    refine ⟨(setState_pid _ _ _ i).trans pid, (setState_holds _ _ _ i).trans holds, ?_⟩
    rw [pick]
    by_cases same : i = next
    · rw [same, setState_state_self, if_pos rfl]
    · rw [setState_table_of_ne _ _ _ same, others same, if_neg fun equal => same (Option.some.inj equal).symm]
  unfold timerIsr
  dsimp only
  rw [current]
  cases isCpu : s.cpu with
  | none =>
      have pick : timerPick s.kernel = nextReady s.kernel.table 0 := by
        unfold timerPick
        rw [inv.current, isCpu]
      dsimp only
      cases found : nextReady s.kernel.table 0 with
      | none =>
          refine ⟨rfl, rfl, ?_⟩
          rw [pick, found, isCpu]
          rfl
      | some next =>
          refine started s.kernel next rfl rfl (pick.trans found) fun _ => ?_
          rw [isCpu]
          rfl
  | some cur =>
      obtain ⟨pid, holds, state⟩ := inv.saved isCpu rsp i
      have others : ((s.kernel.setState cur .ready).table i).state =
          if s.cpu = some i then .ready else (s.kernel.table i).state := by
        rw [isCpu]
        by_cases same : i = cur
        · rw [same, setState_state_self, if_pos rfl]
        · rw [setState_table_of_ne _ _ _ same, if_neg fun equal => same (Option.some.inj equal).symm]
      have sameSearch := nextReady_congr (fun j => (inv.saved isCpu rsp j).2.2) (cur + 1)
      have pick : timerPick s.kernel = some ((nextReady (s.kernel.setState cur .ready).table (cur + 1)).getD cur) := by
        unfold timerPick
        rw [inv.current, isCpu]
      rw [← sameSearch] at pick
      dsimp only
      split
      · rename_i next found
        refine started _ next pid holds ?_ fun _ => state.trans others
        rw [pick]
        exact congrArg (fun found => some (Option.getD found cur)) found
      · rename_i found
        refine started _ cur pid holds ?_ fun _ => state.trans others
        rw [pick]
        exact congrArg (fun found => some (Option.getD found cur)) found

/-- The timer goes on with a process, when one runs or is ready. -/
theorem Inv.pick (inv : s.Inv) : (timerPick s.kernel = none → s.cpu = none) ∧
    ∀ i, timerPick s.kernel = some i → i < procMax ∧ (s.kernel.table i).state ≠ .empty := by
  have notEmpty : ∀ {i : Nat} {state : PState}, state ≠ .empty → (s.kernel.table i).state = state →
      (s.kernel.table i).state ≠ .empty := by
    rintro i state different rfl
    exact different
  unfold timerPick
  rw [inv.current]
  cases isCpu : s.cpu with
  | none =>
      refine ⟨fun _ => rfl, fun i found => ?_⟩
      obtain ⟨inside, ready⟩ := nextReady_ready found
      exact ⟨inside, notEmpty (by decide) ready⟩
  | some cur =>
      have inside := (inv.loaded cur isCpu).1
      have running := (inv.runs cur inside).mpr isCpu
      refine ⟨(fun none => by cases none), fun i pick => ?_⟩
      dsimp only at pick
      cases found : nextReady (s.kernel.setState cur .ready).table (cur + 1) with
      | none =>
          rw [found] at pick
          cases pick
          exact ⟨inside, notEmpty (by decide) running⟩
      | some next =>
          rw [found] at pick
          cases pick
          obtain ⟨inside', ready⟩ := nextReady_ready found
          by_cases same : next = cur
          · rw [same]
            exact ⟨inside, notEmpty (by decide) running⟩
          · rw [setState_table_of_ne _ _ _ same] at ready
            exact ⟨inside', notEmpty (by decide) ready⟩

theorem Inv.tick (inv : s.Inv) (rsp kernel_cr3 : Nat) : (s.step kernel_cr3 (.tick rsp)).Inv := by
  have ticked := inv.ticked rsp
  obtain ⟨idle, goesOn⟩ := inv.pick
  simp only [Recycling.step]
  cases pick : timerPick s.kernel with
  | none =>
      refine inv.same (fun i => (ticked i).pid) (fun i => (ticked i).holds) fun i => ?_
      rw [(ticked i).state, pick, idle pick]
      rfl
  | some next =>
      obtain ⟨inside, nonempty⟩ := goesOn next pick
      obtain ⟨p, member, alive, slot⟩ := inv.held next inside nonempty
      have states := fun i => (ticked i).state
      rw [pick] at states
      dsimp only
      refine inv.retable (fun i => (ticked i).pid) (fun i => (ticked i).holds) ?_ ?_ ?_ ?_
      · intro i inside' nonempty'
        by_cases isNext : some next = some i
        · cases isNext
          exact ⟨p, member, alive, slot⟩
        · rw [states, if_neg isNext] at nonempty'
          refine inv.held i inside' fun isEmpty => nonempty' ?_
          rw [isEmpty, if_neg]
          intro isCpu
          have running := (inv.runs i inside').mpr isCpu
          rw [isEmpty] at running
          cases running
      · intro i inside'
        rw [states]
        split_ifs
        · exact fun dead => by cases dead
        · exact fun dead => by cases dead
        · exact inv.living i inside'
      · intro i inside'
        rw [states]
        split_ifs with isNext isCpu
        · exact ⟨fun _ => isNext, fun _ => rfl⟩
        · exact ⟨(fun ready => by cases ready), fun equal => absurd equal isNext⟩
        · exact ⟨fun running => absurd ((inv.runs i inside').mp running) isCpu, fun equal => absurd equal isNext⟩
      · intro i isNext
        cases isNext
        have real := (inv.fills p member alive).real .space
        have kept : ((timerIsr s.kernel rsp s.cr3).table next).cr3 = (s.kernel.table next).cr3 :=
          congrFun (ticked next).holds .space
        have own : (s.kernel.table next).cr3 = p.address .space := by
          rw [← slot]
          exact congrFun (inv.fills p member alive).holds .space
        refine ⟨inside, if_neg ?_⟩
        rw [kept, own]
        exact real

/-! ### Ending -/

/-- A process gets its own address back to the allocator. -/
theorem Fills.giveBack {k : Kernel} {p q : Holding} (fills : Fills k p) {before : List Holding}
    (others : ∀ r ∈ before, ∀ kind, r.address kind ≠ p.address kind) (same : q.address = p.address) (kind : Kind)
    (after : List Holding) :
    giveBackHeld kind ((k.table p.slot).holds kind) (before ++ q :: after) = before ++ q.giveBack kind :: after := by
  rw [fills.holds]
  exact giveBackHeld_split (fun r early => others r early kind) (congrFun same kind) (fills.real kind)

/-- The processes once all a process had was returned and it is gone. -/
theorem Inv.destroyed (inv : s.Inv) {me : Nat} {p : Holding} (member : p ∈ s.processes) (alive : p.alive = true)
    (slot : p.slot = me) : ∃ before after, s.processes = before ++ p :: after ∧
      (∀ q ∈ before ++ after, q.alive = true → q.slot ≠ me) ∧
      leaveSlot me (s.destroyed me) = before ++ p.cleared :: after := by
  subst slot
  obtain ⟨before, after, whole, notSlot, others, later⟩ := inv.split member alive
  have fills := inv.fills p member alive
  refine ⟨before, after, whole, ?_, ?_⟩
  · intro q inRest isAlive
    rcases List.mem_append.mp inRest with early | late
    · exact fun same => notSlot q early ⟨isAlive, same⟩
    · exact later q late isAlive
  have own : (((p.giveBack .vmas).giveBack .space).giveBack .stack).alive = true ∧
      (((p.giveBack .vmas).giveBack .space).giveBack .stack).slot = p.slot := ⟨alive, rfl⟩
  show leaveSlot p.slot (giveBackHeld .stack ((s.kernel.table p.slot).holds .stack)
    (giveBackHeld .space ((s.kernel.table p.slot).holds .space)
      (giveBackHeld .vmas ((s.kernel.table p.slot).holds .vmas) s.processes))) = _
  rw [whole, fills.giveBack (q := p) others rfl .vmas, fills.giveBack (q := p.giveBack .vmas) others rfl .space,
    fills.giveBack (q := (p.giveBack .vmas).giveBack .space) others rfl .stack, leaveSlot_split notSlot own]
  have all : (((p.giveBack .vmas).giveBack .space).giveBack .stack).returned = fun _ => 1 := by
    funext kind
    have none := fills.kept kind
    cases kind <;> simp [Holding.giveBack, none]
  unfold Holding.leave Holding.cleared
  rw [all]
  rfl

/-- A process ends by `sys_exit_group`. -/
theorem Inv.exitGroup (inv : s.Inv) (kernel_cr3 : Nat) : (s.step kernel_cr3 .exitGroup).Inv := by
  simp only [Recycling.step]
  cases isCpu : s.cpu with
  | none => exact inv
  | some me =>
      have inside := (inv.loaded me isCpu).1
      have running := (inv.runs me inside).mpr isCpu
      have nonempty : (s.kernel.table me).state ≠ .empty := by
        rw [running]
        decide
      obtain ⟨p, member, alive, slot⟩ := inv.held me inside nonempty
      obtain ⟨before, after, whole, others, cleared⟩ := inv.destroyed member alive slot
      have group : sysExitGroup s.kernel = processDestroy s.kernel me := by
        unfold sysExitGroup
        rw [inv.current, isCpu]
      rw [inv.current, isCpu]
      dsimp only
      rw [group, cleared]
      have table : ∀ i, i ≠ me → (processDestroy s.kernel me).table i = s.kernel.table i := fun i ne =>
        setPcb_table_of_ne _ _ _ ne
      have here : ((processDestroy s.kernel me).table me).state = .empty :=
        congrArg Pcb.state (setPcb_table_self _ _ _)
      have back : ∀ q ∈ before ++ p.cleared :: after, q ≠ p.cleared → q ∈ before ++ after ∧ q ∈ s.processes := by
        intro q inList different
        rw [whole]
        rcases List.mem_append.mp inList with early | late
        · exact ⟨List.mem_append_left _ early, List.mem_append_left _ early⟩
        · have later := (List.mem_cons.mp late).resolve_left different
          exact ⟨List.mem_append_right _ later, List.mem_append_right _ (List.mem_cons_of_mem _ later)⟩
      have apart := inv.apart
      rw [whole] at apart
      refine ⟨inv.bySlot.setPcb (.inl rfl), ?_, ?_, newer_replace apart rfl rfl, ?_, ?_, ?_, ?_⟩
      · intro q inList isAlive
        obtain ⟨inRest, isOld⟩ := back q inList (by rintro rfl; cases isAlive)
        obtain ⟨inside', pid, holds, real, kept⟩ := inv.fills q isOld isAlive
        have other := table q.slot (others q inRest isAlive)
        exact ⟨inside', (congrArg Pcb.pid other).trans pid, (congrArg Pcb.holds other).trans holds, real, kept⟩
      · intro q inList gone kind
        by_cases isP : q = p.cleared
        · rw [isP]
          rfl
        · exact inv.once q (back q inList isP).2 gone kind
      · intro i inside' nonempty'
        have other : i ≠ me := by
          rintro rfl
          exact nonempty' here
        rw [table i other] at nonempty'
        obtain ⟨q, isOld, isAlive, slot'⟩ := inv.held i inside' nonempty'
        rw [whole] at isOld
        refine ⟨q, ?_, isAlive, slot'⟩
        rcases List.mem_append.mp isOld with early | late
        · exact List.mem_append_left _ early
        · refine List.mem_append_right _ (List.mem_cons_of_mem _ ((List.mem_cons.mp late).resolve_left ?_))
          rintro rfl
          exact other (slot'.symm.trans slot)
      · intro i inside'
        by_cases same : i = me
        · rw [same, here]
          exact fun dead => by cases dead
        · rw [table i same]
          exact inv.living i inside'
      · intro i inside'
        by_cases same : i = me
        · rw [same, here]
          exact ⟨(fun run => by cases run), (fun none => by cases none)⟩
        · rw [table i same, inv.runs i inside', isCpu]
          exact ⟨fun equal => absurd (Option.some.inj equal).symm same, (fun none => by cases none)⟩
      · intro i none
        cases none

/-! ### The other endings -/

/-- A process that is killed is gone with its VMA table. -/
theorem Inv.killed (inv : s.Inv) {me : Nat} {p : Holding} (member : p ∈ s.processes) (alive : p.alive = true)
    (slot : p.slot = me) : ∃ q ∈ leaveSlot me s.processes, q.alive = false ∧ q.returned .vmas = 0 := by
  subst slot
  obtain ⟨before, after, whole, notSlot, -, -⟩ := inv.split member alive
  rw [whole, leaveSlot_split notSlot ⟨alive, rfl⟩]
  exact ⟨p.leave, List.mem_append_right _ List.mem_cons_self, rfl, (inv.fills p member alive).kept .vmas⟩

/-- `scheduler_exit` does not return the VMA table. -/
theorem Inv.exited (inv : s.Inv) {me : Nat} {p : Holding} (member : p ∈ s.processes) (alive : p.alive = true)
    (slot : p.slot = me) : ∃ q ∈ leaveSlot me (s.exited me), q.alive = false ∧ q.returned .vmas = 0 := by
  subst slot
  obtain ⟨before, after, whole, notSlot, others, -⟩ := inv.split member alive
  have fills := inv.fills p member alive
  have real : (s.kernel.table p.slot).kbase ≠ 0 := by
    have own := fills.real .stack
    rw [← fills.holds] at own
    exact own
  have returned : s.exited p.slot = giveBackHeld .stack ((s.kernel.table p.slot).holds .stack)
      (giveBackHeld .space ((s.kernel.table p.slot).holds .space) s.processes) := (if_neg real).symm
  have own : ((p.giveBack .space).giveBack .stack).alive = true ∧
      ((p.giveBack .space).giveBack .stack).slot = p.slot := ⟨alive, rfl⟩
  rw [returned, whole, fills.giveBack (q := p) others rfl .space,
    fills.giveBack (q := p.giveBack .space) others rfl .stack, leaveSlot_split notSlot own]
  refine ⟨((p.giveBack .space).giveBack .stack).leave, List.mem_append_right _ List.mem_cons_self, rfl, ?_⟩
  have kept := fills.kept .vmas
  simp [Holding.giveBack, Holding.leave, kept]

/-! ### Signals -/

theorem sysSignal_table (k : Kernel) (signum handler : Nat) : (sysSignal k signum handler).table = k.table := by
  unfold sysSignal
  split_ifs
  · rfl
  · split
    · rfl
    · dsimp only
      split_ifs <;> rfl

/-- Only `SIGKILL` changes the process table. -/
theorem sysKill_table {k : Kernel} {pid signum : Nat}
    (harmless : signum = sigkill → pid = 0 ∨ killTarget k pid = none) : (sysKill k pid signum).2.table = k.table := by
  unfold sysKill
  rw [findPcb_killTarget]
  cases target : killTarget k pid with
  | none => split_ifs <;> rfl
  | some i =>
      dsimp only
      split_ifs with large noPid test isKill
      · rfl
      · rfl
      · rfl
      · rcases harmless isKill with none | none
        · exact absurd none noPid
        · rw [target] at none
          cases none
      · rfl

theorem sysKill_kills {k : Kernel} {pid i : Nat} (named : pid ≠ 0) (target : killTarget k pid = some i) :
    (sysKill k pid sigkill).2 = k.setState i .dead := by
  unfold sysKill
  rw [findPcb_killTarget, target, if_neg (by decide), if_neg named]
  rfl

theorem killTarget_spec {k : Kernel} {pid i : Nat} (target : killTarget k pid = some i) :
    i < procMax ∧ (k.table i).state ≠ .empty ∧ (k.table i).state ≠ .dead := by
  obtain ⟨nonempty, living, -⟩ := of_decide_eq_true (findPcb_test target)
  exact ⟨findPcb_lt target, nonempty, living⟩

theorem actOn_holds (idx i : Nat) (k : Kernel) (entry : Nat × Nat) (j : Nat) :
    ((actOn idx i k entry).table j).holds = (k.table j).holds := by
  unfold actOn
  dsimp only
  split_ifs
  · rfl
  · exact setState_holds _ _ _ j
  · rfl
  · by_cases same : j = i
    · subst same
      rw [setPcb_table_self]
      funext kind
      unfold Pcb.holds
      cases kind <;> rfl
    · rw [setPcb_table_of_ne _ _ _ same]
      rfl

/-- What is not fatal leaves the states. -/
theorem actOn_state (idx i : Nat) (k : Kernel) {entry : Nat × Nat} (harmless : ¬Fatal entry) (j : Nat) :
    ((actOn idx i k entry).table j).state = (k.table j).state := by
  unfold actOn
  dsimp only
  split_ifs with default kept
  · rfl
  · exact absurd ⟨default, kept⟩ harmless
  · rfl
  · by_cases same : j = i
    · subst same
      rw [setPcb_table_self]
      rfl
    · rw [setPcb_table_of_ne _ _ _ same]
      rfl

/-- A dead process stays dead. -/
theorem actOn_dead (idx i : Nat) (k : Kernel) (entry : Nat × Nat) :
    Fatal entry ∨ (k.table i).state = .dead → ((actOn idx i k entry).table i).state = .dead := by
  intro dead
  by_cases fatal : Fatal entry
  · obtain ⟨default, kept⟩ := fatal
    unfold actOn
    dsimp only
    rw [if_pos default, if_neg kept]
    exact setState_state_self _ _ _
  · rw [actOn_state idx i k fatal]
    exact dead.resolve_left fatal

theorem foldl_actOn_dead (idx i : Nat) (log : List (Nat × Nat)) (k : Kernel) :
    (∃ entry ∈ log, Fatal entry) ∨ (k.table i).state = .dead → ((log.foldl (actOn idx i) k).table i).state = .dead := by
  induction log generalizing k with
  | nil =>
      rintro (⟨entry, member, -⟩ | dead)
      · exact absurd member List.not_mem_nil
      · exact dead
  | cons entry log ih =>
      rintro (⟨other, member, fatal⟩ | dead)
      · rcases List.mem_cons.mp member with rfl | later
        · exact ih _ (.inr (actOn_dead idx i k _ (.inl fatal)))
        · exact ih _ (.inl ⟨other, later, fatal⟩)
      · exact ih _ (.inr (actOn_dead idx i k entry (.inr dead)))

theorem foldl_actOn_harmless (idx i : Nat) {log : List (Nat × Nat)} (harmless : ∀ entry ∈ log, ¬Fatal entry)
    (k : Kernel) (j : Nat) : ((log.foldl (actOn idx i) k).table j).state = (k.table j).state := by
  induction log generalizing k with
  | nil => rfl
  | cons entry log ih =>
      rw [List.foldl_cons, ih fun other member => harmless other (List.mem_cons_of_mem entry member)]
      exact actOn_state idx i k (harmless entry List.mem_cons_self) j

theorem foldl_actOn_kept (idx i : Nat) (log : List (Nat × Nat)) (k : Kernel) (j : Nat) :
    ((log.foldl (actOn idx i) k).table j).pid = (k.table j).pid ∧
      ((log.foldl (actOn idx i) k).table j).holds = (k.table j).holds := by
  induction log generalizing k with
  | nil => exact ⟨rfl, rfl⟩
  | cons entry log ih =>
      obtain ⟨pid, holds⟩ := ih (actOn idx i k entry)
      exact ⟨pid.trans (actOn_pid idx i k entry j), holds.trans (actOn_holds idx i k entry j)⟩

/-! ### One step -/

theorem Inv.step (inv : s.Inv) {op : CycleOp} (cycle : s.InCycle op) (apart : s.Apart op) (group : s.EndsByGroup op)
    (kernel_cr3 : Nat) : (s.step kernel_cr3 op).Inv := by
  cases op with
  | create r entry name => exact inv.create cycle apart kernel_cr3
  | run pid => exact inv.run cycle apart kernel_cr3
  | tick rsp => exact inv.tick rsp kernel_cr3
  | exit =>
      have idle : s.cpu = none := group
      simp only [Recycling.step, idle]
      exact inv
  | exitGroup => exact inv.exitGroup kernel_cr3
  | kill pid signum =>
      have table := sysKill_table group
      have same : Inv { s with kernel := (sysKill s.kernel pid signum).2 } :=
        inv.same (fun i => by rw [table]) (fun i => by rw [table]) (fun i => by rw [table])
      simp only [Recycling.step]
      cases target : killTarget s.kernel pid with
      | none => exact same
      | some i =>
          dsimp only
          rw [if_neg]
          · exact same
          · rw [table]
            exact (killTarget_spec target).2.2
  | signal signum handler =>
      have table := sysSignal_table s.kernel signum handler
      exact inv.same (fun i => by rw [table]) (fun i => by rw [table]) (fun i => by rw [table])
  | deliver i =>
      have kept := foldl_actOn_kept ((s.kernel.table i).pid - 1) i (deliveredAt s.kernel i) s.kernel
      have states := foldl_actOn_harmless ((s.kernel.table i).pid - 1) i group s.kernel
      rw [← signalDeliver_eq] at kept states
      simp only [Recycling.step]
      rw [if_neg]
      · exact inv.same (fun j => (kept j).1) (fun j => (kept j).2) states
      · rw [states]
        exact inv.living i i.isLt

/-- A process that is gone with its VMA table was not recycled. -/
theorem not_recycles {kernel_cr3 : Nat} {op : CycleOp}
    (lost : ∃ q ∈ (s.step kernel_cr3 op).processes, q.alive = false ∧ q.returned .vmas = 0) :
    ¬s.Recycles kernel_cr3 op := by
  rintro ⟨-, once⟩
  obtain ⟨q, member, gone, none⟩ := lost
  have one := once q member gone .vmas
  rw [none] at one
  cases one

theorem Inv.not_recycles (inv : s.Inv) {op : CycleOp} (cycle : s.InCycle op) (other : ¬s.EndsByGroup op)
    (kernel_cr3 : Nat) : ¬s.Recycles kernel_cr3 op := by
  refine Recycling.not_recycles ?_
  cases op with
  | exit =>
      cases isCpu : s.cpu with
      | none => exact absurd isCpu other
      | some me =>
          have inside := (inv.loaded me isCpu).1
          obtain ⟨p, member, alive, slot⟩ := inv.held me inside (by
            rw [(inv.runs me inside).mpr isCpu]
            decide)
          simp only [Recycling.step, isCpu, inv.current]
          exact inv.exited member alive slot
  | kill pid signum =>
      simp only [EndsByGroup, Classical.not_imp, not_or] at other
      obtain ⟨rfl, named, hasTarget⟩ := other
      obtain ⟨i, target⟩ := Option.ne_none_iff_exists'.mp hasTarget
      obtain ⟨inside, nonempty, -⟩ := killTarget_spec target
      obtain ⟨p, member, alive, slot⟩ := inv.held i inside nonempty
      simp only [Recycling.step, target, sysKill_kills named target, setState_state_self, if_true]
      exact inv.killed member alive slot
  | deliver i =>
      obtain ⟨p, member, alive, slot⟩ := cycle
      have fatal : ∃ entry ∈ deliveredAt s.kernel i, Fatal entry := by
        by_contra none
        exact other fun entry isEntry fatal => none ⟨entry, isEntry, fatal⟩
      have dead := foldl_actOn_dead ((s.kernel.table i).pid - 1) i (deliveredAt s.kernel i) s.kernel (.inl fatal)
      rw [← signalDeliver_eq] at dead
      simp only [Recycling.step, dead, if_true]
      exact inv.killed member alive slot
  | _ => exact absurd trivial other

theorem Inv.recycles_step_iff (inv : s.Inv) {op : CycleOp} (cycle : s.InCycle op) (apart : s.Apart op)
    (kernel_cr3 : Nat) : s.Recycles kernel_cr3 op ↔ s.EndsByGroup op := by
  constructor
  · intro recycles
    by_contra other
    exact inv.not_recycles cycle other kernel_cr3 recycles
  · refine fun group => ⟨?_, (inv.step cycle apart group kernel_cr3).once⟩
    rintro r entry name rfl
    exact inv.create_works cycle

/-! ### Runs -/

/-- In a run in which a process is created in a slot of its own, and run when no process is running, processes
are recycled exactly when none ends but by `sys_exit_group`. -/
theorem recycles_iff (kernel_cr3 : Nat) (ops : List CycleOp)
    (allowed : Meets (step · kernel_cr3) (fun s op => s.InCycle op ∧ s.Apart op) (start kernel_cr3) ops) :
    Meets (step · kernel_cr3) (Recycles · kernel_cr3) (start kernel_cr3) ops ↔
      Meets (step · kernel_cr3) EndsByGroup (start kernel_cr3) ops :=
  meets_iff (I := Inv) (fun _ _ inv allowed => Inv.recycles_step_iff inv allowed.1 allowed.2 kernel_cr3)
    (fun _ _ inv allowed group => Inv.step inv allowed.1 allowed.2 group kernel_cr3) (inv_start kernel_cr3) allowed

/-- A process is created, run and ends; then the next one is created. -/
def twoCycles : List CycleOp :=
  [.create someMemory 0x400000 [], .run 1, .exitGroup, .create someMemory 0x500000 []]

/-- Memory is there for the first process of a run, and again once all processes are gone. -/
theorem inCycle_someMemory {s : Recycling} (few : s.living + 1 ≤ 63)
    (returned : ∀ p ∈ s.processes, ∀ kind, p.returned kind ≠ 0) (entry : Nat) (name : List UInt8) :
    s.InCycle (.create someMemory entry name) := by
  refine ⟨few, fun kind => ?_⟩
  cases kind with
  | space => exact ⟨_, rfl, by decide, fun p member _ => returned p member .space⟩
  | stack => exact ⟨_, rfl, by decide, fun p member _ => returned p member .stack⟩
  | vmas => exact ⟨_, rfl, by decide, fun p member _ => returned p member .vmas⟩

theorem recycles_twoCycles :
    Meets (step · 0x100000) (Recycles · 0x100000) (start 0x100000) twoCycles := by
  refine (recycles_iff 0x100000 twoCycles ⟨⟨?_, ?_⟩, ⟨?_, ?_⟩, ⟨trivial, trivial⟩, ⟨?_, ?_⟩, trivial⟩).mpr
    ⟨trivial, trivial, trivial, trivial, trivial⟩
  · exact inCycle_someMemory (by decide) (fun p member => absurd member List.not_mem_nil) _ _
  · exact fun i _ p member => absurd member List.not_mem_nil
  · exact ⟨_, List.mem_cons_self, rfl, rfl⟩
  · show processCurrentPcb _ = none
    decide +kernel
  · refine inCycle_someMemory (by decide +kernel) (fun p member kind => ?_) _ _
    have only := List.mem_singleton.mp member
    rw [only]
    cases kind <;> exact Nat.one_ne_zero
  · intro i _ p member alive
    have only := List.mem_singleton.mp member
    rw [only] at alive
    cases alive

/-- A process that ends by `sys_exit_handler` leaves its VMA table behind. -/
theorem exit_keeps_vmas : ¬∀ kernel_cr3 ops, Meets (step · kernel_cr3) InCycle (start kernel_cr3) ops →
    Meets (step · kernel_cr3) (Recycles · kernel_cr3) (start kernel_cr3) ops := by
  intro promise
  have meets := promise 0x100000 [.create someMemory 0x400000 [], .run 1, .exit]
    ⟨inCycle_someMemory (by decide) (fun p member => absurd member List.not_mem_nil) _ _,
      ⟨_, List.mem_cons_self, rfl, rfl⟩, trivial, trivial⟩
  obtain ⟨-, -, ⟨-, once⟩, -⟩ := meets
  have one := once _ List.mem_cons_self rfl .vmas
  cases one

end Recycling

end Systrix.Proc
