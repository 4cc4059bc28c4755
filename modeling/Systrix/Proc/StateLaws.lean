import Systrix.Proc.Lifecycle

/-!
# Who runs, and who runs again

Two laws of the process states: that one process runs at a time, and it is the current
one, and which operations make a process run whose slot is gone.  The slot `sys_fork`
prepares is compared with the slot it starts.
-/

namespace Systrix.Proc

open Ipc

/-! ## One runner -/

/-- At most one process is running. -/
def AtMostOne (k : Kernel) : Prop :=
  ∀ i < procMax, ∀ j < procMax, (k.table i).state = .running → (k.table j).state = .running → i = j

/-- At most one process is running, and it is the one `current_pid` names. -/
structure SingleRunner (k : Kernel) : Prop where
  unique : AtMostOne k
  current : ∀ i < procMax, (k.table i).state = .running → (k.table i).pid = k.current_pid

/-- No slot but one is running. -/
def OnlyRunner (k : Kernel) (i : Nat) : Prop :=
  ∀ j < procMax, (k.table j).state = .running → j = i

/-- What runs after a lowering ran before it. -/
theorem Lowers.running {woken : Nat → Prop} {k' k : Kernel} (lowers : Lowers woken k' k) {i : Nat}
    (running : (k'.table i).state = .running) :
    (k.table i).state = .running ∧ (k'.table i).pid = (k.table i).pid := by
  rcases lowers.slots i with ⟨state, pid⟩ | ⟨notRunning, -⟩
  · exact ⟨state ▸ running, pid⟩
  · exact absurd running notRunning

theorem AtMostOne.lower {woken : Nat → Prop} {k' k : Kernel} (one : AtMostOne k)
    (lowers : Lowers woken k' k) : AtMostOne k' := fun i inside j inside' running running' =>
  one i inside j inside' (lowers.running running).1 (lowers.running running').1

theorem SingleRunner.lower {woken : Nat → Prop} {k' k : Kernel} (single : SingleRunner k)
    (lowers : Lowers woken k' k) : SingleRunner k' := by
  refine ⟨single.unique.lower lowers, fun i inside running => ?_⟩
  rw [(lowers.running running).2, lowers.current]
  exact single.current i inside (lowers.running running).1

section Start

variable {k k' : Kernel} {i : Nat}

/-- The process of a slot is started when no other runs. -/
theorem onlyRunner_start (only : OnlyRunner k i) (table : k'.table = (k.setState i .running).table) :
    OnlyRunner k' i := by
  intro j inside running
  by_cases same : j = i
  · exact same
  · rw [table, setState_table_of_ne k i .running same] at running
    exact only j inside running

theorem OnlyRunner.atMostOne (only : OnlyRunner k i) : AtMostOne k :=
  fun j inside j' inside' running running' =>
    (only j inside running).trans (only j' inside' running').symm

theorem singleRunner_start (only : OnlyRunner k i) (table : k'.table = (k.setState i .running).table)
    (current : k'.current_pid = (k.table i).pid) : SingleRunner k' := by
  have only' := onlyRunner_start only table
  refine ⟨only'.atMostOne, fun j inside running => ?_⟩
  rw [only' j inside running, table, setState_pid, current]

/-- Making the running process ready leaves none that runs. -/
theorem onlyRunner_after (one : AtMostOne k) {cur : Nat} (inside : cur < procMax)
    (running : (k.table cur).state = .running) {pcb : Pcb} (notRunning : pcb.state ≠ .running)
    (i : Nat) : OnlyRunner (k.setPcb cur pcb) i := by
  intro j inside' running'
  by_cases same : j = cur
  · subst same
    rw [setPcb_table_self] at running'
    exact absurd running' notRunning
  · rw [setPcb_table_of_ne k cur pcb same] at running'
    exact absurd (one j inside' cur inside running' running) same

end Start

/-! ### The timer -/

/-- The timer starts a process when no other runs, and names it. -/
theorem timerIsr_starts {k : Kernel} (one : AtMostOne k) (rsp cr3 : Nat) :
    (timerIsr k rsp cr3).table = k.table ∧ (∀ i < procMax, (k.table i).state ≠ .running) ∨
    ∃ k₁ i, OnlyRunner k₁ i ∧ (timerIsr k rsp cr3).table = (k₁.setState i .running).table ∧
      ((timerIsr k rsp cr3).current_pid = (k₁.table i).pid ∨
        (timerIsr k rsp cr3).current_pid = k.current_pid ∧ (k.table i).state = .running ∧
          i < procMax ∧ (k₁.table i).pid = (k.table i).pid) := by
  unfold timerIsr
  dsimp only
  split
  · rename_i cur isCurrent
    unfold processCurrentPcb at isCurrent
    have inside := findPcb_lt isCurrent
    have running := of_decide_eq_true (findPcb_test isCurrent)
    have only : ∀ next, OnlyRunner
        (Kernel.setPcb { k with pit_ticks := Machine.u64 (k.pit_ticks + 1) } cur
          { k.table cur with kstack := rsp, cr3 := cr3, state := .ready }) next := fun next =>
      onlyRunner_after one inside running (fun ready => by cases ready) next
    refine .inr ?_
    split
    · rename_i next found
      exact ⟨_, next, only next, rfl, .inl rfl⟩
    · refine ⟨_, cur, only cur, rfl, .inr ⟨rfl, running, inside, ?_⟩⟩
      rw [setPcb_table_self]
  · rename_i noCurrent
    unfold processCurrentPcb at noCurrent
    have idle : ∀ j < procMax, (k.table j).state ≠ .running := fun j inside =>
      of_decide_eq_false (findPcb_none noCurrent inside)
    split
    · rename_i next found
      exact .inr ⟨_, next, fun j inside running => absurd running (idle j inside), rfl, .inl rfl⟩
    · exact .inl ⟨rfl, idle⟩

theorem timerIsr_atMostOne {k : Kernel} (one : AtMostOne k) (rsp cr3 : Nat) :
    AtMostOne (timerIsr k rsp cr3) := by
  rcases timerIsr_starts one rsp cr3 with ⟨table, -⟩ | ⟨k₁, i, only, table, -⟩
  · intro i inside j inside' running running'
    rw [table] at running running'
    exact one i inside j inside' running running'
  · exact (onlyRunner_start only table).atMostOne

theorem timerIsr_singleRunner {k : Kernel} (single : SingleRunner k) (rsp cr3 : Nat) :
    SingleRunner (timerIsr k rsp cr3) := by
  rcases timerIsr_starts single.unique rsp cr3 with
    ⟨table, idle⟩ | ⟨k₁, i, only, table, named | ⟨current, running, inside, pid⟩⟩
  · refine ⟨timerIsr_atMostOne single.unique rsp cr3, fun i inside running => ?_⟩
    rw [table] at running
    exact absurd running (idle i inside)
  · exact singleRunner_start only table named
  · refine singleRunner_start only table ?_
    rw [current, pid]
    exact (single.current i inside running).symm

/-! ### The other starts -/

theorem pcbOfPid_setState (k : Kernel) (i : Nat) (state : PState) (pid : Nat) :
    pcbOfPid (k.setState i state) pid = pcbOfPid k pid := by
  unfold pcbOfPid findPcb
  simp only [setState_pid]

theorem processRun_eq (k : Kernel) (pid : Nat) : processRun k pid = k ∨
    ∃ i, pcbOfPid k pid = some i ∧ processRun k pid = k.setState i .running := by
  unfold processRun
  cases pcbOfPid k pid with
  | none => exact .inl rfl
  | some i => exact .inr ⟨i, rfl, rfl⟩

theorem pcbOfPid_processRun (k : Kernel) (started pid : Nat) :
    pcbOfPid (processRun k started) pid = pcbOfPid k pid := by
  rcases processRun_eq k started with same | ⟨i, -, run⟩
  · rw [same]
  · rw [run, pcbOfPid_setState]

/-- `process_create` has no slot or no memory. -/
def CreateFails (k : Kernel) (r : Resources) : Prop :=
  (findPcb k.table fun t => t.state = .empty) = none ∨ r.cr3 = none ∨ r.kstack = none

theorem createIn_of_fails {k : Kernel} {r : Resources} (fails : CreateFails k r) (entry : Nat)
    (name : List UInt8) : createIn k r entry name = none := by
  unfold createIn
  rcases fails with noSlot | noSpace | noStack
  · rw [noSlot]
  · rw [noSpace]
    split <;> rfl
  · rw [noStack]
    split
    · rfl
    · split <;> rfl

theorem sysFork_of_fails {k : Kernel} {r : Resources}
    (fails : processCurrentPcb k = none ∨ CreateFails k r) : sysFork k r = none := by
  unfold sysFork
  rcases fails with noParent | fails
  · rw [noParent]
  · split
    · rfl
    · simp only [createIn_of_fails fails]

/-- A step that makes a process running finds no other that runs. -/
def StartsAlone (s : Sys) : Op → Prop
  | .run pid => ∀ i, pcbOfPid s.kernel pid = some i → OnlyRunner s.kernel i
  | .fork r => processCurrentPcb s.kernel = none ∨ CreateFails s.kernel r
  | .futexPoll i => ∀ wait, s.waits i = some wait → wait.expired = true → OnlyRunner s.kernel i
  | _ => True

/-- A step other than a timer tick that makes a process running finds `current_pid`,
which only the timer assigns to, naming that process. -/
def StartsNamed (s : Sys) : Op → Prop
  | .run pid => ∀ i, pcbOfPid s.kernel pid = some i → s.kernel.current_pid = pid
  | .futexPoll i => ∀ wait, s.waits i = some wait → wait.expired = true →
      s.kernel.current_pid = (s.kernel.table i).pid
  | _ => True

theorem step_atMostOne (s : Sys) (op : Op) (one : AtMostOne s.kernel) (alone : StartsAlone s op) :
    AtMostOne (s.step op).kernel := by
  by_cases starts : Starts s op
  · cases op with
    | run pid =>
        simp only [Sys.step]
        rcases processRun_eq s.kernel pid with same | ⟨i, found, started⟩
        · rwa [same]
        · rw [started]
          exact (onlyRunner_start (alone i found) rfl).atMostOne
    | fork r =>
        simp only [Sys.step, sysFork_of_fails alone]
        exact one
    | futexPoll i =>
        obtain ⟨wait, pending, expired⟩ := starts
        simp only [Sys.step, pending, futexPoll, expired, if_true]
        exact (onlyRunner_start (k := setWaiter s.kernel wait.slot ⟨0, none⟩)
          (alone wait pending expired) rfl).atMostOne
    | tick rsp cr3 => exact timerIsr_atMostOne one rsp cr3
    | _ => exact starts.elim
  · exact one.lower (step_lowers starts)

theorem step_singleRunner (s : Sys) (op : Op) (single : SingleRunner s.kernel)
    (fits : StartsAlone s op ∧ StartsNamed s op) : SingleRunner (s.step op).kernel := by
  obtain ⟨alone, named⟩ := fits
  by_cases starts : Starts s op
  · cases op with
    | run pid =>
        simp only [Sys.step]
        rcases processRun_eq s.kernel pid with same | ⟨i, found, started⟩
        · rwa [same]
        · rw [started]
          refine singleRunner_start (alone i found) rfl ((named i found).trans ?_)
          unfold pcbOfPid at found
          exact (of_decide_eq_true (findPcb_test found)).symm
    | fork r =>
        simp only [Sys.step, sysFork_of_fails alone]
        exact single
    | futexPoll i =>
        obtain ⟨wait, pending, expired⟩ := starts
        simp only [Sys.step, pending, futexPoll, expired, if_true]
        exact singleRunner_start (k := setWaiter s.kernel wait.slot ⟨0, none⟩)
          (alone wait pending expired) rfl (named wait pending expired)
    | tick rsp cr3 => exact timerIsr_singleRunner single rsp cr3
    | _ => exact starts.elim
  · exact single.lower (step_lowers starts)

/-- In a run whose steps start processes alone one process runs at a time; it is the
current one when they also find it named. -/
theorem singleRunner_of_run (s : Sys) (single : SingleRunner s.kernel) (ops : List Op)
    (alone : Run.Meets Sys.step StartsAlone s ops) :
    AtMostOne (Run.final Sys.step s ops).kernel ∧
      (Run.Meets Sys.step StartsNamed s ops → SingleRunner (Run.final Sys.step s ops).kernel) := by
  refine ⟨?_, fun named => ?_⟩
  · exact Run.Meets.invariant (I := fun s => AtMostOne s.kernel) step_atMostOne alone single.unique
  · have both := alone.and named
    exact Run.Meets.invariant (I := fun s => SingleRunner s.kernel) step_singleRunner both single

theorem singleRunner_boot : SingleRunner Sys.start.kernel where
  unique _ _ _ _ running := by cases running
  current _ _ running := by cases running

/-- Memory for one process. -/
def someMemory : Resources := ⟨some 0x10000000, some 0x200000, some 0x201000⟩

/-- The first process is created, run and preempted. -/
def oneProcess : List Op := [.create someMemory 0x400000 [], .run 1, .tick 0x1FFF60 0x10000000]

/-- The first process is the one that runs, and after it has forked, so does its child. -/
theorem fork_two_running :
    SingleRunner (Sys.run oneProcess).kernel ∧
      ¬SingleRunner (Sys.run (oneProcess ++ [.fork someMemory])).kernel := by
  have first : ∀ i, ((Sys.run oneProcess).kernel.table i).state = .running → i = 0 := by
    intro i running
    cases i with
    | zero => rfl
    | succ i => exact absurd running (by rintro ⟨⟩)
  refine ⟨⟨fun i _ j _ running running' => ?_, fun i _ running => ?_⟩, fun single => ?_⟩
  · rw [first i running, first j running']
  · rw [first i running]
    rfl
  · cases single.unique 0 (by decide) 1 (by decide) rfl rfl

theorem singleRunner_of_run_oneProcess : AtMostOne (Sys.run oneProcess).kernel := by
  refine (singleRunner_of_run Sys.start singleRunner_boot oneProcess ⟨trivial, ?_, trivial, trivial⟩).1
  intro i _ j _ running
  cases j with
  | zero => cases running
  | succ j => cases running

/-! ## Who runs again -/

/-- The slot `sys_fork` fills in is that of the process it starts, with the address space
it copies into and the parent's `brk`, `ursp` and `entry`, and no other slot changes. -/
def ForksOwnChild (k : Kernel) (out : Fork) : Prop :=
  ∃ parent i, processCurrentPcb k = some parent ∧ pcbOfPid out.kernel out.child_pid = some i ∧
    out.child = i ∧ out.child_cr3 = (out.kernel.table i).cr3 ∧
    (out.kernel.table i).brk = (k.table parent).brk ∧
    (out.kernel.table i).ursp = (k.table parent).ursp ∧
    (out.kernel.table i).entry = (k.table parent).entry ∧
    ∀ j, j ≠ i → out.kernel.table j = k.table j

theorem findPcb_le {table : Table} {test : Pcb → Bool} {i j : Nat}
    (found : findPcb table test = some j) (passes : test (table i) = true) :
    j ≤ i := by
  unfold findPcb at found
  by_contra later
  have earlier := (List.find?_range_eq_some.mp found).2.2 i (by omega)
  rw [passes] at earlier
  cases earlier

theorem createIn_pid {k k' : Kernel} {r : Resources} {entry i : Nat} {name : List UInt8}
    (created : createIn k r entry name = some (i, k')) : (k'.table i).pid = i + 1 := by
  obtain ⟨-, cr3, kstack_base, rfl⟩ := createIn_spec created
  rw [setPcb_table_self]
  rfl

/-- The process with the child's identifier is in the slot before the one `get_pcb`
reaches, or in an earlier one. -/
theorem sysFork_misses_child {k : Kernel} {r : Resources} {out : Fork}
    (forks : sysFork k r = some out) : ¬ForksOwnChild k out := by
  rintro ⟨-, i, -, found, isChild, -⟩
  unfold sysFork at forks
  split at forks
  · cases forks
  · dsimp only at forks
    split at forks
    · cases forks
    · rename_i slot k₁ created
      cases forks
      have pid := createIn_pid created
      rw [pcbOfPid_processRun] at found
      unfold pcbOfPid at found
      have other : slot ≠ getPcb (slot + 1) := Nat.ne_of_lt (Nat.lt_succ_self slot)
      have early := findPcb_le found (by
        rw [setPcb_table_of_ne _ _ _ other]
        exact decide_eq_true pid)
      change slot + 1 = i at isChild
      omega

/-- A process of which the stack pointer and the break have moved. -/
def forkingKernel : Kernel := Kernel.start.setPcb 0
  { Pcb.zero with state := .running, pid := 1, cr3 := 0x10000000, ursp := 0x6FFF00, brk := 0x1002000 }

/-- The child is the process with identifier 2 in slot 1; slot 2, which holds no process,
gets the parent's break, and address 0 is what `vmm_cow_fork` takes for page tables. -/
theorem sysFork_second_slot :
    ∃ out, sysFork forkingKernel someMemory = some out ∧ out.child_pid = 2 ∧
      pcbOfPid out.kernel 2 = some 1 ∧ (out.kernel.table 1).brk = brkBase ∧
      (out.kernel.table 2).brk = 0x1002000 ∧ out.child_cr3 = 0 ∧ ¬ForksOwnChild forkingKernel out := by
  refine ⟨_, rfl, rfl, rfl, rfl, rfl, rfl, ?_⟩
  rintro ⟨-, i, -, found, isChild, -⟩
  cases found
  cases isChild

theorem sysFork_misses_child_forkingKernel :
    ∃ out, sysFork forkingKernel someMemory = some out ∧ ¬ForksOwnChild forkingKernel out :=
  ⟨_, rfl, sysFork_misses_child (r := someMemory) rfl⟩

end Systrix.Proc
