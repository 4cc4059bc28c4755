import Systrix.Ipc.Messages
import Systrix.Lib.Run
import Systrix.Proc.Process

/-!
# Process states over runs

The operations that assign to the state of a process, as one machine, and what each
of them can do to the states in the process table.
-/

namespace Systrix.Proc

open Ipc

/-- The kernel with the calls that are under way: message calls by process identifier
and futex waits by slot. -/
structure Sys where
  kernel : Kernel
  calls : Nat → Option Call
  waits : Nat → Option FutexWait

/-- After boot. -/
def Sys.start : Sys := ⟨Kernel.start, fun _ => none, fun _ => none⟩

/-- The operations on process states. -/
inductive Op where
  | create (r : Resources) (entry : Nat) (name : List UInt8)
  | run (pid : Nat)
  | fork (r : Resources)
  | exit
  | exitGroup
  | kill (pid signum : Nat)
  | deliverSignals (i : Nat)
  | signal (signum handler : Nat)
  | victim (i : Nat)
  | ipc (pid : Nat) (action : Action)
  | futexWait (addr word val timeout_ms : Nat)
  | futexPoll (i : Nat)
  | futexWake (addr val : Nat)
  | tick (rsp cr3 : Nat)

/-- Note how far a message call got. -/
def Sys.recordCall (s : Sys) (pid : Nat) : Kernel × Progress → Sys
  | (k, .waits call) => { s with kernel := k, calls := Function.update s.calls pid (some call) }
  | (k, _) => { s with kernel := k, calls := Function.update s.calls pid none }

/-- One operation. -/
def Sys.step (s : Sys) : Op → Sys
  | .create r entry name => { s with kernel := (processCreate s.kernel r entry name).2 }
  | .run pid => { s with kernel := processRun s.kernel pid }
  | .fork r =>
      match sysFork s.kernel r with
      | none => s
      | some out => { s with kernel := out.kernel }
  | .exit => { s with kernel := schedulerExit s.kernel }
  | .exitGroup => { s with kernel := sysExitGroup s.kernel }
  | .kill pid signum => { s with kernel := (sysKill s.kernel pid signum).2 }
  | .deliverSignals i => { s with kernel := signalDeliver s.kernel i }
  | .signal signum handler => { s with kernel := sysSignal s.kernel signum handler }
  | .victim i => { s with kernel := killVictim s.kernel i }
  | .ipc pid action =>
      match partOfCall s.kernel (s.calls pid) action with
      | none => s
      | some next => s.recordCall pid next
  | .futexWait addr word val timeout_ms =>
      match futexWait s.kernel addr word val timeout_ms with
      | .error _ => s
      | .ok (i, wait, k) => { s with kernel := k, waits := Function.update s.waits i (some wait) }
  | .futexPoll i =>
      match s.waits i with
      | none => s
      | some wait =>
          match futexPoll s.kernel i wait with
          | (wait, k) => { s with kernel := k, waits := Function.update s.waits i wait }
  | .futexWake addr val => { s with kernel := (futexWake s.kernel addr val).2 }
  | .tick rsp cr3 => { s with kernel := timerIsr s.kernel rsp cr3 }

/-- The state after some operations. -/
abbrev Sys.run (ops : List Op) : Sys := Run.final Sys.step Sys.start ops

/-- The slot holds no process that could still run. -/
def Gone (state : PState) : Prop := state = .empty ∨ state = .dead

/-- The states in the process table change only downwards: a slot keeps its state and
its process, or it is not running, and gone unless it is woken or was not gone before. -/
structure Lowers (woken : Nat → Prop) (k' k : Kernel) : Prop where
  current : k'.current_pid = k.current_pid
  slots : ∀ i, ((k'.table i).state = (k.table i).state ∧ (k'.table i).pid = (k.table i).pid) ∨
    ((k'.table i).state ≠ .running ∧ (Gone (k.table i).state → ¬woken i → Gone (k'.table i).state))

namespace Lowers

variable {woken : Nat → Prop} {k k' k'' : Kernel}

theorem refl (k : Kernel) : Lowers woken k k := ⟨rfl, fun _ => .inl ⟨rfl, rfl⟩⟩

theorem of_table_eq (table : k'.table = k.table) (current : k'.current_pid = k.current_pid) :
    Lowers woken k' k := by
  refine ⟨current, fun i => .inl ?_⟩
  rw [table]
  exact ⟨rfl, rfl⟩

theorem trans (second : Lowers woken k'' k') (first : Lowers woken k' k) : Lowers woken k'' k where
  current := second.current.trans first.current
  slots i := by
    rcases second.slots i with ⟨state, pid⟩ | ⟨notRunning, gone⟩
    · rcases first.slots i with ⟨state', pid'⟩ | ⟨notRunning', gone'⟩
      · exact .inl ⟨state.trans state', pid.trans pid'⟩
      · rw [state]
        exact .inr ⟨notRunning', gone'⟩
    · refine .inr ⟨notRunning, fun wasGone notWoken => ?_⟩
      rcases first.slots i with ⟨state', -⟩ | ⟨-, gone'⟩
      · exact gone (state' ▸ wasGone) notWoken
      · exact gone (gone' wasGone notWoken) notWoken

theorem mono {woken' : Nat → Prop} (lowers : Lowers woken k' k)
    (fewer : ∀ i, woken i → woken' i) : Lowers woken' k' k := by
  refine ⟨lowers.current, fun i => (lowers.slots i).imp_right fun ⟨notRunning, gone⟩ => ?_⟩
  exact ⟨notRunning, fun wasGone notWoken => gone wasGone fun isWoken => notWoken (fewer i isWoken)⟩

theorem setPcb {i : Nat} {pcb : Pcb}
    (slot : (pcb.state = (k.table i).state ∧ pcb.pid = (k.table i).pid) ∨
      (pcb.state ≠ .running ∧ (Gone (k.table i).state → ¬woken i → Gone pcb.state))) :
    Lowers woken (k.setPcb i pcb) k := by
  refine ⟨rfl, fun j => ?_⟩
  by_cases same : j = i
  · subst same
    rw [setPcb_table_self]
    exact slot
  · rw [setPcb_table_of_ne k i pcb same]
    exact .inl ⟨rfl, rfl⟩

theorem setState {i : Nat} {state : PState} (notRunning : state ≠ .running)
    (gone : Gone (k.table i).state → ¬woken i → Gone state) : Lowers woken (k.setState i state) k :=
  setPcb (.inr ⟨notRunning, gone⟩)

/-- The part of a process control block that the user side sees may change. -/
theorem setUser (i ursp entry : Nat) :
    Lowers woken (k.setPcb i { k.table i with ursp := ursp, entry := entry }) k :=
  setPcb (.inl ⟨rfl, rfl⟩)

theorem kill (i : Nat) : Lowers woken (k.setState i .dead) k :=
  setState (by decide) fun _ _ => .inr rfl

end Lowers

/-! ## Operations that lower -/

section Operations

variable {k : Kernel} {woken : Nat → Prop}

theorem createIn_lowers {r : Resources} {entry : Nat} {name : List UInt8} {i : Nat} {k' : Kernel}
    (created : createIn k r entry name = some (i, k')) : Lowers woken k' k := by
  obtain ⟨-, cr3, kstack_base, rfl⟩ := createIn_spec created
  exact Lowers.setPcb (.inr ⟨(fun running => by cases running), fun _ _ => .inl rfl⟩)

theorem processCreate_lowers (r : Resources) (entry : Nat) (name : List UInt8) :
    Lowers woken (processCreate k r entry name).2 k := by
  unfold processCreate
  cases created : createIn k r entry name with
  | none => exact Lowers.refl k
  | some out => exact createIn_lowers created

theorem schedulerExit_lowers : Lowers woken (schedulerExit k) k := by
  unfold schedulerExit
  cases processCurrentPcb k with
  | none => exact Lowers.refl k
  | some i => exact Lowers.kill i

theorem sysExitGroup_lowers : Lowers woken (sysExitGroup k) k := by
  unfold sysExitGroup
  cases processCurrentPcb k with
  | none => exact Lowers.refl k
  | some i => exact Lowers.setPcb (.inr ⟨(fun running => by cases running), fun _ _ => .inl rfl⟩)

theorem killVictim_lowers (i : Nat) : Lowers woken (killVictim k i) k := by
  unfold killVictim
  split_ifs
  · exact Lowers.kill i
  · exact Lowers.refl k

theorem setSignals_lowers (i : Nat) (ss : SignalState) : Lowers woken (setSignals k i ss) k :=
  Lowers.of_table_eq rfl rfl

theorem sysKill_lowers (pid signum : Nat) : Lowers woken (sysKill k pid signum).2 k := by
  unfold sysKill
  cases (findPcb k.table fun t =>
      t.state ≠ .empty ∧ t.state ≠ .dead ∧ (t.pid = pid ∨ pid = 2 ^ 64 - 1)) with
  | none => split_ifs <;> exact Lowers.refl k
  | some i =>
      dsimp only
      split_ifs
      · exact Lowers.refl k
      · exact Lowers.refl k
      · exact Lowers.refl k
      · exact Lowers.kill i
      · exact setSignals_lowers _ _

theorem deliverLoop_lowers (idx i : Nat) (pending : Nat → Bool) (sig left : Nat) (k : Kernel) :
    Lowers woken (deliverLoop idx i pending sig left k) k := by
  induction left generalizing sig k with
  | zero => exact Lowers.refl k
  | succ left ih =>
      have noted : Lowers woken (setSignals k idx
          { k.signals idx with pending := Function.update (k.signals idx).pending sig false }) k :=
        setSignals_lowers idx _
      rw [deliverLoop]
      dsimp only
      split_ifs
      · exact (ih _ _).trans noted
      · exact (Lowers.kill i).trans noted
      · exact (ih _ _).trans noted
      · exact (Lowers.setUser i _ _).trans noted
      · exact ih _ _

theorem signalDeliver_lowers (i : Nat) : Lowers woken (signalDeliver k i) k := by
  unfold signalDeliver
  dsimp only
  split_ifs
  · exact Lowers.refl k
  · exact deliverLoop_lowers _ _ _ _ _ _

theorem sysSignal_lowers (signum handler : Nat) : Lowers woken (sysSignal k signum handler) k := by
  unfold sysSignal
  split_ifs
  · exact Lowers.refl k
  · split
    · exact Lowers.refl k
    · dsimp only
      split_ifs
      · exact Lowers.refl k
      · exact setSignals_lowers _ _

theorem futexWait_lowers {addr word val timeout_ms i : Nat} {wait : FutexWait} {k' : Kernel}
    (sleeps : futexWait k addr word val timeout_ms = .ok (i, wait, k')) : Lowers woken k' k := by
  unfold futexWait at sleeps
  split at sleeps
  · cases sleeps
  split at sleeps
  · cases sleeps
  split at sleeps
  · cases sleeps
  rename_i cur isCurrent
  split at sleeps
  · cases sleeps
  cases sleeps
  unfold processCurrentPcb at isCurrent
  have running := of_decide_eq_true (findPcb_test isCurrent)
  refine (Lowers.setState (by decide) fun gone _ => ?_).trans (Lowers.of_table_eq rfl rfl)
  change Gone (k.table i).state at gone
  rw [running] at gone
  rcases gone with gone | gone <;> cases gone

theorem futexPoll_lowers {i : Nat} {wait : FutexWait} (waiting : wait.expired = false) :
    Lowers woken (futexPoll k i wait).2 k := by
  unfold futexPoll
  rw [if_neg (by simp [waiting])]
  split_ifs <;> exact Lowers.refl k

theorem futexWakeLoop_lowers (addr val i left count : Nat) {k : Kernel}
    (waiters : ∀ w pcb, (k.futex_table w).addr = addr → (k.futex_table w).pcb = some pcb → woken pcb) :
    Lowers woken (futexWakeLoop addr val i left count k).2 k := by
  induction left generalizing i count k with
  | zero => exact Lowers.refl k
  | succ left ih =>
      rw [futexWakeLoop]
      split
      · split
        · rename_i pcb sleeper
          by_cases sameAddr : (k.futex_table i).addr = addr
          · rw [if_pos sameAddr]
            have cleared : Lowers woken (setWaiter k i ⟨0, none⟩) k := Lowers.of_table_eq rfl rfl
            have raised : Lowers woken ((setWaiter k i ⟨0, none⟩).setState pcb .ready)
                (setWaiter k i ⟨0, none⟩) :=
              Lowers.setState (by decide) fun _ notWoken =>
                absurd (waiters i pcb sameAddr sleeper) notWoken
            refine (ih (i + 1) (count + 1) ?_).trans (raised.trans cleared)
            intro w pcb' sameAddr' sleeper'
            change (Function.update k.futex_table i ⟨0, none⟩ w).addr = addr at sameAddr'
            change (Function.update k.futex_table i ⟨0, none⟩ w).pcb = some pcb' at sleeper'
            by_cases here : w = i
            · subst here
              rw [Function.update_self] at sleeper'
              cases sleeper'
            · rw [Function.update_of_ne here] at sameAddr' sleeper'
              exact waiters w pcb' sameAddr' sleeper'
          · rw [if_neg sameAddr]
            exact ih _ _ waiters
        · exact ih _ _ waiters
      · exact Lowers.refl k

/-- Only processes that sleep on the address are woken. -/
theorem futexWake_lowers (addr val : Nat) : Lowers
    (fun i => ∃ w, (k.futex_table w).addr = addr ∧ (k.futex_table w).pcb = some i)
    (futexWake k addr val).2 k := by
  unfold futexWake
  split_ifs
  · exact Lowers.refl k
  · exact futexWakeLoop_lowers _ _ _ _ _ fun w pcb sameAddr sleeper => ⟨w, sameAddr, sleeper⟩

theorem deliver_lowers (dest_pid dest : Nat) (msg : IpcMsg) :
    Lowers (fun i => (k.queues (inboxOf dest_pid)).waiting = true ∧ i = dest)
      (deliver k dest_pid dest msg) k := by
  unfold deliver
  dsimp only
  split_ifs with waiting
  · refine (Lowers.setState (by decide) fun _ notWoken => ?_).trans (Lowers.of_table_eq rfl rfl)
    exact absurd ⟨waiting, rfl⟩ notWoken
  · exact Lowers.of_table_eq rfl rfl

theorem sendLoop_lowers (dest_pid dest : Nat) (msg : IpcMsg) (spins : Nat) :
    Lowers (fun i => (k.queues (inboxOf dest_pid)).waiting = true ∧ i = dest)
      (sendLoop k dest_pid dest msg spins).1 k := by
  unfold sendLoop
  split_ifs
  · exact Lowers.refl k
  · exact deliver_lowers dest_pid dest msg

theorem recvLoop_lowers : Lowers woken (recvLoop k).1 k := by
  unfold recvLoop
  dsimp only
  split_ifs <;> exact Lowers.of_table_eq rfl rfl

/-- The slot a part of a message call would wake: that of a receiver whose inbox says
that it waits. -/
def WokenByCall (k : Kernel) (call : Option Call) (action : Action) (i : Nat) : Prop :=
  ∃ dest_pid, (k.queues (inboxOf dest_pid)).waiting = true ∧
    match call, action with
    | none, .send dest_pid' _ => dest_pid' = dest_pid ∧ ipcFindPcb k dest_pid = some i
    | some (.send dest_pid' dest _ _), .resume => dest_pid' = dest_pid ∧ dest = i
    | _, _ => False

theorem partOfCall_lowers {call : Option Call} {action : Action} {next : Kernel × Progress}
    (runs : partOfCall k call action = some next) : Lowers (WokenByCall k call action) next.1 k := by
  unfold partOfCall at runs
  split at runs
  · cases runs
    rename_i dest_pid msg
    unfold sysIpcSend
    split
    · exact Lowers.refl k
    · split
      · exact Lowers.refl k
      · rename_i dest found
        refine (sendLoop_lowers dest_pid dest _ _).mono fun i isWoken => ?_
        exact ⟨dest_pid, isWoken.1, rfl, isWoken.2 ▸ found⟩
  · cases runs
    unfold sysIpcRecv
    split_ifs
    · exact recvLoop_lowers
    · exact Lowers.refl k
  · cases runs
    rename_i call
    cases call with
    | send dest_pid dest msg spins =>
        simp only [resume]
        split_ifs
        · exact Lowers.refl k
        · refine (sendLoop_lowers dest_pid dest _ _).mono fun i isWoken => ?_
          exact ⟨dest_pid, isWoken.1, rfl, isWoken.2.symm⟩
    | recv => exact recvLoop_lowers
  · cases runs

end Operations

@[simp] theorem recordCall_kernel (s : Sys) (pid : Nat) (next : Kernel × Progress) :
    (s.recordCall pid next).kernel = next.1 := by
  obtain ⟨k, progress⟩ := next
  cases progress <;> rfl

/-- The slots an operation may wake. -/
def Woken (s : Sys) : Op → Nat → Prop
  | .ipc pid action, i => WokenByCall s.kernel (s.calls pid) action i
  | .futexWake addr _, i =>
      ∃ w, (s.kernel.futex_table w).addr = addr ∧ (s.kernel.futex_table w).pcb = some i
  | _, _ => False

/-- The operation makes a process running. -/
def Starts (s : Sys) : Op → Prop
  | .run _ | .fork _ | .tick _ _ => True
  | .futexPoll i => ∃ wait, s.waits i = some wait ∧ wait.expired = true
  | _ => False

/-- Operations that start no process only lower states, and wake. -/
theorem step_lowers {s : Sys} {op : Op} (quiet : ¬Starts s op) :
    Lowers (Woken s op) (s.step op).kernel s.kernel := by
  cases op with
  | create r entry name => exact processCreate_lowers r entry name
  | run pid => exact absurd trivial quiet
  | fork r => exact absurd trivial quiet
  | exit => exact schedulerExit_lowers
  | exitGroup => exact sysExitGroup_lowers
  | kill pid signum => exact sysKill_lowers pid signum
  | deliverSignals i => exact signalDeliver_lowers i
  | signal signum handler => exact sysSignal_lowers signum handler
  | victim i => exact killVictim_lowers i
  | ipc pid action =>
      simp only [Sys.step]
      split
      · exact Lowers.refl _
      · rename_i next runs
        rw [recordCall_kernel]
        exact partOfCall_lowers runs
  | futexWait addr word val timeout_ms =>
      simp only [Sys.step]
      split
      · exact Lowers.refl _
      · rename_i sleeps
        exact futexWait_lowers sleeps
  | futexPoll i =>
      simp only [Sys.step]
      split
      · exact Lowers.refl _
      · rename_i wait pending
        have waiting : wait.expired = false := by
          cases expired : wait.expired with
          | true => exact absurd ⟨wait, pending, expired⟩ quiet
          | false => rfl
        exact futexPoll_lowers waiting
  | futexWake addr val => exact futexWake_lowers addr val
  | tick rsp cr3 => exact absurd trivial quiet

end Systrix.Proc
