import Systrix.Proc.Creation

/-!
# Signals of a process lifetime

The signal state of `kernel/signal.c` lies in a table by slots, and `process_create` does not touch it.
Beside the kernel runs what belongs to the process in each slot alone: the signals sent to it, the mask
and the handlers it has set, all from its creation on.
-/

namespace Systrix.Proc

open Run

/-! ## The calls of signal.c -/

/-- An entry of `proc_signals` after `signal_init`. -/
def SignalState.init : SignalState := ⟨fun _ => sigDfl, fun _ => false, fun _ => false⟩

def sigstop : Nat := 19

/-- The slot of the calling process, when `signal.c` finds its entry. -/
def signalCaller (k : Kernel) : Option Nat :=
  match processCurrentPcb k with
  | none => none
  | some i => if (k.table i).pid = 0 ∨ procMax < (k.table i).pid then none else some i

/-- The entry of `proc_signals` of the calling process. -/
def currentSignals (k : Kernel) : Option Nat := (signalCaller k).map fun i => (k.table i).pid - 1

/-- The action of a signal may be set. -/
def Settable (signum : Nat) : Prop := 1 ≤ signum ∧ signum < maxSignal ∧ signum ≠ sigkill ∧ signum ≠ sigstop

instance (signum : Nat) : Decidable (Settable signum) := inferInstanceAs (Decidable (_ ∧ _))

/-- Install a handler. -/
def SignalState.install (ss : SignalState) (signum handler : Nat) : SignalState :=
  { ss with handler := Function.update ss.handler signum handler }

/-- `sys_sigaction` for a signal number that is not negative: the result, what `*oldact` gets and the
kernel; `act` is the handler of `*act`. -/
def sysSigaction (k : Kernel) (signum : Nat) (act : Option Nat) : Int × Option Nat × Kernel :=
  if Settable signum then
    match currentSignals k with
    | none => (einval, none, k)
    | some idx =>
        let ss := k.signals idx
        match act with
        | none => (0, some (ss.handler signum), k)
        | some handler => (0, some (ss.handler signum), setSignals k idx (ss.install signum handler))
  else (einval, none, k)

/-- The mask `sys_sigprocmask` leaves, or none for a `how` it does not know. -/
def SignalState.mask (ss : SignalState) (how : Nat) (set : Nat → Bool) : Option SignalState :=
  match how with
  | 0 => some { ss with blocked := set }
  | 1 => some { ss with blocked := fun s => ss.blocked s || set s }
  | 2 => some { ss with blocked := fun s => ss.blocked s && !set s }
  | _ => none

/-- `sys_sigprocmask`: the result, what `*oldset` gets and the kernel. -/
def sysSigprocmask (k : Kernel) (how : Nat) (set : Option (Nat → Bool)) : Int × Option (Nat → Bool) × Kernel :=
  match currentSignals k with
  | none => (einval, none, k)
  | some idx =>
      let ss := k.signals idx
      match set with
      | none => (0, some ss.blocked, k)
      | some set =>
          match ss.mask how set with
          | none => (einval, some ss.blocked, k)
          | some ss' => (0, some ss.blocked, setSignals k idx ss')

/-- The process `sys_kill` finds. -/
def killTarget (k : Kernel) (pid : Nat) : Option Nat :=
  findPcb k.table fun t => t.state ≠ .empty ∧ t.state ≠ .dead ∧ (t.pid = pid ∨ pid = 2 ^ 64 - 1)

theorem findPcb_killTarget (k : Kernel) (pid : Nat) : (findPcb k.table fun t => t.state ≠ .empty ∧ t.state ≠ .dead ∧
    (t.pid = pid ∨ pid = 2 ^ 64 - 1)) = killTarget k pid := rfl

/-- The signal becomes pending at the process `sys_kill` finds. -/
def Queues (pid signum : Nat) : Prop := signum < maxSignal ∧ pid ≠ 0 ∧ signum ≠ 0 ∧ signum ≠ sigkill

instance (pid signum : Nat) : Decidable (Queues pid signum) := inferInstanceAs (Decidable (_ ∧ _))

/-- A signal is sent. -/
def SignalState.send (ss : SignalState) (signum : Nat) : SignalState :=
  { ss with pending := Function.update ss.pending signum true }

/-! ## What a delivery acts on -/

/-- The signals the loop of `signal_deliver` acts on from `sig` on, in order, with the handler of each. -/
def deliveries (handler : Nat → Nat) (pending : Nat → Bool) (sig : Nat) : (left : Nat) → List (Nat × Nat)
  | 0 => []
  | left + 1 =>
      if pending sig then
        let entry := (sig, handler sig)
        if handler sig = sigDfl then
          if sig = sigchld ∨ sig = sigcont then entry :: deliveries handler pending (sig + 1) left else [entry]
        else if handler sig = sigIgn then entry :: deliveries handler pending (sig + 1) left
        else [entry]
      else deliveries handler pending (sig + 1) left

/-- What `signal_deliver` acts on. -/
def delivered (ss : SignalState) : List (Nat × Nat) :=
  deliveries ss.handler (fun sig => ss.pending sig && !ss.blocked sig) 1 (maxSignal - 1)

/-- What the loop does about one signal. -/
def actOn (idx i : Nat) (k : Kernel) (entry : Nat × Nat) : Kernel :=
  let ss := k.signals idx
  let k := setSignals k idx { ss with pending := Function.update ss.pending entry.1 false }
  if entry.2 = sigDfl then
    if entry.1 = sigchld ∨ entry.1 = sigcont then k else k.setState i .dead
  else if entry.2 = sigIgn then k
  else
    let pcb := k.table i
    k.setPcb i { pcb with ursp := Machine.sub64 pcb.ursp 16, entry := entry.2 }

/-- The signal state once some signals are no longer pending. -/
def SignalState.clear (ss : SignalState) (entries : List (Nat × Nat)) : SignalState :=
  entries.foldl (fun ss entry => { ss with pending := Function.update ss.pending entry.1 false }) ss

theorem actOn_signals (idx i : Nat) (k : Kernel) (entry : Nat × Nat) :
    (actOn idx i k entry).signals = Function.update k.signals idx ((k.signals idx).clear [entry]) := by
  unfold actOn
  dsimp only
  split_ifs <;> rfl

theorem actOn_pid (idx i : Nat) (k : Kernel) (entry : Nat × Nat) (j : Nat) :
    ((actOn idx i k entry).table j).pid = (k.table j).pid := by
  unfold actOn
  dsimp only
  split_ifs
  · rfl
  · exact setState_pid _ _ _ j
  · rfl
  · by_cases same : j = i
    · subst same
      rw [setPcb_table_self]
      rfl
    · rw [setPcb_table_of_ne _ _ _ same]
      rfl

/-- The loop acts on one signal after the other. -/
theorem deliverLoop_eq (idx i : Nat) (pending : Nat → Bool) (sig left : Nat) (k : Kernel) :
    deliverLoop idx i pending sig left k =
      (deliveries (k.signals idx).handler pending sig left).foldl (actOn idx i) k := by
  induction left generalizing sig k with
  | zero => rfl
  | succ left ih =>
      have handler : ∀ pending', ((setSignals k idx { k.signals idx with pending := pending' }).signals idx).handler =
          (k.signals idx).handler := fun pending' => by
        unfold setSignals
        dsimp only
        rw [Function.update_self]
      rw [deliverLoop, deliveries]
      by_cases isPending : pending sig = true
      · rw [if_pos isPending, if_pos isPending]
        dsimp only
        split_ifs with default harmless ignored
        · rw [ih, handler, List.foldl_cons, actOn]
          simp only [default, harmless, if_true]
        · rw [List.foldl_cons, List.foldl_nil, actOn]
          simp only [default, harmless, if_true, if_false]
        · rw [ih, handler, List.foldl_cons, actOn]
          dsimp only
          rw [if_neg default, if_pos ignored]
        · rw [List.foldl_cons, List.foldl_nil, actOn]
          dsimp only
          rw [if_neg default, if_neg ignored]
      · rw [if_neg isPending, if_neg isPending]
        exact ih (sig + 1) k

/-- What `signal_deliver` acts on for the process in a slot. -/
def deliveredAt (k : Kernel) (i : Nat) : List (Nat × Nat) :=
  let pid := (k.table i).pid
  if pid = 0 ∨ procMax < pid then [] else delivered (k.signals (pid - 1))

theorem signalDeliver_eq (k : Kernel) (i : Nat) :
    signalDeliver k i = (deliveredAt k i).foldl (actOn ((k.table i).pid - 1) i) k := by
  unfold signalDeliver deliveredAt
  dsimp only
  split_ifs
  · rfl
  · exact deliverLoop_eq _ i _ 1 (maxSignal - 1) k

/-- The loop acts on signals that were pending, each once and in increasing order. -/
theorem mem_deliveries {handler : Nat → Nat} {pending : Nat → Bool} {sig left : Nat} {entry : Nat × Nat}
    (member : entry ∈ deliveries handler pending sig left) :
    sig ≤ entry.1 ∧ pending entry.1 = true ∧ entry.2 = handler entry.1 := by
  induction left generalizing sig with
  | zero => exact absurd member List.not_mem_nil
  | succ left ih =>
      have later : entry ∈ deliveries handler pending (sig + 1) left →
          sig ≤ entry.1 ∧ pending entry.1 = true ∧ entry.2 = handler entry.1 := fun inLater => by
        obtain ⟨above, rest⟩ := ih inLater
        exact ⟨Nat.le_of_succ_le above, rest⟩
      rw [deliveries] at member
      by_cases isPending : pending sig = true
      · have here : entry = (sig, handler sig) →
            sig ≤ entry.1 ∧ pending entry.1 = true ∧ entry.2 = handler entry.1 := by
          rintro rfl
          exact ⟨Nat.le_refl _, isPending, rfl⟩
        rw [if_pos isPending] at member
        dsimp only at member
        split_ifs at member
        · exact (List.mem_cons.mp member).elim here later
        · exact here (List.mem_singleton.mp member)
        · exact (List.mem_cons.mp member).elim here later
        · exact here (List.mem_singleton.mp member)
      · rw [if_neg isPending] at member
        exact later member

/-- Before the loop acts on a signal it has acted on every lower one that was pending. -/
theorem deliveries_lower {handler : Nat → Nat} {pending : Nat → Bool} {sig left : Nat}
    {before after : List (Nat × Nat)} {entry : Nat × Nat}
    (split : deliveries handler pending sig left = before ++ entry :: after) {lower : Nat} (above : sig ≤ lower)
    (below : lower < entry.1) (isPending : pending lower = true) : lower ∈ before.map Prod.fst := by
  induction left generalizing sig before with
  | zero => exact absurd split.symm (List.append_ne_nil_of_right_ne_nil _ (List.cons_ne_nil _ _))
  | succ left ih =>
      -- the entry is the first one, or the loop has gone on after that
      have goesOn : ∀ first rest, first :: rest = before ++ entry :: after → first.1 = sig →
          (rest ≠ [] → rest = deliveries handler pending (sig + 1) left) → lower ∈ before.map Prod.fst := by
        intro first rest whole isSig later
        cases before with
        | nil =>
            have same : first = entry := (List.cons.inj whole).1
            rw [← same, isSig] at below
            exact absurd above (Nat.not_le.mpr below)
        | cons head before =>
            obtain ⟨sameHead, sameRest⟩ := List.cons.inj whole
            rcases Nat.eq_or_lt_of_le above with here | further
            · rw [List.map_cons, List.mem_cons]
              exact Or.inl (by rw [← here, ← sameHead, isSig])
            · have nonempty : rest ≠ [] := sameRest ▸ List.append_ne_nil_of_right_ne_nil _ (List.cons_ne_nil _ _)
              rw [List.map_cons, List.mem_cons]
              exact Or.inr (ih ((later nonempty).symm.trans sameRest) further)
      rw [deliveries] at split
      by_cases isPendingSig : pending sig = true
      · rw [if_pos isPendingSig] at split
        dsimp only at split
        split_ifs at split
        · exact goesOn _ _ split rfl fun _ => rfl
        · exact goesOn _ _ split rfl fun nonempty => absurd rfl nonempty
        · exact goesOn _ _ split rfl fun _ => rfl
        · exact goesOn _ _ split rfl fun nonempty => absurd rfl nonempty
      · rw [if_neg isPendingSig] at split
        rcases Nat.eq_or_lt_of_le above with here | further
        · exact absurd (here ▸ isPending) isPendingSig
        · exact ih split further

theorem nodup_deliveries (handler : Nat → Nat) (pending : Nat → Bool) (sig left : Nat) :
    ((deliveries handler pending sig left).map Prod.fst).Nodup := by
  induction left generalizing sig with
  | zero => exact List.nodup_nil
  | succ left ih =>
      have later : ((sig, handler sig) :: deliveries handler pending (sig + 1) left |>.map Prod.fst).Nodup := by
        refine List.nodup_cons.mpr ⟨fun member => ?_, ih (sig + 1)⟩
        obtain ⟨entry, inLater, same⟩ := List.mem_map.mp member
        have above := (mem_deliveries inLater).1
        dsimp only at same
        omega
      rw [deliveries]
      dsimp only
      split_ifs
      · exact later
      · exact List.pairwise_singleton _ _
      · exact later
      · exact List.pairwise_singleton _ _
      · exact ih (sig + 1)

/-! ## Histories -/

/-- The kernel, and what belongs to the process in each slot: the signals sent to it and not acted on
since, the mask and the handlers it has set. -/
structure SignalHistory where
  kernel : Kernel
  own : Nat → SignalState

/-- What can happen. -/
inductive SignalOp where
  | create (r : Resources) (entry : Nat) (name : List UInt8)
  | fork (r : Resources)
  | run (pid : Nat)
  | exit
  | exitGroup
  | tick (rsp cr3 : Nat)
  | kill (pid signum : Nat)
  | signal (signum handler : Nat)
  | sigaction (signum : Nat) (act : Option Nat)
  | sigprocmask (how : Nat) (set : Option (Nat → Bool))
  | deliver (i : Fin procMax)

namespace SignalHistory

/-- After `signal_init`. -/
def start : SignalHistory := ⟨Kernel.start, fun _ => .init⟩

variable (h : SignalHistory)

/-- The kernel goes on, and something happens to the process in a slot. -/
def note (k : Kernel) (slot : Option Nat) (change : SignalState → SignalState) : SignalHistory where
  kernel := k
  own :=
    match slot with
    | none => h.own
    | some i => Function.update h.own i (change (h.own i))

/-- One step. -/
def step : SignalOp → SignalHistory
  | .create r entry name =>
      match createIn h.kernel r entry name with
      | none => h
      | some (i, k) => h.note k (some i) fun _ => .init
  | .fork r =>
      match sysFork h.kernel r with
      | none => h
      | some out => h.note out.kernel (some (out.child_pid - 1)) fun _ => .init
  | .run pid => h.note (processRun h.kernel pid) none id
  | .exit => h.note (schedulerExit h.kernel) none id
  | .exitGroup => h.note (sysExitGroup h.kernel) none id
  | .tick rsp cr3 => h.note (timerIsr h.kernel rsp cr3) none id
  | .kill pid signum =>
      h.note (sysKill h.kernel pid signum).2 (if Queues pid signum then killTarget h.kernel pid else none)
        (·.send signum)
  | .signal signum handler =>
      h.note (sysSignal h.kernel signum handler) (if Settable signum then signalCaller h.kernel else none)
        (·.install signum handler)
  | .sigaction signum act =>
      h.note (sysSigaction h.kernel signum act).2.2 (if Settable signum then signalCaller h.kernel else none)
        fun ss => match act with
          | none => ss
          | some handler => ss.install signum handler
  | .sigprocmask how set =>
      h.note (sysSigprocmask h.kernel how set).2.2 (signalCaller h.kernel)
        fun ss => match set with
          | none => ss
          | some set => (ss.mask how set).getD ss
  | .deliver i => h.note (signalDeliver h.kernel i) (some i) (·.clear (deliveredAt h.kernel i))

end SignalHistory

/-- `signal_deliver` acts on signals that were sent to the process itself and that it does not block, with the
handlers it installed, from the lowest one up, and leaves what it blocks pending. -/
structure OwnDelivery (k : Kernel) (own : SignalState) (i : Nat) : Prop where
  acts : signalDeliver k i = (deliveredAt k i).foldl (actOn ((k.table i).pid - 1) i) k
  sent : ∀ entry ∈ deliveredAt k i, own.pending entry.1 = true
  unblocked : ∀ entry ∈ deliveredAt k i, own.blocked entry.1 = false
  handler : ∀ entry ∈ deliveredAt k i, entry.2 = own.handler entry.1
  once : ((deliveredAt k i).map Prod.fst).Nodup
  lowest : ∀ before entry after, deliveredAt k i = before ++ entry :: after → ∀ lower, 1 ≤ lower →
    lower < entry.1 → own.pending lower = true → own.blocked lower = false → lower ∈ before.map Prod.fst
  kept : ∀ s, own.pending s = true → own.blocked s = true → ((signalDeliver k i).signals i).pending s = true

/-- The promise of a step. -/
def DeliversOwn (h : SignalHistory) : SignalOp → Prop
  | .deliver i => OwnDelivery h.kernel (h.own i) i
  | _ => True

/-- The slot the next process is created in has the signal state of `signal_init`. -/
def CleanSlot (k : Kernel) : Prop :=
  ∀ i, (findPcb k.table fun t => t.state = .empty) = some i → k.signals i = .init

/-- A call that creates a process finds a clean slot. -/
def CreatesClean (h : SignalHistory) : SignalOp → Prop
  | .create r _ _ => CreateFails h.kernel r ∨ CleanSlot h.kernel
  | .fork r => processCurrentPcb h.kernel = none ∨ CreateFails h.kernel r ∨ CleanSlot h.kernel
  | _ => True

namespace SignalHistory

/-- Identifiers name slots, and the table holds what belongs to the process in each slot. -/
structure Tracked (h : SignalHistory) : Prop where
  bySlot : PidsBySlot h.kernel
  same : ∀ i < procMax, h.kernel.signals i = h.own i

variable {h : SignalHistory}

theorem Tracked.quiet (tracked : h.Tracked) {k : Kernel} (signals : k.signals = h.kernel.signals)
    (bySlot : PidsBySlot k) (change : SignalState → SignalState) : (h.note k none change).Tracked where
  bySlot := bySlot
  same i inside := (congrFun signals i).trans (tracked.same i inside)

/-- The table and what belongs to the process in one slot change alike. -/
theorem Tracked.change (tracked : h.Tracked) {k : Kernel} {i : Nat} {change : SignalState → SignalState}
    (signals : k.signals = Function.update h.kernel.signals i (change (h.kernel.signals i)))
    (bySlot : PidsBySlot k) : (h.note k (some i) change).Tracked where
  bySlot := bySlot
  same j inside := by
    simp only [note, signals]
    by_cases here : j = i
    · subst here
      rw [Function.update_self, Function.update_self, tracked.same j inside]
    · rw [Function.update_of_ne here, Function.update_of_ne here]
      exact tracked.same j inside

/-- A process is created in a clean slot. -/
theorem Tracked.renew (tracked : h.Tracked) {k : Kernel} {i : Nat} (signals : k.signals = h.kernel.signals)
    (clean : h.kernel.signals i = .init) (bySlot : PidsBySlot k) :
    (h.note k (some i) fun _ => .init).Tracked := by
  refine tracked.change ?_ bySlot
  rw [signals, ← clean, Function.update_eq_self]

/-! ### What the calls do to the signal table -/

theorem sysFork_signals {k : Kernel} {r : Resources} {out : Fork} (forks : sysFork k r = some out) :
    out.kernel.signals = k.signals := by
  unfold sysFork at forks
  split at forks
  · cases forks
  dsimp only at forks
  split at forks
  · cases forks
  rename_i slot k₁ created
  obtain ⟨-, cr3, kstack_base, rfl⟩ := createIn_spec created
  cases forks
  dsimp only
  rcases processRun_eq (Kernel.setPcb (k.setPcb slot _) (getPcb (slot + 1)) _) (slot + 1) with same | ⟨i, -, started⟩
  · rw [same]
    rfl
  · rw [started]
    rfl

theorem processRun_signals (k : Kernel) (pid : Nat) : (processRun k pid).signals = k.signals := by
  rcases processRun_eq k pid with same | ⟨i, -, started⟩
  · rw [same]
  · rw [started]
    rfl

/-- The timer leaves the signal table and the identifiers. -/
theorem timerIsr_signals (k : Kernel) (rsp cr3 : Nat) : (timerIsr k rsp cr3).signals = k.signals := by
  unfold timerIsr
  dsimp only
  split <;> split <;> rfl

theorem timerIsr_bySlot {k : Kernel} (bySlot : PidsBySlot k) (rsp cr3 : Nat) : PidsBySlot (timerIsr k rsp cr3) := by
  have ticked : PidsBySlot { k with pit_ticks := Machine.u64 (k.pit_ticks + 1) } := bySlot
  unfold timerIsr
  dsimp only
  split
  · rename_i cur _
    have saved : PidsBySlot (Kernel.setPcb { k with pit_ticks := Machine.u64 (k.pit_ticks + 1) } cur
        { k.table cur with kstack := rsp, cr3 := cr3, state := .ready }) := ticked.setPcb (.inl rfl)
    split
    · exact saved.setState _ .running
    · exact saved.setState cur .running
  · split
    · exact ticked.setState _ .running
    · exact ticked

theorem schedulerExit_keeps {k : Kernel} (bySlot : PidsBySlot k) :
    (schedulerExit k).signals = k.signals ∧ PidsBySlot (schedulerExit k) := by
  unfold schedulerExit
  split
  · exact ⟨rfl, bySlot⟩
  · exact ⟨rfl, bySlot.setState _ .dead⟩

theorem sysExitGroup_keeps {k : Kernel} (bySlot : PidsBySlot k) :
    (sysExitGroup k).signals = k.signals ∧ PidsBySlot (sysExitGroup k) := by
  unfold sysExitGroup
  split
  · exact ⟨rfl, bySlot⟩
  · exact ⟨rfl, bySlot.setPcb (.inl rfl)⟩

/-- The slot a caller is in is that of its entry. -/
theorem signalCaller_slot {k : Kernel} (bySlot : PidsBySlot k) {i : Nat} (caller : signalCaller k = some i) :
    i < procMax ∧ (k.table i).pid = i + 1 ∧ processCurrentPcb k = some i := by
  unfold signalCaller at caller
  split at caller
  · cases caller
  rename_i cur isCurrent
  split_ifs at caller with unnamed
  cases caller
  have inside : i < procMax := findPcb_lt (by
    unfold processCurrentPcb at isCurrent
    exact isCurrent)
  refine ⟨inside, (bySlot i inside).resolve_left fun none => unnamed (.inl none), isCurrent⟩

/-! ### One step -/

theorem Tracked.kill (tracked : h.Tracked) (pid signum : Nat) : (h.step (.kill pid signum)).Tracked := by
  have found := findPcb_killTarget h.kernel pid
  unfold step sysKill
  dsimp only
  by_cases queues : Queues pid signum
  · obtain ⟨bound, named, real, notKill⟩ := queues
    rw [if_neg (Nat.not_le.mpr bound), if_neg named, if_pos ⟨bound, named, real, notKill⟩, found]
    cases killTarget h.kernel pid with
    | none => exact tracked.quiet rfl tracked.bySlot _
    | some i =>
        dsimp only
        rw [if_neg real, if_neg notKill]
        exact tracked.change rfl tracked.bySlot
  · rw [if_neg queues, found]
    cases killTarget h.kernel pid with
    | none =>
        split_ifs <;> exact tracked.quiet rfl tracked.bySlot _
    | some i =>
        dsimp only
        split_ifs with large noPid test isKill
        · exact tracked.quiet rfl tracked.bySlot _
        · exact tracked.quiet rfl tracked.bySlot _
        · exact tracked.quiet rfl tracked.bySlot _
        · refine tracked.quiet ?_ (tracked.bySlot.setState i .dead) _
          rfl
        · exact absurd ⟨Nat.not_le.mp large, noPid, test, isKill⟩ queues

/-- The entry of a caller changes, or there is no caller. -/
theorem Tracked.call (tracked : h.Tracked) (change : SignalState → SignalState) :
    (h.note (match currentSignals h.kernel with
      | none => h.kernel
      | some idx => setSignals h.kernel idx (change (h.kernel.signals idx)))
        (signalCaller h.kernel) change).Tracked := by
  unfold currentSignals
  cases caller : signalCaller h.kernel with
  | none => exact tracked.quiet rfl tracked.bySlot change
  | some i =>
      obtain ⟨-, pid, -⟩ := signalCaller_slot tracked.bySlot caller
      rw [Option.map_some, pid, Nat.add_sub_cancel]
      exact tracked.change rfl tracked.bySlot

/-- An entry that is not written is as if it was written back. -/
theorem Tracked.unwritten {k : Kernel} {own : Nat → SignalState} {idx : Nat}
    (written : Tracked ⟨setSignals k idx (k.signals idx), own⟩) : Tracked ⟨k, own⟩ := by
  refine ⟨written.bySlot, fun i inside => ?_⟩
  rw [← written.same i inside]
  exact (congrFun (Function.update_eq_self idx k.signals) i).symm

theorem sysSignal_eq (k : Kernel) {signum : Nat} (settable : Settable signum) (handler : Nat) :
    sysSignal k signum handler = match currentSignals k with
      | none => k
      | some idx => setSignals k idx ((k.signals idx).install signum handler) := by
  obtain ⟨positive, bound, notKill, notStop⟩ := settable
  have unsettable : ¬(signum < 1 ∨ maxSignal ≤ signum ∨ signum = sigkill ∨ signum = 19) := by
    rintro (low | high | isKill | isStop)
    · exact absurd positive (Nat.not_le.mpr low)
    · exact absurd bound (Nat.not_lt.mpr high)
    · exact notKill isKill
    · exact notStop isStop
  unfold sysSignal currentSignals signalCaller
  rw [if_neg unsettable]
  cases processCurrentPcb k with
  | none => rfl
  | some i =>
      dsimp only
      have sameTest : ((k.table i).pid = 0 ∨ procMax ≤ (k.table i).pid - 1) ↔
          ((k.table i).pid = 0 ∨ procMax < (k.table i).pid) := by omega
      by_cases outside : (k.table i).pid = 0 ∨ procMax < (k.table i).pid
      · rw [if_pos (sameTest.mpr outside), if_pos outside]
        rfl
      · rw [if_neg fun bad => outside (sameTest.mp bad), if_neg outside]
        rfl

theorem Tracked.signal (tracked : h.Tracked) (signum handler : Nat) : (h.step (.signal signum handler)).Tracked := by
  unfold step
  dsimp only
  by_cases settable : Settable signum
  · rw [if_pos settable, sysSignal_eq h.kernel settable]
    exact tracked.call (·.install signum handler)
  · have same : sysSignal h.kernel signum handler = h.kernel := by
      unfold sysSignal
      rw [if_pos]
      by_contra bad
      rw [not_or, not_or, not_or] at bad
      exact settable ⟨Nat.not_lt.mp bad.1, Nat.not_le.mp bad.2.1, bad.2.2.1, bad.2.2.2⟩
    rw [if_neg settable, same]
    exact tracked.quiet rfl tracked.bySlot _

theorem Tracked.sigaction (tracked : h.Tracked) (signum : Nat) (act : Option Nat) :
    (h.step (.sigaction signum act)).Tracked := by
  unfold step sysSigaction
  dsimp only
  by_cases settable : Settable signum
  · rw [if_pos settable, if_pos settable]
    have changed := tracked.call fun ss => match act with
      | none => ss
      | some handler => ss.install signum handler
    cases caller : currentSignals h.kernel with
    | none =>
        rw [caller] at changed
        exact changed
    | some idx =>
        rw [caller] at changed
        cases act with
        | none => exact changed.unwritten
        | some handler => exact changed
  · rw [if_neg settable, if_neg settable]
    exact tracked.quiet rfl tracked.bySlot _

theorem Tracked.sigprocmask (tracked : h.Tracked) (how : Nat) (set : Option (Nat → Bool)) :
    (h.step (.sigprocmask how set)).Tracked := by
  unfold step sysSigprocmask
  dsimp only
  have changed := tracked.call fun ss => match set with
    | none => ss
    | some set => (ss.mask how set).getD ss
  cases caller : currentSignals h.kernel with
  | none =>
      rw [caller] at changed
      exact changed
  | some idx =>
      rw [caller] at changed
      cases set with
      | none => exact changed.unwritten
      | some set =>
          dsimp only at changed ⊢
          cases mask : (h.kernel.signals idx).mask how set with
          | none =>
              rw [mask] at changed
              exact changed.unwritten
          | some ss =>
              rw [mask] at changed
              exact changed

/-! ### A delivery -/

theorem foldl_actOn_signals (idx i : Nat) (log : List (Nat × Nat)) (k : Kernel) :
    (log.foldl (actOn idx i) k).signals = Function.update k.signals idx ((k.signals idx).clear log) := by
  induction log generalizing k with
  | nil => exact (Function.update_eq_self idx k.signals).symm
  | cons entry log ih =>
      rw [List.foldl_cons, ih, actOn_signals, Function.update_self, Function.update_idem]
      rfl

theorem foldl_actOn_bySlot (idx i : Nat) (log : List (Nat × Nat)) {k : Kernel} (bySlot : PidsBySlot k) :
    PidsBySlot (log.foldl (actOn idx i) k) := by
  induction log generalizing k with
  | nil => exact bySlot
  | cons entry log ih =>
      refine ih fun j inside => ?_
      rw [actOn_pid]
      exact bySlot j inside

/-- Only what is acted on is no longer pending. -/
theorem clear_pending (ss : SignalState) (log : List (Nat × Nat)) {s : Nat} (apart : s ∉ log.map Prod.fst) :
    (ss.clear log).pending s = ss.pending s := by
  induction log generalizing ss with
  | nil => rfl
  | cons entry log ih =>
      rw [List.map_cons, List.mem_cons, not_or] at apart
      exact (ih _ apart.2).trans (Function.update_of_ne apart.1 _ _)

/-- The log of a slot is that of its own process, or empty. -/
theorem Tracked.deliveredAt (tracked : h.Tracked) (i : Fin procMax) :
    Proc.deliveredAt h.kernel i = [] ∨
      (h.kernel.table i).pid = i + 1 ∧ Proc.deliveredAt h.kernel i = delivered (h.own i) := by
  unfold Proc.deliveredAt
  dsimp only
  rcases tracked.bySlot i i.isLt with none | named
  · rw [if_pos (Or.inl none)]
    exact .inl rfl
  · rw [named, Nat.add_sub_cancel, tracked.same i i.isLt]
    have inside := i.isLt
    rw [if_neg (by omega)]
    exact .inr ⟨rfl, rfl⟩

theorem Tracked.deliver_signals (tracked : h.Tracked) (i : Fin procMax) :
    (signalDeliver h.kernel i).signals =
      Function.update h.kernel.signals i ((h.kernel.signals i).clear (Proc.deliveredAt h.kernel i)) := by
  rw [signalDeliver_eq, foldl_actOn_signals]
  rcases tracked.deliveredAt i with empty | ⟨named, -⟩
  · rw [empty]
    exact (Function.update_eq_self _ _).trans (Function.update_eq_self _ _).symm
  · rw [named, Nat.add_sub_cancel]

theorem Tracked.deliver (tracked : h.Tracked) (i : Fin procMax) : (h.step (.deliver i)).Tracked := by
  show (h.note (signalDeliver h.kernel i) (some i.val) (·.clear (Proc.deliveredAt h.kernel i))).Tracked
  refine tracked.change (tracked.deliver_signals i) ?_
  rw [signalDeliver_eq]
  exact foldl_actOn_bySlot _ _ _ tracked.bySlot

theorem Tracked.step (tracked : h.Tracked) (op : SignalOp) (clean : CreatesClean h op) :
    (SignalHistory.step h op).Tracked := by
  cases op with
  | create r entry name =>
      simp only [SignalHistory.step]
      cases created : createIn h.kernel r entry name with
      | none => exact tracked
      | some slot =>
          obtain ⟨i, k⟩ := slot
          have clean := clean.resolve_left (not_createFails created)
          obtain ⟨found, cr3, kstack_base, rfl⟩ := createIn_spec created
          refine tracked.renew ?_ (clean i found) (tracked.bySlot.setPcb (.inr rfl))
          rfl
  | fork r =>
      simp only [SignalHistory.step]
      cases forks : sysFork h.kernel r with
      | none => exact tracked
      | some out =>
          obtain ⟨parent, i, isCurrent, found, works, pid, bySlot, -⟩ := sysFork_spec tracked.bySlot forks
          have running : processCurrentPcb h.kernel ≠ none := by
            rw [isCurrent]
            exact Option.some_ne_none parent
          have clean := (clean.resolve_left running).resolve_left works
          dsimp only
          rw [pid, Nat.add_sub_cancel]
          exact tracked.renew (sysFork_signals forks) (clean i found) bySlot
  | run pid => exact tracked.quiet (processRun_signals _ pid) (tracked.bySlot.processRun pid) id
  | exit =>
      obtain ⟨signals, bySlot⟩ := schedulerExit_keeps tracked.bySlot
      exact tracked.quiet signals bySlot id
  | exitGroup =>
      obtain ⟨signals, bySlot⟩ := sysExitGroup_keeps tracked.bySlot
      exact tracked.quiet signals bySlot id
  | tick rsp cr3 => exact tracked.quiet (timerIsr_signals _ rsp cr3) (timerIsr_bySlot tracked.bySlot rsp cr3) id
  | kill pid signum => exact tracked.kill pid signum
  | signal signum handler => exact tracked.signal signum handler
  | sigaction signum act => exact tracked.sigaction signum act
  | sigprocmask how set => exact tracked.sigprocmask how set
  | deliver i => exact tracked.deliver i

theorem tracked_start : start.Tracked where
  bySlot _ _ := .inl rfl
  same _ _ := rfl

theorem Tracked.deliversOwn (tracked : h.Tracked) (op : SignalOp) : DeliversOwn h op := by
  cases op with
  | deliver i =>
      have entries : ∀ entry ∈ Proc.deliveredAt h.kernel i,
          ((h.own i).pending entry.1 && !(h.own i).blocked entry.1) = true ∧ entry.2 = (h.own i).handler entry.1 := by
        intro entry member
        rcases tracked.deliveredAt i with empty | ⟨-, own⟩
        · rw [empty] at member
          exact absurd member List.not_mem_nil
        · rw [own] at member
          exact (mem_deliveries member).2
      have unblocked : ∀ entry ∈ Proc.deliveredAt h.kernel i, (h.own i).blocked entry.1 = false := by
        intro entry member
        simpa using (Bool.and_eq_true_iff.mp (entries entry member).1).2
      refine ⟨signalDeliver_eq h.kernel i, ?_, unblocked, ?_, ?_, ?_, ?_⟩
      · exact fun entry member => (Bool.and_eq_true_iff.mp (entries entry member).1).1
      · exact fun entry member => (entries entry member).2
      · rcases tracked.deliveredAt i with empty | ⟨-, own⟩
        · rw [empty]
          exact List.nodup_nil
        · rw [own]
          exact nodup_deliveries _ _ _ _
      · intro before entry after split lower positive below isPending isOpen
        rcases tracked.deliveredAt i with empty | ⟨-, own⟩
        · rw [empty] at split
          exact absurd split.symm (List.append_ne_nil_of_right_ne_nil _ (List.cons_ne_nil _ _))
        · rw [own] at split
          refine deliveries_lower split positive below ?_
          rw [isPending, isOpen]
          rfl
      · intro s isPending isBlocked
        rw [tracked.deliver_signals i, Function.update_self, clear_pending, tracked.same i i.isLt]
        · exact isPending
        · intro member
          obtain ⟨entry, inLog, rfl⟩ := List.mem_map.mp member
          rw [unblocked entry inLog] at isBlocked
          cases isBlocked
  | _ => trivial

/-! ### Runs -/

/-- In a run in which every process is created in a clean slot, each delivery acts only on what belongs to the
process itself. -/
theorem deliversOwn_of_clean (ops : List SignalOp) (clean : Meets SignalHistory.step CreatesClean start ops) :
    Meets SignalHistory.step DeliversOwn start ops :=
  clean.imp (fun _ op tracked clean => tracked.step op clean) (fun _ op tracked _ => tracked.deliversOwn op)
    tracked_start

/-- A process gets a signal it handles. -/
def handledSignal : List SignalOp :=
  [.create someMemory 0x400000 [], .run 1, .signal 10 0x401000, .kill 1 10, .deliver ⟨0, by decide⟩]

theorem deliversOwn_handledSignal : Meets SignalHistory.step DeliversOwn start handledSignal := by
  refine deliversOwn_of_clean handledSignal ⟨Or.inr fun i found => rfl, ?_⟩
  exact ⟨trivial, trivial, trivial, trivial, trivial⟩

/-- A process ends with a signal pending; the next one in its slot dies of it. -/
theorem stale_signal_kills : ¬∀ ops, Meets SignalHistory.step DeliversOwn start ops := by
  intro promise
  have meets := promise [.create someMemory 0x400000 [], .run 1, .kill 1 10, .exitGroup,
    .create someMemory 0x500000 [], .run 1, .deliver ⟨0, by decide⟩]
  obtain ⟨-, -, -, -, -, -, delivery, -⟩ := meets
  have sent := delivery.sent (10, sigDfl) (by decide +kernel)
  exact absurd sent (by decide +kernel)

end SignalHistory

end Systrix.Proc
