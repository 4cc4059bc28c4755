import Mathlib.Data.Finset.Card
import Systrix.Proc.StateLaws

/-!
# Who is woken by a futex

The waiter table of `kernel/futex.c` names processes by slot and words by virtual address, and its
entries stay when the process that made them is killed.  The processes that are inside `FUTEX_WAIT`
are followed beside the kernel, and what `FUTEX_WAKE` does is compared with them.
-/

namespace Systrix.Proc

open Run

/-- A call of `FUTEX_WAIT` that has put its process to sleep. -/
structure Sleep where
  addr : Nat
  wait : FutexWait

/-- The kernel with the calls of `FUTEX_WAIT` that are under way, by slot of the process. -/
structure FutexSys where
  kernel : Kernel
  asleep : Nat → Option Sleep

/-- After boot. -/
def FutexSys.start : FutexSys := ⟨Kernel.start, fun _ => none⟩

/-- Waiting, timing out and waking; the ways a process dies; and those it begins and is switched. -/
inductive FutexOp where
  | wait (addr word val timeout_ms : Nat)
  | poll (i : Nat)
  | wake (addr val : Nat)
  | kill (pid signum : Nat)
  | deliverSignals (i : Nat)
  | victim (i : Nat)
  | exit
  | exitGroup
  | destroy (i : Nat)
  | create (r : Resources) (entry : Nat) (name : List UInt8)
  | run (pid : Nat)
  | fork (r : Resources)
  | tick (rsp cr3 : Nat)

/-- One operation.  A process inside `FUTEX_WAIT` makes no other call, and a new process is not inside
the call of the one that had its slot. -/
def FutexSys.step (s : FutexSys) : FutexOp → FutexSys
  | .wait addr word val timeout_ms =>
      match futexWait s.kernel addr word val timeout_ms with
      | .error _ => s
      | .ok (i, wait, k) =>
          if (s.asleep i).isSome then s else ⟨k, Function.update s.asleep i (some ⟨addr, wait⟩)⟩
  | .poll i =>
      match s.asleep i with
      | none => s
      | some sleep =>
          match futexPoll s.kernel i sleep.wait with
          | (wait, k) => ⟨k, Function.update s.asleep i (wait.map fun wait => { sleep with wait := wait })⟩
  | .wake addr val => { s with kernel := (futexWake s.kernel addr val).2 }
  | .kill pid signum => { s with kernel := (sysKill s.kernel pid signum).2 }
  | .deliverSignals i => { s with kernel := signalDeliver s.kernel i }
  | .victim i => { s with kernel := killVictim s.kernel i }
  | .exit => { s with kernel := schedulerExit s.kernel }
  | .exitGroup => { s with kernel := sysExitGroup s.kernel }
  | .destroy i => { s with kernel := processDestroy s.kernel i }
  | .create r entry name =>
      match createIn s.kernel r entry name with
      | none => s
      | some (i, k) => ⟨k, Function.update s.asleep i none⟩
  | .run pid => { s with kernel := processRun s.kernel pid }
  | .fork r =>
      match sysFork s.kernel r with
      | none => s
      | some out => ⟨out.kernel, Function.update s.asleep (out.child_pid - 1) none⟩
  | .tick rsp cr3 => { s with kernel := timerIsr s.kernel rsp cr3 }

/-- The process of a slot is blocked in `FUTEX_WAIT` on the word an address names in the address space
of another process. -/
def FutexSys.Waiting (s : FutexSys) (addr cur i : Nat) : Prop :=
  (s.kernel.table i).state = .blocked ∧ (s.asleep i).map Sleep.addr = some addr ∧
    (s.kernel.table i).cr3 = (s.kernel.table cur).cr3

instance (s : FutexSys) (addr cur : Nat) : DecidablePred (s.Waiting addr cur) :=
  fun _ => inferInstanceAs (Decidable (_ ∧ _ ∧ _))

/-- The processes that wait for a word. -/
def FutexSys.waiters (s : FutexSys) (addr cur : Nat) : Finset Nat :=
  (Finset.range procMax).filter (s.Waiting addr cur)

/-- The processes that became ready. -/
def madeReady (k k' : Kernel) : Finset Nat :=
  (Finset.range procMax).filter fun i => (k'.table i).state = .ready ∧ (k.table i).state ≠ .ready

/-- A wake of `n` processes on a word of the current process, which is not at the null address, makes
ready as many as there are, up to `n`, all of them waiting for that word, returns their number and
changes no other process. -/
def WakesRight (s : FutexSys) : FutexOp → Prop
  | .wake addr n => ∀ cur, addr ≠ 0 → processCurrentPcb s.kernel = some cur →
      (madeReady s.kernel (futexWake s.kernel addr n).2).card = min n (s.waiters addr cur).card ∧
      madeReady s.kernel (futexWake s.kernel addr n).2 ⊆ s.waiters addr cur ∧
      (futexWake s.kernel addr n).1 = (min n (s.waiters addr cur).card : Nat) ∧
      ∀ i, i ∉ madeReady s.kernel (futexWake s.kernel addr n).2 →
        (futexWake s.kernel addr n).2.table i = s.kernel.table i
  | _ => True

/-- The entries of the waiter table for an address, from an entry on. -/
def entriesFrom (k : Kernel) (addr i left : Nat) : List Nat :=
  (List.range' i left).filter fun e => (k.futex_table e).pcb.isSome ∧ (k.futex_table e).addr = addr

/-- The slots of the processes that the first `n` entries for an address name. -/
def named (k : Kernel) (addr n : Nat) : List Nat :=
  ((entriesFrom k addr 0 futexMaxWaiters).take n).map fun e => ((k.futex_table e).pcb).getD 0

/-- The state in which a wake is right: the first `n` entries for the address name different processes,
all of them waiting for the word. -/
def EntriesRight (s : FutexSys) : FutexOp → Prop
  | .wake addr n => ∀ cur, addr ≠ 0 → processCurrentPcb s.kernel = some cur →
      (named s.kernel addr n).Nodup ∧ ∀ i ∈ named s.kernel addr n, s.Waiting addr cur i
  | _ => True

/-- A wait that ends because its deadline has passed frees an entry that is its own, or free: it was
not woken and its entry given to another process since the deadline was looked at. -/
def TimeoutOwn (s : FutexSys) : FutexOp → Prop
  | .poll i => ∀ sleep, s.asleep i = some sleep → sleep.wait.expired = true →
      ∀ j, (s.kernel.futex_table sleep.wait.slot).pcb = some j → j = i
  | _ => True

/-! ## What a wake does -/

@[simp] theorem setState_futex (k : Kernel) (i : Nat) (state : PState) :
    (k.setState i state).futex_table = k.futex_table := rfl

@[simp] theorem setWaiter_self (k : Kernel) (i : Nat) (waiter : FutexWaiter) :
    (setWaiter k i waiter).futex_table i = waiter := Function.update_self _ _ _

theorem setWaiter_of_ne (k : Kernel) (waiter : FutexWaiter) {e i : Nat} (ne : e ≠ i) :
    (setWaiter k i waiter).futex_table e = k.futex_table e := Function.update_of_ne ne _ _

/-- The processes some entries name become ready and the entries free. -/
def wakeAll (k : Kernel) : List Nat → Kernel
  | [] => k
  | e :: rest =>
      wakeAll ((setWaiter k e ⟨0, none⟩).setState (((k.futex_table e).pcb).getD 0) .ready) rest

theorem entriesFrom_congr {k k' : Kernel} (addr i left : Nat)
    (same : ∀ e, i ≤ e → k'.futex_table e = k.futex_table e) :
    entriesFrom k' addr i left = entriesFrom k addr i left := by
  refine List.filter_congr fun e member => ?_
  rw [same e (List.mem_range'_1.mp member).1]

theorem futexWakeLoop_eq (addr val i left woken : Nat) (k : Kernel) :
    futexWakeLoop addr val i left woken k =
      (woken + ((entriesFrom k addr i left).take (val - woken)).length,
        wakeAll k ((entriesFrom k addr i left).take (val - woken))) := by
  induction left generalizing i woken k with
  | zero => simp [futexWakeLoop, entriesFrom, wakeAll]
  | succ left ih =>
      rw [futexWakeLoop]
      by_cases more : woken < val
      · rw [if_pos more]
        have unfoldEntries : entriesFrom k addr i (left + 1) =
            if (k.futex_table i).pcb.isSome ∧ (k.futex_table i).addr = addr then
              i :: entriesFrom k addr (i + 1) left else entriesFrom k addr (i + 1) left := by
          unfold entriesFrom
          rw [List.range'_succ, List.filter_cons]
          simp
        cases sleeper : (k.futex_table i).pcb with
        | none =>
            simp only [sleeper, Option.isSome_none, Bool.false_eq_true, false_and, if_false] at unfoldEntries
            rw [unfoldEntries]
            exact ih (i + 1) woken k
        | some pcb =>
            by_cases sameAddr : (k.futex_table i).addr = addr
            · simp only [sleeper, Option.isSome_some, sameAddr, and_self, if_true] at unfoldEntries
              have later : entriesFrom ((setWaiter k i ⟨0, none⟩).setState pcb .ready) addr (i + 1) left =
                  entriesFrom k addr (i + 1) left := by
                refine entriesFrom_congr addr (i + 1) left fun e above => ?_
                exact setWaiter_of_ne k _ (Nat.ne_of_gt above)
              have rest : val - woken = (val - (woken + 1)) + 1 := by omega
              rw [unfoldEntries, rest, List.take_succ_cons]
              simp only [if_pos sameAddr]
              rw [ih, later, List.length_cons, wakeAll, sleeper]
              simp only [Option.getD_some]
              congr 1
              omega
            · simp only [sameAddr, and_false, if_false] at unfoldEntries
              rw [unfoldEntries]
              simp only [if_neg sameAddr]
              exact ih (i + 1) woken k
      · rw [if_neg more, Nat.sub_eq_zero_of_le (Nat.not_lt.mp more)]
        rfl

theorem futexWake_eq {addr : Nat} (nonzero : addr ≠ 0) (n : Nat) (k : Kernel) :
    futexWake k addr n = (((named k addr n).length : Int),
      wakeAll k ((entriesFrom k addr 0 futexMaxWaiters).take n)) := by
  unfold futexWake named
  rw [if_neg nonzero, futexWakeLoop_eq, Nat.zero_add, Nat.sub_zero, List.length_map]

theorem wakeAll_futex (k : Kernel) (entries : List Nat) (e : Nat) :
    (wakeAll k entries).futex_table e = if e ∈ entries then ⟨0, none⟩ else k.futex_table e := by
  induction entries generalizing k with
  | nil => rfl
  | cons first rest ih =>
      rw [wakeAll, ih]
      by_cases later : e ∈ rest
      · rw [if_pos later, if_pos (List.mem_cons_of_mem _ later)]
      · rw [if_neg later]
        by_cases here : e = first
        · subst here
          rw [if_pos List.mem_cons_self]
          exact setWaiter_self k e _
        · rw [if_neg (by simp [here, later])]
          exact setWaiter_of_ne k _ here

/-- The processes named by different entries, and no others, are made ready. -/
theorem wakeAll_table (k : Kernel) {entries : List Nat} (distinct : entries.Nodup) (i : Nat) :
    (wakeAll k entries).table i =
      if i ∈ entries.map (fun e => ((k.futex_table e).pcb).getD 0) then
        { k.table i with state := .ready } else k.table i := by
  induction entries generalizing k with
  | nil => rfl
  | cons first rest ih =>
      obtain ⟨notLater, distinct⟩ := List.nodup_cons.mp distinct
      have same : ∀ pcb, rest.map (fun e => ((((setWaiter k first ⟨0, none⟩).setState pcb .ready).futex_table
          e).pcb).getD 0) = rest.map fun e => ((k.futex_table e).pcb).getD 0 := by
        intro pcb
        refine List.map_congr_left fun e member => ?_
        have other : e ≠ first := fun equal => notLater (equal ▸ member)
        rw [setState_futex, setWaiter_of_ne k _ other]
      rw [wakeAll, ih _ distinct, same, List.map_cons]
      generalize (k.futex_table first).pcb.getD 0 = pcb
      by_cases here : i = pcb
      · subst here
        have now : ((setWaiter k first ⟨0, none⟩).setState i .ready).table i =
            { k.table i with state := .ready } := setPcb_table_self _ _ _
        rw [if_pos List.mem_cons_self, now]
        split <;> rfl
      · have kept : ((setWaiter k first ⟨0, none⟩).setState pcb .ready).table i = k.table i :=
          setState_table_of_ne _ _ _ here
        rw [kept]
        simp only [List.mem_cons, here, false_or]

/-! ## Who sleeps where -/

/-- The waiter table is left alone and nobody falls asleep. -/
structure Calm (k' k : Kernel) : Prop where
  futex : k'.futex_table = k.futex_table
  blocked : ∀ i, (k'.table i).state = .blocked → (k.table i).state = .blocked

namespace Calm

variable {k k' k'' : Kernel}

theorem refl (k : Kernel) : Calm k k := ⟨rfl, fun _ => id⟩

theorem trans (second : Calm k'' k') (first : Calm k' k) : Calm k'' k :=
  ⟨second.futex.trans first.futex, fun i blocked => first.blocked i (second.blocked i blocked)⟩

theorem setPcb {i : Nat} {pcb : Pcb} (slot : pcb.state = .blocked → (k.table i).state = .blocked) :
    Calm (k.setPcb i pcb) k := by
  refine ⟨rfl, fun j blocked => ?_⟩
  by_cases same : j = i
  · subst same
    rw [setPcb_table_self] at blocked
    exact slot blocked
  · rwa [setPcb_table_of_ne k i pcb same] at blocked

theorem setState {i : Nat} {state : PState} (awake : state ≠ .blocked) : Calm (k.setState i state) k :=
  setPcb fun blocked => absurd blocked awake

/-- The part of a process control block that the user side sees may change. -/
theorem setUser (i ursp entry : Nat) :
    Calm (k.setPcb i { k.table i with ursp := ursp, entry := entry }) k :=
  setPcb id

theorem createIn {r : Resources} {entry i : Nat} {name : List UInt8}
    (created : createIn k r entry name = some (i, k')) : Calm k' k := by
  obtain ⟨-, cr3, kstack_base, rfl⟩ := createIn_spec created
  exact setPcb fun blocked => by cases blocked

theorem processRun (pid : Nat) : Calm (processRun k pid) k := by
  rcases processRun_eq k pid with same | ⟨i, -, started⟩
  · rw [same]
    exact refl k
  · rw [started]
    exact setState (by decide)

theorem sysFork {r : Resources} {out : Fork} (forks : sysFork k r = some out) : Calm out.kernel k := by
  unfold Proc.sysFork at forks
  split at forks
  · cases forks
  · dsimp only at forks
    split at forks
    · cases forks
    · rename_i created
      cases forks
      have filled : ∀ (k : Kernel) (i ursp entry brk : Nat), Calm
          (k.setPcb i { k.table i with ursp := ursp, entry := entry, brk := brk }) k :=
        fun _ _ _ _ _ => setPcb id
      exact (processRun _).trans ((filled _ _ _ _ _).trans (createIn created))

theorem schedulerExit : Calm (schedulerExit k) k := by
  unfold Proc.schedulerExit
  cases processCurrentPcb k with
  | none => exact refl k
  | some i => exact setState (by decide)

theorem processDestroy (i : Nat) : Calm (processDestroy k i) k :=
  setPcb fun blocked => by cases blocked

theorem sysExitGroup : Calm (sysExitGroup k) k := by
  unfold Proc.sysExitGroup
  cases processCurrentPcb k with
  | none => exact refl k
  | some i => exact processDestroy i

theorem killVictim (i : Nat) : Calm (killVictim k i) k := by
  unfold Proc.killVictim
  split_ifs
  · exact setState (by decide)
  · exact refl k

theorem sysKill (pid signum : Nat) : Calm (sysKill k pid signum).2 k := by
  unfold Proc.sysKill
  cases (findPcb k.table fun t =>
      t.state ≠ .empty ∧ t.state ≠ .dead ∧ (t.pid = pid ∨ pid = 2 ^ 64 - 1)) with
  | none => split_ifs <;> exact refl k
  | some i =>
      dsimp only
      split_ifs
      · exact refl k
      · exact refl k
      · exact refl k
      · exact setState (by decide)
      · exact ⟨rfl, fun _ => id⟩

theorem deliverLoop (idx i : Nat) (pending : Nat → Bool) (sig left : Nat) (k : Kernel) :
    Calm (deliverLoop idx i pending sig left k) k := by
  induction left generalizing sig k with
  | zero => exact refl k
  | succ left ih =>
      have noted : ∀ ss, Calm (setSignals k idx ss) k := fun _ => ⟨rfl, fun _ => id⟩
      rw [Proc.deliverLoop]
      dsimp only
      split_ifs
      · exact (ih _ _).trans (noted _)
      · exact (setState (by decide)).trans (noted _)
      · exact (ih _ _).trans (noted _)
      · exact (setUser i _ _).trans (noted _)
      · exact ih _ _

theorem signalDeliver (i : Nat) : Calm (signalDeliver k i) k := by
  unfold Proc.signalDeliver
  dsimp only
  split_ifs
  · exact refl k
  · exact deliverLoop _ _ _ _ _ _

theorem timerIsr (rsp cr3 : Nat) : Calm (timerIsr k rsp cr3) k := by
  have later : Calm { k with pit_ticks := Machine.u64 (k.pit_ticks + 1) } k := ⟨rfl, fun _ => id⟩
  have runs : ∀ (k : Kernel) (i pid : Nat), Calm { k.setState i .running with current_pid := pid } k :=
    fun k i _ =>
      have started : Calm (k.setState i .running) k := setState (by decide)
      ⟨rfl, started.blocked⟩
  unfold Proc.timerIsr
  dsimp only
  split
  · have stopped : ∀ (k : Kernel) (i kstack cr3 : Nat), Calm
        (k.setPcb i { k.table i with kstack := kstack, cr3 := cr3, state := .ready }) k :=
      fun _ _ _ _ => setPcb fun blocked => by cases blocked
    split
    · exact (runs _ _ _).trans ((stopped _ _ _ _).trans later)
    · exact (setState (by decide)).trans ((stopped _ _ _ _).trans later)
  · split
    · exact (runs _ _ _).trans later
    · exact later

end Calm

/-- A process that is blocked in `FUTEX_WAIT` has an entry of its own, and entries name slots of the
process table. -/
structure FutexSys.Inv (s : FutexSys) : Prop where
  entry : ∀ i sleep, s.asleep i = some sleep → (s.kernel.table i).state = .blocked →
    s.kernel.futex_table sleep.wait.slot = ⟨sleep.addr, some i⟩
  slot : ∀ i sleep, s.asleep i = some sleep → sleep.wait.slot < futexMaxWaiters ∧ sleep.addr ≠ 0
  inside : ∀ e i, (s.kernel.futex_table e).pcb = some i → i < procMax

theorem FutexSys.inv_start : FutexSys.start.Inv where
  entry _ _ asleep := by cases asleep
  slot _ _ asleep := by cases asleep
  inside _ _ pcb := by cases pcb

section Steps

variable {s : FutexSys}

/-- Calls end, and the kernel stays calm. -/
theorem FutexSys.Inv.calm (inv : s.Inv) {k : Kernel} {asleep : Nat → Option Sleep} (calm : Calm k s.kernel)
    (fewer : ∀ i sleep, asleep i = some sleep → s.asleep i = some sleep) : (FutexSys.mk k asleep).Inv where
  entry i sleep isAsleep blocked := by
    change k.futex_table _ = _
    rw [calm.futex]
    exact inv.entry i sleep (fewer i sleep isAsleep) (calm.blocked i blocked)
  slot i sleep isAsleep := inv.slot i sleep (fewer i sleep isAsleep)
  inside e i pcb := inv.inside e i (calm.futex ▸ pcb)

theorem futexAllocSlot_spec {k : Kernel} {slot : Nat} (found : futexAllocSlot k = some slot) :
    slot < futexMaxWaiters ∧ (k.futex_table slot).addr = 0 := by
  unfold futexAllocSlot at found
  have free := List.find?_some (p := fun i => decide ((k.futex_table i).addr = 0)) found
  exact ⟨List.mem_range.mp (List.mem_of_find?_eq_some found), of_decide_eq_true free⟩

theorem futexWait_spec {k k' : Kernel} {addr word val timeout_ms i : Nat} {wait : FutexWait}
    (sleeps : futexWait k addr word val timeout_ms = .ok (i, wait, k')) :
    addr ≠ 0 ∧ processCurrentPcb k = some i ∧ ∃ slot, futexAllocSlot k = some slot ∧
      k' = (setWaiter k slot ⟨addr, some i⟩).setState i .blocked ∧ slot = wait.slot := by
  unfold futexWait at sleeps
  split at sleeps
  · cases sleeps
  rename_i nonzero
  split at sleeps
  · cases sleeps
  split at sleeps
  · cases sleeps
  rename_i isCurrent
  split at sleeps
  · cases sleeps
  rename_i slot found
  cases sleeps
  exact ⟨nonzero, isCurrent, slot, found, rfl, rfl⟩

theorem fewer_update {asleep : Nat → Option Sleep} {i j : Nat} {sleep : Sleep}
    (isAsleep : Function.update asleep i none j = some sleep) : asleep j = some sleep := by
  by_cases same : j = i
  · subst same
    rw [Function.update_self] at isAsleep
    cases isAsleep
  · rwa [Function.update_of_ne same] at isAsleep

theorem FutexSys.Inv.wait (inv : s.Inv) (addr word val timeout_ms : Nat) :
    (s.step (.wait addr word val timeout_ms)).Inv := by
  simp only [FutexSys.step]
  split
  · exact inv
  rename_i i wait k sleeps
  split_ifs with already
  · exact inv
  obtain ⟨nonzero, isCurrent, slot, found, rfl, slotEq⟩ := futexWait_spec sleeps
  have inside : i < procMax := findPcb_lt isCurrent
  have free := futexAllocSlot_spec found
  constructor
  · intro j sleep isAsleep blocked
    by_cases same : j = i
    · subst same
      dsimp only at isAsleep
      rw [Function.update_self] at isAsleep
      cases isAsleep
      rw [← slotEq]
      rw [setState_futex, setWaiter_self]
    · dsimp only at isAsleep
      rw [Function.update_of_ne same] at isAsleep
      have before : (s.kernel.table j).state = .blocked := by
        have kept := setState_table_of_ne (setWaiter s.kernel slot ⟨addr, some i⟩) i .blocked same
        exact (congrArg Pcb.state kept).symm.trans blocked
      have entry := inv.entry j sleep isAsleep before
      have other : sleep.wait.slot ≠ slot := by
        rintro rfl
        rw [entry] at free
        exact (inv.slot j sleep isAsleep).2 free.2
      rw [setState_futex, setWaiter_of_ne s.kernel _ other, entry]
  · intro j sleep isAsleep
    by_cases same : j = i
    · subst same
      dsimp only at isAsleep
      rw [Function.update_self] at isAsleep
      cases isAsleep
      exact ⟨slotEq ▸ free.1, nonzero⟩
    · dsimp only at isAsleep
      rw [Function.update_of_ne same] at isAsleep
      exact inv.slot j sleep isAsleep
  · intro e j pcb
    by_cases same : e = slot
    · subst same
      rw [setState_futex, setWaiter_self] at pcb
      cases pcb
      exact inside
    · rw [setState_futex, setWaiter_of_ne s.kernel _ same] at pcb
      exact inv.inside e j pcb

/-- The loop of a wait goes around again. -/
theorem FutexSys.Inv.again (inv : s.Inv) {i : Nat} {sleep : Sleep} {wait : FutexWait}
    (isAsleep : s.asleep i = some sleep) (slot : wait.slot = sleep.wait.slot) :
    (FutexSys.mk s.kernel (Function.update s.asleep i (some { sleep with wait := wait }))).Inv := by
  have old : ∀ j new, Function.update s.asleep i (some { sleep with wait := wait }) j = some new →
      ∃ sleep, s.asleep j = some sleep ∧ new.addr = sleep.addr ∧ new.wait.slot = sleep.wait.slot := by
    intro j new isNew
    by_cases same : j = i
    · subst same
      rw [Function.update_self] at isNew
      cases isNew
      exact ⟨sleep, isAsleep, rfl, slot⟩
    · rw [Function.update_of_ne same] at isNew
      exact ⟨new, isNew, rfl, rfl⟩
  constructor
  · intro j new isNew blocked
    obtain ⟨sleep, isAsleep, addr, slot⟩ := old j new isNew
    rw [slot, addr]
    exact inv.entry j sleep isAsleep blocked
  · intro j new isNew
    obtain ⟨sleep, isAsleep, addr, slot⟩ := old j new isNew
    rw [slot, addr]
    exact inv.slot j sleep isAsleep
  · exact inv.inside

/-- A wait times out and frees an entry that is its own, or free. -/
theorem FutexSys.Inv.timeout (inv : s.Inv) {i : Nat} {sleep : Sleep} (isAsleep : s.asleep i = some sleep)
    (own : ∀ j, (s.kernel.futex_table sleep.wait.slot).pcb = some j → j = i) :
    (FutexSys.mk ((setWaiter s.kernel sleep.wait.slot ⟨0, none⟩).setState i .running)
      (Function.update s.asleep i none)).Inv := by
  constructor
  · intro j other isOther blocked
    by_cases same : j = i
    · subst same
      dsimp only at isOther
      rw [Function.update_self] at isOther
      cases isOther
    · dsimp only at isOther
      rw [Function.update_of_ne same] at isOther
      have kept := setState_table_of_ne (setWaiter s.kernel sleep.wait.slot ⟨0, none⟩) i .running same
      have before : (s.kernel.table j).state = .blocked := (congrArg Pcb.state kept).symm.trans blocked
      have entry := inv.entry j other isOther before
      have elsewhere : other.wait.slot ≠ sleep.wait.slot := by
        intro equal
        rw [← equal, entry] at own
        exact same (own j rfl)
      rw [setState_futex, setWaiter_of_ne s.kernel _ elsewhere, entry]
  · exact fun j other isOther => inv.slot j other (fewer_update isOther)
  · intro e j pcb
    by_cases same : e = sleep.wait.slot
    · subst same
      rw [setState_futex, setWaiter_self] at pcb
      cases pcb
    · rw [setState_futex, setWaiter_of_ne s.kernel _ same] at pcb
      exact inv.inside e j pcb

theorem FutexSys.Inv.poll (inv : s.Inv) {i : Nat} (own : TimeoutOwn s (.poll i)) :
    (s.step (.poll i)).Inv := by
  simp only [FutexSys.step]
  cases isAsleep : s.asleep i with
  | none => exact inv
  | some sleep =>
      have ended : ∀ {k : Kernel}, Calm k s.kernel →
          (FutexSys.mk k (Function.update s.asleep i none)).Inv :=
        fun calm => inv.calm calm fun _ _ => fewer_update
      dsimp only
      unfold futexPoll
      split_ifs with expired awake late
      · refine inv.timeout isAsleep fun j pcb => ?_
        exact own sleep isAsleep expired j pcb
      · exact ended (.refl _)
      · exact inv.again isAsleep rfl
      · exact inv.again isAsleep rfl

theorem entriesFrom_nodup (k : Kernel) (addr i left : Nat) : (entriesFrom k addr i left).Nodup :=
  (List.nodup_range' _).filter _

theorem FutexSys.Inv.wake (inv : s.Inv) (addr n : Nat) : (s.step (.wake addr n)).Inv := by
  simp only [FutexSys.step]
  by_cases nonzero : addr = 0
  · rw [futexWake, if_pos nonzero]
    exact inv
  rw [futexWake_eq nonzero]
  dsimp only
  have distinct := (entriesFrom_nodup s.kernel addr 0 futexMaxWaiters).take (i := n)
  generalize (entriesFrom s.kernel addr 0 futexMaxWaiters).take n = entries at distinct
  constructor
  · intro i sleep isAsleep blocked
    dsimp only at blocked ⊢
    rw [wakeAll_table s.kernel distinct] at blocked
    split_ifs at blocked with isNamed
    have entry := inv.entry i sleep isAsleep blocked
    have kept : sleep.wait.slot ∉ entries := by
      intro woken
      apply isNamed
      rw [List.mem_map]
      refine ⟨_, woken, ?_⟩
      rw [entry]
      rfl
    rw [wakeAll_futex, if_neg kept, entry]
  · exact inv.slot
  · intro e i pcb
    dsimp only at pcb
    rw [wakeAll_futex] at pcb
    split_ifs at pcb
    exact inv.inside e i pcb

end Steps

theorem FutexSys.Inv.step {s : FutexSys} (inv : s.Inv) (op : FutexOp) (own : TimeoutOwn s op) :
    (s.step op).Inv := by
  cases op with
  | wait addr word val timeout_ms => exact inv.wait addr word val timeout_ms
  | poll i => exact inv.poll own
  | wake addr n => exact inv.wake addr n
  | kill pid signum => exact inv.calm (.sysKill pid signum) fun _ _ => id
  | deliverSignals i => exact inv.calm (.signalDeliver i) fun _ _ => id
  | victim i => exact inv.calm (.killVictim i) fun _ _ => id
  | exit => exact inv.calm .schedulerExit fun _ _ => id
  | exitGroup => exact inv.calm .sysExitGroup fun _ _ => id
  | destroy i => exact inv.calm (.processDestroy i) fun _ _ => id
  | create r entry name =>
      simp only [FutexSys.step]
      split
      · exact inv
      · rename_i created
        exact inv.calm (.createIn created) fun _ _ => fewer_update
  | run pid => exact inv.calm (.processRun pid) fun _ _ => id
  | fork r =>
      simp only [FutexSys.step]
      split
      · exact inv
      · rename_i forks
        exact inv.calm (.sysFork forks) fun _ _ => fewer_update
  | tick rsp cr3 => exact inv.calm (.timerIsr rsp cr3) fun _ _ => id

/-! ## When a wake is right -/

section Wake

variable {s : FutexSys} {addr n cur : Nat}

/-- Only processes that the first entries name become ready. -/
theorem madeReady_subset (nonzero : addr ≠ 0) :
    madeReady s.kernel (futexWake s.kernel addr n).2 ⊆ (named s.kernel addr n).toFinset := by
  intro i ready
  obtain ⟨-, now, before⟩ := Finset.mem_filter.mp ready
  have distinct := (entriesFrom_nodup s.kernel addr 0 futexMaxWaiters).take (i := n)
  rw [futexWake_eq nonzero, wakeAll_table s.kernel distinct] at now
  split_ifs at now with isNamed
  · exact List.mem_toFinset.mpr isNamed
  · exact absurd now before

theorem FutexSys.Inv.named_inside (inv : s.Inv) {i : Nat} (isNamed : i ∈ named s.kernel addr n) :
    i < procMax := by
  obtain ⟨e, isEntry, rfl⟩ := List.mem_map.mp isNamed
  have full := (List.mem_filter.mp (List.mem_of_mem_take isEntry)).2
  obtain ⟨pcb, -⟩ := of_decide_eq_true full
  obtain ⟨i, some⟩ := Option.isSome_iff_exists.mp pcb
  rw [some]
  exact inv.inside e i some

/-- When all of them wait, they are those that become ready. -/
theorem madeReady_eq (inv : s.Inv) (nonzero : addr ≠ 0)
    (waiting : ∀ i ∈ named s.kernel addr n, s.Waiting addr cur i) :
    madeReady s.kernel (futexWake s.kernel addr n).2 = (named s.kernel addr n).toFinset := by
  apply Finset.Subset.antisymm (madeReady_subset nonzero)
  intro i member
  have isNamed := List.mem_toFinset.mp member
  have distinct := (entriesFrom_nodup s.kernel addr 0 futexMaxWaiters).take (i := n)
  refine Finset.mem_filter.mpr ⟨Finset.mem_range.mpr (inv.named_inside isNamed), ?_, ?_⟩
  · rw [futexWake_eq nonzero, wakeAll_table s.kernel distinct]
    exact congrArg Pcb.state (if_pos isNamed)
  · rw [(waiting i isNamed).1]
    decide

/-- Who waits for the word is named by an entry for its address, when there are not more of them. -/
theorem FutexSys.Inv.waiter_named (inv : s.Inv) (few : (named s.kernel addr n).length < n) {i : Nat}
    (waits : i ∈ s.waiters addr cur) : i ∈ named s.kernel addr n := by
  obtain ⟨-, blocked, isAddr, -⟩ := Finset.mem_filter.mp waits
  obtain ⟨sleep, isAsleep, rfl⟩ := Option.map_eq_some_iff.mp isAddr
  have entry := inv.entry i sleep isAsleep blocked
  have inside := (inv.slot i sleep isAsleep).1
  unfold named at few ⊢
  rw [List.length_map, List.length_take] at few
  rw [List.take_of_length_le (by omega), List.mem_map]
  refine ⟨sleep.wait.slot, ?_, ?_⟩
  · rw [entriesFrom, List.mem_filter, List.mem_range'_1, entry]
    exact ⟨⟨Nat.zero_le _, by omega⟩, by simp⟩
  · rw [entry]
    rfl

/-- A wake is right when the first entries for the address name different processes that wait for the
word, and only then. -/
theorem FutexSys.Inv.wakesRight_iff (inv : s.Inv) (op : FutexOp) : WakesRight s op ↔ EntriesRight s op := by
  cases op with
  | wake addr n =>
      refine forall_congr' fun cur => forall_congr' fun nonzero => forall_congr' fun _ => ?_
      have result : (futexWake s.kernel addr n).1 = ((named s.kernel addr n).length : Int) := by
        rw [futexWake_eq nonzero]
      constructor
      · rintro ⟨card, subset, returns, -⟩
        have fits := Finset.card_le_card (madeReady_subset (s := s) (n := n) nonzero)
        have short := List.toFinset_card_le (named s.kernel addr n)
        have equal : (named s.kernel addr n).length = min n (s.waiters addr cur).card :=
          Int.ofNat.inj (result.symm.trans returns)
        have all := Finset.eq_of_subset_of_card_le (madeReady_subset (s := s) (n := n) nonzero) (by omega)
        constructor
        · apply List.dedup_eq_self.mp
          apply (List.dedup_sublist _).eq_of_length
          rw [← List.card_toFinset]
          omega
        · intro i isNamed
          have ready := all ▸ List.mem_toFinset.mpr isNamed
          exact (Finset.mem_filter.mp (subset ready)).2
      · rintro ⟨distinct, waiting⟩
        have ready := madeReady_eq inv nonzero waiting
        have card := List.toFinset_card_of_nodup distinct
        have subset : (named s.kernel addr n).toFinset ⊆ s.waiters addr cur := by
          intro i member
          have isNamed := List.mem_toFinset.mp member
          exact Finset.mem_filter.mpr ⟨Finset.mem_range.mpr (inv.named_inside isNamed), waiting i isNamed⟩
        have equal : (named s.kernel addr n).length = min n (s.waiters addr cur).card := by
          have atLeast := Finset.card_le_card subset
          have atMost : (named s.kernel addr n).length ≤ n := by
            rw [named, List.length_map, List.length_take]
            exact min_le_left _ _
          by_cases few : (named s.kernel addr n).length < n
          · have every : s.waiters addr cur ⊆ (named s.kernel addr n).toFinset := fun i waits =>
              List.mem_toFinset.mpr (inv.waiter_named few waits)
            have same := Finset.card_le_card every
            omega
          · omega
        rw [ready, card, result, equal]
        refine ⟨rfl, subset, rfl, fun i other => ?_⟩
        have nodup := (entriesFrom_nodup s.kernel addr 0 futexMaxWaiters).take (i := n)
        rw [futexWake_eq nonzero, wakeAll_table s.kernel nodup]
        exact if_neg fun isNamed => other (List.mem_toFinset.mpr isNamed)
  | _ => exact Iff.rfl

end Wake

/-- In runs whose time-outs free entries of their own, wakes are right when the first entries for their
address name different processes that wait for the word. -/
theorem wakesRight_run_iff (ops : List FutexOp)
    (own : Meets FutexSys.step TimeoutOwn FutexSys.start ops) :
    Meets FutexSys.step WakesRight FutexSys.start ops ↔
      Meets FutexSys.step EntriesRight FutexSys.start ops :=
  meets_iff (I := FutexSys.Inv) (fun _ op inv _ => inv.wakesRight_iff op)
    (fun _ op inv own _ => inv.step op own) FutexSys.inv_start own

/-- Memory for a process with another address space. -/
def otherMemory : Resources := ⟨some 0x11000000, some 0x202000, some 0x203000⟩

/-- A process waits for the word at an address; another begins, with an address space of its own. -/
def oneSleeper : List FutexOp :=
  [.create someMemory 0x400000 [], .run 1, .wait 0x800000 5 5 0, .create otherMemory 0x400000 [], .run 2]

/-- The other process wakes who waits at the address. -/
def wakeOther : List FutexOp := oneSleeper ++ [.wake 0x800000 1]

/-- The sleeper is killed before that. -/
def wakeDead : List FutexOp := oneSleeper ++ [.kill 1 sigkill, .wake 0x800000 1]

/-- A process that waits for a word of its own address space is woken for that of another one; and one
that is dead is woken, and runs again. -/
theorem wakes_other_and_dead :
    ¬Meets FutexSys.step WakesRight FutexSys.start wakeOther ∧
      ¬Meets FutexSys.step WakesRight FutexSys.start wakeDead := by
  constructor
  · rintro ⟨-, -, -, -, -, wakes, -⟩
    have card := (wakes 1 (by decide) (by decide +kernel)).1
    revert card
    decide +kernel
  · rintro ⟨-, -, -, -, -, -, wakes, -⟩
    have card := (wakes 1 (by decide) (by decide +kernel)).1
    revert card
    decide +kernel

/-- A process of the same address space wakes it. -/
def wakeSame : List FutexOp :=
  [.create someMemory 0x400000 [], .run 1, .wait 0x800000 5 5 0, .create someMemory 0x400000 [], .run 2,
    .wake 0x800000 1]

theorem wakesRight_run_iff_wakeSame : Meets FutexSys.step WakesRight FutexSys.start wakeSame := by
  have own : Meets FutexSys.step TimeoutOwn FutexSys.start wakeSame :=
    ⟨trivial, trivial, trivial, trivial, trivial, trivial, trivial⟩
  apply (wakesRight_run_iff wakeSame own).mpr
  refine ⟨trivial, trivial, trivial, trivial, trivial, fun cur _ isCurrent => ?_, trivial⟩
  have here : some 1 = some cur := Eq.trans (by decide +kernel) isCurrent
  cases here
  decide +kernel

end Systrix.Proc
