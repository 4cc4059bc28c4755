import Systrix.Lib.Turns
import Systrix.Proc.StateLaws

/-!
# Round robin

The timer interrupt takes the processes that can run in turns.  The queue is not stored anywhere: it is the order in
which the wrapped scan of `timer_isr` comes to the slots of the table.
-/

namespace Systrix.Proc

open Run

/-- A process that runs or is ready to run. -/
def CanRun (pcb : Pcb) : Prop := pcb.state = .ready ∨ pcb.state = .running

instance (pcb : Pcb) : Decidable (CanRun pcb) := inferInstanceAs (Decidable (_ ∨ _))

/-- The slots of the processes that can run, in the order of the table. -/
def runnable (k : Kernel) : List Nat := (List.range procMax).filter fun i => CanRun (k.table i)

/-- Where the scan of `timer_isr` starts. -/
def scanStart (k : Kernel) : Nat :=
  match processCurrentPcb k with
  | some cur => cur + 1
  | none => 0

/-- The slots of the processes that can run, in the order of the next scan. -/
def upcoming (k : Kernel) : List Nat := ((List.range procMax).rotate (scanStart k)).filter fun i => CanRun (k.table i)

/-! ## The scan -/

/-- The scan is the table from a slot on, and then up to it. -/
theorem scan_eq (start : Nat) :
    ((List.range procMax).map fun j => (start + j) % procMax) = (List.range procMax).rotate start := by
  apply List.ext_getElem
  · rw [List.length_map, List.length_rotate]
  · intro i inside inside'
    rw [List.getElem_map, List.getElem_rotate, List.getElem_range, List.getElem_range, List.length_range, Nat.add_comm]

theorem nextReady_eq (table : Table) (start : Nat) :
    nextReady table start =
      (((List.range procMax).rotate start).filter fun i => decide ((table i).state = .ready)).head? := by
  rw [nextReady, scan_eq, List.head?_filter]

theorem mem_scan {start i : Nat} : i ∈ (List.range procMax).rotate start ↔ i < procMax := by
  rw [List.mem_rotate, List.mem_range]

/-- A scan that starts behind the first slot that another one finds. -/
theorem filter_scan {start next : Nat} {test : Nat → Bool} {rest : List Nat}
    (found : ((List.range procMax).rotate start).filter test = next :: rest) :
    ((List.range procMax).rotate (next + 1)).filter test = rest ++ [next] := by
  obtain ⟨before, behind, split, skipped, hit, later⟩ := List.filter_eq_cons_iff.mp found
  have at_next : next = (start + before.length) % procMax := by
    have here : ((List.range procMax).rotate start)[before.length]? = some next := by
      rw [split, List.getElem?_append_right (Nat.le_refl _), Nat.sub_self]
      rfl
    have below : before.length < (List.range procMax).length := by
      have all := congrArg List.length split
      rw [List.length_rotate, List.length_append, List.length_cons] at all
      omega
    rw [List.getElem?_rotate below, List.length_range, List.getElem?_range (Nat.mod_lt _ (by decide))] at here
    rw [Nat.add_comm]
    exact (Option.some.inj here).symm
  have turned : (List.range procMax).rotate (next + 1) = behind ++ (before ++ [next]) := by
    have same : (next + 1) % (List.range procMax).length = (start + (before.length + 1)) % (List.range procMax).length := by
      rw [List.length_range, at_next, Nat.mod_add_mod, Nat.add_assoc]
    have split' : before ++ next :: behind = before ++ [next] ++ behind := by simp
    have length : before.length + 1 = (before ++ [next]).length := by simp
    rw [← List.rotate_mod, same, List.rotate_mod, ← List.rotate_rotate, split, split', length,
      List.rotate_append_length_eq]
  have none : before.filter test = [] := List.filter_eq_nil_iff.mpr skipped
  rw [turned, List.filter_append, List.filter_append, none, later, List.filter_singleton, hit]
  rfl

/-! ## One tick -/

/-- The process of a slot has the turn: it is the only one that runs, and nothing but who runs has changed. -/
structure HasTurn (k k' : Kernel) (next : Nat) : Prop where
  inside : next < procMax
  running : (k'.table next).state = .running
  only : OnlyRunner k' next
  canRun : ∀ i < procMax, CanRun (k'.table i) ↔ CanRun (k.table i)
  others : ∀ i, ¬ CanRun (k.table i) → k'.table i = k.table i

variable {k k' : Kernel} {next : Nat}

theorem mem_upcoming {i : Nat} : i ∈ upcoming k ↔ i < procMax ∧ CanRun (k.table i) := by
  rw [upcoming, List.mem_filter, mem_scan, decide_eq_true_eq]

/-- The slots that can run, from some slot on. -/
theorem upcoming_rotate : ∃ j, upcoming k = (runnable k).rotate j := by
  refine ⟨(((List.range procMax).take (scanStart k % procMax)).filter fun i => CanRun (k.table i)).length, ?_⟩
  have split : runnable k = ((List.range procMax).take (scanStart k % procMax)).filter (fun i => CanRun (k.table i)) ++
      ((List.range procMax).drop (scanStart k % procMax)).filter fun i => CanRun (k.table i) := by
    rw [← List.filter_append, List.take_append_drop]
    rfl
  rw [split, List.rotate_append_length_eq, ← List.filter_append, upcoming, List.rotate_eq_drop_append_take_mod,
    List.length_range]

theorem length_upcoming : (upcoming k).length = (runnable k).length := by
  obtain ⟨j, turned⟩ := upcoming_rotate (k := k)
  rw [turned, List.length_rotate]

theorem HasTurn.runnable_eq (turn : HasTurn k k' next) : runnable k' = runnable k :=
  List.filter_congr fun i member => decide_eq_decide.mpr (turn.canRun i (List.mem_range.mp member))

theorem HasTurn.current (turn : HasTurn k k' next) : processCurrentPcb k' = some next := by
  cases found : processCurrentPcb k' with
  | none => exact absurd turn.running (of_decide_eq_false (findPcb_none found turn.inside))
  | some i =>
    have running := of_decide_eq_true (findPcb_test found)
    rw [turn.only i (findPcb_lt found) running]

/-- Who had the turn goes to the end of the queue. -/
theorem HasTurn.upcoming_eq (turn : HasTurn k k' next) {rest : List Nat} (first : upcoming k = next :: rest) :
    upcoming k' = rest ++ [next] := by
  have start : scanStart k' = next + 1 := by rw [scanStart, turn.current]
  rw [upcoming, start, ← filter_scan first]
  exact List.filter_congr fun i member => decide_eq_decide.mpr (turn.canRun i (mem_scan.mp member))

/-- A tick that has made the running process ready gives the turn to the first one of the queue. -/
theorem ready_turn {k₁ : Kernel} (ready : ∀ i < procMax, (k₁.table i).state = .ready ↔ CanRun (k.table i))
    (same : ∀ i, ¬ CanRun (k.table i) → k₁.table i = k.table i) {rest : List Nat} (first : upcoming k = next :: rest)
    (table : k'.table = (k₁.setState next .running).table) : HasTurn k k' next := by
  obtain ⟨inside, canRun⟩ := mem_upcoming.mp (first ▸ List.mem_cons_self : next ∈ upcoming k)
  have running : (k'.table next).state = .running := by rw [table, setState_state_self]
  have other : ∀ {i}, i ≠ next → k'.table i = k₁.table i := fun ne => by rw [table, setState_table_of_ne _ _ _ ne]
  refine ⟨inside, running, ?_, ?_, ?_⟩
  · intro i below runs
    by_contra ne
    rw [other ne] at runs
    by_cases can : CanRun (k.table i)
    · rw [(ready i below).mpr can] at runs
      cases runs
    · rw [same i can] at runs
      exact can (.inr runs)
  · intro i below
    by_cases ne : i = next
    · rw [ne]
      exact iff_of_true (.inr running) canRun
    · rw [other ne]
      by_cases can : CanRun (k.table i)
      · exact iff_of_true (.inl ((ready i below).mpr can)) can
      · rw [same i can]
  · intro i cannot
    have ne : i ≠ next := fun eq => cannot (eq ▸ canRun)
    rw [other ne, same i cannot]

theorem nextReady_upcoming {table : Table} (ready : ∀ i < procMax, (table i).state = .ready ↔ CanRun (k.table i)) :
    nextReady table (scanStart k) = (upcoming k).head? := by
  rw [nextReady_eq, upcoming]
  congr 1
  exact List.filter_congr fun i member => decide_eq_decide.mpr (ready i (mem_scan.mp member))

/-- A tick gives the turn to the first one of the queue. -/
theorem timerIsr_hasTurn (one : AtMostOne k) (rsp cr3 : Nat) {rest : List Nat} (first : upcoming k = next :: rest) :
    HasTurn k (timerIsr k rsp cr3) next := by
  have head : (upcoming k).head? = some next := by rw [first, List.head?_cons]
  unfold timerIsr
  dsimp only
  split
  · rename_i cur found
    have current : processCurrentPcb k = some cur := found
    have inside := findPcb_lt current
    have running : (k.table cur).state = .running := of_decide_eq_true (findPcb_test current)
    have start : scanStart k = cur + 1 := by rw [scanStart, current]
    generalize made : Kernel.setPcb _ cur _ = k₁
    have other : ∀ {i}, i ≠ cur → k₁.table i = k.table i := fun ne => by
      rw [← made]
      exact setPcb_table_of_ne _ _ _ ne
    have ready : ∀ i < procMax, (k₁.table i).state = .ready ↔ CanRun (k.table i) := by
      intro i below
      by_cases same : i = cur
      · rw [same, ← made, setPcb_table_self]
        exact iff_of_true rfl (.inr running)
      · rw [other same]
        refine ⟨.inl, fun can => can.resolve_right fun runs => same ?_⟩
        exact one i below cur inside runs running
    have kept : ∀ i, ¬ CanRun (k.table i) → k₁.table i = k.table i := fun i cannot =>
      other fun same => cannot (same ▸ .inr running)
    rw [← start, nextReady_upcoming ready, head]
    exact ready_turn ready kept first rfl
  · rename_i found
    have idle : ∀ i < procMax, (k.table i).state ≠ .running := fun i inside =>
      of_decide_eq_false (findPcb_none found inside)
    have start : scanStart k = 0 := by
      have current : processCurrentPcb k = none := found
      rw [scanStart, current]
    have ready : ∀ i < procMax, (k.table i).state = .ready ↔ CanRun (k.table i) := fun i below =>
      ⟨.inl, fun can => can.resolve_right (idle i below)⟩
    rw [← start, nextReady_upcoming ready, head]
    exact ready_turn ready (fun _ _ => rfl) first rfl

/-! ## Any number of ticks -/

/-- A timer interrupt: what is stored of the process it interrupts. -/
structure Tick where
  rsp : Nat
  cr3 : Nat

/-- What a timer interrupt does. -/
def tick (k : Kernel) (t : Tick) : Kernel := timerIsr k t.rsp t.cr3

/-- Exactly one process runs, and the slots of the processes that cannot run are as they were. -/
def OneRuns (before k : Kernel) : Prop :=
  (∃ i < procMax, (k.table i).state = .running ∧ OnlyRunner k i) ∧
    ∀ i, ¬ CanRun (before.table i) → k.table i = before.table i

/-- What holds between ticks: there are processes that can run, and at most one of them runs. -/
structure Scheduled (slots : List Nat) (k : Kernel) : Prop where
  one : AtMostOne k
  some : slots ≠ []
  runnable_eq : runnable k = slots

theorem Scheduled.turn {slots : List Nat} (scheduled : Scheduled slots k) (t : Tick) :
    ∃ next rest, upcoming k = next :: rest ∧ HasTurn k (tick k t) next := by
  obtain ⟨next, rest, first⟩ : ∃ next rest, upcoming k = next :: rest := by
    refine List.exists_cons_of_ne_nil fun none => scheduled.some ?_
    rw [← scheduled.runnable_eq, ← List.length_eq_zero_iff, ← length_upcoming, none, List.length_nil]
  exact ⟨next, rest, first, timerIsr_hasTurn scheduled.one t.rsp t.cr3 first⟩

theorem Scheduled.tick {slots : List Nat} (scheduled : Scheduled slots k) (t : Tick) : Scheduled slots (tick k t) := by
  obtain ⟨next, rest, -, turn⟩ := scheduled.turn t
  exact ⟨turn.only.atMostOne, scheduled.some, turn.runnable_eq.trans scheduled.runnable_eq⟩

/-- After each tick exactly one process runs and no other one has changed, and after any number of ticks the next ones,
as many as there are processes that can run, run each of them once, in the order of the slots from some slot on. -/
theorem timer_roundRobin (one : AtMostOne k) (some : 0 < (runnable k).length) (ticks round : List Tick)
    (full : round.length = (runnable k).length) :
    Meets tick (fun k t => OneRuns k (tick k t)) k ticks ∧
      ∃ j, turns tick processCurrentPcb (final tick k ticks) round = ((runnable k).rotate j).map .some := by
  have scheduled : Scheduled (runnable k) k := ⟨one, List.ne_nil_of_length_pos some, rfl⟩
  have keeps : ∀ (k' : Kernel) (t : Tick), Scheduled (runnable k) k' → Scheduled (runnable k) (tick k' t) :=
    fun k' t holds => holds.tick t
  refine ⟨?_, ?_⟩
  · have any : Meets tick (fun _ _ => True) k ticks := meets_of_forall (fun _ _ => trivial) k
    refine any.imp (fun k' t holds _ => keeps k' t holds) (fun k' t holds _ => ?_) scheduled
    obtain ⟨next, rest, -, turn⟩ := holds.turn t
    exact ⟨⟨next, turn.inside, turn.running, turn.only⟩, turn.others⟩
  · have now := Run.invariant keeps scheduled ticks
    obtain ⟨j, queue⟩ := upcoming_rotate (k := final tick k ticks)
    rw [now.runnable_eq] at queue
    refine ⟨j, ?_⟩
    rw [← queue]
    refine turns_round keeps ?_ ?_ now ?_
    · intro k' t holds
      obtain ⟨next, rest, first, turn⟩ := holds.turn t
      rw [turn.current, first, List.head?_cons]
    · intro k' t holds
      obtain ⟨next, rest, first, turn⟩ := holds.turn t
      rw [turn.upcoming_eq first, first, List.rotate_cons_succ, List.rotate_zero]
    · rw [length_upcoming, now.runnable_eq, full]

/-- Two processes that are ready. -/
theorem timer_roundRobin_twoReady :
    let k := (Kernel.start.setState 3 .ready).setState 5 .ready
    Meets tick (fun k t => OneRuns k (tick k t)) k [⟨0, 0⟩] ∧
      ∃ j, turns tick processCurrentPcb (final tick k [⟨0, 0⟩]) [⟨1, 0⟩, ⟨2, 0⟩] = ((runnable k).rotate j).map .some :=
  let k := (Kernel.start.setState 3 .ready).setState 5 .ready
  have one : AtMostOne k := by
    unfold AtMostOne
    decide +kernel
  have some : 0 < (runnable k).length := by decide +kernel
  have full : [Tick.mk 1 0, Tick.mk 2 0].length = (runnable k).length := by decide +kernel
  timer_roundRobin one some _ _ full

end Systrix.Proc
