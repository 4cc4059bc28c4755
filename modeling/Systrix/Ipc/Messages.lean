import Systrix.Proc.State

/-!
# Message passing

The message calls of `kernel/ipc.c`.  A call runs without interruption except where
it yields, so it is cut there: a call is started, and a suspended call is resumed.
-/

namespace Systrix.Ipc

open Proc

/-- A call that is suspended in `sys_yield`; `dest` is the slot of the receiver. -/
inductive Call where
  | send (dest_pid dest : Nat) (msg : IpcMsg) (spins : Nat)
  | recv

/-- How far a call got: suspended, or returned with a result. -/
inductive Progress where
  | waits (call : Call)
  | sent (dest_pid : Nat) (msg : Option IpcMsg) (result : Int)
  | received (msg : Option IpcMsg) (result : Int)

/-- Index of the inbox of a process. -/
def inboxOf (pid : Nat) : Nat := pid % procMax

/-- Replace an inbox. -/
def setQueue (k : Kernel) (i : Nat) (q : IpcQueue) : Kernel :=
  { k with queues := Function.update k.queues i q }

@[simp] theorem setQueue_queues_self (k : Kernel) (i : Nat) (q : IpcQueue) :
    (setQueue k i q).queues i = q := Function.update_self _ _ _

theorem setQueue_queues_of_ne (k : Kernel) {i j : Nat} (q : IpcQueue) (ne : j ≠ i) :
    (setQueue k i q).queues j = k.queues j := Function.update_of_ne ne _ _

def ipcFindPcb (k : Kernel) (pid : Nat) : Option Nat :=
  findPcb k.table fun t => t.state ≠ .empty ∧ t.pid = pid

/-- `sys_ipc_send` from where it has found a free slot. -/
def deliver (k : Kernel) (dest_pid dest : Nat) (msg : IpcMsg) : Kernel :=
  let q := k.queues (inboxOf dest_pid)
  let ring := q.push ipcQueueDepth { msg with sender := k.current_pid }
  let stored := setQueue k (inboxOf dest_pid) ⟨ring, false⟩
  -- `waiting` is cleared when it was set, so it is clear in both cases
  if q.waiting then stored.setState dest .ready else stored

/-- `sys_ipc_send` at the head of its loop. -/
def sendLoop (k : Kernel) (dest_pid dest : Nat) (msg : IpcMsg) (spins : Nat) : Kernel × Progress :=
  if ipcQueueDepth ≤ (k.queues (inboxOf dest_pid)).count then (k, .waits (.send dest_pid dest msg spins))
  else (deliver k dest_pid dest msg, .sent dest_pid (some msg) 0)

/-- `sys_ipc_send`; `none` is a null pointer. -/
def sysIpcSend (k : Kernel) (dest_pid : Nat) (msg : Option IpcMsg) : Kernel × Progress :=
  match msg with
  | none => (k, .sent dest_pid none (-1))
  | some msg =>
      match ipcFindPcb k dest_pid with
      | none => (k, .sent dest_pid (some msg) (-1))
      | some dest => sendLoop k dest_pid dest msg 0

/-- `sys_ipc_recv` at the head of its loop. -/
def recvLoop (k : Kernel) : Kernel × Progress :=
  let i := inboxOf k.current_pid
  let q := k.queues i
  if q.count = 0 then (setQueue k i { q with waiting := true }, .waits .recv)
  else
    let msg := q.front
    (setQueue k i { q with toRingBuffer := q.pop ipcQueueDepth }, .received (some msg) msg.sender)

/-- `sys_ipc_recv`; `out` says whether the pointer is not null. -/
def sysIpcRecv (k : Kernel) (out : Bool) : Kernel × Progress :=
  if out then recvLoop k else (k, .received none (-1))

/-- A suspended call after `sys_yield` has returned. -/
def resume (k : Kernel) : Call → Kernel × Progress
  | .send dest_pid dest msg spins =>
      if 1000 < spins + 1 then (k, .sent dest_pid (some msg) (-1))
      else sendLoop k dest_pid dest msg (spins + 1)
  | .recv => recvLoop k

/-! ## Interleaving -/

/-- The kernel, the suspended call of each process and the calls that have returned,
with their callers. -/
structure System where
  kernel : Kernel
  calls : Nat → Option Call
  log : List (Nat × Progress)

/-- What a process does next. -/
inductive Action where
  | send (dest_pid : Nat) (msg : Option IpcMsg)
  | recv (out : Bool)
  | resume

/-- Note how far the call of a process got. -/
def System.record (s : System) (pid : Nat) : Kernel × Progress → System
  | (k, .waits call) => { s with kernel := k, calls := Function.update s.calls pid (some call) }
  | (k, done) => ⟨k, Function.update s.calls pid none, s.log ++ [(pid, done)]⟩

/-- The part of a call a process runs next, if it can take the action: only a process
without a suspended call starts one. -/
def partOfCall (k : Kernel) (call : Option Call) (action : Action) : Option (Kernel × Progress) :=
  match call, action with
  | none, .send dest_pid msg => some (sysIpcSend k dest_pid msg)
  | none, .recv out => some (sysIpcRecv k out)
  | some call, .resume => some (resume k call)
  | _, _ => none

/-- The next part of a call of a process, for which the scheduler has set
`current_pid`. -/
def System.progress (s : System) (pid : Nat) (action : Action) : Option (Kernel × Progress) :=
  partOfCall { s.kernel with current_pid := pid } (s.calls pid) action

/-- A process runs until its call is suspended or returns. -/
def System.step (s : System) (pid : Nat) (action : Action) : System :=
  match s.progress pid action with
  | none => s
  | some next => s.record pid next

/-- No call has been made yet by the processes of a table. -/
def System.start (table : Table) : System := ⟨{ Kernel.start with table := table }, fun _ => none, []⟩

/-- A process of the table. -/
def Live (table : Table) (pid : Nat) : Prop :=
  ∃ i < procMax, (table i).state ≠ .empty ∧ (table i).pid = pid

/-- A process identifier that has an inbox of its own. -/
def ValidPid (pid : Nat) : Prop := 1 ≤ pid ∧ pid ≤ procMax

theorem inboxOf_inj {pid other : Nat} (valid : ValidPid pid) (valid' : ValidPid other)
    (same : inboxOf pid = inboxOf other) : pid = other := by
  simp only [ValidPid, inboxOf, procMax] at *
  omega

/-- The message a finished call stored in the inbox of a process. -/
def acceptedBy (pid : Nat) : Nat × Progress → Option IpcMsg
  | (sender, .sent dest_pid (some msg) result) =>
      if dest_pid = pid ∧ result = 0 then some { msg with sender := sender } else none
  | _ => none

/-- The message a finished call of a process returned. -/
def receivedBy (pid : Nat) : Nat × Progress → Option IpcMsg
  | (receiver, .received (some msg) _) => if receiver = pid then some msg else none
  | _ => none

/-- The messages whose send to a process returned 0, as the kernel stamps them. -/
def System.accepted (s : System) (pid : Nat) : List IpcMsg := s.log.filterMap (acceptedBy pid)

/-- The messages a process has received. -/
def System.received (s : System) (pid : Nat) : List IpcMsg := s.log.filterMap (receivedBy pid)

/-- The messages in the inbox of a process. -/
def System.inbox (s : System) (pid : Nat) : List IpcMsg :=
  (s.kernel.queues (inboxOf pid)).contents ipcQueueDepth

/-! ## The invariant -/

/-- What holds between calls. -/
structure Delivers (s : System) : Prop where
  pids : ∀ i < procMax, (s.kernel.table i).state ≠ .empty → ValidPid (s.kernel.table i).pid
  calls : ∀ pid dest_pid dest msg spins, s.calls pid = some (.send dest_pid dest msg spins) →
    ValidPid dest_pid ∧ (s.kernel.table dest).pid = dest_pid
  queues : ∀ i, RingBuffer.Valid ipcQueueDepth (s.kernel.queues i).toRingBuffer
  order : ∀ pid, ValidPid pid → s.received pid ++ s.inbox pid = s.accepted pid

/-- What one part of a call by a process does to the kernel, its inboxes and the two
lists of messages. -/
inductive Effect (k : Kernel) (pid : Nat) : Kernel × Progress → Prop where
  /-- Nothing is stored or taken; a flag may be set. -/
  | quiet {k' : Kernel} {progress : Progress} (table : k'.table = k.table)
      (queues : ∀ i, (k'.queues i).toRingBuffer = (k.queues i).toRingBuffer)
      (call : ∀ dest_pid dest msg spins, progress = .waits (.send dest_pid dest msg spins) →
        ValidPid dest_pid ∧ (k.table dest).pid = dest_pid)
      (notAccepted : ∀ other, acceptedBy other (pid, progress) = none)
      (notReceived : ∀ other, receivedBy other (pid, progress) = none) :
      Effect k pid (k', progress)
  /-- A message is stored. -/
  | stored {k' : Kernel} {dest_pid dest : Nat} {msg : IpcMsg} (valid : ValidPid dest_pid)
      (slot : (k.table dest).pid = dest_pid) (room : (k.queues (inboxOf dest_pid)).count < ipcQueueDepth)
      (result : k' = deliver k dest_pid dest msg) :
      Effect k pid (k', .sent dest_pid (some msg) 0)
  /-- A message is taken. -/
  | taken {k' : Kernel} (some : 0 < (k.queues (inboxOf pid)).count) (table : k'.table = k.table)
      (queues : k'.queues = Function.update k.queues (inboxOf pid) { k.queues (inboxOf pid) with
        toRingBuffer := (k.queues (inboxOf pid)).pop ipcQueueDepth }) :
      Effect k pid (k', .received (Option.some (k.queues (inboxOf pid)).front)
        (k.queues (inboxOf pid)).front.sender)

section Effects

variable {k : Kernel} {pid : Nat}

theorem sendLoop_effect {dest_pid dest : Nat} (valid : ValidPid dest_pid)
    (slot : (k.table dest).pid = dest_pid) (msg : IpcMsg) (spins : Nat) :
    Effect k pid (sendLoop k dest_pid dest msg spins) := by
  unfold sendLoop
  split_ifs with full
  · refine .quiet rfl (fun _ => rfl) ?_ (fun _ => rfl) (fun _ => rfl)
    intro dest_pid' dest' msg' spins' same
    cases same
    exact ⟨valid, slot⟩
  · exact .stored valid slot (Nat.lt_of_not_le full) rfl

theorem recvLoop_effect (current : k.current_pid = pid) : Effect k pid (recvLoop k) := by
  unfold recvLoop
  rw [current]
  dsimp only
  split_ifs with drained
  · refine .quiet rfl ?_ (fun _ _ _ _ same => by cases same) (fun _ => rfl) (fun _ => rfl)
    intro i
    by_cases here : i = inboxOf pid
    · subst here
      rw [setQueue_queues_self]
    · rw [setQueue_queues_of_ne _ _ here]
  · exact .taken (Nat.pos_of_ne_zero drained) rfl rfl

theorem failed_effect (dest_pid : Nat) (msg : Option IpcMsg) :
    Effect k pid (k, .sent dest_pid msg (-1)) := by
  refine .quiet rfl (fun _ => rfl) (fun _ _ _ _ same => by cases same) (fun other => ?_) (fun _ => rfl)
  cases msg with
  | none => rfl
  | some msg => exact if_neg fun accepted => by cases accepted.2

theorem sysIpcSend_effect
    (pids : ∀ i < procMax, (k.table i).state ≠ .empty → ValidPid (k.table i).pid)
    (dest_pid : Nat) (msg : Option IpcMsg) : Effect k pid (sysIpcSend k dest_pid msg) := by
  cases msg with
  | none => exact failed_effect dest_pid none
  | some msg =>
      unfold sysIpcSend
      cases found : ipcFindPcb k dest_pid with
      | none => exact failed_effect dest_pid (some msg)
      | some dest =>
          unfold ipcFindPcb at found
          have isDest := of_decide_eq_true (findPcb_test found)
          have valid := pids dest (findPcb_lt found) isDest.1
          rw [isDest.2] at valid
          exact sendLoop_effect valid isDest.2 msg 0

theorem resume_effect (current : k.current_pid = pid) {call : Call}
    (destination : ∀ dest_pid dest msg spins, call = .send dest_pid dest msg spins →
      ValidPid dest_pid ∧ (k.table dest).pid = dest_pid) :
    Effect k pid (resume k call) := by
  cases call with
  | send dest_pid dest msg spins =>
      obtain ⟨valid, slot⟩ := destination dest_pid dest msg spins rfl
      simp only [resume]
      split_ifs
      · exact failed_effect dest_pid (some msg)
      · exact sendLoop_effect valid slot msg _
  | recv => exact recvLoop_effect current

/-- Every part of a call has one of the three effects. -/
theorem progress_effect {s : System} (inv : Delivers s) {action : Action}
    {next : Kernel × Progress} (runs : s.progress pid action = some next) :
    Effect { s.kernel with current_pid := pid } pid next := by
  unfold System.progress partOfCall at runs
  cases pending : s.calls pid with
  | none =>
      cases action with
      | send dest_pid msg =>
          simp only [pending, Option.some.injEq] at runs
          rw [← runs]
          exact sysIpcSend_effect (k := { s.kernel with current_pid := pid }) inv.pids dest_pid msg
      | recv out =>
          simp only [pending, Option.some.injEq] at runs
          rw [← runs]
          cases out with
          | true => exact recvLoop_effect rfl
          | false =>
              exact .quiet rfl (fun _ => rfl) (fun _ _ _ _ same => by cases same) (fun _ => rfl)
                (fun _ => rfl)
      | resume => simp [pending] at runs
  | some call =>
      cases action with
      | send dest_pid msg => simp [pending] at runs
      | recv out => simp [pending] at runs
      | resume =>
          simp only [pending, Option.some.injEq] at runs
          rw [← runs]
          refine resume_effect rfl ?_
          intro dest_pid dest msg spins same
          exact inv.calls pid dest_pid dest msg spins (pending.trans (congrArg some same))

end Effects

/-! ## One step -/

section Deliver

variable (k : Kernel) (dest_pid dest : Nat) (msg : IpcMsg)

theorem deliver_queues : (deliver k dest_pid dest msg).queues =
    Function.update k.queues (inboxOf dest_pid) ⟨(k.queues (inboxOf dest_pid)).push ipcQueueDepth
      { msg with sender := k.current_pid }, false⟩ := by
  unfold deliver
  dsimp only
  split_ifs <;> rfl

theorem deliver_pid (i : Nat) :
    ((deliver k dest_pid dest msg).table i).pid = (k.table i).pid := by
  unfold deliver
  dsimp only
  split_ifs
  · exact setState_pid _ _ _ _
  · rfl

theorem deliver_state_of_ne {i : Nat} (ne : i ≠ dest) :
    (deliver k dest_pid dest msg).table i = k.table i := by
  unfold deliver
  dsimp only
  split_ifs
  · exact setState_table_of_ne _ _ _ ne
  · rfl

end Deliver

section Record

variable (s : System) (pid : Nat) (k : Kernel) (progress : Progress)

theorem record_kernel : (s.record pid (k, progress)).kernel = k := by
  cases progress <;> rfl

theorem record_calls_of_ne {other : Nat} (ne : other ≠ pid) :
    (s.record pid (k, progress)).calls other = s.calls other := by
  cases progress <;> exact Function.update_of_ne ne _ _

theorem record_calls_self {call : Call}
    (suspended : (s.record pid (k, progress)).calls pid = some call) : progress = .waits call := by
  cases progress with
  | waits call' =>
      simp only [System.record, Function.update_self, Option.some.injEq] at suspended
      rw [suspended]
  | sent dest_pid msg result => simp [System.record] at suspended
  | received msg result => simp [System.record] at suspended

theorem record_accepted (other : Nat) : (s.record pid (k, progress)).accepted other =
    s.accepted other ++ (acceptedBy other (pid, progress)).toList := by
  cases progress with
  | waits call => simp [System.record, System.accepted, acceptedBy]
  | sent dest_pid msg result =>
      simp only [System.record, System.accepted, List.filterMap_append, List.filterMap_cons,
        List.filterMap_nil]
      cases acceptedBy other (pid, .sent dest_pid msg result) <;> rfl
  | received msg result =>
      simp only [System.record, System.accepted, List.filterMap_append, List.filterMap_cons,
        List.filterMap_nil]
      cases acceptedBy other (pid, .received msg result) <;> rfl

theorem record_received (other : Nat) : (s.record pid (k, progress)).received other =
    s.received other ++ (receivedBy other (pid, progress)).toList := by
  cases progress with
  | waits call => simp [System.record, System.received, receivedBy]
  | sent dest_pid msg result =>
      simp only [System.record, System.received, List.filterMap_append, List.filterMap_cons,
        List.filterMap_nil]
      cases receivedBy other (pid, .sent dest_pid msg result) <;> rfl
  | received msg result =>
      simp only [System.record, System.received, List.filterMap_append, List.filterMap_cons,
        List.filterMap_nil]
      cases receivedBy other (pid, .received msg result) <;> rfl

end Record

namespace Delivers

variable {s : System} {pid : Nat}

/-- The calls in progress stay described when the identifiers in the table do. -/
theorem record_calls (inv : Delivers s) {k : Kernel} {progress : Progress}
    (samePids : ∀ i, (k.table i).pid = (s.kernel.table i).pid)
    (call : ∀ dest_pid dest msg spins, progress = .waits (.send dest_pid dest msg spins) →
      ValidPid dest_pid ∧ (s.kernel.table dest).pid = dest_pid)
    (other dest_pid dest : Nat) (msg : IpcMsg) (spins : Nat)
    (suspended : (s.record pid (k, progress)).calls other = some (.send dest_pid dest msg spins)) :
    ValidPid dest_pid ∧ ((s.record pid (k, progress)).kernel.table dest).pid = dest_pid := by
  rw [record_kernel, samePids]
  by_cases same : other = pid
  · subst same
    exact call dest_pid dest msg spins (record_calls_self s other k progress suspended)
  · rw [record_calls_of_ne s pid k progress same] at suspended
    exact inv.calls other dest_pid dest msg spins suspended

theorem record_quiet (inv : Delivers s) {k : Kernel} {progress : Progress}
    (table : k.table = s.kernel.table)
    (queues : ∀ i, (k.queues i).toRingBuffer = (s.kernel.queues i).toRingBuffer)
    (call : ∀ dest_pid dest msg spins, progress = .waits (.send dest_pid dest msg spins) →
      ValidPid dest_pid ∧ (s.kernel.table dest).pid = dest_pid)
    (notAccepted : ∀ other, acceptedBy other (pid, progress) = none)
    (notReceived : ∀ other, receivedBy other (pid, progress) = none) :
    Delivers (s.record pid (k, progress)) where
  pids := by
    rw [record_kernel, table]
    exact inv.pids
  calls := inv.record_calls (fun i => by rw [table]) call
  queues i := by
    rw [record_kernel, queues]
    exact inv.queues i
  order other valid := by
    rw [record_accepted, record_received, notAccepted, notReceived, System.inbox, record_kernel,
      queues]
    simpa [System.inbox] using inv.order other valid

theorem record_stored (inv : Delivers s) {dest_pid dest : Nat} {msg : IpcMsg}
    (valid : ValidPid dest_pid) (slot : (s.kernel.table dest).pid = dest_pid)
    (room : (s.kernel.queues (inboxOf dest_pid)).count < ipcQueueDepth) :
    Delivers (s.record pid (deliver { s.kernel with current_pid := pid } dest_pid dest msg,
      .sent dest_pid (some msg) 0)) where
  pids i inside nonempty := by
    rw [record_kernel] at nonempty ⊢
    rw [deliver_pid]
    by_cases same : i = dest
    · subst same
      exact slot ▸ valid
    · rw [deliver_state_of_ne _ _ _ _ same] at nonempty
      exact inv.pids i inside nonempty
  calls := inv.record_calls (deliver_pid _ _ _ _) fun _ _ _ _ same => by cases same
  queues i := by
    rw [record_kernel, deliver_queues]
    by_cases same : i = inboxOf dest_pid
    · subst same
      rw [Function.update_self]
      exact (inv.queues _).push room _
    · rw [Function.update_of_ne same]
      exact inv.queues i
  order other valid' := by
    rw [record_accepted, record_received, System.inbox, record_kernel, deliver_queues]
    by_cases same : other = dest_pid
    · subst same
      rw [Function.update_self]
      change _ ++ ((s.kernel.queues (inboxOf other)).push ipcQueueDepth _).contents _ = _
      rw [(inv.queues _).contents_push room]
      have accepted : acceptedBy other (pid, .sent other (some msg) 0) =
          some { msg with sender := pid } := if_pos ⟨rfl, rfl⟩
      have before := inv.order other valid'
      rw [System.inbox] at before
      rw [accepted, ← before]
      simp [receivedBy]
    · have elsewhere : inboxOf other ≠ inboxOf dest_pid := fun equal =>
        same (inboxOf_inj valid' valid equal)
      have notAccepted : acceptedBy other (pid, .sent dest_pid (some msg) 0) = none :=
        if_neg fun accepted => same accepted.1.symm
      rw [Function.update_of_ne elsewhere, notAccepted]
      simpa [receivedBy, System.inbox] using inv.order other valid'

theorem record_taken (inv : Delivers s) (validPid : ValidPid pid) {k : Kernel}
    (some : 0 < (s.kernel.queues (inboxOf pid)).count) (table : k.table = s.kernel.table)
    (queues : k.queues = Function.update s.kernel.queues (inboxOf pid)
      { s.kernel.queues (inboxOf pid) with
        toRingBuffer := (s.kernel.queues (inboxOf pid)).pop ipcQueueDepth }) (result : Int) :
    Delivers (s.record pid
      (k, .received (Option.some (s.kernel.queues (inboxOf pid)).front) result)) where
  pids := by
    rw [record_kernel, table]
    exact inv.pids
  calls := inv.record_calls (fun i => by rw [table]) fun _ _ _ _ same => by cases same
  queues i := by
    rw [record_kernel, queues]
    by_cases same : i = inboxOf pid
    · subst same
      rw [Function.update_self]
      exact (inv.queues _).pop some
    · rw [Function.update_of_ne same]
      exact inv.queues i
  order other valid := by
    rw [record_accepted, record_received, System.inbox, record_kernel, queues]
    by_cases same : other = pid
    · subst same
      have before := inv.order other valid
      rw [System.inbox, (inv.queues _).contents_pop some] at before
      have received : receivedBy other
          (other, .received (Option.some (s.kernel.queues (inboxOf other)).front) result) =
            Option.some (s.kernel.queues (inboxOf other)).front := if_pos rfl
      rw [Function.update_self, received, ← before]
      simp [acceptedBy]
    · have elsewhere : inboxOf other ≠ inboxOf pid := fun equal =>
        same (inboxOf_inj valid validPid equal)
      have notReceived : receivedBy other
          (pid, .received (Option.some (s.kernel.queues (inboxOf pid)).front) result) = none :=
        if_neg fun equal => same equal.symm
      rw [Function.update_of_ne elsewhere, notReceived]
      simpa [acceptedBy, System.inbox] using inv.order other valid

theorem step (inv : Delivers s) (validPid : ValidPid pid) (action : Action) :
    Delivers (s.step pid action) := by
  unfold System.step
  cases runs : s.progress pid action with
  | none => exact inv
  | some next =>
      cases progress_effect inv runs with
      | quiet table queues call notAccepted notReceived =>
          exact inv.record_quiet table queues call notAccepted notReceived
      | stored valid slot room result =>
          rw [result]
          exact inv.record_stored valid slot room
      | taken some table queues => exact inv.record_taken validPid some table queues _

theorem start {table : Table}
    (pids : ∀ i < procMax, (table i).state ≠ .empty → ValidPid (table i).pid) :
    Delivers (System.start table) where
  pids := pids
  calls _ _ _ _ _ suspended := by cases suspended
  queues _ := RingBuffer.Valid.empty (by decide) IpcMsg.zero
  order _ _ := RingBuffer.contents_empty ipcQueueDepth IpcMsg.zero

end Delivers

theorem sendLoop_unchanged (k : Kernel) (dest_pid dest : Nat) (msg : IpcMsg) (spins : Nat) :
    (sendLoop k dest_pid dest msg spins).1 = k ∨
      (sendLoop k dest_pid dest msg spins).2 = .sent dest_pid (some msg) 0 := by
  unfold sendLoop
  split_ifs
  · exact .inl rfl
  · exact .inr rfl

end Systrix.Ipc

/-!
## Named servers

The registry of `kernel/ipc.c`: names of at most fifteen characters, each with the
process that registered it last.
-/

namespace Systrix.Ipc

open Proc

/-- The comparison loops of the registry: `n` characters, ending early at a terminator. -/
def sameChars : (n : Nat) → (stored name : List UInt8) → Bool
  | 0, _, _ => true
  | n + 1, stored, name =>
      stored.headD 0 = name.headD 0 ∧ (name.headD 0 = 0 ∨ sameChars n stored.tail name.tail)

/-- The entry whose name agrees with a name in its first `n` characters. -/
def findServer (k : Kernel) (n : Nat) (name : List UInt8) : Option Nat :=
  (List.range ipcServerMax).find? fun i =>
    (k.servers i).active && sameChars n (k.servers i).name name

/-- Replace an entry of the registry. -/
def setServer (k : Kernel) (i : Nat) (server : IpcServer) : Kernel :=
  { k with servers := Function.update k.servers i server }

/-- `sys_ipc_register` for a name that is not a null pointer. -/
def sysIpcRegister (k : Kernel) (name : List UInt8) : Int × Kernel :=
  match findServer k (ipcNameMax - 1) name with
  | some i => (0, setServer k i { k.servers i with pid := k.current_pid })
  | none =>
      match (List.range ipcServerMax).find? fun i => !(k.servers i).active with
      | some i => (0, setServer k i ⟨name.take (ipcNameMax - 1), k.current_pid, true⟩)
      | none => (-1, k)

/-- `sys_ipc_lookup`; `none` is the result `-1`. -/
def sysIpcLookup (k : Kernel) (name : List UInt8) : Option Nat :=
  (findServer k ipcNameMax name).map fun i => (k.servers i).pid

/-- The comparison of two strings is that of their first characters. -/
theorem sameChars_iff (n : Nat) {stored name : List UInt8} (stored_str : 0 ∉ stored)
    (name_str : 0 ∉ name) : sameChars n stored name = true ↔ stored.take n = name.take n := by
  induction n generalizing stored name with
  | zero => simp [sameChars]
  | succ n ih =>
      cases stored with
      | nil =>
          cases name with
          | nil => simp [sameChars]
          | cons c name =>
              have terminated : (0 : UInt8) ≠ c := fun zero => name_str (zero ▸ List.mem_cons_self)
              simp [sameChars, terminated]
      | cons c stored =>
          have notZero : c ≠ 0 := fun zero => stored_str (zero ▸ List.mem_cons_self)
          cases name with
          | nil => simp [sameChars, notZero]
          | cons d name =>
              have ih := ih (fun zero => stored_str (List.mem_cons_of_mem c zero))
                (fun zero => name_str (List.mem_cons_of_mem d zero))
              have notZero' : d ≠ 0 := fun zero => name_str (zero ▸ List.mem_cons_self)
              simp [sameChars, notZero', ih]

theorem findServer_spec {k : Kernel} {n i : Nat} {name : List UInt8}
    (found : findServer k n name = some i) :
    (k.servers i).active = true ∧ sameChars n (k.servers i).name name = true := by
  have passes := List.find?_some
    (p := fun i => (k.servers i).active && sameChars n (k.servers i).name name) found
  simpa using passes

end Systrix.Ipc
