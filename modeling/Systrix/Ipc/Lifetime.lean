import Systrix.Proc.StateLaws

/-!
# Messages and names across process lifetimes

Inboxes and registered names are found by process identifier, and identifiers are used
again.  A history records when processes were created, when the sends of the queued
messages began and who registered what, so that it can be said when a process receives
or is taken for something that belonged to an earlier one.
-/

namespace Systrix.Ipc

open Proc

/-- The message system with what has happened in it. -/
structure History where
  sys : System
  clock : Nat
  /-- When the latest process with an identifier was created. -/
  born : Nat → Nat
  /-- When the call a process is in began. -/
  began : Nat → Nat
  /-- The messages in each inbox, with the times their sends began. -/
  queue : Nat → List (Nat × IpcMsg)
  /-- The names the latest process with an identifier registered. -/
  names : Nat → List (List UInt8)

/-- After boot. -/
def History.start : History where
  sys := System.start fun _ => Pcb.zero
  clock := 1
  born := fun _ => 0
  began := fun _ => 0
  queue := fun _ => []
  names := fun _ => []

/-- What happens to processes, messages and names.  A process is run by the identifier
`process_create` returned for its slot. -/
inductive LifeOp where
  | create (r : Resources) (entry : Nat) (name : List UInt8)
  | run (i : Nat)
  | exit
  | exitGroup
  | kill (pid signum : Nat)
  | ipc (pid : Nat) (action : Action)
  | register (pid : Nat) (name : List UInt8)

/-- The process can make calls. -/
def Alive (k : Kernel) (pid : Nat) : Bool :=
  (findPcb k.table fun t => t.pid = pid ∧ t.state ≠ .empty ∧ t.state ≠ .dead).isSome

/-- Another state of the kernel, by an operation that the history does not record. -/
def History.setKernel (h : History) (k : Kernel) : History :=
  { h with sys := { h.sys with kernel := k }, clock := h.clock + 1 }

/-- The time a call began of which the next part is run now. -/
def History.startOf (h : History) (pid : Nat) : Action → Nat
  | .resume => h.began pid
  | _ => h.clock

/-- A process runs a part of a message call. -/
def History.record (h : History) (pid : Nat) (action : Action) (next : Kernel × Progress) : History where
  sys := h.sys.record pid next
  clock := h.clock + 1
  born := h.born
  began := Function.update h.began pid (h.startOf pid action)
  queue :=
    match next.2 with
    | .sent dest_pid (some msg) 0 =>
        Function.update h.queue (inboxOf dest_pid)
          (h.queue (inboxOf dest_pid) ++ [(h.startOf pid action, { msg with sender := pid })])
    | .received (some _) _ => Function.update h.queue (inboxOf pid) (h.queue (inboxOf pid)).tail
    | _ => h.queue
  names := h.names

/-- A process is created: a call its identifier was in is gone. -/
def History.create (h : History) (i : Nat) (k : Kernel) : History where
  sys := { h.sys with kernel := k, calls := Function.update h.sys.calls (i + 1) none }
  clock := h.clock + 1
  born := Function.update h.born (i + 1) h.clock
  began := h.began
  queue := h.queue
  names := Function.update h.names (i + 1) []

/-- One operation. -/
def History.step (h : History) : LifeOp → History
  | .create r entry name =>
      match createIn h.sys.kernel r entry name with
      | none => h
      | some (i, k) => h.create i k
  | .run i => h.setKernel (processRun h.sys.kernel (i + 1))
  | .exit => h.setKernel (schedulerExit h.sys.kernel)
  | .exitGroup => h.setKernel (sysExitGroup h.sys.kernel)
  | .kill pid signum => h.setKernel (sysKill h.sys.kernel pid signum).2
  | .ipc pid action =>
      if Alive h.sys.kernel pid then
        match h.sys.progress pid action with
        | none => h
        | some next => h.record pid action next
      else h
  | .register pid name =>
      if Alive h.sys.kernel pid then
        match sysIpcRegister { h.sys.kernel with current_pid := pid } name with
        | (result, k) =>
            if result = 0 then
              { h.setKernel k with names := Function.update h.names pid (name :: h.names pid) }
            else h.setKernel k
      else h

/-- No message is received that began to be sent before its receiver was created, and no
name is found of a process that did not register it. -/
structure Isolated (h : History) : Prop where
  received : ∀ pid action k msg result, Alive h.sys.kernel pid = true →
    h.sys.progress pid action = some (k, .received (some msg) result) →
    ∃ sent rest, h.queue (inboxOf pid) = (sent, msg) :: rest ∧ h.born pid < sent
  lookup : ∀ name pid, 0 ∉ name → sysIpcLookup h.sys.kernel name = some pid → name ∈ h.names pid

/-- What an operation must find: a new process takes an identifier whose inbox is empty, to
which no other process is sending, and which no registered name has; a registered name
is a string that fits. -/
def Clean (h : History) : LifeOp → Prop
  | .create r _ _ => CreateFails h.sys.kernel r ∨
      ∀ i, findPcb h.sys.kernel.table (fun t => t.state = .empty) = some i →
        (h.sys.kernel.queues (inboxOf (i + 1))).count = 0 ∧
        (∀ pid dest msg spins, h.sys.calls pid = some (.send (i + 1) dest msg spins) → pid = i + 1) ∧
        ∀ j < ipcServerMax, (h.sys.kernel.servers j).active = true →
          (h.sys.kernel.servers j).pid ≠ i + 1
  | .register _ name => 0 ∉ name ∧ name.length < ipcNameMax
  | _ => True

/-! ## The invariant -/

/-- What holds in every clean history. -/
structure Clean.Inv (h : History) : Prop where
  delivers : Delivers h.sys
  pids : ∀ i, ((h.sys.kernel.table i).pid = 0 ∨ (h.sys.kernel.table i).pid = i + 1) ∧
    ((h.sys.kernel.table i).state ≠ .empty → (h.sys.kernel.table i).pid ≠ 0)
  queue : ∀ i, (h.queue i).map Prod.snd = (h.sys.kernel.queues i).contents ipcQueueDepth
  clock : ∀ pid, h.born pid < h.clock
  times : ∀ pid, ValidPid pid → ∀ entry ∈ h.queue (inboxOf pid), h.born pid < entry.1
  calls : ∀ pid dest_pid dest msg spins, h.sys.calls pid = some (.send dest_pid dest msg spins) →
    h.born dest_pid < h.began pid
  names : ∀ i < ipcServerMax, (h.sys.kernel.servers i).active = true →
    (h.sys.kernel.servers i).name ∈ h.names (h.sys.kernel.servers i).pid ∧
      0 ∉ (h.sys.kernel.servers i).name ∧ (h.sys.kernel.servers i).name.length < ipcNameMax

/-- A change of the process table that gives no slot another identifier and fills none
that has no process. -/
structure SameProcesses (k' k : Kernel) : Prop where
  queues : k'.queues = k.queues
  servers : k'.servers = k.servers
  pid : ∀ i, (k'.table i).pid = (k.table i).pid
  filled : ∀ i, (k'.table i).state ≠ .empty → (k.table i).state ≠ .empty ∨ (k.table i).pid ≠ 0

namespace SameProcesses

variable {k : Kernel}

theorem refl (k : Kernel) : SameProcesses k k := ⟨rfl, rfl, fun _ => rfl, fun _ => .inl⟩

theorem setPcb {i : Nat} {pcb : Pcb} (pid : pcb.pid = (k.table i).pid)
    (filled : pcb.state ≠ .empty → (k.table i).state ≠ .empty ∨ (k.table i).pid ≠ 0) :
    SameProcesses (k.setPcb i pcb) k where
  queues := rfl
  servers := rfl
  pid j := by
    by_cases same : j = i
    · subst same
      rw [setPcb_table_self, pid]
    · rw [setPcb_table_of_ne k i pcb same]
  filled j := by
    by_cases same : j = i
    · subst same
      rw [setPcb_table_self]
      exact filled
    · rw [setPcb_table_of_ne k i pcb same]
      exact .inl

theorem processRun (i : Nat) : SameProcesses (processRun k (i + 1)) k := by
  rcases processRun_eq k (i + 1) with same | ⟨j, found, started⟩
  · rw [same]
    exact refl k
  · rw [started]
    unfold pcbOfPid at found
    have pid := of_decide_eq_true (findPcb_test found)
    exact setPcb rfl fun _ => .inr (by omega)

theorem schedulerExit : SameProcesses (schedulerExit k) k := by
  unfold Proc.schedulerExit
  cases found : processCurrentPcb k with
  | none => exact refl k
  | some i =>
      unfold processCurrentPcb at found
      have running := of_decide_eq_true (findPcb_test found)
      exact setPcb rfl fun _ => .inl (by rw [running]; decide)

theorem sysExitGroup : SameProcesses (sysExitGroup k) k := by
  unfold Proc.sysExitGroup
  cases processCurrentPcb k with
  | none => exact refl k
  | some i => exact setPcb rfl fun filled => absurd rfl filled

theorem sysKill (pid signum : Nat) : SameProcesses (sysKill k pid signum).2 k := by
  unfold Proc.sysKill
  cases found : (findPcb k.table fun t =>
      t.state ≠ .empty ∧ t.state ≠ .dead ∧ (t.pid = pid ∨ pid = 2 ^ 64 - 1)) with
  | none => split_ifs <;> exact refl k
  | some i =>
      have alive := (of_decide_eq_true (findPcb_test found)).1
      dsimp only
      split_ifs
      · exact refl k
      · exact refl k
      · exact refl k
      · exact setPcb rfl fun _ => .inl alive
      · exact ⟨rfl, rfl, fun _ => rfl, fun _ => .inl⟩

end SameProcesses

namespace Clean.Inv

variable {h : History}

theorem start : Clean.Inv History.start where
  delivers := Delivers.start fun _ _ nonempty => absurd rfl nonempty
  pids _ := ⟨.inl rfl, fun nonempty => absurd rfl nonempty⟩
  queue _ := (RingBuffer.contents_empty ipcQueueDepth IpcMsg.zero).symm
  clock _ := Nat.one_pos
  times _ _ _ member := by cases member
  calls _ _ _ _ _ suspended := by cases suspended
  names _ _ active := by cases active

theorem setKernel (inv : Clean.Inv h) {k : Kernel} (same : SameProcesses k h.sys.kernel) :
    Clean.Inv (h.setKernel k) := by
  have pids : ∀ i, ((k.table i).pid = 0 ∨ (k.table i).pid = i + 1) ∧
      ((k.table i).state ≠ .empty → (k.table i).pid ≠ 0) := by
    intro i
    rw [same.pid]
    refine ⟨(inv.pids i).1, fun nonempty => ?_⟩
    exact (same.filled i nonempty).elim (inv.pids i).2 id
  refine ⟨⟨?_, ?_, ?_, ?_⟩, pids, ?_, ?_, inv.times, inv.calls, ?_⟩
  · intro i inside nonempty
    change ValidPid (k.table i).pid
    have numbered := (pids i).1.resolve_left ((pids i).2 nonempty)
    rw [numbered]
    exact ⟨Nat.succ_pos i, inside⟩
  · intro pid dest_pid dest msg spins suspended
    change _ ∧ (k.table dest).pid = dest_pid
    rw [same.pid]
    exact inv.delivers.calls pid dest_pid dest msg spins suspended
  · intro i
    change RingBuffer.Valid ipcQueueDepth (k.queues i).toRingBuffer
    rw [same.queues]
    exact inv.delivers.queues i
  · intro pid valid
    have order := inv.delivers.order pid valid
    change h.sys.received pid ++ (k.queues (inboxOf pid)).contents ipcQueueDepth = h.sys.accepted pid
    rw [same.queues]
    exact order
  · intro i
    change _ = (k.queues i).contents ipcQueueDepth
    rw [same.queues]
    exact inv.queue i
  · exact fun pid => Nat.lt_succ_of_lt (inv.clock pid)
  · change ∀ i < ipcServerMax, (k.servers i).active = true → _
    rw [show (h.setKernel k).sys.kernel.servers = h.sys.kernel.servers from same.servers]
    rw [same.servers]
    exact inv.names

/-- The call that a resumed send was in names the same receiver. -/
theorem resumed_send {s : System} {pid : Nat} {k : Kernel} {progress : Progress} {dest_pid : Nat}
    (runs : s.progress pid .resume = some (k, progress))
    (sends : (∃ msg result, progress = .sent dest_pid msg result) ∨
      ∃ dest msg spins, progress = .waits (.send dest_pid dest msg spins)) :
    ∃ dest msg spins, s.calls pid = some (.send dest_pid dest msg spins) := by
  unfold System.progress partOfCall at runs
  cases pending : s.calls pid with
  | none => simp [pending] at runs
  | some call =>
      simp only [pending, Option.some.injEq] at runs
      cases call with
      | recv =>
          simp only [resume, recvLoop] at runs
          split_ifs at runs <;> cases runs <;> simp at sends
      | send dest_pid' dest msg spins =>
          have same : dest_pid' = dest_pid := by
            simp only [resume, sendLoop] at runs
            split_ifs at runs <;> cases runs <;> simp at sends <;> exact sends
          exact ⟨dest, msg, spins, by rw [same]⟩

theorem deliver_servers (k : Kernel) (dest_pid dest : Nat) (msg : IpcMsg) :
    (deliver k dest_pid dest msg).servers = k.servers := by
  unfold deliver
  dsimp only
  split_ifs <;> rfl

theorem sendLoop_servers (k : Kernel) (dest_pid dest : Nat) (msg : IpcMsg) (spins : Nat) :
    (sendLoop k dest_pid dest msg spins).1.servers = k.servers := by
  rcases sendLoop_unchanged k dest_pid dest msg spins with same | -
  · rw [same]
  · unfold sendLoop
    split_ifs
    · rfl
    · exact deliver_servers k dest_pid dest msg

theorem recvLoop_servers (k : Kernel) : (recvLoop k).1.servers = k.servers := by
  unfold recvLoop
  dsimp only
  split_ifs <;> rfl

theorem partOfCall_servers {k : Kernel} {call : Option Call} {action : Action}
    {next : Kernel × Progress} (runs : partOfCall k call action = some next) :
    next.1.servers = k.servers := by
  unfold partOfCall at runs
  split at runs
  · cases runs
    unfold sysIpcSend
    split
    · rfl
    · split
      · rfl
      · exact sendLoop_servers _ _ _ _ _
  · cases runs
    unfold sysIpcRecv
    split_ifs
    · exact recvLoop_servers k
    · rfl
  · cases runs
    rename_i call
    cases call with
    | send dest_pid dest msg spins =>
        simp only [resume]
        split_ifs
        · rfl
        · exact sendLoop_servers _ _ _ _ _
    | recv => exact recvLoop_servers k
  · cases runs

theorem alive_valid (inv : Clean.Inv h) {pid : Nat} (alive : Alive h.sys.kernel pid = true) :
    ValidPid pid := by
  obtain ⟨i, found⟩ := Option.isSome_iff_exists.mp alive
  have inside := findPcb_lt found
  obtain ⟨isPid, nonempty, -⟩ := of_decide_eq_true (findPcb_test found)
  have numbered := (inv.pids i).1.resolve_left ((inv.pids i).2 nonempty)
  rw [← isPid, numbered]
  exact ⟨Nat.succ_pos i, inside⟩

/-- A created process starts with an empty inbox and no names. -/
theorem create (inv : Clean.Inv h) {r : Resources} {entry i : Nat} {name : List UInt8} {k : Kernel}
    (clean : Clean h (.create r entry name))
    (created : createIn h.sys.kernel r entry name = some (i, k)) : Clean.Inv (h.create i k) := by
  obtain ⟨found, cr3, kstack_base, rfl⟩ := createIn_spec created
  have notFails : ¬CreateFails h.sys.kernel r := fun fails => by
    rw [createIn_of_fails fails] at created
    cases created
  obtain ⟨drained, noSender, noName⟩ := clean.resolve_left notFails i found
  have empty : h.queue (inboxOf (i + 1)) = [] := by
    have none := inv.queue (inboxOf (i + 1))
    rw [RingBuffer.contents_of_count_eq_zero drained] at none
    exact List.map_eq_nil_iff.mp none
  have other : ∀ pid call, (h.create i (h.sys.kernel.setPcb i
      (newPcb i entry name cr3 kstack_base r.vmas))).sys.calls pid = some call →
      pid ≠ i + 1 ∧ h.sys.calls pid = some call := by
    intro pid call pending
    change Function.update h.sys.calls (i + 1) none pid = some call at pending
    by_cases same : pid = i + 1
    · subst same
      rw [Function.update_self] at pending
      cases pending
    · rw [Function.update_of_ne same] at pending
      exact ⟨same, pending⟩
  refine ⟨⟨?_, ?_, inv.delivers.queues, inv.delivers.order⟩, ?_, inv.queue, ?_, ?_, ?_, ?_⟩
  · intro j inside nonempty
    change ((h.sys.kernel.setPcb i _).table j).state ≠ .empty at nonempty
    change ValidPid ((h.sys.kernel.setPcb i _).table j).pid
    by_cases same : j = i
    · subst same
      rw [setPcb_table_self] at nonempty
      exact absurd rfl nonempty
    · rw [setPcb_table_of_ne _ i _ same] at nonempty ⊢
      exact inv.delivers.pids j inside nonempty
  · intro pid dest_pid dest msg spins suspended
    obtain ⟨valid, slot⟩ :=
      inv.delivers.calls pid dest_pid dest msg spins (other pid _ suspended).2
    refine ⟨valid, ?_⟩
    change ((h.sys.kernel.setPcb i _).table dest).pid = dest_pid
    by_cases same : dest = i
    · subst same
      rw [setPcb_table_self]
      rcases (inv.pids dest).1 with zero | numbered
      · rw [zero] at slot
        have positive := valid.1
        omega
      · exact numbered.symm.trans slot
    · rw [setPcb_table_of_ne _ i _ same]
      exact slot
  · intro j
    have table : (h.create i (h.sys.kernel.setPcb i
        (newPcb i entry name cr3 kstack_base r.vmas))).sys.kernel.table =
        (h.sys.kernel.setPcb i (newPcb i entry name cr3 kstack_base r.vmas)).table := rfl
    rw [table]
    by_cases same : j = i
    · subst same
      rw [setPcb_table_self]
      exact ⟨.inr rfl, fun nonempty => absurd rfl nonempty⟩
    · rw [setPcb_table_of_ne _ i _ same]
      exact inv.pids j
  · intro pid
    change Function.update h.born (i + 1) h.clock pid < h.clock + 1
    by_cases same : pid = i + 1
    · rw [same, Function.update_self]
      exact Nat.lt_succ_self _
    · rw [Function.update_of_ne same]
      exact Nat.lt_succ_of_lt (inv.clock pid)
  · intro pid valid queued member
    change Function.update h.born (i + 1) h.clock pid < queued.1
    by_cases same : pid = i + 1
    · subst same
      change queued ∈ h.queue (inboxOf (i + 1)) at member
      rw [empty] at member
      cases member
    · rw [Function.update_of_ne same]
      exact inv.times pid valid queued member
  · intro pid dest_pid dest msg spins suspended
    obtain ⟨notNew, pending⟩ := other pid _ suspended
    change Function.update h.born (i + 1) h.clock dest_pid < h.began pid
    by_cases same : dest_pid = i + 1
    · subst same
      exact absurd (noSender pid dest msg spins pending) notNew
    · rw [Function.update_of_ne same]
      exact inv.calls pid dest_pid dest msg spins pending
  · intro j inside active
    have known := inv.names j inside active
    refine ⟨?_, known.2⟩
    change _ ∈ Function.update h.names (i + 1) [] (h.sys.kernel.servers j).pid
    rw [Function.update_of_ne (noName j inside active)]
    exact known.1

/-- A part of a message call keeps the times of queued messages in order. -/
theorem record (inv : Clean.Inv h) {pid : Nat} (alive : Alive h.sys.kernel pid = true)
    {action : Action} {next : Kernel × Progress} (runs : h.sys.progress pid action = some next) :
    Clean.Inv (h.record pid action next) := by
  have valid := inv.alive_valid alive
  have delivers : Delivers (h.sys.record pid next) := by
    have stepped := inv.delivers.step valid action
    rw [System.step, runs] at stepped
    exact stepped
  have servers : (h.sys.record pid next).kernel.servers = h.sys.kernel.servers := by
    rw [show next = (next.1, next.2) from rfl, record_kernel]
    exact partOfCall_servers (k := { h.sys.kernel with current_pid := pid }) runs
  -- the call that is begun or continued began after its receiver was created
  have started : ∀ dest_pid, (∃ msg result, next.2 = .sent dest_pid msg result) ∨
      (∃ dest msg spins, next.2 = .waits (.send dest_pid dest msg spins)) →
      h.born dest_pid < h.startOf pid action := by
    intro dest_pid sends
    cases action with
    | send _ _ => exact inv.clock dest_pid
    | recv _ => exact inv.clock dest_pid
    | resume =>
        obtain ⟨dest, msg, spins, pending⟩ := resumed_send runs sends
        exact inv.calls pid dest_pid dest msg spins pending
  have calls : ∀ other dest_pid dest msg spins,
      (h.sys.record pid next).calls other = some (.send dest_pid dest msg spins) →
      h.born dest_pid < Function.update h.began pid (h.startOf pid action) other := by
    intro other dest_pid dest msg spins suspended
    by_cases same : other = pid
    · subst same
      rw [Function.update_self]
      exact started dest_pid
        (.inr ⟨dest, msg, spins, record_calls_self h.sys other next.1 next.2 suspended⟩)
    · rw [Function.update_of_ne same]
      rw [show next = (next.1, next.2) from rfl,
        record_calls_of_ne h.sys pid next.1 next.2 same] at suspended
      exact inv.calls other dest_pid dest msg spins suspended
  have names : ∀ i < ipcServerMax,
      ((h.sys.record pid next).kernel.servers i).active = true →
      ((h.sys.record pid next).kernel.servers i).name ∈
        h.names ((h.sys.record pid next).kernel.servers i).pid ∧
      0 ∉ ((h.sys.record pid next).kernel.servers i).name ∧
      ((h.sys.record pid next).kernel.servers i).name.length < ipcNameMax := by
    rw [servers]
    exact inv.names
  have clock : ∀ other, h.born other < h.clock + 1 := fun other =>
    Nat.lt_succ_of_lt (inv.clock other)
  cases progress_effect inv.delivers runs with
  | quiet table queues call notAccepted notReceived =>
      rename_i k' progress
      have queue : (h.record pid action (k', progress)).queue = h.queue := by
        unfold History.record
        dsimp only
        split
        · rename_i dest_pid msg
          have accepted := notAccepted dest_pid
          rw [acceptedBy, if_pos ⟨rfl, rfl⟩] at accepted
          cases accepted
        · have received := notReceived pid
          rw [receivedBy, if_pos rfl] at received
          cases received
        · rfl
      refine ⟨delivers, ?_, ?_, clock, ?_, calls, names⟩
      · intro i
        have kernel : (h.record pid action (k', progress)).sys.kernel = k' := record_kernel _ _ _ _
        rw [kernel, table]
        exact inv.pids i
      · intro i
        have kernel : (h.record pid action (k', progress)).sys.kernel = k' := record_kernel _ _ _ _
        rw [kernel, queue, queues]
        exact inv.queue i
      · rw [queue]
        exact inv.times
  | stored validDest slot room result =>
      rename_i k' dest_pid dest msg
      subst result
      have begun := started dest_pid (.inl ⟨some msg, 0, rfl⟩)
      refine ⟨delivers, ?_, ?_, clock, ?_, calls, names⟩
      · intro i
        change (((deliver _ dest_pid dest msg).table i).pid = 0 ∨
          ((deliver _ dest_pid dest msg).table i).pid = i + 1) ∧
          (((deliver _ dest_pid dest msg).table i).state ≠ .empty →
            ((deliver _ dest_pid dest msg).table i).pid ≠ 0)
        rw [deliver_pid]
        refine ⟨(inv.pids i).1, fun nonempty => ?_⟩
        by_cases same : i = dest
        · subst same
          rw [slot]
          exact Nat.pos_iff_ne_zero.mp validDest.1
        · rw [deliver_state_of_ne _ _ _ _ same] at nonempty
          exact (inv.pids i).2 nonempty
      · intro i
        change (Function.update h.queue (inboxOf dest_pid) _ i).map Prod.snd =
          ((deliver _ dest_pid dest msg).queues i).contents ipcQueueDepth
        rw [deliver_queues]
        by_cases same : i = inboxOf dest_pid
        · subst same
          rw [Function.update_self, Function.update_self, List.map_append, inv.queue]
          exact ((inv.delivers.queues _).contents_push room _).symm
        · rw [Function.update_of_ne same, Function.update_of_ne same]
          exact inv.queue i
      · intro other validOther queued member
        change queued ∈ Function.update h.queue (inboxOf dest_pid) _ (inboxOf other) at member
        by_cases same : other = dest_pid
        · subst same
          rw [Function.update_self] at member
          rcases List.mem_append.mp member with older | newest
          · exact inv.times other validOther queued older
          · rw [List.mem_singleton.mp newest]
            exact begun
        · have elsewhere : inboxOf other ≠ inboxOf dest_pid := fun equal =>
            same (inboxOf_inj validOther validDest equal)
          rw [Function.update_of_ne elsewhere] at member
          exact inv.times other validOther queued member
  | taken some table queues =>
      rename_i k'
      refine ⟨delivers, ?_, ?_, clock, ?_, calls, names⟩
      · intro i
        change ((k'.table i).pid = 0 ∨ (k'.table i).pid = i + 1) ∧
          ((k'.table i).state ≠ .empty → (k'.table i).pid ≠ 0)
        rw [table]
        exact inv.pids i
      · intro i
        change (Function.update h.queue (inboxOf pid) (h.queue (inboxOf pid)).tail i).map Prod.snd =
          (k'.queues i).contents ipcQueueDepth
        rw [queues]
        by_cases same : i = inboxOf pid
        · subst same
          have before := inv.queue (inboxOf pid)
          rw [(inv.delivers.queues _).contents_pop some] at before
          rw [Function.update_self, Function.update_self, List.map_tail, before]
          rfl
        · rw [Function.update_of_ne same, Function.update_of_ne same]
          exact inv.queue i
      · intro other validOther queued member
        change queued ∈ Function.update h.queue (inboxOf pid) (h.queue (inboxOf pid)).tail
          (inboxOf other) at member
        by_cases same : inboxOf other = inboxOf pid
        · rw [same, Function.update_self] at member
          exact inv.times other validOther queued (same ▸ List.mem_of_mem_tail member)
        · rw [Function.update_of_ne same] at member
          exact inv.times other validOther queued member

/-- A registration records the caller under the name, or does nothing. -/
theorem sysIpcRegister_spec {k : Kernel} {name : List UInt8} (name_str : 0 ∉ name)
    (fits : name.length < ipcNameMax)
    (stored : ∀ i < ipcServerMax, (k.servers i).active = true →
      0 ∉ (k.servers i).name ∧ (k.servers i).name.length < ipcNameMax) :
    sysIpcRegister k name = (-1, k) ∨ ∃ i, sysIpcRegister k name =
      (0, setServer k i ⟨name, k.current_pid, true⟩) := by
  have short : name.take (ipcNameMax - 1) = name :=
    List.take_of_length_le (Nat.le_sub_one_of_lt fits)
  unfold sysIpcRegister
  split
  · rename_i i found
    obtain ⟨active, same⟩ := findServer_spec found
    have inside : i < ipcServerMax := by
      unfold findServer at found
      exact List.mem_range.mp (List.mem_of_find?_eq_some found)
    obtain ⟨stored_str, stored_fits⟩ := stored i inside active
    have equal := (sameChars_iff _ stored_str name_str).mp same
    rw [short, List.take_of_length_le (Nat.le_sub_one_of_lt stored_fits)] at equal
    refine .inr ⟨i, ?_⟩
    rw [← equal, ← active]
  · split
    · rename_i i _
      refine .inr ⟨i, ?_⟩
      rw [short]
    · exact .inl rfl

/-- A registered name belongs to the process that registered it. -/
theorem register (inv : Clean.Inv h) {pid : Nat} {name : List UInt8}
    (clean : Clean h (.register pid name)) : Clean.Inv (h.step (.register pid name)) := by
  obtain ⟨name_str, fits⟩ := clean
  simp only [History.step]
  by_cases alive : Alive h.sys.kernel pid = true
  · rw [if_pos alive]
    have stored : ∀ i < ipcServerMax, (h.sys.kernel.servers i).active = true →
        0 ∉ (h.sys.kernel.servers i).name ∧ (h.sys.kernel.servers i).name.length < ipcNameMax :=
      fun i inside active => (inv.names i inside active).2
    have table := inv.setKernel (SameProcesses.refl h.sys.kernel)
    rcases sysIpcRegister_spec (k := { h.sys.kernel with current_pid := pid }) name_str fits stored with
      failed | ⟨i, done⟩
    · rw [failed]
      dsimp only
      rw [if_neg (by decide)]
      exact ⟨⟨table.delivers.pids, table.delivers.calls, table.delivers.queues, table.delivers.order⟩,
        table.pids, table.queue, table.clock, table.times, table.calls, table.names⟩
    · rw [done]
      dsimp only
      rw [if_pos rfl]
      refine ⟨⟨table.delivers.pids, table.delivers.calls, table.delivers.queues,
        table.delivers.order⟩, table.pids, table.queue, table.clock, table.times, table.calls, ?_⟩
      intro j inside active
      change (Function.update h.sys.kernel.servers i ⟨name, pid, true⟩ j).active = true at active
      change (Function.update h.sys.kernel.servers i ⟨name, pid, true⟩ j).name ∈
          Function.update h.names pid (name :: h.names pid)
            (Function.update h.sys.kernel.servers i ⟨name, pid, true⟩ j).pid ∧
        0 ∉ (Function.update h.sys.kernel.servers i ⟨name, pid, true⟩ j).name ∧
        (Function.update h.sys.kernel.servers i ⟨name, pid, true⟩ j).name.length < ipcNameMax
      by_cases same : j = i
      · subst same
        rw [Function.update_self, Function.update_self]
        exact ⟨List.mem_cons_self, name_str, fits⟩
      · rw [Function.update_of_ne same] at active ⊢
        obtain ⟨known, rest⟩ := inv.names j inside active
        refine ⟨?_, rest⟩
        by_cases caller : (h.sys.kernel.servers j).pid = pid
        · rw [caller, Function.update_self]
          exact List.mem_cons_of_mem name (caller ▸ known)
        · rw [Function.update_of_ne caller]
          exact known
  · rw [if_neg alive]
    exact inv

/-- Every clean operation keeps the invariant. -/
theorem step (h : History) (op : LifeOp) (inv : Clean.Inv h) (clean : Clean h op) :
    Clean.Inv (h.step op) := by
  cases op with
  | create r entry name =>
      simp only [History.step]
      split
      · exact inv
      · rename_i created
        exact inv.create clean created
  | run i => exact inv.setKernel (.processRun i)
  | exit => exact inv.setKernel .schedulerExit
  | exitGroup => exact inv.setKernel .sysExitGroup
  | kill pid signum => exact inv.setKernel (.sysKill pid signum)
  | ipc pid action =>
      simp only [History.step]
      split_ifs with alive
      · split
        · exact inv
        · rename_i runs
          exact inv.record alive runs
      · exact inv
  | register pid name => exact inv.register clean

theorem isolated (inv : Clean.Inv h) : Isolated h where
  received pid action k msg result alive runs := by
    have valid := inv.alive_valid alive
    cases progress_effect inv.delivers runs with
    | quiet _ _ _ _ notReceived =>
        have received := notReceived pid
        rw [receivedBy, if_pos rfl] at received
        cases received
    | taken some table queues =>
        have queued := inv.queue (inboxOf pid)
        rw [(inv.delivers.queues _).contents_pop some] at queued
        obtain ⟨⟨sent, first⟩, rest, front, isFirst, -⟩ := List.map_eq_cons_iff.mp queued
        refine ⟨sent, rest, ?_, ?_⟩
        · rw [front]
          exact congrArg (fun msg => (sent, msg) :: rest) isFirst
        · exact inv.times pid valid (sent, first) (front ▸ List.mem_cons_self)
  lookup name pid name_str found := by
    obtain ⟨i, server, isPid⟩ := Option.map_eq_some_iff.mp found
    obtain ⟨active, same⟩ := findServer_spec server
    have inside : i < ipcServerMax := by
      unfold findServer at server
      exact List.mem_range.mp (List.mem_of_find?_eq_some server)
    obtain ⟨known, stored_str, fits⟩ := inv.names i inside active
    have equal := (sameChars_iff _ stored_str name_str).mp same
    rw [List.take_of_length_le (Nat.le_of_lt fits)] at equal
    have whole : name.length < ipcNameMax := by
      by_contra long
      have length := congrArg List.length equal
      rw [List.length_take] at length
      omega
    rw [List.take_of_length_le (Nat.le_of_lt whole)] at equal
    rw [← equal, ← isPid]
    exact known

end Clean.Inv

end Systrix.Ipc
