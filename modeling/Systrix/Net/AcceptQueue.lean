import Systrix.Net.Stream

/-!
# The accept queue

`net_tcp_accept` and `net_tcp_accept_nb` of `kernel/net.c`, and what becomes of the connections whose
handshake is complete: one queue of four places serves all ports, and a search rotates it.
-/

namespace Systrix.Net

open Machine

def acceptDequeue (n : Host) : Option (Nat × Host) :=
  match n.accept_queue with
  | [] => none
  | front :: rest => some (front, { n with accept_queue := rest })

/-- The loops that dequeue until they come to the connection they look for, and queue the others again; `none`
when it has not come after so many rounds. -/
def drain (stop : Nat → Bool) : (rounds : Nat) → Host → Option (Nat × Host)
  | 0, _ => none
  | rounds + 1, n =>
      match acceptDequeue n with
      | none => none
      | some (front, n) => if stop front then some (front, n) else drain stop rounds (acceptEnqueue n front)

/-- The entry of the queue that the searches of both calls stop at. -/
def readyEntry (n : Host) (port : Nat) : Option Nat :=
  n.accept_queue.find? fun i => (n.tcp_conns i).local_port = port && (n.tcp_conns i).state = .established

def netTcpAcceptNb (n : Host) (port : Nat) : Option (Nat × Host) :=
  match readyEntry n port with
  | none => none
  | some c => drain (fun front => front = c) n.accept_queue.length n

/-- One turn of the loop of `net_tcp_accept`, after its poll; the call goes on while there is no result. -/
def netTcpAccept (n : Host) (port : Nat) : Option (Nat × Host) :=
  match readyEntry n port with
  | none => none
  | some _ => drain (fun front => (n.tcp_conns front).local_port = port) n.accept_queue.length n

/-! ## Histories of connections -/

/-- A connection whose handshake is complete: its port, and whether there was room in the queue. -/
structure Completed where
  port : Nat
  queued : Bool
  deriving DecidableEq

/-- The host and the history of the connections, which are numbered in the order they are completed. -/
structure Listening where
  n : Host
  completed : List Completed
  /-- The connection in a slot. -/
  conn : Nat → Nat
  /-- A caller holds the connection in a slot: it was returned, and is not closed. -/
  held : Nat → Bool
  /-- The connections that were returned, with the port of the call. -/
  returned : List (Nat × Nat)

/-- What can happen: a segment, a call of `net_tcp_accept` (a turn of it) or of `net_tcp_accept_nb`, and the
calls that open a port, close it, and close a connection. -/
inductive ListenOp where
  | segment (seg : Segment)
  | accept (waits : Bool) (port : Nat)
  | listen (port : Nat)
  | unlisten (port : Nat)
  | close (i : Nat)

/-- The connection whose handshake a segment completes. -/
def Host.completes (n : Host) (seg : Segment) : Option Nat :=
  if seg.flags.syn && !seg.flags.ack then none
  else
    match tcpFind n seg.src_ip seg.src_port seg.dst_port with
    | none => none
    | some i => if (n.tcp_conns i).state = .synRcvd ∧ seg.flags.ack = true then some i else none

/-- The result of a call. -/
def Host.accepts (n : Host) (waits : Bool) (port : Nat) : Option (Nat × Host) :=
  if waits then netTcpAccept n port else netTcpAcceptNb n port

namespace Listening

/-- The host after `net_start`. -/
def boot : Listening := ⟨⟨fun _ => zeroConn, [], 49152, []⟩, [], fun _ => 0, fun _ => false, []⟩

variable (r : Listening)

/-- One step. -/
def step : ListenOp → Listening
  | .segment seg =>
      match r.n.completes seg with
      | none => { r with n := handleTcp r.n seg }
      | some i =>
          { r with
            n := handleTcp r.n seg
            completed := r.completed ++
              [⟨(r.n.tcp_conns i).local_port, decide (r.n.accept_queue.length < acceptQueueSz)⟩]
            conn := Function.update r.conn i r.completed.length
            held := Function.update r.held i false }
  | .accept waits port =>
      match r.n.accepts waits port with
      | none => r
      | some (i, n) =>
          { r with
            n := n
            held := Function.update r.held i true
            returned := (r.conn i, port) :: r.returned }
  | .listen port => { r with n := netTcpListen r.n port }
  | .unlisten port => { r with n := netTcpUnlisten r.n port }
  | .close i => { r with n := netTcpClose r.n i, held := Function.update r.held i false }

/-- A caller closes a connection it holds. -/
def Allowed : ListenOp → Prop
  | .close i => r.held i = true
  | _ => True

/-- A call takes one entry out of the queue and puts those before it behind the others, or does nothing. -/
def Rotates : ListenOp → Prop
  | .accept waits port => r.step (.accept waits port) = r ∨
      ∃ before i behind, r.n.accept_queue = before ++ i :: behind ∧
        (r.step (.accept waits port)).n.accept_queue = behind ++ before ∧
        (r.step (.accept waits port)).returned = (r.conn i, port) :: r.returned
  | _ => True

/-- The connections that were returned. -/
def returnedConns : List Nat := r.returned.map Prod.fst

/-- The history after some calls on a port. -/
def afterCalls (port : Nat) (calls : List Bool) : Listening :=
  Run.final step r (calls.map fun waits => .accept waits port)

/-- What callers get: no connection is returned twice; what is returned is a connection of the port that was
queued; a queued connection that was not returned is in the queue, and unless its peer has sent FIN it is
returned when as many calls on its port have come as the queue has entries. -/
structure Fair : Prop where
  once : r.returnedConns.Nodup
  port : ∀ entry ∈ r.returned, r.completed[entry.1]? = some ⟨entry.2, true⟩
  waits : ∀ id port, r.completed[id]? = some ⟨port, true⟩ → id ∉ r.returnedConns →
    ∃ i ∈ r.n.accept_queue, r.conn i = id ∧ (r.n.tcp_conns i).local_port = port ∧
      ((r.n.tcp_conns i).state = .established → ∀ calls, r.n.accept_queue.length ≤ calls.length →
        id ∈ (r.afterCalls port calls).returnedConns)

/-! ## What the calls do to the queue -/

end Listening

section Queue

variable {n : Host}

/-- The loops take the first entry that stops them, and put those before it behind the others. -/
theorem drain_spec {stop : Nat → Bool} {before behind : List Nat} {i : Nat} {rounds : Nat}
    (few : n.accept_queue.length ≤ acceptQueueSz) (queue : n.accept_queue = before ++ i :: behind)
    (stops : stop i = true) (passes : ∀ j ∈ before, stop j = false) (enough : before.length < rounds) :
    drain stop rounds n = some (i, { n with accept_queue := behind ++ before }) := by
  induction before generalizing n behind rounds with
  | nil =>
      obtain ⟨rounds, rfl⟩ := Nat.exists_eq_succ_of_ne_zero (Nat.ne_of_gt enough)
      have first : n.accept_queue = i :: behind := queue
      simp only [drain, acceptDequeue, first, if_pos stops, List.append_nil]
  | cons j before ih =>
      obtain ⟨rounds, rfl⟩ := Nat.exists_eq_succ_of_ne_zero (Nat.ne_of_gt (Nat.zero_lt_of_lt enough))
      have first : n.accept_queue = j :: (before ++ i :: behind) := queue
      have pass : ¬ stop j = true := by simp [passes j List.mem_cons_self]
      have room : ¬ (before ++ i :: behind).length ≥ acceptQueueSz := by
        rw [first, List.length_cons] at few
        omega
      simp only [drain, acceptDequeue, first, if_neg pass, acceptEnqueue, if_neg room]
      have shifted : before ++ i :: behind ++ [j] = before ++ i :: (behind ++ [j]) := List.append_assoc _ _ _
      have length : (before ++ i :: behind ++ [j]).length ≤ acceptQueueSz := by
        rw [first, List.length_cons] at few
        rw [List.length_append, List.length_singleton]
        exact few
      have later : drain stop rounds { n with accept_queue := before ++ i :: behind ++ [j] } =
          some (i, { n with accept_queue := behind ++ [j] ++ before }) :=
        ih length shifted (fun k member => passes k (List.mem_cons_of_mem j member))
          (Nat.lt_of_succ_lt_succ enough)
      rw [later, List.append_assoc behind]
      rfl

/-- What a call does to the queue: it takes an entry of the port out and puts those before it behind the
others. -/
def Takes (n : Host) (port : Nat) (i : Nat) (n' : Host) : Prop :=
  ∃ before behind, n.accept_queue = before ++ i :: behind ∧ (n.tcp_conns i).local_port = port ∧
    n' = { n with accept_queue := behind ++ before }

theorem readyEntry_some {port i : Nat} (found : readyEntry n port = some i) :
    i ∈ n.accept_queue ∧ (n.tcp_conns i).local_port = port ∧ (n.tcp_conns i).state = .established := by
  have ready := List.find?_some found
  rw [Bool.and_eq_true, decide_eq_true_eq, decide_eq_true_eq] at ready
  exact ⟨List.mem_of_find?_eq_some found, ready⟩

/-- A loop that stops at an entry of the queue. -/
theorem drain_takes {port : Nat} {stop : Nat → Bool} (few : n.accept_queue.length ≤ acceptQueueSz)
    (ofPort : ∀ i, stop i = true → (n.tcp_conns i).local_port = port)
    (some_stops : ∃ i ∈ n.accept_queue, stop i = true) :
    ∃ i n', drain stop n.accept_queue.length n = some (i, n') ∧ Takes n port i n' := by
  cases first : n.accept_queue.find? stop with
  | none =>
      obtain ⟨i, member, stops⟩ := some_stops
      exact absurd stops (List.find?_eq_none.mp first i member)
  | some i =>
      obtain ⟨stops, before, behind, queue, passes⟩ := List.find?_eq_some_iff_append.mp first
      have enough : before.length < n.accept_queue.length := by
        rw [queue, List.length_append, List.length_cons]
        omega
      have pass : ∀ j ∈ before, stop j = false := fun j member => by simpa using passes j member
      exact ⟨i, _, drain_spec few queue stops pass enough, before, behind, queue, ofPort i stops, rfl⟩

/-- A call returns nothing, or it takes an entry of its port; it returns nothing only when no connection of
the port is ready. -/
theorem accepts_spec (few : n.accept_queue.length ≤ acceptQueueSz) (waits : Bool) (port : Nat) :
    (n.accepts waits port = none ∧ readyEntry n port = none) ∨
      ∃ i n', n.accepts waits port = some (i, n') ∧ Takes n port i n' := by
  unfold Host.accepts netTcpAccept netTcpAcceptNb
  cases found : readyEntry n port with
  | none => exact Or.inl ⟨by cases waits <;> rfl, rfl⟩
  | some c =>
      obtain ⟨member, ofPort, -⟩ := readyEntry_some found
      refine Or.inr ?_
      cases waits with
      | true =>
          exact drain_takes few (fun i stops => of_decide_eq_true stops) ⟨c, member, decide_eq_true ofPort⟩
      | false =>
          refine drain_takes few (fun i stops => ?_) ⟨c, member, decide_eq_true rfl⟩
          rw [of_decide_eq_true stops, ofPort]

theorem readyEntry_of_mem {port i : Nat} (member : i ∈ n.accept_queue) (ofPort : (n.tcp_conns i).local_port = port)
    (established : (n.tcp_conns i).state = .established) : readyEntry n port ≠ none := by
  intro none
  have fails := List.find?_eq_none.mp none i member
  simp [ofPort, established] at fails

end Queue

/-! ## The invariant -/

namespace Listening

/-- The queue holds queued connections that were not returned, each once, and all of them. -/
structure Served (r : Listening) : Prop where
  few : r.n.accept_queue.length ≤ acceptQueueSz
  distinct : r.n.accept_queue.Nodup
  live : ∀ i ∈ r.n.accept_queue, (r.n.tcp_conns i).Open
  free : ∀ i ∈ r.n.accept_queue, r.held i = false
  conn : ∀ i ∈ r.n.accept_queue, r.completed[r.conn i]? = some ⟨(r.n.tcp_conns i).local_port, true⟩
  own : ∀ i ∈ r.n.accept_queue, ∀ j ∈ r.n.accept_queue, r.conn i = r.conn j → i = j
  fresh : ∀ i ∈ r.n.accept_queue, r.conn i ∉ r.returnedConns
  once : r.returnedConns.Nodup
  port : ∀ entry ∈ r.returned, r.completed[entry.1]? = some ⟨entry.2, true⟩
  waits : ∀ id port, r.completed[id]? = some ⟨port, true⟩ → id ∉ r.returnedConns →
    ∃ i ∈ r.n.accept_queue, r.conn i = id

variable {r : Listening}

/-- Steps that leave the queue and its connections alone. -/
theorem Served.of_quiet (inv : r.Served) {n : Host} {held : Nat → Bool} (queue : n.accept_queue = r.n.accept_queue)
    (live : ∀ i ∈ r.n.accept_queue, (n.tcp_conns i).Open)
    (port : ∀ i ∈ r.n.accept_queue, (n.tcp_conns i).local_port = (r.n.tcp_conns i).local_port)
    (free : ∀ i ∈ r.n.accept_queue, held i = false) : Served { r with n := n, held := held } where
  few := by rw [queue]; exact inv.few
  distinct := by rw [queue]; exact inv.distinct
  live := by rw [queue]; exact live
  free := by rw [queue]; exact free
  conn := by
    rw [queue]
    intro i member
    show r.completed[r.conn i]? = some ⟨(n.tcp_conns i).local_port, true⟩
    rw [port i member]
    exact inv.conn i member
  own := by rw [queue]; exact inv.own
  fresh := by rw [queue]; exact inv.fresh
  once := inv.once
  port := inv.port
  waits := by rw [queue]; exact inv.waits

/-- Slots that are not in the queue may change. -/
theorem Served.of_same (inv : r.Served) {n : Host} {held : Nat → Bool} (queue : n.accept_queue = r.n.accept_queue)
    (same : ∀ i ∈ r.n.accept_queue, n.tcp_conns i = r.n.tcp_conns i)
    (free : ∀ i ∈ r.n.accept_queue, held i = false) : Served { r with n := n, held := held } :=
  inv.of_quiet queue (fun i member => (same i member).symm ▸ inv.live i member)
    (fun i member => by rw [same i member]) free

/-- A slot in another state than the connections in the queue is not in the queue. -/
theorem Served.not_mem (inv : r.Served) {i : Nat} (shut : ¬ (r.n.tcp_conns i).Open) : i ∉ r.n.accept_queue :=
  fun member => shut (inv.live i member)

theorem not_open_closed {c : TcpConn} (state : c.state = .closed) : ¬ c.Open := by
  rintro (isOpen | isOpen) <;> rw [state] at isOpen <;> cases isOpen

theorem not_open_listen {c : TcpConn} (state : c.state = .listen) : ¬ c.Open := by
  rintro (isOpen | isOpen) <;> rw [state] at isOpen <;> cases isOpen

theorem not_open_synRcvd {c : TcpConn} (state : c.state = .synRcvd) : ¬ c.Open := by
  rintro (isOpen | isOpen) <;> rw [state] at isOpen <;> cases isOpen

theorem Served.listen (inv : r.Served) (port : Nat) : Served { r with n := netTcpListen r.n port } := by
  unfold netTcpListen
  split_ifs
  · exact inv
  · cases alloc : tcpAlloc r.n with
    | none => exact inv
    | some i =>
        have outside := inv.not_mem (not_open_closed (tcpAlloc_closed alloc))
        exact inv.of_same rfl (fun j member => setConn_of_ne (ne_of_mem_of_not_mem member outside) _) inv.free

theorem Served.unlisten (inv : r.Served) (port : Nat) : Served { r with n := netTcpUnlisten r.n port } := by
  unfold netTcpUnlisten
  cases found : tcpFindListener r.n port with
  | none => exact inv
  | some i =>
      have outside := inv.not_mem (not_open_listen (tcpFindListener_state found))
      exact inv.of_same rfl (fun j member => setConn_of_ne (ne_of_mem_of_not_mem member outside) _) inv.free

theorem netTcpClose_queue (n : Host) (i : Nat) : (netTcpClose n i).accept_queue = n.accept_queue := by
  unfold netTcpClose
  dsimp only
  split_ifs <;> rfl

theorem netTcpClose_of_ne (n : Host) {i j : Nat} (ne : j ≠ i) : (netTcpClose n i).tcp_conns j = n.tcp_conns j := by
  unfold netTcpClose
  dsimp only
  split_ifs <;> exact setConn_of_ne ne _

theorem Served.close (inv : r.Served) {i : Nat} (held : r.held i = true) :
    Served { r with n := netTcpClose r.n i, held := Function.update r.held i false } := by
  have outside : i ∉ r.n.accept_queue := fun member => Bool.noConfusion (held.symm.trans (inv.free i member))
  refine inv.of_same (netTcpClose_queue r.n i)
    (fun j member => netTcpClose_of_ne r.n (ne_of_mem_of_not_mem member outside)) fun j member => ?_
  rw [Function.update_of_ne (ne_of_mem_of_not_mem member outside)]
  exact inv.free j member

/-! ## Segments -/

theorem Completed.lt {list : List Completed} {id : Nat} {c : Completed} (found : list[id]? = some c) :
    id < list.length :=
  (List.getElem?_eq_some_iff.mp found).1

theorem handle_open {c : TcpConn} (isOpen : c.Open) (seg : Segment) :
    (c.handle seg).Open ∧ (c.handle seg).local_port = c.local_port := by
  have received : (c.receive seg).Open ∧ (c.receive seg).local_port = c.local_port := by
    unfold TcpConn.receive
    by_cases fin : seg.flags.fin = true
    · rw [if_pos fin]
      refine ⟨Or.inr rfl, ?_⟩
      dsimp only
      split_ifs <;> rfl
    · rw [if_neg fin]
      split_ifs
      · exact ⟨isOpen, rfl⟩
      · exact ⟨isOpen, rfl⟩
  unfold TcpConn.handle
  rcases isOpen with state | state
  · rw [state]
    exact received
  · rw [state]
    exact received

/-- A segment leaves the connections that take data open, with their ports. -/
theorem handleTcp_open {n : Host} {i : Nat} (isOpen : (n.tcp_conns i).Open) (seg : Segment) :
    ((handleTcp n seg).tcp_conns i).Open ∧
      ((handleTcp n seg).tcp_conns i).local_port = (n.tcp_conns i).local_port := by
  have live : (n.tcp_conns i).state ≠ .closed := fun state => not_open_closed state isOpen
  rw [handleTcp_conn live seg]
  split_ifs
  · exact handle_open isOpen seg
  · exact ⟨isOpen, rfl⟩

theorem tcpFin_queue (n : Host) (i : Nat) (seg : Segment) :
    (tcpFin (tcpData n i seg) i seg).accept_queue = n.accept_queue := by
  unfold tcpFin tcpData
  dsimp only
  split_ifs <;> rfl

theorem handleConn_queue (n : Host) (i : Nat) (seg : Segment) : (handleConn n i seg).accept_queue =
    if (n.tcp_conns i).state = .synRcvd ∧ seg.flags.ack = true ∧ n.accept_queue.length < acceptQueueSz then
      n.accept_queue ++ [i]
    else n.accept_queue := by
  unfold handleConn
  dsimp only
  cases (n.tcp_conns i).state with
  | synRcvd =>
      by_cases ack : seg.flags.ack = true
      · by_cases full : n.accept_queue.length ≥ acceptQueueSz
        · have noRoom : ¬ n.accept_queue.length < acceptQueueSz := Nat.not_lt.mpr full
          simp [ack, acceptEnqueue, full, noRoom, Host.setConn]
        · have room : n.accept_queue.length < acceptQueueSz := Nat.lt_of_not_le full
          simp [ack, acceptEnqueue, full, room, Host.setConn]
      · simp [ack]
  | synSent =>
      dsimp only
      split_ifs <;> first | rfl | simp_all
  | established => simpa using tcpFin_queue n i seg
  | closeWait => simpa using tcpFin_queue n i seg
  | closed => simp
  | listen => simp

/-- A segment that completes no handshake leaves the queue alone. -/
theorem handleTcp_queue_none {n : Host} {seg : Segment} (none : n.completes seg = .none) :
    (handleTcp n seg).accept_queue = n.accept_queue := by
  unfold handleTcp
  unfold Host.completes at none
  split_ifs at none ⊢ with syn
  · cases tcpFindListener n seg.dst_port with
    | none => rfl
    | some _ => cases tcpAlloc n <;> rfl
  · cases found : tcpFind n seg.src_ip seg.src_port seg.dst_port with
    | none => rfl
    | some i =>
        rw [found] at none
        dsimp only at none
        have incomplete : ¬((n.tcp_conns i).state = .synRcvd ∧ seg.flags.ack = true) := fun completes => by
          rw [if_pos completes] at none
          cases none
        have outside : ¬((n.tcp_conns i).state = .synRcvd ∧ seg.flags.ack = true ∧
            n.accept_queue.length < acceptQueueSz) := fun all => incomplete ⟨all.1, all.2.1⟩
        exact (handleConn_queue n i seg).trans (if_neg outside)

/-- What a segment that completes a handshake does. -/
theorem handleTcp_completes {n : Host} {seg : Segment} {i : Nat} (completes : n.completes seg = some i) :
    (n.tcp_conns i).state = .synRcvd ∧ ((handleTcp n seg).tcp_conns i).Open ∧
      ((handleTcp n seg).tcp_conns i).local_port = (n.tcp_conns i).local_port ∧
      (handleTcp n seg).accept_queue =
        if n.accept_queue.length < acceptQueueSz then n.accept_queue ++ [i] else n.accept_queue := by
  unfold Host.completes at completes
  split_ifs at completes with syn
  cases found : tcpFind n seg.src_ip seg.src_port seg.dst_port with
  | none => rw [found] at completes; cases completes
  | some j =>
      rw [found] at completes
      dsimp only at completes
      split_ifs at completes with waiting
      obtain rfl := Option.some.inj completes
      obtain ⟨state, ack⟩ := waiting
      have handled : handleTcp n seg = handleConn n j seg := by
        unfold handleTcp
        rw [if_neg syn, found]
      have conn : (handleTcp n seg).tcp_conns j = { n.tcp_conns j with state := .established } := by
        rw [handled, handleConn_conns, Function.update_self, TcpConn.handle, state]
        exact if_pos ack
      refine ⟨state, ?_, ?_, ?_⟩
      · rw [conn]
        exact Or.inl rfl
      · rw [conn]
      · rw [handled, handleConn_queue]
        simp only [state, ack, true_and]

/-- A handshake is complete, and the connection joins the queue if there is room. -/
theorem Served.complete (inv : r.Served) {n : Host} {i : Nat} (outside : i ∉ r.n.accept_queue)
    (live : ∀ j ∈ r.n.accept_queue, (n.tcp_conns j).Open ∧
      (n.tcp_conns j).local_port = (r.n.tcp_conns j).local_port)
    (isOpen : (n.tcp_conns i).Open) (port : (n.tcp_conns i).local_port = (r.n.tcp_conns i).local_port)
    (queue : n.accept_queue = if r.n.accept_queue.length < acceptQueueSz then r.n.accept_queue ++ [i]
      else r.n.accept_queue) :
    Served { r with
      n := n
      completed := r.completed ++ [⟨(r.n.tcp_conns i).local_port, decide (r.n.accept_queue.length < acceptQueueSz)⟩]
      conn := Function.update r.conn i r.completed.length
      held := Function.update r.held i false } := by
  have other : ∀ j ∈ r.n.accept_queue, j ≠ i := fun j member => ne_of_mem_of_not_mem member outside
  have bound : ∀ j ∈ r.n.accept_queue, r.conn j < r.completed.length := fun j member => Completed.lt (inv.conn j member)
  have known : ∀ id ∈ r.returnedConns, id < r.completed.length := fun id member => by
    obtain ⟨entry, isEntry, rfl⟩ := List.mem_map.mp member
    exact Completed.lt (inv.port entry isEntry)
  have old : ∀ {id : Nat} (c : Completed), id < r.completed.length → (r.completed ++ [c])[id]? = r.completed[id]? :=
    fun c inside => List.getElem?_append_left inside
  -- the entries of the new queue are the old ones, and the new one if there was room
  have members : ∀ j ∈ n.accept_queue, j ∈ r.n.accept_queue ∨ j = i ∧ r.n.accept_queue.length < acceptQueueSz := by
    intro j member
    rw [queue] at member
    split_ifs at member with room
    · rcases List.mem_append.mp member with before | last
      · exact Or.inl before
      · exact Or.inr ⟨List.mem_singleton.mp last, room⟩
    · exact Or.inl member
  have stays : ∀ j ∈ r.n.accept_queue, j ∈ n.accept_queue := by
    intro j member
    rw [queue]
    split_ifs
    · exact List.mem_append_left _ member
    · exact member
  constructor
  · show n.accept_queue.length ≤ acceptQueueSz
    rw [queue]
    split_ifs with room
    · rw [List.length_append, List.length_singleton]
      exact room
    · exact inv.few
  · show n.accept_queue.Nodup
    rw [queue]
    split_ifs
    · refine List.nodup_append.mpr ⟨inv.distinct, List.pairwise_singleton _ i, fun j member k last => ?_⟩
      rw [List.mem_singleton.mp last]
      exact other j member
    · exact inv.distinct
  · intro j member
    rcases members j member with before | ⟨rfl, -⟩
    · exact (live j before).1
    · exact isOpen
  · intro j member
    show Function.update r.held i false j = false
    rcases members j member with before | ⟨rfl, -⟩
    · rw [Function.update_of_ne (other j before)]
      exact inv.free j before
    · rw [Function.update_self]
  · intro j member
    show (r.completed ++ [_])[Function.update r.conn i r.completed.length j]? = some ⟨(n.tcp_conns j).local_port, true⟩
    rcases members j member with before | ⟨rfl, room⟩
    · rw [Function.update_of_ne (other j before), old _ (bound j before), (live j before).2]
      exact inv.conn j before
    · rw [Function.update_self, List.getElem?_concat_length, port, decide_eq_true room]
  · intro j memberJ k memberK
    show Function.update r.conn i r.completed.length j = Function.update r.conn i r.completed.length k → j = k
    rcases members j memberJ with beforeJ | ⟨rfl, -⟩
    · rcases members k memberK with beforeK | ⟨rfl, -⟩
      · rw [Function.update_of_ne (other j beforeJ), Function.update_of_ne (other k beforeK)]
        exact inv.own j beforeJ k beforeK
      · rw [Function.update_of_ne (other j beforeJ), Function.update_self]
        intro equal
        exact absurd equal (Nat.ne_of_lt (bound j beforeJ))
    · rcases members k memberK with beforeK | ⟨rfl, -⟩
      · rw [Function.update_of_ne (other k beforeK), Function.update_self]
        intro equal
        exact absurd equal.symm (Nat.ne_of_lt (bound k beforeK))
      · exact fun _ => rfl
  · intro j member
    show Function.update r.conn i r.completed.length j ∉ r.returnedConns
    rcases members j member with before | ⟨rfl, -⟩
    · rw [Function.update_of_ne (other j before)]
      exact inv.fresh j before
    · rw [Function.update_self]
      exact fun isReturned => Nat.lt_irrefl _ (known _ isReturned)
  · exact inv.once
  · intro entry member
    show (r.completed ++ [_])[entry.1]? = some ⟨entry.2, true⟩
    rw [old _ (known _ (List.mem_map_of_mem member))]
    exact inv.port entry member
  · intro id wanted found notReturned
    show ∃ j ∈ n.accept_queue, Function.update r.conn i r.completed.length j = id
    have found' : (r.completed ++ [⟨(r.n.tcp_conns i).local_port,
        decide (r.n.accept_queue.length < acceptQueueSz)⟩])[id]? = some ⟨wanted, true⟩ := found
    rcases Nat.lt_or_ge id r.completed.length with before | last
    · rw [old _ before] at found'
      obtain ⟨j, member, isConn⟩ := inv.waits id wanted found' notReturned
      exact ⟨j, stays j member, by rw [Function.update_of_ne (other j member), isConn]⟩
    · have inside := Completed.lt found'
      rw [List.length_append, List.length_singleton] at inside
      have atEnd : id = r.completed.length := by omega
      subst atEnd
      rw [List.getElem?_concat_length, Option.some.injEq, Completed.mk.injEq, decide_eq_true_eq] at found'
      refine ⟨i, ?_, Function.update_self _ _ _⟩
      rw [queue, if_pos found'.2]
      exact List.mem_append_right _ (List.mem_singleton_self i)

theorem Served.segment (inv : r.Served) (seg : Segment) : (r.step (.segment seg)).Served := by
  have live := fun j member => handleTcp_open (inv.live j member) seg
  unfold Listening.step
  dsimp only
  cases completes : r.n.completes seg with
  | none =>
      exact inv.of_quiet (handleTcp_queue_none completes) (fun j member => (live j member).1)
        (fun j member => (live j member).2) inv.free
  | some i =>
      obtain ⟨state, isOpen, port, queue⟩ := handleTcp_completes completes
      exact inv.complete (inv.not_mem (not_open_synRcvd state)) live isOpen port queue

/-! ## Calls -/

/-- A call takes a connection out of the queue. -/
theorem Served.take (inv : r.Served) {port i : Nat} {n : Host} (takes : Takes r.n port i n) :
    Served { r with
      n := n
      held := Function.update r.held i true
      returned := (r.conn i, port) :: r.returned } := by
  obtain ⟨before, behind, queue, ofPort, rfl⟩ := takes
  have shuffled : r.n.accept_queue.Perm (i :: (behind ++ before)) := by
    rw [queue]
    exact List.perm_middle.trans (List.perm_append_comm.cons i)
  have rest : ∀ j ∈ behind ++ before, j ∈ r.n.accept_queue := fun j member =>
    shuffled.symm.subset (List.mem_cons_of_mem i member)
  have member : i ∈ r.n.accept_queue := shuffled.symm.subset List.mem_cons_self
  have distinct := shuffled.nodup_iff.mp inv.distinct
  have other : ∀ j ∈ behind ++ before, j ≠ i := fun j isRest =>
    ne_of_mem_of_not_mem isRest (List.nodup_cons.mp distinct).1
  have conn := inv.conn i member
  constructor
  · have length := shuffled.length_eq
    have few := inv.few
    rw [List.length_cons] at length
    show (behind ++ before).length ≤ acceptQueueSz
    omega
  · exact distinct.of_cons
  · exact fun j isRest => inv.live j (rest j isRest)
  · intro j isRest
    show Function.update r.held i true j = false
    rw [Function.update_of_ne (other j isRest)]
    exact inv.free j (rest j isRest)
  · exact fun j isRest => inv.conn j (rest j isRest)
  · exact fun j isRest k isRest' => inv.own j (rest j isRest) k (rest k isRest')
  · intro j isRest
    show r.conn j ∉ r.conn i :: r.returnedConns
    rw [List.mem_cons, not_or]
    exact ⟨fun equal => other j isRest (inv.own j (rest j isRest) i member equal), inv.fresh j (rest j isRest)⟩
  · exact List.nodup_cons.mpr ⟨inv.fresh i member, inv.once⟩
  · intro entry isEntry
    rcases List.mem_cons.mp isEntry with new | old
    · rw [new, ← ofPort]
      exact conn
    · exact inv.port entry old
  · intro id wanted found notReturned
    have kept : id ≠ r.conn i ∧ id ∉ r.returnedConns := by
      rw [← not_or, ← List.mem_cons]
      exact notReturned
    obtain ⟨j, isQueued, isConn⟩ := inv.waits id wanted found kept.2
    refine ⟨j, (List.mem_cons.mp (shuffled.subset isQueued)).resolve_left ?_, isConn⟩
    rintro rfl
    exact kept.1 isConn.symm

/-- What a call does: nothing, when no connection of the port is ready, or it returns one. -/
theorem Served.accept_cases (inv : r.Served) (waits : Bool) (port : Nat) :
    (r.step (.accept waits port) = r ∧ readyEntry r.n port = none) ∨
      ∃ i n, Takes r.n port i n ∧ r.step (.accept waits port) =
        { r with n := n, held := Function.update r.held i true, returned := (r.conn i, port) :: r.returned } := by
  unfold Listening.step
  dsimp only
  rcases accepts_spec inv.few waits port with ⟨nothing, none⟩ | ⟨i, n, result, takes⟩
  · exact Or.inl ⟨by rw [nothing], none⟩
  · exact Or.inr ⟨i, n, takes, by rw [result]⟩

theorem Served.accept (inv : r.Served) (waits : Bool) (port : Nat) : (r.step (.accept waits port)).Served := by
  rcases inv.accept_cases waits port with ⟨same, -⟩ | ⟨i, n, takes, taken⟩
  · rw [same]
    exact inv
  · rw [taken]
    exact inv.take takes

theorem Served.rotates (inv : r.Served) (op : ListenOp) : r.Rotates op := by
  cases op with
  | accept waits port =>
      rcases inv.accept_cases waits port with ⟨same, -⟩ | ⟨i, n, takes, taken⟩
      · exact Or.inl same
      · obtain ⟨before, behind, queue, -, rfl⟩ := takes
        exact Or.inr ⟨before, i, behind, queue, by rw [taken], by rw [taken]⟩
  | _ => trivial

theorem Served.step (inv : r.Served) {op : ListenOp} (allowed : r.Allowed op) : (r.step op).Served := by
  cases op with
  | segment seg => exact inv.segment seg
  | accept waits port => exact inv.accept waits port
  | listen port => exact inv.listen port
  | unlisten port => exact inv.unlisten port
  | close i => exact inv.close allowed

/-- What was returned stays on record. -/
theorem returned_afterCalls {id : Nat} (isReturned : id ∈ r.returnedConns) (port : Nat) (calls : List Bool) :
    id ∈ (r.afterCalls port calls).returnedConns := by
  induction calls generalizing r with
  | nil => exact isReturned
  | cons waits calls ih =>
      refine ih ?_
      unfold Listening.step
      dsimp only
      cases r.n.accepts waits port with
      | none => exact isReturned
      | some result => exact List.mem_cons_of_mem _ isReturned

theorem Served.afterCalls (inv : r.Served) (port : Nat) (calls : List Bool) :
    (r.afterCalls port calls).Served ∧ (r.afterCalls port calls).completed = r.completed := by
  induction calls generalizing r with
  | nil => exact ⟨inv, rfl⟩
  | cons waits calls ih =>
      obtain ⟨served, completed⟩ := ih (inv.accept waits port)
      refine ⟨served, completed.trans ?_⟩
      rcases inv.accept_cases waits port with ⟨same, -⟩ | ⟨i, n, takes, taken⟩
      · rw [same]
      · rw [taken]

/-- A connection in the queue whose peer has not sent FIN is returned by so many calls on its port. -/
theorem Served.available (inv : r.Served) {i : Nat} (member : i ∈ r.n.accept_queue)
    (established : (r.n.tcp_conns i).state = .established) {calls : List Bool}
    (enough : r.n.accept_queue.length ≤ calls.length) :
    r.conn i ∈ (r.afterCalls (r.n.tcp_conns i).local_port calls).returnedConns := by
  -- every call takes an entry out, and the queue has no more entries than calls come
  induction calls generalizing r with
  | nil =>
      have empty := List.eq_nil_of_length_eq_zero (Nat.le_zero.mp enough)
      rw [empty] at member
      exact absurd member List.not_mem_nil
  | cons waits calls ih =>
      have ready := readyEntry_of_mem member rfl established
      rcases inv.accept_cases waits (r.n.tcp_conns i).local_port with ⟨-, none⟩ | ⟨j, n, takes, taken⟩
      · exact absurd none ready
      · have inv' := inv.take takes
        obtain ⟨before, behind, queue, ofPort, rfl⟩ := takes
        show r.conn i ∈ Listening.returnedConns (Run.final Listening.step (r.step _) _)
        rw [taken]
        by_cases same : i = j
        · exact returned_afterCalls (same ▸ List.mem_cons_self) _ calls
        · have shuffled : r.n.accept_queue.Perm (j :: (behind ++ before)) := by
            rw [queue]
            exact List.perm_middle.trans (List.perm_append_comm.cons j)
          have stays := (List.mem_cons.mp (shuffled.subset member)).resolve_left same
          have length := shuffled.length_eq
          rw [List.length_cons] at length enough
          exact ih inv' stays established (by
            show (behind ++ before).length ≤ calls.length
            omega)

theorem boot_served : boot.Served where
  few := Nat.zero_le _
  distinct := List.nodup_nil
  live _ member := absurd member List.not_mem_nil
  free _ member := absurd member List.not_mem_nil
  conn _ member := absurd member List.not_mem_nil
  own _ member := absurd member List.not_mem_nil
  fresh _ member := absurd member List.not_mem_nil
  once := List.nodup_nil
  port _ member := absurd member List.not_mem_nil
  waits _ _ found := absurd (Completed.lt found) (Nat.not_lt_zero _)

theorem Served.fair (inv : r.Served) : r.Fair where
  once := inv.once
  port := inv.port
  waits id port found notReturned := by
    obtain ⟨i, member, isConn⟩ := inv.waits id port found notReturned
    have conn := inv.conn i member
    rw [isConn, found, Option.some.injEq, Completed.mk.injEq] at conn
    refine ⟨i, member, isConn, conn.1.symm, fun established calls enough => ?_⟩
    have available := inv.available member established enough
    rwa [isConn, ← conn.1] at available

/-- In every run connections are returned once and on their own port, queued connections wait until they are
returned, and a call takes its connection out of the queue and puts those before it behind the others. -/
theorem accept_fair {ops : List ListenOp} (allowed : Run.Meets step Allowed boot ops) :
    (Run.final step boot ops).Fair ∧ Run.Meets step Rotates boot ops :=
  ⟨(allowed.invariant (fun _ _ inv meets => Served.step inv meets) boot_served).fair,
    allowed.imp (fun _ _ inv meets => Served.step inv meets) (fun _ op inv _ => inv.rotates op) boot_served⟩

/-- The SYN of a client, and the last segment of its handshake. -/
def handshake (client : Nat) : List ListenOp :=
  [.segment ⟨0x0a000002, client, 80, 0, ⟨false, true, false, false⟩, []⟩,
    .segment ⟨0x0a000002, client, 80, 1, ⟨false, false, false, true⟩, []⟩]

/-- Two clients, of which the first is accepted and closed. -/
def twoClients : List ListenOp :=
  .listen 80 :: (handshake 1001 ++ handshake 1002 ++ [.accept false 80, .close 1, .accept true 80])

theorem accept_fair_twoClients :
    (Run.final step boot twoClients).Fair ∧ Run.Meets step Rotates boot twoClients :=
  accept_fair ⟨trivial, trivial, trivial, trivial, trivial, trivial, (by decide +kernel : _ = true), trivial, trivial⟩

/-- Five clients complete their handshakes before anybody accepts. -/
def fiveClients : List ListenOp :=
  .listen 80 :: (handshake 1001 ++ handshake 1002 ++ handshake 1003 ++ handshake 1004 ++ handshake 1005)

/-- The fifth connection is complete, but no call ever returns it. -/
theorem fifth_client_dropped : ¬ ∀ ops, Run.Meets step Allowed boot ops → ∀ id c,
    (Run.final step boot ops).completed[id]? = some c → id ∉ (Run.final step boot ops).returnedConns →
      ∃ calls, id ∈ ((Run.final step boot ops).afterCalls c.port calls).returnedConns := by
  intro every
  have allowed : Run.Meets step Allowed boot fiveClients := ⟨trivial, trivial, trivial, trivial, trivial, trivial,
    trivial, trivial, trivial, trivial, trivial, trivial⟩
  have complete : (Run.final step boot fiveClients).completed[4]? = some ⟨80, false⟩ := by decide +kernel
  have nobody : 4 ∉ (Run.final step boot fiveClients).returnedConns := by decide +kernel
  have inv : (Run.final step boot fiveClients).Served :=
    allowed.invariant (fun _ _ inv meets => Served.step inv meets) boot_served
  obtain ⟨calls, isReturned⟩ := every fiveClients allowed 4 ⟨80, false⟩ complete nobody
  obtain ⟨inv', completed⟩ := inv.afterCalls 80 calls
  obtain ⟨entry, member, number⟩ := List.mem_map.mp isReturned
  have queued := inv'.port entry member
  rw [number, completed, complete, Option.some.injEq, Completed.mk.injEq] at queued
  exact Bool.noConfusion queued.2

end Listening

end Systrix.Net
