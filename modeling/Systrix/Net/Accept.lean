import Systrix.Lib.Run
import Systrix.Net.Sockets

/-!
# Accepting on a socket

`sys_accept` of `kernel/tcpip.c` against a history of the connections: who opened each one, to which
port, and which calls returned it.  A call looks at one slot of the table after the other; calls and
frames may come between two looks.
-/

namespace Systrix.Net.Sockets

open Machine ByteMemory

def sysListen (n : Stack) (fd : Int) : Int :=
  match socketGet n fd with
  | none => ebadf
  | some i => if (n.socket_table i).state ≠ .listen then einval else 0

/-- The first part of `sys_accept`: the error, or the listening socket. -/
def sysAccept (n : Stack) (fd : Int) : Except Int Nat :=
  match socketGet n fd with
  | none => .error ebadf
  | some i => if (n.socket_table i).state ≠ .listen then .error einval else .ok i

/-- The test of `sys_accept` for a pending connection. -/
def Socket.Pending (s : Socket) : Prop := s.state = .established ∧ s.remote_port ≠ 0

instance (s : Socket) : Decidable s.Pending := inferInstanceAs (Decidable (_ ∧ _))

/-- The rounds of the spin loop of `sys_accept`. -/
def acceptSpins : Nat := 2000000

/-- A call of `sys_accept` on its way through the table: the listening socket and its port, the slot it looks
at next, and the rounds of the spin loop that are left, none before the loop. -/
structure Waiting where
  listener : Nat
  port : Nat
  slot : Nat
  spins : Option Nat
  deriving DecidableEq

/-- What is left of a call that has seen the whole table; `none` when it returns EAGAIN. -/
def Waiting.next (w : Waiting) (nonblock : Bool) : Option Waiting :=
  match w.spins with
  | none => if nonblock then none else some { w with slot := 0, spins := some acceptSpins }
  | some spins => if spins ≤ 1 then none else some { w with slot := 0, spins := some (spins - 1) }

/-- A connection: whether a peer opened it, and the local port. -/
structure Connection where
  peer : Bool
  port : Nat
  deriving DecidableEq

/-- The sockets, the calls of `sys_accept` under way, and the history. -/
structure Server where
  n : Stack
  waiting : List Waiting
  /-- The connections so far, a connection by its number. -/
  conns : List Connection
  /-- The connection a slot was last opened for. -/
  conn : Nat → Nat
  /-- The slot was last opened by `sys_connect`. -/
  dialled : Nat → Bool
  /-- `sys_accept` has returned the slot since it was last opened. -/
  handed : Nat → Bool
  /-- What `sys_accept` has returned: the connection, and the port of the listening socket. -/
  accepted : List (Nat × Nat)

namespace Server

/-- The server after `socket_init`. -/
def boot : Server := ⟨.boot, [], [], fun _ => 0, fun _ => false, fun _ => false, []⟩

variable (r : Server)

/-- A slot is opened for a new connection. -/
def opened (i : Nat) (peer : Bool) (port : Nat) : Server :=
  { r with
    conns := r.conns ++ [⟨peer, port⟩]
    conn := Function.update r.conn i r.conns.length
    dialled := Function.update r.dialled i !peer
    handed := Function.update r.handed i false }

/-- `sys_connect`; a call that passes its checks opens a connection. -/
def connect (fd : Int) (addr : Memory) : Server :=
  let after := { r with n := (sysConnect r.n fd addr).2 }
  match socketGet r.n fd with
  | none => after
  | some i =>
      let s := r.n.socket_table i
      if s.state = .synSent ∨ s.state = .established then after else after.opened i false s.local_port

/-- `tcpip_handle_packet`; a SYN to a listening socket opens a connection. -/
def frame (data : Memory) (len : Nat) : Server :=
  let after := { r with n := tcpipHandlePacket r.n data len }
  match parseFrame data len with
  | none => after
  | some seg =>
      match socketFor r.n seg.dport with
      | none => after
      | some i =>
          if seg.flags &&& tcpSyn ≠ 0 ∧ (r.n.socket_table i).state = .listen then after.opened i true seg.dport
          else after

/-- A call of `sys_accept` begins. -/
def accept (fd : Int) : Server :=
  match sysAccept r.n fd with
  | .error _ => r
  | .ok i => { r with waiting := r.waiting ++ [⟨i, (r.n.socket_table i).local_port, 0, none⟩] }

/-- A call of `sys_accept` returns a slot. -/
def returned (k : Nat) (w : Waiting) : Server :=
  { r with
    waiting := r.waiting.eraseIdx k
    handed := Function.update r.handed w.slot true
    accepted := (r.conn w.slot, w.port) :: r.accepted }

/-- A call of `sys_accept` under way looks at its next slot. -/
def look (k : Nat) : Server :=
  match r.waiting[k]? with
  | none => r
  | some w =>
      if (r.n.socket_table w.slot).Pending then r.returned k w
      else if w.slot + 1 < socketMax then { r with waiting := r.waiting.set k { w with slot := w.slot + 1 } }
      else
        match w.next (r.n.socket_table w.listener).nonblock with
        | none => { r with waiting := r.waiting.eraseIdx k }
        | some w => { r with waiting := r.waiting.set k w }

end Server

/-- What can happen. -/
inductive ServerOp where
  | socket (type : BitVec 32)
  | bind (fd : Int) (addr : Memory)
  | listen (fd : Int)
  | connect (fd : Int) (addr : Memory)
  | close (fd : Int)
  | frame (data : Memory) (len : Nat)
  | accept (fd : Int)
  | look (k : Nat)

namespace Server

variable (r : Server)

/-- One step. -/
def step : ServerOp → Server
  | .socket type => { r with n := (sysSocket r.n type).2 }
  | .bind fd addr => { r with n := (sysBind r.n fd addr).2 }
  | .listen _ => r
  | .connect fd addr => r.connect fd addr
  | .close fd => { r with n := (sysCloseSocket r.n fd).2 }
  | .frame data len => r.frame data len
  | .accept fd => r.accept fd
  | .look k => r.look k

/-- No connection was returned twice, and each one was opened by a peer, to the port of the socket it was
accepted on. -/
structure Sound : Prop where
  once : (r.accepted.map Prod.fst).Nodup
  peer : ∀ entry ∈ r.accepted, r.conns[entry.1]? = some ⟨true, entry.2⟩

/-- A slot that a call of `sys_accept` finds pending has the port of the listening socket, was last opened by a
SYN, and was not returned since. -/
def Proper : ServerOp → Prop
  | .look k => ∀ w, r.waiting[k]? = some w → (r.n.socket_table w.slot).Pending →
      (r.n.socket_table w.slot).local_port = w.port ∧ r.dialled w.slot = false ∧ r.handed w.slot = false
  | _ => True

/-! ## The history of the slots -/

/-- A connection is under way or established. -/
def Open (s : Socket) : Prop := s.state = .synSent ∨ s.state = .synReceived ∨ s.state = .established

/-- The history agrees with the table: an open slot is open for its own connection, with the port it has
now, and is marked as returned when that connection is. -/
structure Tracked : Prop where
  conn : ∀ i, Open (r.n.socket_table i) →
    r.conns[r.conn i]? = some ⟨!r.dialled i, (r.n.socket_table i).local_port⟩
  own : ∀ i j, Open (r.n.socket_table i) → Open (r.n.socket_table j) → r.conn i = r.conn j → i = j
  handed : ∀ i, Open (r.n.socket_table i) → (r.conn i ∈ r.accepted.map Prod.fst ↔ r.handed i = true)
  known : ∀ entry ∈ r.accepted, entry.1 < r.conns.length

variable {r}

/-- Slots that are open afterwards were open before, with the same port. -/
def Quiet (n n' : Stack) (i : Nat) : Prop :=
  Open (n'.socket_table i) → Open (n.socket_table i) ∧ (n'.socket_table i).local_port = (n.socket_table i).local_port

theorem Quiet.of_eq {n n' : Stack} {i : Nat} (same : n'.socket_table i = n.socket_table i) : Quiet n n' i := by
  intro isOpen
  rw [same] at isOpen ⊢
  exact ⟨isOpen, rfl⟩

theorem Tracked.of_quiet (tracked : r.Tracked) {n : Stack} (quiet : ∀ i, Quiet r.n n i) :
    Tracked { r with n := n } where
  conn i isOpen := by
    obtain ⟨before, port⟩ := quiet i isOpen
    show r.conns[r.conn i]? = some ⟨!r.dialled i, (n.socket_table i).local_port⟩
    rw [port]
    exact tracked.conn i before
  own i j openI openJ := tracked.own i j (quiet i openI).1 (quiet j openJ).1
  handed i isOpen := tracked.handed i (quiet i isOpen).1
  known := tracked.known

theorem Tracked.conn_lt (tracked : r.Tracked) {i : Nat} (isOpen : Open (r.n.socket_table i)) :
    r.conn i < r.conns.length :=
  (List.getElem?_eq_some_iff.mp (tracked.conn i isOpen)).1

/-- A slot is opened, and the others stay as they are. -/
theorem Tracked.opened (tracked : r.Tracked) {n : Stack} {i : Nat} (others : ∀ j, j ≠ i → Quiet r.n n j)
    (peer : Bool) : Tracked (opened { r with n := n } i peer (n.socket_table i).local_port) where
  conn j isOpen := by
    by_cases same : j = i
    · subst same
      simp [Server.opened]
    · obtain ⟨before, port⟩ := others j same isOpen
      have old := tracked.conn j before
      simp only [Server.opened, Function.update_of_ne same]
      rw [List.getElem?_append_left (tracked.conn_lt before), old, ← port]
  own j k openJ openK equal := by
    by_cases isJ : j = i
    · by_cases isK : k = i
      · rw [isJ, isK]
      · have bound := tracked.conn_lt (others k isK openK).1
        simp only [Server.opened, isJ, Function.update_self, Function.update_of_ne isK] at equal
        omega
    · have boundJ := tracked.conn_lt (others j isJ openJ).1
      by_cases isK : k = i
      · simp only [Server.opened, isK, Function.update_self, Function.update_of_ne isJ] at equal
        omega
      · simp only [Server.opened, Function.update_of_ne isJ, Function.update_of_ne isK] at equal
        exact tracked.own j k (others j isJ openJ).1 (others k isK openK).1 equal
  handed j isOpen := by
    by_cases same : j = i
    · subst same
      simp only [Server.opened, Function.update_self, Bool.false_eq_true, iff_false]
      intro member
      obtain ⟨entry, isEntry, number⟩ := List.mem_map.mp member
      have known := tracked.known entry isEntry
      omega
    · simp only [Server.opened, Function.update_of_ne same]
      exact tracked.handed j (others j same isOpen).1
  known entry member := by
    have before := tracked.known entry member
    simp only [Server.opened, List.length_append, List.length_singleton]
    exact Nat.lt_succ_of_lt before

/-! ## What a step does to the table -/

theorem not_open {s : Socket} (shut : s.state = .closed ∨ s.state = .listen ∨ s.state = .closeWait) : ¬Open s := by
  rintro (state | state | state) <;> rw [state] at shut <;> rcases shut with none | none | none <;> cases none

theorem setSocket_quiet {n : Stack} {i : Nat} {s : Socket} (shut : ¬ Open s) (j : Nat) :
    Quiet n (n.setSocket i s) j := by
  intro isOpen
  by_cases same : j = i
  · subst same
    have here : (n.setSocket j s).socket_table j = s := Function.update_self _ _ _
    exact absurd (here ▸ isOpen) shut
  · have other : (n.setSocket i s).socket_table j = n.socket_table j := Function.update_of_ne same _ _
    rw [other] at isOpen ⊢
    exact ⟨isOpen, rfl⟩

theorem setSocket_of_ne (n : Stack) {i j : Nat} (s : Socket) (ne : j ≠ i) :
    (n.setSocket i s).socket_table j = n.socket_table j :=
  Function.update_of_ne ne _ _

theorem setSocket_self (n : Stack) (i : Nat) (s : Socket) : (n.setSocket i s).socket_table i = s :=
  Function.update_self _ _ _

theorem tcpSend_of_ne (n : Stack) {i j : Nat} (flags : UInt8) (ne : j ≠ i) :
    (tcpSend n i flags).socket_table j = n.socket_table j :=
  setSocket_of_ne n _ ne

/-- Sending changes nothing but a sequence number. -/
theorem tcpSend_self (n : Stack) (i : Nat) (flags : UInt8) :
    ((tcpSend n i flags).socket_table i).state = (n.socket_table i).state ∧
      ((tcpSend n i flags).socket_table i).local_port = (n.socket_table i).local_port := by
  have here : (tcpSend n i flags).socket_table i = _ := setSocket_self n i _
  rw [here]
  exact ⟨rfl, rfl⟩

theorem Quiet.trans {n n' n'' : Stack} {i : Nat} (first : Quiet n n' i) (second : Quiet n' n'' i) : Quiet n n'' i := by
  intro isOpen
  obtain ⟨between, port⟩ := second isOpen
  obtain ⟨before, port'⟩ := first between
  exact ⟨before, port.trans port'⟩

theorem tcpSend_quiet (n : Stack) (i j : Nat) (flags : UInt8) : Quiet n (tcpSend n i flags) j := by
  by_cases same : j = i
  · subst same
    obtain ⟨state, port⟩ := tcpSend_self n j flags
    intro isOpen
    rw [Open, state] at isOpen
    exact ⟨isOpen, port⟩
  · exact Quiet.of_eq (tcpSend_of_ne n flags same)

/-- A slot that was open stays open with its port. -/
theorem setSocket_open {n : Stack} {i : Nat} {s : Socket} (isOpen : Open (n.socket_table i))
    (port : s.local_port = (n.socket_table i).local_port) (j : Nat) : Quiet n (n.setSocket i s) j := by
  by_cases same : j = i
  · subst same
    intro _
    rw [setSocket_self]
    exact ⟨isOpen, port⟩
  · exact Quiet.of_eq (setSocket_of_ne n s same)

theorem sysSocket_quiet (n : Stack) (type : BitVec 32) (j : Nat) : Quiet n (sysSocket n type).2 j := by
  unfold sysSocket
  cases socketAlloc n with
  | none => exact Quiet.of_eq rfl
  | some i =>
      refine Quiet.trans (Quiet.of_eq ?_) (setSocket_quiet ?_ j)
      · rfl
      · exact not_open (.inl rfl)

theorem sysBind_quiet (n : Stack) (fd : Int) (addr : Memory) (j : Nat) : Quiet n (sysBind n fd addr).2 j := by
  unfold sysBind
  cases socketGet n fd with
  | none => exact Quiet.of_eq rfl
  | some i =>
      dsimp only
      split_ifs
      · exact Quiet.of_eq rfl
      · exact setSocket_quiet (not_open (.inr (.inl rfl))) j

theorem sysCloseSocket_quiet (n : Stack) (fd : Int) (j : Nat) : Quiet n (sysCloseSocket n fd).2 j := by
  unfold sysCloseSocket
  cases socketGet n fd with
  | none => exact Quiet.of_eq rfl
  | some i =>
      dsimp only
      split_ifs
      · exact (tcpSend_quiet n i j _).trans (setSocket_quiet (not_open (.inl rfl)) j)
      · exact setSocket_quiet (not_open (.inl rfl)) j

theorem sysConnect_of_ne {n : Stack} {fd : Int} {i j : Nat} (found : socketGet n fd = some i) (ne : j ≠ i)
    (addr : Memory) : Quiet n (sysConnect n fd addr).2 j := by
  unfold sysConnect
  rw [found]
  dsimp only
  split_ifs
  · exact Quiet.of_eq rfl
  · exact Quiet.of_eq rfl
  all_goals exact Quiet.of_eq ((tcpSend_of_ne _ _ ne).trans (setSocket_of_ne n _ ne))

/-- The port of the slot `sys_connect` opens. -/
theorem sysConnect_port {n : Stack} {fd : Int} {i : Nat} (found : socketGet n fd = some i) (addr : Memory) :
    ((sysConnect n fd addr).2.socket_table i).local_port = (n.socket_table i).local_port := by
  unfold sysConnect
  rw [found]
  dsimp only
  split_ifs
  · rfl
  · rfl
  all_goals
    rw [(tcpSend_self _ i _).2, setSocket_self]

theorem handleSegment_of_ne (n : Stack) {i j : Nat} (seg : Incoming) (ne : j ≠ i) :
    (handleSegment n i seg).socket_table j = n.socket_table j := by
  unfold handleSegment
  dsimp only
  split_ifs
  · exact (tcpSend_of_ne _ _ ne).trans (setSocket_of_ne n _ ne)
  · rfl
  · cases (n.socket_table i).state with
    | synSent => exact (tcpSend_of_ne _ _ ne).trans (setSocket_of_ne n _ ne)
    | synReceived => exact setSocket_of_ne n _ ne
    | established => exact (tcpSend_of_ne _ _ ne).trans (setSocket_of_ne n _ ne)
    | _ => rfl
  · exact (tcpSend_of_ne _ _ ne).trans (setSocket_of_ne n _ ne)
  · rfl
  · exact setSocket_of_ne n _ ne
  · rfl

/-- A segment that is no SYN to a listening socket opens nothing. -/
theorem handleSegment_quiet (n : Stack) (i : Nat) (seg : Incoming)
    (other : ¬(seg.flags &&& tcpSyn ≠ 0 ∧ (n.socket_table i).state = .listen)) (j : Nat) :
    Quiet n (handleSegment n i seg) j := by
  have kept : ∀ s : Socket, (s.store seg).local_port = s.local_port := fun s => by
    unfold Socket.store
    split_ifs <;> rfl
  unfold handleSegment
  dsimp only
  split_ifs with syn isListening ack fin established rst
  · exact absurd ⟨syn, isListening⟩ other
  · exact Quiet.of_eq rfl
  · cases state : (n.socket_table i).state with
    | synSent =>
        refine Quiet.trans ?_ (tcpSend_quiet _ i j _)
        refine setSocket_open (Or.inl state) ?_ j
        rfl
    | synReceived =>
        dsimp only
        refine setSocket_open (Or.inr (Or.inl state)) ?_ j
        rfl
    | established =>
        refine Quiet.trans ?_ (tcpSend_quiet _ i j _)
        refine setSocket_open (Or.inr (Or.inr state)) ?_ j
        exact kept _
    | _ => exact Quiet.of_eq rfl
  · exact (setSocket_quiet (not_open (.inr (.inr rfl))) j).trans (tcpSend_quiet _ i j _)
  · exact Quiet.of_eq rfl
  · exact setSocket_quiet (not_open (.inl rfl)) j
  · exact Quiet.of_eq rfl

theorem handleSegment_port {n : Stack} {i : Nat} {seg : Incoming} (syn : seg.flags &&& tcpSyn ≠ 0)
    (isListening : (n.socket_table i).state = .listen) :
    ((handleSegment n i seg).socket_table i).local_port = (n.socket_table i).local_port := by
  unfold handleSegment
  dsimp only
  rw [if_pos syn, if_pos isListening, (tcpSend_self _ i _).2, setSocket_self]

theorem socketFor_port {n : Stack} {dport i : Nat} (found : socketFor n dport = some i) :
    (n.socket_table i).local_port = dport := by
  have holds := List.find?_some found
  rw [Bool.and_eq_true] at holds
  exact of_decide_eq_true holds.2

/-! ## Runs -/

theorem Tracked.connect (tracked : r.Tracked) (fd : Int) (addr : Memory) : (r.connect fd addr).Tracked := by
  unfold Server.connect
  cases found : socketGet r.n fd with
  | none =>
      refine tracked.of_quiet fun j => Quiet.of_eq ?_
      rw [sysConnect, found]
  | some i =>
      dsimp only
      split_ifs with busy
      · refine tracked.of_quiet fun j => Quiet.of_eq ?_
        unfold sysConnect
        rw [found]
        rcases busy with state | state <;> simp [state]
      · have opened := tracked.opened (fun j ne => sysConnect_of_ne found ne addr) false
        rwa [sysConnect_port found addr] at opened

theorem Tracked.frame (tracked : r.Tracked) (data : Memory) (len : Nat) : (r.frame data len).Tracked := by
  unfold Server.frame tcpipHandlePacket
  cases parseFrame data len with
  | none => exact tracked.of_quiet fun j => Quiet.of_eq rfl
  | some seg =>
      dsimp only
      cases found : socketFor r.n seg.dport with
      | none => exact tracked.of_quiet fun j => Quiet.of_eq rfl
      | some i =>
          dsimp only
          split_ifs with opens
          · have others : ∀ j, j ≠ i → Quiet r.n (handleSegment r.n i seg) j := fun j ne =>
              Quiet.of_eq (handleSegment_of_ne r.n seg ne)
            have opened := tracked.opened others true
            rwa [handleSegment_port opens.1 opens.2, socketFor_port found] at opened
          · exact tracked.of_quiet (handleSegment_quiet r.n i seg opens)

/-- Calls under way are no part of what the history is about. -/
theorem Tracked.of_waiting (tracked : r.Tracked) (waiting : List Waiting) : Tracked { r with waiting := waiting } :=
  ⟨tracked.conn, tracked.own, tracked.handed, tracked.known⟩

theorem isOpen_of_pending {s : Socket} (pending : s.Pending) : Open s := Or.inr (Or.inr pending.1)

theorem Tracked.returned (tracked : r.Tracked) (k : Nat) {w : Waiting} (pending : (r.n.socket_table w.slot).Pending) :
    (r.returned k w).Tracked where
  conn := tracked.conn
  own := tracked.own
  handed i isOpen := by
    show r.conn i ∈ r.conn w.slot :: r.accepted.map Prod.fst ↔ Function.update r.handed w.slot true i = true
    rw [List.mem_cons]
    by_cases same : i = w.slot
    · subst same
      simp
    · have other : r.conn i ≠ r.conn w.slot := fun equal =>
        same (tracked.own i w.slot isOpen (isOpen_of_pending pending) equal)
      rw [Function.update_of_ne same, or_iff_right other]
      exact tracked.handed i isOpen
  known entry member := by
    rcases List.mem_cons.mp member with new | old
    · rw [new]
      exact tracked.conn_lt (isOpen_of_pending pending)
    · exact tracked.known entry old

theorem Tracked.look (tracked : r.Tracked) (k : Nat) : (r.look k).Tracked := by
  unfold Server.look
  cases r.waiting[k]? with
  | none => exact tracked
  | some w =>
      dsimp only
      split_ifs with pending
      · exact tracked.returned k pending
      · exact tracked.of_waiting _
      · cases w.next (r.n.socket_table w.listener).nonblock with
        | none => exact tracked.of_waiting _
        | some next => exact tracked.of_waiting _

/-- More connections change nothing about the ones that were accepted. -/
theorem Sound.opened (sound : r.Sound) (tracked : r.Tracked) (n : Stack) (i : Nat) (peer : Bool) (port : Nat) :
    Sound (Server.opened { r with n := n } i peer port) where
  once := sound.once
  peer entry member := by
    show (r.conns ++ [⟨peer, port⟩])[entry.1]? = _
    rw [List.getElem?_append_left (tracked.known entry member)]
    exact sound.peer entry member

/-- Every step keeps the history in agreement with the table. -/
theorem Tracked.step (tracked : r.Tracked) (op : ServerOp) : (r.step op).Tracked := by
  cases op with
  | socket type => exact tracked.of_quiet (sysSocket_quiet r.n type)
  | bind fd addr => exact tracked.of_quiet (sysBind_quiet r.n fd addr)
  | listen fd => exact tracked
  | connect fd addr => exact tracked.connect fd addr
  | close fd => exact tracked.of_quiet (sysCloseSocket_quiet r.n fd)
  | frame data len => exact tracked.frame data len
  | accept fd =>
      unfold Server.step Server.accept
      dsimp only
      cases sysAccept r.n fd with
      | error e => exact tracked
      | ok i => exact tracked.of_waiting _
  | look k => exact tracked.look k

end Server

end Systrix.Net.Sockets
