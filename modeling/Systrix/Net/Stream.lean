import Systrix.Lib.Run
import Systrix.Net.Tcp

/-!
# The byte stream of a connection

What a peer's segments put into the receive buffer, where in the peer's stream those bytes are,
and what is acknowledged.
-/

namespace Systrix.Net

open Machine

/-! ## What a call does to a connection -/

variable {n : Host} {i : Nat}

@[simp] theorem setConn_self (n : Host) (i : Nat) (c : TcpConn) : (n.setConn i c).tcp_conns i = c :=
  Function.update_self _ _ _

theorem setConn_of_ne {j : Nat} (ne : i ≠ j) (c : TcpConn) : (n.setConn j c).tcp_conns i = n.tcp_conns i :=
  Function.update_of_ne ne _ _

@[simp] theorem tcpSendPkt_conns (n : Host) (j : Nat) (flags : Flags) (data : List UInt8) :
    (tcpSendPkt n j flags data).tcp_conns = n.tcp_conns := rfl

@[simp] theorem acceptEnqueue_conns (n : Host) (j : Nat) : (acceptEnqueue n j).tcp_conns = n.tcp_conns := by
  unfold acceptEnqueue
  split <;> rfl

theorem tcpAlloc_closed {j : Nat} (found : tcpAlloc n = some j) : (n.tcp_conns j).state = .closed := by
  have holds := List.find?_some found
  exact of_decide_eq_true holds

theorem tcpFindListener_state {port j : Nat} (found : tcpFindListener n port = some j) :
    (n.tcp_conns j).state = .listen := by
  have holds := List.find?_some found
  rw [Bool.and_eq_true] at holds
  exact of_decide_eq_true holds.1

/-- The connection after the data and the FIN of a segment. -/
def TcpConn.receive (c : TcpConn) (seg : Segment) : TcpConn :=
  let c := if seg.data = [] then c else { c with
    ack := u32 (seg.seq + seg.data.length)
    rx_buf := c.rx_buf ++ seg.data.take (tcpRxBufSz - c.rx_buf.length) }
  if seg.flags.fin then { c with ack := u32 (c.ack + 1), fin_received := true, state := .closeWait } else c

/-- The connection after a segment. -/
def TcpConn.handle (c : TcpConn) (seg : Segment) : TcpConn :=
  match c.state with
  | .synRcvd => if seg.flags.ack then { c with state := .established } else c
  | .synSent =>
      if seg.flags.syn && seg.flags.ack then { c with ack := u32 (seg.seq + 1), state := .established } else c
  | .established => c.receive seg
  | .closeWait => c.receive seg
  | .closed => c
  | .listen => c

theorem tcpFin_conns (seg : Segment) :
    (tcpFin (tcpData n i seg) i seg).tcp_conns = Function.update n.tcp_conns i ((n.tcp_conns i).receive seg) := by
  unfold tcpFin tcpData TcpConn.receive
  by_cases empty : seg.data = []
  · by_cases fin : seg.flags.fin = true
    · simp [empty, fin, tcpSendPkt, Host.setConn]
    · simp [empty, fin]
  · by_cases fin : seg.flags.fin = true
    · simp [empty, fin, tcpSendPkt, Host.setConn]
    · simp [empty, fin, tcpSendPkt, Host.setConn]

theorem handleConn_conns (seg : Segment) :
    (handleConn n i seg).tcp_conns = Function.update n.tcp_conns i ((n.tcp_conns i).handle seg) := by
  have same : n.tcp_conns = Function.update n.tcp_conns i (n.tcp_conns i) := Function.update_eq_self i _ |>.symm
  unfold handleConn TcpConn.handle
  dsimp only
  cases state : (n.tcp_conns i).state with
  | closed => exact same
  | listen => exact same
  | established => exact tcpFin_conns seg
  | closeWait => exact tcpFin_conns seg
  | synRcvd =>
      dsimp only
      split
      · rw [acceptEnqueue_conns]
        rfl
      · exact same
  | synSent =>
      dsimp only
      split
      · rfl
      · exact same

/-- The segment goes to the connection. -/
def Host.Reaches (n : Host) (i : Nat) (seg : Segment) : Prop :=
  (seg.flags.syn && !seg.flags.ack) = false ∧ tcpFind n seg.src_ip seg.src_port seg.dst_port = some i

instance (n : Host) (i : Nat) (seg : Segment) : Decidable (n.Reaches i seg) :=
  inferInstanceAs (Decidable (_ ∧ _))

/-- A segment changes the connection it goes to, and may open another one. -/
theorem handleTcp_conn (live : (n.tcp_conns i).state ≠ .closed) (seg : Segment) :
    (handleTcp n seg).tcp_conns i =
      if n.Reaches i seg then (n.tcp_conns i).handle seg else n.tcp_conns i := by
  unfold handleTcp
  by_cases syn : (seg.flags.syn && !seg.flags.ack) = true
  · have notHere : ¬ n.Reaches i seg := fun reaches => Bool.noConfusion (syn.symm.trans reaches.1)
    rw [if_pos syn, if_neg notHere]
    cases tcpFindListener n seg.dst_port with
    | none => rfl
    | some _ =>
        cases alloc : tcpAlloc n with
        | none => rfl
        | some j =>
            have other : i ≠ j := by
              rintro rfl
              exact live (tcpAlloc_closed alloc)
            dsimp only
            unfold tcpOpen
            rw [setConn_of_ne other, tcpSendPkt_conns, setConn_of_ne other]
  · rw [if_neg syn]
    have notSyn := Bool.eq_false_iff.mpr syn
    cases found : tcpFind n seg.src_ip seg.src_port seg.dst_port with
    | none =>
        have notHere : ¬ n.Reaches i seg := fun reaches => by
          have isHere := reaches.2
          rw [found] at isHere
          cases isHere
        rw [if_neg notHere]
    | some j =>
        dsimp only
        rw [handleConn_conns]
        by_cases same : i = j
        · have here : n.Reaches i seg := ⟨notSyn, by rw [found, same]⟩
          rw [if_pos here, same, Function.update_self]
        · have notHere : ¬ n.Reaches i seg := fun reaches =>
            same (Option.some.inj (found.symm.trans reaches.2)).symm
          rw [Function.update_of_ne same, if_neg notHere]

/-! ## Histories -/

/-- What happens on the host. A segment comes with the position of its data in the stream of
the peer that sent it. -/
inductive Event where
  | segment (seg : Segment) (pos : Nat)
  | recv (j bufsz : Nat)
  | listen (port : Nat)
  | unlisten (port : Nat)
  | connect (ip port : Nat)
  | send (j : Nat) (data : List UInt8)
  | close (j : Nat)

/-- The host, with what the application has received from a connection, where in the peer's
stream the bytes are that came into its buffer, and the position up to which the stream is
acknowledged. -/
structure History where
  host : Host
  returned : List UInt8
  positions : List Nat
  acked : Nat

/-- The connection takes data. -/
def TcpConn.Open (c : TcpConn) : Prop := c.state = .established ∨ c.state = .closeWait

instance (c : TcpConn) : Decidable c.Open := inferInstanceAs (Decidable (_ ∨ _))

/-- The segment is one whose data or FIN the connection takes. -/
def Host.Delivers (n : Host) (i : Nat) (seg : Segment) : Prop := n.Reaches i seg ∧ (n.tcp_conns i).Open

instance (n : Host) (i : Nat) (seg : Segment) : Decidable (n.Delivers i seg) :=
  inferInstanceAs (Decidable (_ ∧ _))

/-- How many bytes of a segment fit into the buffer. -/
def TcpConn.room (c : TcpConn) : Nat := tcpRxBufSz - c.rx_buf.length

variable (i : Nat)

def History.conn (h : History) : TcpConn := h.host.tcp_conns i

def History.step (h : History) : Event → History
  | .segment seg pos =>
      if h.host.Delivers i seg then
        { host := handleTcp h.host seg
          returned := h.returned
          positions := h.positions ++ List.range' pos (min seg.data.length (h.conn i).room)
          acked := (if seg.data = [] then h.acked else pos + seg.data.length) + if seg.flags.fin then 1 else 0 }
      else { h with host := handleTcp h.host seg }
  | .recv j bufsz =>
      match netTcpRecv h.host j bufsz with
      | none => h
      | some (_, bytes, n) => { h with host := n, returned := if j = i then h.returned ++ bytes else h.returned }
  | .listen port => { h with host := netTcpListen h.host port }
  | .unlisten port => { h with host := netTcpUnlisten h.host port }
  | .connect ip port => { h with host := tcpConnect h.host ip port }
  | .send j data => { h with host := tcpSendData h.host j data }
  | .close j => { h with host := netTcpClose h.host j }

/-! ## Segments of a peer -/

section Peer

variable (stream : List UInt8) (irs : Nat)

/-- A segment of the peer whose stream this is: its SYN, or a piece of the stream with the
number of its first byte, the FIN after the last one. -/
structure Segment.OfPeer (seg : Segment) (pos : Nat) : Prop where
  slice : seg.data = (stream.drop pos).take seg.data.length
  opening : seg.flags.syn = true → seg.seq = irs ∧ seg.data = [] ∧ seg.flags.fin = false
  number : seg.flags.syn = false → seg.seq = u32 (irs + 1 + pos)
  last : seg.flags.fin = true → pos + seg.data.length = stream.length

/-- What reaches the connection was sent by the peer, and the connection is not closed. -/
def Event.OfPeer (h : History) : Event → Prop
  | .segment seg pos => h.host.Reaches i seg → seg.OfPeer stream irs pos
  | .close j => j ≠ i
  | _ => True

/-- The bytes that came into the buffer are those at the noted positions, and the
acknowledgement number is the one of the noted position. -/
structure Tracks (h : History) : Prop where
  live : (h.conn i).state ≠ .closed ∧ (h.conn i).state ≠ .listen
  bytes : h.returned ++ (h.conn i).rx_buf = h.positions.map (stream.getD · 0)
  bound : (h.conn i).rx_buf.length ≤ tcpRxBufSz
  early : ¬ (h.conn i).Open → h.acked = 0
  number : (h.conn i).state ≠ .synSent → (h.conn i).ack = u32 (irs + 1 + h.acked)

variable {stream irs i}

theorem take_slice {data : List UInt8} {pos : Nat} (slice : data = (stream.drop pos).take data.length) (count : Nat) :
    data.take count = (List.range' pos (min data.length count)).map (stream.getD · 0) := by
  have short : data.length ≤ stream.length - pos := by
    have length := congrArg List.length slice
    rw [List.length_take, List.length_drop] at length
    omega
  refine List.ext_getElem ?_ fun k hk hk' => ?_
  · rw [List.length_take, List.length_map, List.length_range', Nat.min_comm]
  · rw [List.length_take] at hk
    have inData : k < data.length := by omega
    have inSlice : k < ((stream.drop pos).take data.length).length := by
      rw [← slice]
      exact inData
    have entry : data[k] = ((stream.drop pos).take data.length)[k] := List.getElem_of_eq slice _
    rw [List.getElem_take, entry, List.getElem_take, List.getElem_drop, List.getElem_map, List.getElem_range',
      Nat.one_mul, List.getD_eq_getElem _ _ (by omega)]

/-- A connection as it is opened. -/
structure TcpConn.Opening (irs : Nat) (c : TcpConn) : Prop where
  state : c.state = .synSent ∨ c.state = .synRcvd ∧ c.ack = u32 (irs + 1)
  empty : c.rx_buf = []

theorem Tracks.start {n : Host} (opening : (n.tcp_conns i).Opening irs) : Tracks i stream irs ⟨n, [], [], 0⟩ := by
  have state := opening.state
  refine ⟨?_, ?_, ?_, fun _ => rfl, fun notSent => ?_⟩
  · unfold History.conn
    rcases state with state | ⟨state, -⟩ <;> rw [state] <;> exact ⟨by decide, by decide⟩
  · unfold History.conn
    rw [opening.empty]
    rfl
  · unfold History.conn
    rw [opening.empty]
    exact Nat.zero_le _
  · rcases state with sent | ⟨-, number⟩
    · exact absurd sent notSent
    · exact number

/-- Events that leave the connection as it is, but for the number of what it sends next. -/
theorem Tracks.other {h : History} (tracks : Tracks i stream irs h) {n : Host} (seq : Nat)
    (same : n.tcp_conns i = { h.conn i with seq := seq }) : Tracks i stream irs { h with host := n } := by
  obtain ⟨live, bytes, bound, early, number⟩ := tracks
  have conn : History.conn i { h with host := n } = { h.conn i with seq := seq } := same
  constructor
  · rw [conn]
    exact live
  · rw [conn]
    exact bytes
  · rw [conn]
    exact bound
  · rw [conn]
    exact early
  · rw [conn]
    exact number

/-- The handshake. -/
theorem Tracks.handshake {h : History} (tracks : Tracks i stream irs h) {seg : Segment} {pos : Nat}
    (ofPeer : seg.OfPeer stream irs pos) (notOpen : ¬ (h.conn i).Open) {n : Host}
    (after : n.tcp_conns i = (h.conn i).handle seg) : Tracks i stream irs { h with host := n } := by
  have conn : History.conn i { h with host := n } = (h.conn i).handle seg := after
  have acked := tracks.early notOpen
  obtain ⟨live, bytes, bound, early, number⟩ := tracks
  have unchanged : (h.conn i).handle seg = h.conn i → Tracks i stream irs { h with host := n } := fun same => by
    rw [same] at conn
    exact ⟨by rw [conn]; exact live, by rw [conn]; exact bytes, by rw [conn]; exact bound,
      by rw [conn]; exact early, by rw [conn]; exact number⟩
  unfold TcpConn.handle at conn unchanged
  cases state : (h.conn i).state with
  | closed => exact absurd state live.1
  | listen => exact absurd state live.2
  | established => exact absurd (.inl state) notOpen
  | closeWait => exact absurd (.inr state) notOpen
  | synRcvd =>
      rw [state] at conn unchanged
      dsimp only at conn unchanged
      by_cases isAck : seg.flags.ack = true
      · rw [if_pos isAck] at conn
        refine ⟨?_, ?_, ?_, fun _ => acked, fun _ => ?_⟩
        · rw [conn]
          exact ⟨nofun, nofun⟩
        · rw [conn]
          exact bytes
        · rw [conn]
          exact bound
        · rw [conn]
          exact number (by rw [state]; decide)
      · exact unchanged (if_neg isAck)
  | synSent =>
      rw [state] at conn unchanged
      dsimp only at conn unchanged
      by_cases isAck : (seg.flags.syn && seg.flags.ack) = true
      · rw [if_pos isAck] at conn
        obtain ⟨isSyn, -⟩ := Bool.and_eq_true_iff.mp isAck
        refine ⟨?_, ?_, ?_, fun _ => acked, fun _ => ?_⟩
        · rw [conn]
          exact ⟨nofun, nofun⟩
        · rw [conn]
          exact bytes
        · rw [conn]
          exact bound
        · rw [conn]
          show u32 (seg.seq + 1) = u32 (irs + 1 + h.acked)
          rw [acked, (ofPeer.opening isSyn).1]
      · exact unchanged (if_neg isAck)

theorem receive_rx_buf (c : TcpConn) (seg : Segment) :
    (c.receive seg).rx_buf = c.rx_buf ++ seg.data.take c.room := by
  unfold TcpConn.receive TcpConn.room
  by_cases empty : seg.data = []
  · rw [if_pos empty, empty, List.take_nil, List.append_nil]
    split <;> rfl
  · rw [if_neg empty]
    split <;> rfl

theorem receive_open {c : TcpConn} (isOpen : c.Open) (seg : Segment) : (c.receive seg).Open := by
  unfold TcpConn.receive
  by_cases fin : seg.flags.fin = true
  · rw [if_pos fin]
    exact .inr rfl
  · rw [if_neg fin]
    split
    · exact isOpen
    · exact isOpen

theorem receive_fin_received (c : TcpConn) (seg : Segment) :
    (c.receive seg).fin_received = (c.fin_received || seg.flags.fin) := by
  have data : (if seg.data = [] then c else { c with
      ack := u32 (seg.seq + seg.data.length)
      rx_buf := c.rx_buf ++ seg.data.take (tcpRxBufSz - c.rx_buf.length) }).fin_received = c.fin_received := by
    split <;> rfl
  unfold TcpConn.receive
  cases fin : seg.flags.fin with
  | true => exact (Bool.or_true _).symm
  | false =>
      rw [Bool.or_false]
      exact data

theorem receive_ack (c : TcpConn) (seg : Segment) : (c.receive seg).ack =
    if seg.flags.fin = true then u32 ((if seg.data = [] then c.ack else u32 (seg.seq + seg.data.length)) + 1)
    else if seg.data = [] then c.ack else u32 (seg.seq + seg.data.length) := by
  unfold TcpConn.receive
  by_cases empty : seg.data = []
  · rw [if_pos empty, if_pos empty]
    split <;> rfl
  · rw [if_neg empty, if_neg empty]
    split <;> rfl

theorem step_delivered {h : History} {seg : Segment} (delivers : h.host.Delivers i seg) (pos : Nat) :
    h.step i (.segment seg pos) = ⟨handleTcp h.host seg, h.returned,
      h.positions ++ List.range' pos (min seg.data.length (h.conn i).room),
      (if seg.data = [] then h.acked else pos + seg.data.length) + if seg.flags.fin then 1 else 0⟩ :=
  if_pos delivers

/-- What a delivered segment leaves. -/
theorem deliver_conn {h : History} {seg : Segment} (delivers : h.host.Delivers i seg) {n : Host}
    (after : n.tcp_conns i = (h.conn i).handle seg) : n.tcp_conns i = (h.conn i).receive seg := by
  rw [after]
  unfold TcpConn.handle
  rcases delivers.2 with state | state
  · rw [show (h.conn i).state = .established from state]
  · rw [show (h.conn i).state = .closeWait from state]

theorem Tracks.deliver {h : History} (tracks : Tracks i stream irs h) {seg : Segment} {pos : Nat}
    (ofPeer : seg.OfPeer stream irs pos) (delivers : h.host.Delivers i seg) :
    Tracks i stream irs (h.step i (.segment seg pos)) := by
  obtain ⟨live, bytes, bound, -, number⟩ := tracks
  have handled := handleTcp_conn live.1 seg
  rw [if_pos delivers.1] at handled
  have step := step_delivered delivers pos
  have conn : (h.step i (.segment seg pos)).conn i = (h.conn i).receive seg := by
    rw [step]
    exact deliver_conn delivers handled
  have isOpen := receive_open delivers.2 seg
  have notSent : (h.conn i).state ≠ .synSent := by
    rcases delivers.2 with state | state
    · rw [show (h.conn i).state = .established from state]
      decide
    · rw [show (h.conn i).state = .closeWait from state]
      decide
  refine ⟨?_, ?_, ?_, fun notOpen => ?_, fun _ => ?_⟩
  · rw [conn]
    rcases isOpen with state | state <;> rw [show ((h.conn i).receive seg).state = _ from state] <;>
      exact ⟨nofun, nofun⟩
  · rw [conn, receive_rx_buf, step]
    show h.returned ++ _ = List.map _ (h.positions ++ _)
    rw [List.map_append, ← List.append_assoc, bytes, take_slice ofPeer.slice]
  · rw [conn, receive_rx_buf, List.length_append, List.length_take]
    unfold TcpConn.room
    omega
  · rw [conn] at notOpen
    exact absurd isOpen notOpen
  · rw [conn, receive_ack, step]
    dsimp only
    -- The acknowledgement number before the FIN is counted.
    have data : (if seg.data = [] then (h.conn i).ack else u32 (seg.seq + seg.data.length)) =
        u32 (irs + 1 + if seg.data = [] then h.acked else pos + seg.data.length) := by
      by_cases empty : seg.data = []
      · rw [if_pos empty, if_pos empty]
        exact number notSent
      · have notSyn : seg.flags.syn = false := Bool.eq_false_iff.mpr fun syn => empty (ofPeer.opening syn).2.1
        rw [if_neg empty, if_neg empty, ofPeer.number notSyn, u32_add]
        exact congrArg u32 (by omega)
    rw [data]
    by_cases fin : seg.flags.fin = true
    · rw [if_pos fin, if_pos fin, u32_add]
      exact congrArg u32 (by omega)
    · rw [if_neg fin, if_neg fin]
      rfl

/-- The application takes bytes out of the buffer. -/
theorem Tracks.received {h : History} (tracks : Tracks i stream irs h) (count : Nat) :
    Tracks i stream irs { h with
      host := h.host.setConn i { h.host.tcp_conns i with rx_buf := (h.host.tcp_conns i).rx_buf.drop count }
      returned := h.returned ++ (h.host.tcp_conns i).rx_buf.take count } := by
  obtain ⟨live, bytes, bound, early, number⟩ := tracks
  unfold History.conn at live bytes bound early number
  constructor
  · unfold History.conn
    rw [setConn_self]
    exact live
  · unfold History.conn
    rw [setConn_self]
    dsimp only
    rw [List.append_assoc, List.take_append_drop]
    exact bytes
  · unfold History.conn
    rw [setConn_self, List.length_drop]
    omega
  · unfold History.conn
    rw [setConn_self]
    exact early
  · unfold History.conn
    rw [setConn_self]
    exact number

/-- What an event that delivers nothing to the connection leaves. -/
inductive Quiet (i : Nat) (h : History) : Event → History → Prop where
  | same {event : Event} {n : Host} (seq : Nat) : n.tcp_conns i = { h.conn i with seq := seq } →
      Quiet i h event { h with host := n }
  | handshake {seg : Segment} {pos : Nat} {n : Host} : h.host.Reaches i seg → ¬ (h.conn i).Open →
      n.tcp_conns i = (h.conn i).handle seg → Quiet i h (.segment seg pos) { h with host := n }
  | received {event : Event} (count : Nat) : Quiet i h event { h with
      host := h.host.setConn i { h.host.tcp_conns i with rx_buf := (h.host.tcp_conns i).rx_buf.drop count }
      returned := h.returned ++ (h.host.tcp_conns i).rx_buf.take count }

/-- An event delivers data or a FIN to the connection, or none of them. -/
theorem step_cases {h : History} (live : (h.conn i).state ≠ .closed ∧ (h.conn i).state ≠ .listen) {event : Event}
    (ofPeer : event.OfPeer i stream irs h) :
    (∃ seg pos, event = .segment seg pos ∧ h.host.Delivers i seg) ∨ Quiet i h event (h.step i event) := by
  have keep : ∀ {n : Host}, n.tcp_conns i = h.conn i → Quiet i h event { h with host := n } := fun same =>
    .same (h.conn i).seq same
  cases event with
  | segment seg pos =>
      by_cases delivers : h.host.Delivers i seg
      · exact .inl ⟨seg, pos, rfl, delivers⟩
      · have step : h.step i (.segment seg pos) = { h with host := handleTcp h.host seg } := if_neg delivers
        have handled := handleTcp_conn live.1 seg
        rw [step]
        by_cases reaches : h.host.Reaches i seg
        · rw [if_pos reaches] at handled
          exact .inr (.handshake reaches (fun isOpen => delivers ⟨reaches, isOpen⟩) handled)
        · rw [if_neg reaches] at handled
          exact .inr (keep handled)
  | recv j bufsz =>
      refine .inr ?_
      unfold History.step
      dsimp only
      unfold netTcpRecv
      dsimp only
      split
      · exact keep rfl
      · rename_i returned bytes n received
        split at received
        · cases received
        · split at received
          · cases received
            rw [List.append_nil, ite_self]
            exact keep rfl
          · cases received
            by_cases same : j = i
            · subst same
              rw [if_pos rfl]
              exact .received _
            · rw [if_neg same]
              exact keep (setConn_of_ne (Ne.symm same) _)
  | listen port =>
      refine .inr (keep ?_)
      unfold netTcpListen
      split
      · rfl
      · cases alloc : tcpAlloc h.host with
        | none => rfl
        | some j =>
            refine setConn_of_ne ?_ _
            rintro rfl
            exact live.1 (tcpAlloc_closed alloc)
  | unlisten port =>
      refine .inr (keep ?_)
      unfold netTcpUnlisten
      cases found : tcpFindListener h.host port with
      | none => rfl
      | some j =>
          refine setConn_of_ne ?_ _
          rintro rfl
          exact live.2 (tcpFindListener_state found)
  | connect ip port =>
      refine .inr (keep ?_)
      unfold tcpConnect
      cases alloc : tcpAlloc h.host with
      | none => rfl
      | some j =>
          have other : i ≠ j := by
            rintro rfl
            exact live.1 (tcpAlloc_closed alloc)
          dsimp only
          rw [setConn_of_ne other, tcpSendPkt_conns, setConn_of_ne other]
          rfl
  | send j data =>
      by_cases same : i = j
      · subst same
        refine .inr (.same (u32 ((h.conn i).seq + data.length)) ?_)
        unfold tcpSendData
        exact setConn_self _ _ _
      · exact .inr (keep (setConn_of_ne same _))
  | close j =>
      refine .inr (keep ?_)
      unfold netTcpClose tcpFree
      dsimp only
      split
      · rw [setConn_of_ne (Ne.symm ofPeer), tcpSendPkt_conns]
        rfl
      · exact setConn_of_ne (Ne.symm ofPeer) _

theorem Quiet.positions {h h' : History} {event : Event} (quiet : Quiet i h event h') :
    h'.positions = h.positions ∧ h'.acked = h.acked := by
  cases quiet with
  | same _ _ => exact ⟨rfl, rfl⟩
  | handshake _ _ _ => exact ⟨rfl, rfl⟩
  | received count => exact ⟨rfl, rfl⟩

theorem Quiet.fin_received {h h' : History} {event : Event} (quiet : Quiet i h event h') :
    (h'.conn i).fin_received = (h.conn i).fin_received := by
  cases quiet with
  | same _ same => exact (congrArg TcpConn.fin_received same).trans rfl
  | handshake _ notOpen after =>
      refine (congrArg TcpConn.fin_received after).trans ?_
      unfold TcpConn.handle
      cases state : (h.conn i).state with
      | closed => rfl
      | listen => rfl
      | established => exact absurd (.inl state) notOpen
      | closeWait => exact absurd (.inr state) notOpen
      | synRcvd =>
          dsimp only
          split <;> rfl
      | synSent =>
          dsimp only
          split <;> rfl
  | received count => exact (congrArg TcpConn.fin_received (setConn_self h.host i _)).trans rfl

theorem Tracks.quiet {h h' : History} (tracks : Tracks i stream irs h) {event : Event}
    (ofPeer : event.OfPeer i stream irs h) (quiet : Quiet i h event h') : Tracks i stream irs h' := by
  cases quiet with
  | same seq same => exact tracks.other seq same
  | handshake reaches notOpen after => exact tracks.handshake (ofPeer reaches) notOpen after
  | received count => exact tracks.received count

/-- Every event keeps track. -/
theorem Tracks.step {h : History} (tracks : Tracks i stream irs h) {event : Event}
    (ofPeer : event.OfPeer i stream irs h) : Tracks i stream irs (h.step i event) := by
  rcases step_cases tracks.live ofPeer with ⟨seg, pos, rfl, delivers⟩ | quiet
  · exact tracks.deliver (ofPeer delivers.1) delivers
  · exact tracks.quiet ofPeer quiet

/-! ## The bytes in order -/

/-- A segment that adds to the buffer starts where the bytes taken so far end. -/
def Event.InOrder (i : Nat) (h : History) : Event → Prop
  | .segment seg pos => h.host.Delivers i seg → seg.data ≠ [] → 0 < (h.conn i).room → pos = h.positions.length
  | _ => True

/-- The buffer takes the stream from its start. -/
structure Ordered (stream : List UInt8) (h : History) : Prop where
  positions : h.positions = List.range h.positions.length
  within : h.positions.length ≤ stream.length

theorem Ordered.step {h : History} (ordered : Ordered stream h) (tracks : Tracks i stream irs h) {event : Event}
    (ofPeer : event.OfPeer i stream irs h) (inOrder : event.InOrder i h) : Ordered stream (h.step i event) := by
  rcases step_cases tracks.live ofPeer with ⟨seg, pos, rfl, delivers⟩ | quiet
  · rw [step_delivered delivers]
    by_cases none : min seg.data.length (h.conn i).room = 0
    · rw [none]
      constructor
      · show h.positions ++ [] = List.range (h.positions ++ []).length
        rw [List.append_nil]
        exact ordered.positions
      · show (h.positions ++ []).length ≤ _
        rw [List.append_nil]
        exact ordered.within
    · have some : seg.data ≠ [] := fun empty => none (by rw [empty, List.length_nil, Nat.zero_min])
      have start := inOrder delivers some (by omega)
      have short := congrArg List.length (ofPeer delivers.1).slice
      rw [List.length_take, List.length_drop] at short
      constructor
      · show h.positions ++ _ = List.range (h.positions ++ _).length
        rw [List.length_append, List.length_range', start]
        nth_rewrite 1 [ordered.positions]
        rw [List.range_eq_range', List.range_eq_range', ← List.range'_append_1, Nat.zero_add]
      · show (h.positions ++ _).length ≤ _
        rw [List.length_append, List.length_range']
        omega
  · have same := quiet.positions.1
    exact ⟨by rw [same]; exact ordered.positions, by rw [same]; exact ordered.within⟩

/-- What is in order is a prefix of the stream. -/
theorem Ordered.isPrefix {h : History} (ordered : Ordered stream h) (tracks : Tracks i stream irs h) :
    h.returned <+: stream := by
  have slice : stream = (stream.drop 0).take stream.length := by rw [List.drop_zero, List.take_length]
  have whole := take_slice slice h.positions.length
  rw [Nat.min_eq_right ordered.within, ← List.range_eq_range', ← ordered.positions, ← tracks.bytes] at whole
  exact (List.prefix_append _ _).trans (whole ▸ List.take_prefix _ _)

/-- When every segment that adds to the buffer starts where the bytes taken so far end, what
the application receives is at every moment a prefix of the peer's stream. -/
theorem stream_in_order {n : Host} (opening : (n.tcp_conns i).Opening irs) {events : List Event}
    (ofPeer : Run.Meets (History.step i) (fun h event => event.OfPeer i stream irs h) ⟨n, [], [], 0⟩ events)
    (inOrder : Run.Meets (History.step i) (fun h event => event.InOrder i h) ⟨n, [], [], 0⟩ events) :
    (Run.final (History.step i) ⟨n, [], [], 0⟩ events).returned <+: stream := by
  have both : Tracks i stream irs (Run.final (History.step i) ⟨n, [], [], 0⟩ events) ∧
      Ordered stream (Run.final (History.step i) ⟨n, [], [], 0⟩ events) :=
    (ofPeer.and inOrder).invariant (I := fun h => Tracks i stream irs h ∧ Ordered stream h)
      (fun h event both ok => ⟨both.1.step ok.1, both.2.step both.1 ok.1 ok.2⟩)
      ⟨.start opening, rfl, Nat.zero_le _⟩
  exact both.2.isPrefix both.1

/-! ## What is acknowledged -/

/-- Every position that is acknowledged is that of a byte in the buffer or with the
application, or that of the FIN. -/
structure Acknowledged (i : Nat) (stream : List UInt8) (irs : Nat) (h : History) : Prop where
  number : (h.conn i).Open → (h.conn i).ack = u32 (irs + 1 + h.acked)
  covered : ∀ pos < h.acked, pos ∈ h.positions ∨ pos = stream.length ∧ (h.conn i).fin_received = true

/-- All bytes before a data segment have come, and it fits into the buffer or its own bytes have
come already; what is acknowledged before a FIN on its own ends at the FIN or at a byte that
has come. -/
def Event.InTurn (i : Nat) (stream : List UInt8) (h : History) : Event → Prop
  | .segment seg pos => h.host.Delivers i seg →
      (seg.data ≠ [] → (∀ q < pos, q ∈ h.positions) ∧
        (seg.data.length ≤ (h.conn i).room ∨ ∀ q < pos + seg.data.length, q ∈ h.positions)) ∧
      (seg.data = [] → seg.flags.fin = true → h.acked ∈ h.positions ∨ h.acked = stream.length)
  | _ => True

/-- The bytes that have come are the first ones of the stream, and cover what is
acknowledged. -/
structure Covering (i : Nat) (stream : List UInt8) (h : History) : Prop where
  below : ∀ pos ∈ h.positions, ∀ q < pos, q ∈ h.positions
  within : ∀ pos ∈ h.positions, pos < stream.length
  covered : ∀ pos < h.acked, pos ∈ h.positions ∨ pos = stream.length ∧ (h.conn i).fin_received = true

theorem Covering.quiet {h h' : History} (covering : Covering i stream h) {event : Event}
    (quiet : Quiet i h event h') : Covering i stream h' := by
  obtain ⟨positions, acked⟩ := quiet.positions
  have fin := quiet.fin_received
  obtain ⟨below, within, covered⟩ := covering
  constructor
  · rw [positions]
    exact below
  · rw [positions]
    exact within
  · rw [positions, acked, fin]
    exact covered

section Deliver

variable {h : History} {seg : Segment} {pos : Nat} (tracks : Tracks i stream irs h)
  (ofPeer : seg.OfPeer stream irs pos) (delivers : h.host.Delivers i seg)

include tracks delivers

theorem fin_delivered : ((h.step i (.segment seg pos)).conn i).fin_received =
    ((h.conn i).fin_received || seg.flags.fin) := by
  have handled := handleTcp_conn tracks.live.1 seg
  rw [if_pos delivers.1] at handled
  rw [step_delivered delivers]
  exact (congrArg TcpConn.fin_received (deliver_conn delivers handled)).trans (receive_fin_received _ seg)

include ofPeer

omit tracks delivers in
theorem within_stream (some : seg.data ≠ []) : pos + seg.data.length ≤ stream.length := by
  have short := congrArg List.length ofPeer.slice
  have pos := List.length_pos_iff.mpr some
  rw [List.length_take, List.length_drop] at short
  omega

/-- A delivered segment is acknowledged rightly just when it is in turn. -/
theorem covered_delivered (covering : Covering i stream h) :
    (∀ q < (h.step i (.segment seg pos)).acked, q ∈ (h.step i (.segment seg pos)).positions ∨
      q = stream.length ∧ ((h.step i (.segment seg pos)).conn i).fin_received = true) ↔
    (Event.segment seg pos).InTurn i stream h := by
  rw [fin_delivered tracks delivers, step_delivered delivers]
  dsimp only
  have turn : (Event.segment seg pos).InTurn i stream h ↔
      (seg.data ≠ [] → (∀ q < pos, q ∈ h.positions) ∧
        (seg.data.length ≤ (h.conn i).room ∨ ∀ q < pos + seg.data.length, q ∈ h.positions)) ∧
      (seg.data = [] → seg.flags.fin = true → h.acked ∈ h.positions ∨ h.acked = stream.length) :=
    ⟨fun turn => turn delivers, fun turn _ => turn⟩
  rw [turn]
  simp only [List.mem_append, List.mem_range'_1]
  by_cases empty : seg.data = []
  · rw [if_pos empty, empty, List.length_nil, Nat.zero_min]
    by_cases fin : seg.flags.fin = true
    · rw [if_pos fin, fin, Bool.or_true]
      constructor
      · intro covered
        refine ⟨fun some => absurd rfl some, fun _ _ => ?_⟩
        rcases covered h.acked (Nat.lt_succ_self _) with (old | new) | last
        · exact .inl old
        · omega
        · exact .inr last.1
      · rintro ⟨-, isLast⟩ q less
        by_cases same : q = h.acked
        · rw [same]
          exact (isLast rfl rfl).imp .inl fun last => ⟨last, rfl⟩
        · exact (covering.covered q (by omega)).imp .inl fun last => ⟨last.1, rfl⟩
    · rw [if_neg fin, Bool.eq_false_iff.mpr fin, Bool.or_false]
      refine iff_of_true (fun q less => (covering.covered q less).imp .inl id) ⟨fun some => absurd rfl some, nofun⟩
  · have inside := within_stream ofPeer empty
    have nonempty := List.length_pos_iff.mpr empty
    rw [if_neg empty]
    constructor
    · intro covered
      refine ⟨fun _ => ⟨fun q less => ?_, ?_⟩, fun isEmpty => absurd isEmpty empty⟩
      · rcases covered q (by omega) with (old | new) | last
        · exact old
        · omega
        · omega
      · by_cases fits : seg.data.length ≤ (h.conn i).room
        · exact .inl fits
        · refine .inr fun q less => ?_
          -- The last byte of the segment does not fit, so it has come before.
          have lastOld : pos + seg.data.length - 1 ∈ h.positions := by
            rcases covered (pos + seg.data.length - 1) (by omega) with (old | new) | last
            · exact old
            · omega
            · omega
          by_cases same : q = pos + seg.data.length - 1
          · rw [same]
            exact lastOld
          · exact covering.below _ lastOld q (by omega)
    · rintro ⟨turn, -⟩ q less
      obtain ⟨before, room⟩ := turn empty
      by_cases early : q < pos
      · exact .inl (.inl (before q early))
      · by_cases isData : q < pos + seg.data.length
        · rcases room with fits | old
          · exact .inl (.inr (by omega))
          · exact .inl (.inl (old q isData))
        · cases fin : seg.flags.fin with
          | false =>
              rw [fin] at less
              exact absurd less isData
          | true =>
              rw [fin, if_pos rfl] at less
              exact .inr ⟨by have := ofPeer.last fin; omega, Bool.or_true _⟩

theorem Covering.deliver (covering : Covering i stream h) (turn : (Event.segment seg pos).InTurn i stream h) :
    Covering i stream (h.step i (.segment seg pos)) := by
  have covered := (covered_delivered tracks ofPeer delivers covering).mpr turn
  refine ⟨?_, ?_, covered⟩
  · rw [step_delivered delivers]
    intro p member q less
    simp only [List.mem_append, List.mem_range'_1] at member ⊢
    rcases member with old | new
    · exact .inl (covering.below p old q less)
    · have some : seg.data ≠ [] := by
        rintro empty
        rw [empty, List.length_nil] at new
        omega
      by_cases early : q < pos
      · exact .inl (((turn delivers).1 some).1 q early)
      · exact .inr (by omega)
  · rw [step_delivered delivers]
    intro p member
    simp only [List.mem_append, List.mem_range'_1] at member
    rcases member with old | new
    · exact covering.within p old
    · have some : seg.data ≠ [] := by
        rintro empty
        rw [empty, List.length_nil] at new
        omega
      have inside := within_stream ofPeer some
      omega

end Deliver

/-- Along a run, only bytes that have come are acknowledged just when every segment is in
turn. -/
theorem acknowledged_iff {n : Host} (opening : (n.tcp_conns i).Opening irs) {events : List Event}
    (ofPeer : Run.Meets (History.step i) (fun h event => event.OfPeer i stream irs h) ⟨n, [], [], 0⟩ events) :
    Run.Meets (History.step i) (fun h event => Acknowledged i stream irs (h.step i event)) ⟨n, [], [], 0⟩ events ↔
      Run.Meets (History.step i) (fun h event => event.InTurn i stream h) ⟨n, [], [], 0⟩ events := by
  have numbered : ∀ h : History, Tracks i stream irs h → (h.conn i).Open → (h.conn i).ack = u32 (irs + 1 + h.acked) :=
    fun h tracks isOpen => tracks.number fun sent => by
      rcases isOpen with state | state <;> rw [sent] at state <;> cases state
  refine Run.meets_iff (I := fun h => Tracks i stream irs h ∧ Covering i stream h) ?_ ?_
    ⟨.start opening, nofun, nofun, fun _ less => absurd less (Nat.not_lt_zero _)⟩ ofPeer
  · rintro h event ⟨tracks, covering⟩ isPeer
    have after := tracks.step isPeer
    by_cases delivered : ∃ seg pos, event = .segment seg pos ∧ h.host.Delivers i seg
    · obtain ⟨seg, pos, rfl, delivers⟩ := delivered
      have iff := covered_delivered tracks (isPeer delivers.1) delivers covering
      exact ⟨fun acked => iff.mp acked.covered, fun turn => ⟨numbered _ after, iff.mpr turn⟩⟩
    · have quiet := (step_cases tracks.live isPeer).resolve_left delivered
      refine iff_of_true ⟨numbered _ after, (covering.quiet quiet).covered⟩ ?_
      cases event with
      | segment seg pos => exact fun delivers => absurd ⟨seg, pos, rfl, delivers⟩ delivered
      | _ => trivial
  · rintro h event ⟨tracks, covering⟩ isPeer turn
    refine ⟨tracks.step isPeer, ?_⟩
    rcases step_cases tracks.live isPeer with ⟨seg, pos, rfl, delivers⟩ | quiet
    · exact covering.deliver tracks (isPeer delivers.1) delivers turn
    · exact covering.quiet quiet

end Peer

/-! ## A client -/

/-- A client that waits for its peer's answer. -/
def client : Host := tcpConnect ⟨fun _ => zeroConn, [], 49152, []⟩ 0x0a000202 80

theorem opening_client : (client.tcp_conns 0).Opening 1000 := ⟨.inl rfl, rfl⟩

/-- A segment of the peer, whose initial number is 1000. -/
def fromPeer (flags : Flags) (seq : Nat) (data : List UInt8) : Segment := ⟨0x0a000202, 80, 49152, seq, flags, data⟩

/-- The answer to the SYN. -/
def synAck : Event := .segment (fromPeer ⟨false, true, false, true⟩ 1000 []) 0

/-- The bytes of the stream 1, 2, 3, 4 in two segments. -/
def firstHalf : Event := .segment (fromPeer tcpAck 1001 [1, 2]) 0

def secondHalf : Event := .segment (fromPeer ⟨true, false, false, true⟩ 1003 [3, 4]) 2

theorem synAck_ofPeer (h : History) : synAck.OfPeer 0 [1, 2, 3, 4] 1000 h := fun _ =>
  ⟨rfl, fun _ => ⟨rfl, rfl, rfl⟩, nofun, nofun⟩

theorem firstHalf_ofPeer (h : History) : firstHalf.OfPeer 0 [1, 2, 3, 4] 1000 h := fun _ =>
  ⟨rfl, nofun, fun _ => by decide, nofun⟩

theorem secondHalf_ofPeer (h : History) : secondHalf.OfPeer 0 [1, 2, 3, 4] 1000 h := fun _ =>
  ⟨rfl, nofun, fun _ => by decide, fun _ => rfl⟩

theorem stream_in_order_client :
    (Run.final (History.step 0) ⟨client, [], [], 0⟩
      [synAck, firstHalf, .recv 0 1, secondHalf, .recv 0 8]).returned <+: [1, 2, 3, 4] :=
  stream_in_order opening_client
    ⟨synAck_ofPeer _, firstHalf_ofPeer _, trivial, secondHalf_ofPeer _, trivial, trivial⟩
    ⟨fun _ some => absurd rfl some, fun _ _ _ => by decide, trivial, fun _ _ _ => by decide, trivial, trivial⟩

/-- Segments that come in the other order are handed over so. -/
theorem stream_out_of_order :
    Run.Meets (History.step 0) (fun h event => event.OfPeer 0 [1, 2, 3, 4] 1000 h) ⟨client, [], [], 0⟩
      [synAck, secondHalf, .recv 0 8] ∧
    ¬ (Run.final (History.step 0) ⟨client, [], [], 0⟩ [synAck, secondHalf, .recv 0 8]).returned <+: [1, 2, 3, 4] :=
  ⟨⟨synAck_ofPeer _, secondHalf_ofPeer _, trivial, trivial⟩, by decide⟩

theorem acknowledged_iff_client :
    Run.Meets (History.step 0) (fun h event => Acknowledged 0 [1, 2, 3, 4] 1000 (h.step 0 event))
      ⟨client, [], [], 0⟩ [synAck, firstHalf, secondHalf] := by
  have ofPeer : Run.Meets (History.step 0) (fun h event => event.OfPeer 0 [1, 2, 3, 4] 1000 h)
      ⟨client, [], [], 0⟩ [synAck, firstHalf, secondHalf] :=
    ⟨synAck_ofPeer _, firstHalf_ofPeer _, secondHalf_ofPeer _, trivial⟩
  refine (acknowledged_iff opening_client ofPeer).mpr ⟨?_, ?_, ?_, trivial⟩
  · exact fun _ => ⟨fun some => absurd rfl some, fun _ => nofun⟩
  · exact fun _ => ⟨fun _ => ⟨nofun, .inl (by decide)⟩, nofun⟩
  · exact fun _ => ⟨fun _ => ⟨by decide, .inl (by decide)⟩, nofun⟩

/-- A segment that comes early is acknowledged with the bytes before it that have not come. -/
theorem acknowledged_unseen :
    Run.Meets (History.step 0) (fun h event => event.OfPeer 0 [1, 2, 3, 4] 1000 h) ⟨client, [], [], 0⟩
      [synAck, secondHalf] ∧
    ¬ Run.Meets (History.step 0) (fun h event => Acknowledged 0 [1, 2, 3, 4] 1000 (h.step 0 event))
      ⟨client, [], [], 0⟩ [synAck, secondHalf] := by
  refine ⟨⟨synAck_ofPeer _, secondHalf_ofPeer _, trivial⟩, fun acked => ?_⟩
  exact absurd (acked.2.1.covered 0 (by decide)) (by decide)

end Systrix.Net
