import Systrix.Lib.Run
import Systrix.Net.Sockets

/-!
# The receive buffer of a socket

The payloads the stack accepts for a socket and the bytes `sys_recv` returns from it.
-/

namespace Systrix.Net.Sockets

open Machine ByteMemory

variable {n : Stack} {i : Nat}

/-! ## The buffer of one socket -/

/-- The receive buffer of a socket. -/
structure Buffer where
  bytes : Memory
  len : Nat
  pos : Nat

def Socket.buffer (s : Socket) : Buffer := ⟨s.recv_buf, s.recv_len, s.recv_pos⟩

/-- The receive buffer of the socket in a slot. -/
def Stack.buffer (n : Stack) (i : Nat) : Buffer := (n.socket_table i).buffer

/-- The bytes that wait to be received. -/
def Buffer.waiting (b : Buffer) : List UInt8 := slice b.bytes b.pos b.len

/-- The buffer after a payload was stored. -/
def Buffer.store (b : Buffer) (seg : Incoming) : Buffer :=
  { b with bytes := paste b.bytes b.len seg.payload_len seg.payload, len := b.len + seg.payload_len }

/-- The buffer after bytes were taken. -/
def Buffer.take (b : Buffer) (count : Nat) : Buffer :=
  { b with pos := if b.len - count = 0 then 0 else b.pos + count, len := b.len - count }

theorem buffer_setSocket_self (n : Stack) (i : Nat) (s : Socket) : (n.setSocket i s).buffer i = s.buffer :=
  congrArg Socket.buffer (Function.update_self _ _ _)

theorem buffer_setSocket_of_ne {j : Nat} (ne : i ≠ j) (s : Socket) : (n.setSocket j s).buffer i = n.buffer i :=
  congrArg Socket.buffer (Function.update_of_ne ne _ _)

/-- A change of the other fields. -/
theorem buffer_setSocket (i : Nat) {j : Nat} {s : Socket} (same : s.buffer = n.buffer j) :
    (n.setSocket j s).buffer i = n.buffer i := by
  by_cases here : i = j
  · subst here
    rw [buffer_setSocket_self, same]
  · exact buffer_setSocket_of_ne here s

@[simp] theorem buffer_tcpSend (n : Stack) (i j : Nat) (flags : UInt8) : (tcpSend n j flags).buffer i = n.buffer i :=
  buffer_setSocket i rfl

/-! ## What the calls and frames do to it -/

/-- A segment whose payload is stored for a socket. -/
structure Stack.Accepts (n : Stack) (i : Nat) (seg : Incoming) : Prop where
  found : socketFor n seg.dport = some i
  plain : seg.flags &&& tcpSyn = 0
  ack : seg.flags &&& tcpAck ≠ 0
  established : (n.socket_table i).state = .established
  fits : (n.socket_table i).Fits seg

instance (n : Stack) (i : Nat) (seg : Incoming) : Decidable (n.Accepts i seg) :=
  decidable_of_iff (socketFor n seg.dport = some i ∧ seg.flags &&& tcpSyn = 0 ∧ seg.flags &&& tcpAck ≠ 0 ∧
      (n.socket_table i).state = .established ∧ (n.socket_table i).Fits seg)
    ⟨fun ⟨found, plain, ack, established, fits⟩ => ⟨found, plain, ack, established, fits⟩,
      fun ⟨found, plain, ack, established, fits⟩ => ⟨found, plain, ack, established, fits⟩⟩

/-- The payload of a frame that the stack accepts for a socket. -/
def Stack.accepted (n : Stack) (i : Nat) (data : Memory) (len : Nat) : List UInt8 :=
  match parseFrame data len with
  | none => []
  | some seg => if n.Accepts i seg then slice seg.payload 0 seg.payload_len else []

theorem buffer_store_of_fits {s : Socket} {seg : Incoming} (fits : s.Fits seg) :
    (s.store seg).buffer = s.buffer.store seg := by
  rw [Socket.store, if_pos fits]
  rfl

theorem buffer_store_of_not_fits {s : Socket} {seg : Incoming} (full : ¬ s.Fits seg) :
    (s.store seg).buffer = s.buffer := by
  rw [Socket.store, if_neg full]

theorem handleSegment_accepts {seg : Incoming} (accepts : n.Accepts i seg) :
    (handleSegment n i seg).buffer i = (n.buffer i).store seg := by
  obtain ⟨-, plain, ack, established, fits⟩ := accepts
  unfold handleSegment
  rw [if_neg (not_not.mpr plain), if_pos ack, established]
  dsimp only
  rw [buffer_tcpSend, buffer_setSocket_self]
  exact buffer_store_of_fits fits

theorem handleSegment_rejects {j : Nat} {seg : Incoming} (found : socketFor n seg.dport = some j)
    (rejects : ¬ n.Accepts i seg) : (handleSegment n j seg).buffer i = n.buffer i := by
  unfold handleSegment
  by_cases syn : seg.flags &&& tcpSyn = 0
  · rw [if_neg (not_not.mpr syn)]
    by_cases ack : seg.flags &&& tcpAck = 0
    · rw [if_neg (not_not.mpr ack)]
      split
      · split
        · rw [buffer_tcpSend]
          exact buffer_setSocket i rfl
        · rfl
      · split
        · exact buffer_setSocket i rfl
        · rfl
    · rw [if_pos ack]
      cases state : (n.socket_table j).state with
      | established =>
          dsimp only
          rw [buffer_tcpSend]
          by_cases here : i = j
          · subst here
            rw [buffer_setSocket_self]
            exact buffer_store_of_not_fits fun fits => rejects ⟨found, syn, ack, state, fits⟩
          · exact buffer_setSocket_of_ne here _
      | synSent =>
          dsimp only
          rw [buffer_tcpSend]
          exact buffer_setSocket i rfl
      | synReceived => exact buffer_setSocket i rfl
      | closed => rfl
      | listen => rfl
      | closeWait => rfl
  · rw [if_pos syn]
    split
    · rw [buffer_tcpSend]
      exact buffer_setSocket i rfl
    · rfl

/-- A frame stores the payload that is accepted, and nothing else. -/
theorem tcpipHandlePacket_buffer (n : Stack) (i : Nat) (data : Memory) (len : Nat) :
    (tcpipHandlePacket n data len).buffer i = n.buffer i ∧ n.accepted i data len = [] ∨
      ∃ seg : Incoming, 0 < seg.payload_len ∧ seg.payload_len ≤ sub64 recvBufSize (n.buffer i).len ∧
        (tcpipHandlePacket n data len).buffer i = (n.buffer i).store seg ∧
        n.accepted i data len = slice seg.payload 0 seg.payload_len := by
  unfold tcpipHandlePacket Stack.accepted
  cases parseFrame data len with
  | none => exact .inl ⟨rfl, rfl⟩
  | some seg =>
      dsimp only
      by_cases accepts : n.Accepts i seg
      · rw [accepts.found, if_pos accepts]
        exact .inr ⟨seg, accepts.fits.1, accepts.fits.2, handleSegment_accepts accepts, rfl⟩
      · rw [if_neg accepts]
        cases found : socketFor n seg.dport with
        | none => exact .inl ⟨rfl, rfl⟩
        | some j => exact .inl ⟨handleSegment_rejects found accepts, rfl⟩

/-- A call of `sys_recv` for a socket gives the first bytes that wait, or nothing and leaves
them. -/
theorem recvTake_buffer (n : Stack) (i : Nat) (buf : Bool) (len : Nat) (behind : Memory) :
    (recvTake n i buf len behind).2.2.buffer i = n.buffer i ∧ (recvTake n i buf len behind).2.1 = [] ∨
      ∃ count, count ≤ (n.buffer i).len ∧
        (recvTake n i buf len behind).2.2.buffer i = (n.buffer i).take count ∧
        (recvTake n i buf len behind).2.1 = slice ((n.socket_table i).readable behind) (n.buffer i).pos count := by
  unfold recvTake
  dsimp only
  by_cases some : buf = true ∧ 0 < min len (n.socket_table i).recv_len
  · rw [if_pos some]
    exact .inr ⟨min len (n.socket_table i).recv_len, Nat.min_le_right _ _, buffer_setSocket_self _ _ _, rfl⟩
  · rw [if_neg some]
    exact .inl ⟨rfl, rfl⟩

theorem recvTake_of_ne {j : Nat} (ne : i ≠ j) (buf : Bool) (len : Nat) (behind : Memory) :
    (recvTake n j buf len behind).2.2.buffer i = n.buffer i := by
  unfold recvTake
  dsimp only
  split
  · exact buffer_setSocket_of_ne ne _
  · rfl

/-! ## Histories -/

/-- What happens to the sockets. -/
inductive Event where
  | frame (data : Memory) (len : Nat)
  | recv (fd : Int) (buf : Bool) (len : Nat) (behind : Memory)
  | recvTurn (j : Nat) (buf : Bool) (len turns : Nat) (behind : Memory)
  | socket (type : BitVec 32)
  | bind (fd : Int) (addr : Memory)
  | connect (fd : Int) (addr : Memory)
  | send (fd : Int) (buf : Option Memory) (len : Nat)
  | fcntl (fd : Int) (cmd : Nat) (arg : BitVec 64)
  | close (fd : Int)

/-- The sockets, with the payloads accepted for one of them and the bytes received from it
since it was last closed. -/
structure Traffic where
  stack : Stack
  accepted : List UInt8
  returned : List UInt8

variable (i : Nat)

def Traffic.start (n : Stack) : Traffic := ⟨n, [], []⟩

/-- The bytes that wait to be received from the socket. -/
def Traffic.waiting (t : Traffic) : List UInt8 := (t.stack.buffer i).waiting

/-- A call of `sys_recv` for the socket in slot `j` returned, or went on to wait. -/
def Traffic.receive (t : Traffic) (j : Option Nat) : Option (Int × List UInt8 × Stack) → Traffic
  | none => t
  | some (_, bytes, n) => { t with stack := n, returned := if j = some i then t.returned ++ bytes else t.returned }

def Traffic.step (t : Traffic) : Event → Traffic
  | .frame data len =>
      { t with stack := tcpipHandlePacket t.stack data len, accepted := t.accepted ++ t.stack.accepted i data len }
  | .recv fd buf len behind => t.receive i (socketGet t.stack fd) (sysRecv t.stack fd buf len behind)
  | .recvTurn j buf len turns behind => t.receive i (some j) (recvTurn t.stack j buf len turns behind)
  | .socket type => { t with stack := (sysSocket t.stack type).2 }
  | .bind fd addr => { t with stack := (sysBind t.stack fd addr).2 }
  | .connect fd addr => { t with stack := (sysConnect t.stack fd addr).2 }
  | .send fd buf len => { t with stack := (sysSend t.stack fd buf len).2 }
  | .fcntl fd cmd arg => { t with stack := (sysFcntl t.stack fd cmd arg).2 }
  | .close fd =>
      let n := (sysCloseSocket t.stack fd).2
      if socketGet t.stack fd = some i then .start n else { t with stack := n }

/-- A payload is accepted only while the bytes that wait are at the start of the buffer. -/
def Aligned (t : Traffic) : Event → Prop
  | .frame data len => t.stack.accepted i data len ≠ [] → (t.stack.buffer i).pos = 0
  | _ => True

/-- What was accepted was returned or waits in the buffer. -/
structure InOrder (t : Traffic) : Prop where
  bytes : t.accepted = t.returned ++ t.waiting i
  bound : (t.stack.buffer i).pos + (t.stack.buffer i).len ≤ recvBufSize

variable {i}

theorem Buffer.waiting_store {b : Buffer} (aligned : b.pos = 0) (seg : Incoming) :
    (b.store seg).waiting = b.waiting ++ slice seg.payload 0 seg.payload_len := by
  show slice (paste b.bytes b.len seg.payload_len seg.payload) b.pos (b.len + seg.payload_len) =
    slice b.bytes b.pos b.len ++ _
  rw [aligned, slice_add, Nat.zero_add, slice_paste_self]
  congr 1
  have kept := paste_sameOutside b.bytes b.len seg.payload_len seg.payload
  exact slice_congr (kept.sameOn (.inl (by omega)))

theorem Buffer.waiting_take (b : Buffer) {count : Nat} (small : count ≤ b.len) :
    b.waiting = slice b.bytes b.pos count ++ (b.take count).waiting := by
  have split : b.len = count + (b.len - count) := by omega
  calc b.waiting = slice b.bytes b.pos (count + (b.len - count)) := by rw [← split]; rfl
    _ = slice b.bytes b.pos count ++ slice b.bytes (b.pos + count) (b.len - count) := slice_add _ _ _ _
    _ = slice b.bytes b.pos count ++ (b.take count).waiting := by
        congr 1
        unfold Buffer.waiting Buffer.take
        dsimp only
        by_cases drained : b.len - count = 0
        · rw [if_pos drained, drained]
          rfl
        · rw [if_neg drained]

theorem slice_readable (s : Socket) (behind : Memory) {address length : Nat}
    (inside : address + length ≤ recvBufSize) :
    slice (s.readable behind) address length = slice s.recv_buf address length :=
  slice_congr fun _ _ upper => if_pos (Nat.lt_of_lt_of_le upper inside)

namespace InOrder

variable {t : Traffic}

/-- Events that leave the buffer alone. -/
theorem same (order : InOrder i t) {n : Stack} (buffer : n.buffer i = t.stack.buffer i) :
    InOrder i { t with stack := n } := by
  constructor
  · show t.accepted = t.returned ++ (n.buffer i).waiting
    rw [buffer]
    exact order.bytes
  · show (n.buffer i).pos + (n.buffer i).len ≤ recvBufSize
    rw [buffer]
    exact order.bound

theorem frame (order : InOrder i t) {data : Memory} {len : Nat} (aligned : Aligned i t (.frame data len)) :
    InOrder i (t.step i (.frame data len)) := by
  have bound := order.bound
  dsimp only [Traffic.step]
  rcases tcpipHandlePacket_buffer t.stack i data len with
    ⟨buffer, nothing⟩ | ⟨seg, some, fits, buffer, payload⟩
  · rw [nothing, List.append_nil]
    exact order.same buffer
  · have start : (t.stack.buffer i).pos = 0 := by
      apply aligned
      intro empty
      rw [payload] at empty
      have length := congrArg List.length empty
      rw [length_slice] at length
      exact Nat.ne_of_gt some length
    constructor
    · show t.accepted ++ t.stack.accepted i data len =
        t.returned ++ ((tcpipHandlePacket t.stack data len).buffer i).waiting
      rw [buffer, payload, Buffer.waiting_store start, order.bytes, List.append_assoc]
      rfl
    · show ((tcpipHandlePacket t.stack data len).buffer i).pos +
        ((tcpipHandlePacket t.stack data len).buffer i).len ≤ recvBufSize
      rw [buffer]
      show (t.stack.buffer i).pos + ((t.stack.buffer i).len + seg.payload_len) ≤ recvBufSize
      rw [sub64_of_le (by omega) (by decide)] at fits
      omega

/-- The bytes that a call takes are the next ones. -/
theorem take (order : InOrder i t) (j : Nat) (buf : Bool) (len : Nat) (behind : Memory) :
    InOrder i (t.receive i (some j) (some (recvTake t.stack j buf len behind))) := by
  have bound := order.bound
  dsimp only [Traffic.receive]
  by_cases here : j = i
  · subst here
    rw [if_pos rfl]
    rcases recvTake_buffer t.stack j buf len behind with ⟨buffer, nothing⟩ | ⟨count, small, buffer, bytes⟩
    · rw [nothing, List.append_nil]
      exact order.same buffer
    · constructor
      · show t.accepted = (t.returned ++ (recvTake t.stack j buf len behind).2.1) ++
          ((recvTake t.stack j buf len behind).2.2.buffer j).waiting
        rw [buffer, bytes, slice_readable _ _ (by omega), List.append_assoc, order.bytes]
        exact congrArg (t.returned ++ ·) (Buffer.waiting_take _ small)
      · show ((recvTake t.stack j buf len behind).2.2.buffer j).pos +
          ((recvTake t.stack j buf len behind).2.2.buffer j).len ≤ recvBufSize
        rw [buffer]
        unfold Buffer.take
        dsimp only
        split
        · omega
        · omega
  · rw [if_neg fun same => here (Option.some.inj same)]
    exact order.same (recvTake_of_ne (Ne.symm here) buf len behind)

/-- A call that fails. -/
theorem fail (order : InOrder i t) (j : Option Nat) (error : Int) :
    InOrder i (t.receive i j (some (error, [], t.stack))) := by
  dsimp only [Traffic.receive]
  rw [List.append_nil, ite_self]
  exact order

theorem recv (order : InOrder i t) (fd : Int) (buf : Bool) (len : Nat) (behind : Memory) :
    InOrder i (t.step i (.recv fd buf len behind)) := by
  dsimp only [Traffic.step, sysRecv]
  cases socketGet t.stack fd with
  | none => exact order.fail none ebadf
  | some j =>
      dsimp only
      split
      · exact order.fail (some j) enotconn
      · split
        · split
          · exact order.fail (some j) eagain
          · exact order
        · exact order.take j buf len behind

theorem turn (order : InOrder i t) (j : Nat) (buf : Bool) (len turns : Nat) (behind : Memory) :
    InOrder i (t.step i (.recvTurn j buf len turns behind)) := by
  dsimp only [Traffic.step, recvTurn]
  split
  · exact order.take j buf len behind
  · split
    · exact order.fail (some j) eagain
    · split
      · exact order.fail (some j) enotconn
      · exact order

theorem start {n : Stack} (drained : (n.buffer i).len = 0 ∧ (n.buffer i).pos = 0) : InOrder i (.start n) := by
  constructor
  · show [] = [] ++ slice (n.buffer i).bytes (n.buffer i).pos (n.buffer i).len
    rw [drained.1]
    rfl
  · show (n.buffer i).pos + (n.buffer i).len ≤ recvBufSize
    rw [drained.1, drained.2]
    exact Nat.zero_le _

theorem close (order : InOrder i t) (fd : Int) : InOrder i (t.step i (.close fd)) := by
  dsimp only [Traffic.step, sysCloseSocket]
  cases found : socketGet t.stack fd with
  | none => exact order
  | some j =>
      dsimp only
      by_cases here : j = i
      · rw [here, if_pos rfl]
        apply start
        rw [buffer_setSocket_self]
        exact ⟨rfl, rfl⟩
      · rw [if_neg fun same => here (Option.some.inj same)]
        apply order.same
        rw [buffer_setSocket_of_ne (Ne.symm here)]
        split
        · exact buffer_tcpSend _ _ _ _
        · rfl

theorem step (order : InOrder i t) {event : Event} (aligned : Aligned i t event) : InOrder i (t.step i event) := by
  cases event with
  | frame data len => exact order.frame aligned
  | recv fd buf len behind => exact order.recv fd buf len behind
  | recvTurn j buf len turns behind => exact order.turn j buf len turns behind
  | close fd => exact order.close fd
  | socket type =>
      apply order.same
      unfold sysSocket
      cases socketAlloc t.stack with
      | none => rfl
      | some j => exact buffer_setSocket (n := (allocPort t.stack).2) i rfl
  | bind fd addr =>
      apply order.same
      unfold sysBind
      cases socketGet t.stack fd with
      | none => rfl
      | some j =>
          dsimp only
          split
          · rfl
          · exact buffer_setSocket i rfl
  | connect fd addr =>
      apply order.same
      unfold sysConnect
      cases socketGet t.stack fd with
      | none => rfl
      | some j =>
          dsimp only
          split
          · rfl
          · split
            · rfl
            · exact (buffer_tcpSend _ _ _ _).trans (buffer_setSocket i rfl)
  | send fd buf len =>
      apply order.same
      unfold sysSend
      cases socketGet t.stack fd with
      | none => rfl
      | some j =>
          dsimp only
          split
          · rfl
          · exact buffer_setSocket i rfl
  | fcntl fd cmd arg =>
      apply order.same
      unfold sysFcntl
      cases socketGet t.stack fd with
      | none => rfl
      | some j =>
          dsimp only
          split
          · rfl
          · split
            · exact buffer_setSocket i rfl
            · rfl

end InOrder

/-- While payloads are accepted only into a buffer that starts with what waits, the bytes that
come out are those that went in, in order, and the others wait. -/
theorem received_in_order (i : Nat) {n : Stack} (drained : (n.buffer i).len = 0 ∧ (n.buffer i).pos = 0)
    {events : List Event} (aligned : Run.Meets (Traffic.step i) (Aligned i) (.start n) events) :
    (Run.final (Traffic.step i) (.start n) events).returned <+:
        (Run.final (Traffic.step i) (.start n) events).accepted ∧
      (Run.final (Traffic.step i) (.start n) events).accepted =
        (Run.final (Traffic.step i) (.start n) events).returned ++
          (Run.final (Traffic.step i) (.start n) events).waiting i := by
  have order : InOrder i (Run.final (Traffic.step i) (.start n) events) :=
    aligned.invariant (fun _ _ order aligned => order.step aligned) (.start drained)
  exact ⟨⟨_, order.bytes.symm⟩, order.bytes⟩

/-! ## A partial receive -/

/-- The headers of a TCP segment with the `ACK` flag from port 80 of `10.0.2.2` to the first
port. -/
def frameHeaders : List UInt8 :=
  [0, 0, 0, 0, 0, 0, 0, 0, 0, 0, 0, 0, 0x00, 0x08,
    0x45, 0, 0, 0, 0, 0, 0, 0, 64, 6, 0, 0, 10, 0, 2, 2, 10, 0, 2, 15,
    0, 80, 0x00, 0xC0, 0, 0, 0, 1, 0, 0, 0, 0, 0x50, 0x10, 0, 0, 0, 0, 0, 0]

/-- A frame with this payload comes in. -/
def Event.payload (payload : List UInt8) : Event :=
  .frame (fun k => (frameHeaders ++ payload).getD k 0) (frameHeaders.length + payload.length)

/-- A socket connects to `10.0.2.2`, port 80, without waiting, and the other side answers. -/
def connected : List Event :=
  [.socket 0x801, .connect 0 fun k => [0, 0, 0, 80, 10, 0, 2, 2].getD k 0, .payload []]

/-- The socket receives up to `len` bytes. -/
def Event.receive (len : Nat) : Event := .recv 0 true len fun _ => 0

/-- Two payloads, each received before the next one comes. -/
def alternating : List Event := connected ++ [.payload [1, 2], .receive 2, .payload [3], .receive 2]

theorem received_in_order_alternating :
    (Run.final (Traffic.step 0) (.start .boot) alternating).returned <+:
        (Run.final (Traffic.step 0) (.start .boot) alternating).accepted ∧
      (Run.final (Traffic.step 0) (.start .boot) alternating).accepted =
        (Run.final (Traffic.step 0) (.start .boot) alternating).returned ++
          (Run.final (Traffic.step 0) (.start .boot) alternating).waiting 0 :=
  received_in_order 0 ⟨rfl, rfl⟩ ⟨trivial, trivial, fun _ => by decide +kernel, fun _ => by decide +kernel, trivial,
    fun _ => by decide +kernel, trivial, trivial⟩

/-- The second payload comes after one byte was received. -/
def interleaved : List Event := connected ++ [.payload [1, 2], .receive 1, .payload [3], .receive 2]

/-- The second payload lands on what was not received yet. -/
theorem received_out_of_order :
    (Run.final (Traffic.step 0) (.start .boot) interleaved).accepted = [1, 2, 3] ∧
      (Run.final (Traffic.step 0) (.start .boot) interleaved).returned = [1, 3, 0] ∧
      ¬ (Run.final (Traffic.step 0) (.start .boot) interleaved).returned <+:
        (Run.final (Traffic.step 0) (.start .boot) interleaved).accepted := by
  decide +kernel

end Systrix.Net.Sockets
