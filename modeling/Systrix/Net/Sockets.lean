import Systrix.Kernel.Layout

/-!
# Sockets

The socket table of `kernel/tcpip.c`: the calls on sockets and what an incoming frame does
to them.
-/

namespace Systrix.Net.Sockets

open Machine ByteMemory

def socketMax : Nat := 64

/-- The size of `recv_buf`. -/
def recvBufSize : Nat := 8192

def tcpFin : UInt8 := 0x01

def tcpSyn : UInt8 := 0x02

def tcpRst : UInt8 := 0x04

def tcpPsh : UInt8 := 0x08

def tcpAck : UInt8 := 0x10

/-- The states a socket is left in. -/
inductive SocketState where
  | closed
  | listen
  | synSent
  | synReceived
  | established
  | closeWait
  deriving DecidableEq

/-- `socket_t`; of `recv_buf` the first `recvBufSize` bytes count. -/
structure Socket where
  state : SocketState
  remote_ip : Nat
  local_port : Nat
  remote_port : Nat
  seq : Nat
  ack_seq : Nat
  window : Nat
  recv_buf : Memory
  recv_len : Nat
  recv_pos : Nat
  type : BitVec 32
  nonblock : Bool

/-- A socket that was cleared. -/
def zeroSocket : Socket := ⟨.closed, 0, 0, 0, 0, 0, 0, fun _ => 0, 0, 0, 0, false⟩

/-- A segment that goes out; `data` is `none` where the payload is whatever the packet's
place on the stack held. -/
structure Sent where
  daddr : Nat
  sport : Nat
  dport : Nat
  seq : Nat
  ack_seq : Nat
  flags : UInt8
  window : Nat
  data : Option (List UInt8)

/-- The socket table, the next port and the segments that were sent. -/
structure Stack where
  socket_table : Nat → Socket
  next_port : Nat
  sent : List Sent

/-- The table as `socket_init` leaves it. -/
def Stack.boot : Stack := ⟨fun _ => zeroSocket, 49152, []⟩

variable (n : Stack)

def Stack.setSocket (i : Nat) (s : Socket) : Stack :=
  { n with socket_table := Function.update n.socket_table i s }

def allocPort : Nat × Stack :=
  let next := (n.next_port + 1) % 2 ^ 16
  (n.next_port, { n with next_port := if next > 65000 then 49152 else next })

/-- The slot that `socket_alloc` marks as used. -/
def socketAlloc : Option Nat :=
  (List.range socketMax).find? fun i => (n.socket_table i).state = .closed && (n.socket_table i).type = 0

def socketGet (fd : Int) : Option Nat :=
  if fd < 0 ∨ socketMax ≤ fd ∨ (n.socket_table fd.toNat).type = 0 then none else some fd.toNat

/-- What `tcp_send` and `sys_send` put into a segment of a socket. -/
def Socket.segment (s : Socket) (flags : UInt8) (data : Option (List UInt8)) : Sent :=
  ⟨s.remote_ip, s.local_port, s.remote_port, s.seq, s.ack_seq, flags, s.window, data⟩

def tcpSend (i : Nat) (flags : UInt8) : Stack :=
  let s := n.socket_table i
  let seq := if flags &&& tcpSyn ≠ 0 then u32 (s.seq + 1) else s.seq
  let seq := if flags &&& tcpAck ≠ 0 then u32 (seq + 1) else seq
  { n.setSocket i { s with seq := seq } with sent := n.sent ++ [s.segment flags (some [])] }

/-! ## Calls -/

def sysSocket (type : BitVec 32) : Int × Stack :=
  match socketAlloc n with
  | none => (enomem, n)
  | some i =>
      let plain := type &&& ~~~ 0x800
      let (port, n) := allocPort n
      (i, n.setSocket i { n.socket_table i with
        type := if plain = 0 then 1 else plain
        nonblock := type &&& 0x800 ≠ 0
        state := .closed
        local_port := port
        window := 8192 })

def sysBind (fd : Int) (addr : Memory) : Int × Stack :=
  match socketGet n fd with
  | none => (ebadf, n)
  | some i =>
      let s := n.socket_table i
      if s.type ≠ 1 then (eopnotsupp, n)
      else (0, n.setSocket i { s with
        local_port := (addr 2).toNat * 256 + (addr 3).toNat
        state := .listen })

/-- `sys_connect`; `none` where it goes on to wait for the state of the socket to change. -/
def sysConnect (fd : Int) (addr : Memory) : Option Int × Stack :=
  match socketGet n fd with
  | none => (some ebadf, n)
  | some i =>
      let s := n.socket_table i
      if s.state = .synSent then (some ealready, n)
      else if s.state = .established then (some eisconn, n)
      else
        let n := tcpSend (n.setSocket i { s with
          remote_ip := load addr 4 4
          remote_port := (addr 2).toNat * 256 + (addr 3).toNat
          seq := 0x12345678
          state := .synSent }) i tcpSyn
        (if s.nonblock then some einprogress else none, n)

/-- `sys_send`; a null `buf` is `none`. -/
def sysSend (fd : Int) (buf : Option Memory) (len : Nat) : Int × Stack :=
  match socketGet n fd with
  | none => (ebadf, n)
  | some i =>
      let s := n.socket_table i
      if s.state ≠ .established then (enotconn, n)
      else
        let len := min len 1500
        (len, { n.setSocket i { s with seq := u32 (s.seq + len) } with
          sent := n.sent ++ [s.segment (tcpPsh ||| tcpAck) (buf.map fun bytes => slice bytes 0 len)] })

/-- What can be read through `recv_buf`; `behind` are the bytes that follow it. -/
def Socket.readable (s : Socket) (behind : Memory) : Memory :=
  fun k => if k < recvBufSize then s.recv_buf k else behind k

/-- The end of `sys_recv`, for a socket with data; `buf` says whether the pointer is not null. -/
def recvTake (i : Nat) (buf : Bool) (len : Nat) (behind : Memory) : Int × List UInt8 × Stack :=
  let s := n.socket_table i
  let len := min len s.recv_len
  if buf ∧ 0 < len then
    (len, slice (s.readable behind) s.recv_pos len, n.setSocket i { s with
      recv_pos := if s.recv_len - len = 0 then 0 else s.recv_pos + len
      recv_len := s.recv_len - len })
  else (len, [], n)

/-- `sys_recv` up to its spin loop: the result and the bytes put into `buf`, or `none` where
it spins. -/
def sysRecv (fd : Int) (buf : Bool) (len : Nat) (behind : Memory) : Option (Int × List UInt8 × Stack) :=
  match socketGet n fd with
  | none => some (ebadf, [], n)
  | some i =>
      let s := n.socket_table i
      if s.state ≠ .established then some (enotconn, [], n)
      else if s.recv_len = 0 then
        if s.nonblock then some (eagain, [], n) else none
      else some (recvTake n i buf len behind)

/-- A turn of the spin loop of `sys_recv` when so many turns are left, or its exit. -/
def recvTurn (i : Nat) (buf : Bool) (len turns : Nat) (behind : Memory) : Option (Int × List UInt8 × Stack) :=
  let s := n.socket_table i
  if 0 < s.recv_len then some (recvTake n i buf len behind)
  else if turns = 0 then some (eagain, [], n)
  else if s.state ≠ .established then some (enotconn, [], n)
  else none

def sysCloseSocket (fd : Int) : Int × Stack :=
  match socketGet n fd with
  | none => (ebadf, n)
  | some i =>
      let n := if (n.socket_table i).state = .established then tcpSend n i (tcpFin ||| tcpAck) else n
      (0, n.setSocket i { n.socket_table i with
        type := 0
        state := .closed
        remote_ip := 0
        remote_port := 0
        recv_len := 0
        recv_pos := 0 })

/-- `sys_fcntl` for `(int)fd`. -/
def sysFcntl (fd : Int) (cmd : Nat) (arg : BitVec 64) : Int × Stack :=
  match socketGet n fd with
  | none => (0, n)
  | some i =>
      let s := n.socket_table i
      if cmd = 3 then (if s.nonblock then 0x800 else 0, n)
      else if cmd = 4 then (0, n.setSocket i { s with nonblock := arg &&& 0x800 ≠ 0 })
      else (0, n)

/-! ## Frames -/

/-- What `tcpip_handle_packet` takes out of a frame: the source address, the TCP header, and
the payload with the length it computes. -/
structure Incoming where
  saddr : Nat
  sport : Nat
  dport : Nat
  seq : Nat
  flags : UInt8
  payload : Memory
  payload_len : Nat

/-- The TCP segment of a frame of `len` bytes at `data`, or `none` where there is none;
ARP and ICMP frames leave the sockets alone. -/
def parseFrame (data : Memory) (len : Nat) : Option Incoming :=
  if len < 14 then none
  else if load data 12 2 ≠ 0x0800 then none
  else if len < 14 + 20 then none
  else if data 14 &&& 0xF0 ≠ 0x40 then none
  else if data 23 ≠ 6 then none
  else
    let tcp := 14 + (data 14 &&& 0x0F).toNat * 4
    some {
      saddr := load data 26 4
      sport := load data tcp 2
      dport := load data (tcp + 2) 2
      seq := load data (tcp + 4) 4
      flags := data (tcp + 13)
      payload := fun k => data (tcp + 20 + k)
      payload_len := sub64 len (14 + 20 + 20) }

/-- The socket a segment is for. -/
def socketFor (dport : Nat) : Option Nat :=
  (List.range socketMax).find? fun i => (n.socket_table i).type ≠ 0 && (n.socket_table i).local_port = dport

/-- The payload fits into the buffer. -/
def Socket.Fits (s : Socket) (seg : Incoming) : Prop :=
  0 < seg.payload_len ∧ seg.payload_len ≤ sub64 recvBufSize s.recv_len

instance (s : Socket) (seg : Incoming) : Decidable (s.Fits seg) := inferInstanceAs (Decidable (_ ∧ _))

/-- The payload of a segment on an established connection. -/
def Socket.store (s : Socket) (seg : Incoming) : Socket :=
  if s.Fits seg then
    { s with
      recv_buf := paste s.recv_buf s.recv_len seg.payload_len seg.payload
      recv_len := s.recv_len + seg.payload_len }
  else s

/-- `tcpip_handle_packet` once the socket is found. -/
def handleSegment (i : Nat) (seg : Incoming) : Stack :=
  let s := n.socket_table i
  if seg.flags &&& tcpSyn ≠ 0 then
    if s.state = .listen then
      tcpSend (n.setSocket i { s with
        remote_ip := seg.saddr
        remote_port := seg.sport
        ack_seq := u32 (seg.seq + 1)
        seq := 0x87654321
        state := .synReceived }) i (tcpSyn ||| tcpAck)
    else n
  else if seg.flags &&& tcpAck ≠ 0 then
    match s.state with
    | .synSent => tcpSend (n.setSocket i { s with ack_seq := u32 (seg.seq + 1), state := .established }) i tcpAck
    | .synReceived => n.setSocket i { s with state := .established }
    | .established => tcpSend (n.setSocket i ({ s with ack_seq := u32 (seg.seq + 1) }.store seg)) i tcpAck
    | _ => n
  else if seg.flags &&& tcpFin ≠ 0 then
    if s.state = .established then tcpSend (n.setSocket i { s with state := .closeWait }) i (tcpFin ||| tcpAck) else n
  else if seg.flags &&& tcpRst ≠ 0 then n.setSocket i { s with state := .closed }
  else n

def tcpipHandlePacket (data : Memory) (len : Nat) : Stack :=
  match parseFrame data len with
  | none => n
  | some seg =>
      match socketFor n seg.dport with
      | none => n
      | some i => handleSegment n i seg

end Systrix.Net.Sockets
