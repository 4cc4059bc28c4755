import Mathlib.Logic.Function.Basic
import Systrix.Lib.Machine

/-!
# TCP connections

The connection table of `kernel/net.c` and what fills and empties the receive buffers.
-/

namespace Systrix.Net

open Machine

def tcpMaxConns : Nat := 8

def tcpRxBufSz : Nat := 4096

def acceptQueueSz : Nat := 4

inductive TcpState where
  | closed
  | synSent
  | established
  | closeWait
  | listen
  | synRcvd
  deriving DecidableEq

/-- `TcpConn`; `rx_buf` is what the buffer holds, its first `rx_len` bytes. -/
structure TcpConn where
  remote_ip : Nat
  local_port : Nat
  remote_port : Nat
  seq : Nat
  ack : Nat
  state : TcpState
  rx_buf : List UInt8
  fin_received : Bool
  deriving DecidableEq

/-- A slot that was cleared. -/
def zeroConn : TcpConn := ⟨0, 0, 0, 0, 0, .closed, [], false⟩

/-- The flags of a segment that the code sets or looks at. -/
structure Flags where
  fin : Bool
  syn : Bool
  psh : Bool
  ack : Bool
  deriving DecidableEq

/-- A segment that comes in; `data` are its `data_len` bytes. -/
structure Segment where
  src_ip : Nat
  src_port : Nat
  dst_port : Nat
  seq : Nat
  flags : Flags
  data : List UInt8

/-- A segment that goes out. -/
structure Packet where
  dst_ip : Nat
  src_port : Nat
  dst_port : Nat
  seq : Nat
  ack : Nat
  flags : Flags
  data : List UInt8
  deriving DecidableEq

/-- The connection table, the queue of `net_tcp_accept` and what was sent. -/
structure Host where
  tcp_conns : Nat → TcpConn
  accept_queue : List Nat
  next_ephemeral_port : Nat
  sent : List Packet

variable (n : Host)

def Host.setConn (i : Nat) (c : TcpConn) : Host :=
  { n with tcp_conns := Function.update n.tcp_conns i c }

/-! ## The table -/

def tcpAlloc : Option Nat := (List.range tcpMaxConns).find? fun i => (n.tcp_conns i).state = .closed

def tcpFree (i : Nat) : Host := n.setConn i zeroConn

def tcpFind (remote_ip remote_port local_port : Nat) : Option Nat :=
  (List.range tcpMaxConns).find? fun i =>
    let c := n.tcp_conns i
    c.state ≠ .closed && c.state ≠ .listen && c.remote_ip = remote_ip && c.remote_port = remote_port &&
      c.local_port = local_port

def tcpFindListener (local_port : Nat) : Option Nat :=
  (List.range tcpMaxConns).find? fun i =>
    (n.tcp_conns i).state = .listen && (n.tcp_conns i).local_port = local_port

def acceptEnqueue (i : Nat) : Host :=
  if n.accept_queue.length ≥ acceptQueueSz then n else { n with accept_queue := n.accept_queue ++ [i] }

def tcpSendPkt (i : Nat) (flags : Flags) (data : List UInt8) : Host :=
  let c := n.tcp_conns i
  { n with sent := n.sent ++ [⟨c.remote_ip, c.local_port, c.remote_port, c.seq, c.ack, flags, data⟩] }

def tcpAck : Flags := ⟨false, false, false, true⟩

/-! ## Segments -/

/-- The first half of the data path of `handle_tcp`. -/
def tcpData (i : Nat) (seg : Segment) : Host :=
  if seg.data = [] then n
  else
    let c := n.tcp_conns i
    tcpSendPkt (n.setConn i { c with
      ack := u32 (seg.seq + seg.data.length)
      rx_buf := c.rx_buf ++ seg.data.take (tcpRxBufSz - c.rx_buf.length) }) i tcpAck []

/-- Its second half. -/
def tcpFin (i : Nat) (seg : Segment) : Host :=
  if seg.flags.fin then
    let c := n.tcp_conns i
    tcpSendPkt (n.setConn i { c with ack := u32 (c.ack + 1), fin_received := true, state := .closeWait }) i tcpAck []
  else n

/-- `handle_tcp` once the connection is found. -/
def handleConn (i : Nat) (seg : Segment) : Host :=
  let c := n.tcp_conns i
  match c.state with
  | .synRcvd => if seg.flags.ack then acceptEnqueue (n.setConn i { c with state := .established }) i else n
  | .synSent =>
      if seg.flags.syn && seg.flags.ack then
        tcpSendPkt (n.setConn i { c with ack := u32 (seg.seq + 1), state := .established }) i tcpAck []
      else n
  | .established => tcpFin (tcpData n i seg) i seg
  | .closeWait => tcpFin (tcpData n i seg) i seg
  | .closed => n
  | .listen => n

/-- The answer to a SYN for a port somebody listens on. -/
def tcpOpen (i : Nat) (seg : Segment) : Host :=
  let c : TcpConn := ⟨seg.src_ip, seg.dst_port, seg.src_port, 0xabcd1234, u32 (seg.seq + 1), .synRcvd, [], false⟩
  (tcpSendPkt (n.setConn i c) i ⟨false, true, false, true⟩ []).setConn i { c with seq := u32 (c.seq + 1) }

def handleTcp (seg : Segment) : Host :=
  if seg.flags.syn && !seg.flags.ack then
    match tcpFindListener n seg.dst_port with
    | none => n
    | some _ =>
        match tcpAlloc n with
        | none => n
        | some i => tcpOpen n i seg
  else
    match tcpFind n seg.src_ip seg.src_port seg.dst_port with
    | none => n
    | some i => handleConn n i seg

/-! ## Calls -/

/-- `net_tcp_recv` after its test whether to wait; a call that waits (`none`) polls, so that
segments come in, and tries again. -/
def netTcpRecv (i bufsz : Nat) : Option (Int × List UInt8 × Host) :=
  let c := n.tcp_conns i
  if c.rx_buf = [] && !c.fin_received && c.state = .established then none
  else if c.rx_buf = [] then some (0, [], n)
  else
    let count := min c.rx_buf.length bufsz
    some (count, c.rx_buf.take count, n.setConn i { c with rx_buf := c.rx_buf.drop count })

def netTcpListen (port : Nat) : Host :=
  if (tcpFindListener n port).isSome then n
  else
    match tcpAlloc n with
    | none => n
    | some i => n.setConn i { n.tcp_conns i with local_port := port, state := .listen }

/-- The start of a connection: `tcp_alloc`, then `tcp_connect` up to where it waits. -/
def tcpConnect (ip port : Nat) : Host :=
  match tcpAlloc n with
  | none => n
  | some i =>
      let c : TcpConn := ⟨ip, n.next_ephemeral_port, port, 0x12345678, 0, .synSent, [], false⟩
      let next := (n.next_ephemeral_port + 1) % 2 ^ 16
      let n := { n with next_ephemeral_port := if next = 0 then 49152 else next }
      (tcpSendPkt (n.setConn i c) i ⟨false, true, false, false⟩ []).setConn i { c with seq := u32 (c.seq + 1) }

/-- `tcp_send_data`, of which `net_tcp_send` calls one for each chunk. -/
def tcpSendData (i : Nat) (data : List UInt8) : Host :=
  let n := tcpSendPkt n i ⟨false, false, true, true⟩ data
  n.setConn i { n.tcp_conns i with seq := u32 ((n.tcp_conns i).seq + data.length) }

def netTcpClose (i : Nat) : Host :=
  let c := n.tcp_conns i
  if c.state = .established ∨ c.state = .closeWait then tcpFree (tcpSendPkt n i ⟨true, false, false, true⟩ []) i
  else tcpFree n i

def netTcpUnlisten (port : Nat) : Host :=
  match tcpFindListener n port with
  | none => n
  | some i => tcpFree n i

end Systrix.Net
