import Systrix.Lib.Logged
import Systrix.Net.Stream

/-!
# Frames

`net_rx_deliver` of `kernel/net.c` and the handlers behind it, with the bytes of the frame they look at
or write and the places of their own tables they write.
-/

namespace Systrix.Net

open Machine

def arpTableSize : Nat := 16

/-- The memory from the buffer of a frame on; the frame is the first part of it. -/
abbrev Frame := Nat → UInt8

/-- A byte of the frame that is read or written, a byte of a receive buffer or an entry of `arp_table`
that is written. -/
inductive Place where
  | read (i : Nat)
  | write (i : Nat)
  | rxBuf (i : Nat)
  | arpTable (i : Nat)
  deriving DecidableEq

/-- The byte is one of the frame, or the place one of its table. -/
def Place.Inside (len : UInt16) : Place → Prop
  | .read i => i < len.toNat
  | .write i => i < len.toNat
  | .rxBuf i => i < tcpRxBufSz
  | .arpTable i => i < arpTableSize

/-- What a handler computes, with the places it touches. -/
abbrev Handler := Logged Place

/-- What the handlers keep.  `arp_count` is the length of `arp_table`, addresses are as they are in
memory. -/
structure Stack where
  tcp : Host
  fits : ∀ i, (tcp.tcp_conns i).rx_buf.length ≤ tcpRxBufSz
  arp_table : List (Nat × List UInt8)
  arp_fits : arp_table.length ≤ arpTableSize
  arp_replies : List (Nat × List UInt8)
  net_ip : Nat
  icmp_got_reply : Bool
  echoes : List Frame
  dhcp_xid : Nat
  dhcp_offered_ip : Nat
  dns_txid : Nat
  dns_result : Nat

/-! ## Fields -/

section Fields

variable (f : Frame) (i n : Nat)

/-- `ntohs` of two bytes. -/
def be16 : Nat := (f i).toNat * 2 ^ 8 + (f (i + 1)).toNat

/-- `ntohl` of four bytes. -/
def be32 : Nat := be16 f i * 2 ^ 16 + be16 f (i + 2)

/-- Two bytes as they are loaded. -/
def le16 : Nat := (f (i + 1)).toNat * 2 ^ 8 + (f i).toNat

/-- Four bytes as they are loaded. -/
def le32 : Nat := le16 f (i + 2) * 2 ^ 16 + le16 f i

/-- Some bytes. -/
def bytesAt : List UInt8 := (List.range' i n).map f

/-- The places of some bytes that are read. -/
def reads : List Place := (List.range' i n).map .read

/-- The places of some bytes that are written. -/
def writes : List Place := (List.range' i n).map .write

def readByte : Handler Nat := ⟨(f i).toNat, reads i 1⟩

def readBe16 : Handler Nat := ⟨be16 f i, reads i 2⟩

def readBe32 : Handler Nat := ⟨be32 f i, reads i 4⟩

def readLe32 : Handler Nat := ⟨le32 f i, reads i 4⟩

def readBytes : Handler (List UInt8) := ⟨bytesAt f i n, reads i n⟩

/-- Bytes are put into the frame. -/
def writeBytes (bytes : List UInt8) : Handler Frame :=
  ⟨fun j => if i ≤ j ∧ j < i + bytes.length then bytes.getD (j - i) 0 else f j, writes i bytes.length⟩

end Fields

/-! ## ARP -/

/-- `arp_table_add`; `mac` is where the hardware address is. -/
def arpTableAdd (s : Stack) (f : Frame) (ip mac : Nat) : Handler Stack :=
  match found : s.arp_table.findIdx? fun entry => entry.1 = ip with
  | some i => do
      let address ← readBytes f mac 6
      ⟨{ s with
        arp_table := s.arp_table.set i (ip, address)
        arp_fits := List.length_set.trans_le s.arp_fits }, [.arpTable i]⟩
  | none =>
      if room : s.arp_table.length < arpTableSize then do
        let address ← readBytes f mac 6
        ⟨{ s with
          arp_table := s.arp_table ++ [(ip, address)]
          arp_fits := by simpa using Nat.succ_le_of_lt room }, [.arpTable s.arp_table.length]⟩
      else pure s

/-- The ARP branch of `net_rx_deliver`, with what `arp_send_reply` copies. -/
def handleArp (s : Stack) (f : Frame) : Handler Stack := do
  let spa ← readLe32 f 28
  let s ← arpTableAdd s f spa 22
  let oper ← readBe16 f 20
  if oper ≠ 1 then pure s
  else
    let tpa ← readLe32 f 38
    if tpa ≠ s.net_ip then pure s
    else
      let dst_ip ← readLe32 f 28
      let dst_mac ← readBytes f 22 6
      pure { s with arp_replies := s.arp_replies ++ [(dst_ip, dst_mac)] }

/-! ## ICMP -/

/-- The sum of some words, from a byte on. -/
def sumWords (f : Frame) (i : Nat) : (words sum : Nat) → Nat
  | 0, sum => sum
  | words + 1, sum => sumWords f (i + 2) words (u32 (sum + le16 f i))

/-- The last loop of `ip_checksum`. -/
def foldCarry (sum : Nat) : Nat :=
  if sum / 2 ^ 16 = 0 then sum else foldCarry (sum % 2 ^ 16 + sum / 2 ^ 16)
termination_by sum
decreasing_by omega

def ipChecksum (f : Frame) (i n : Nat) : Handler Nat :=
  let sum := sumWords f i (n / 2) 0
  let sum := if n % 2 = 1 then u32 (sum + (f (i + n - 1)).toNat) else sum
  ⟨2 ^ 16 - 1 - foldCarry sum, reads i n⟩

/-- The bytes of a word that is stored. -/
def wordBytes (v : Nat) : List UInt8 := [UInt8.ofNat v, UInt8.ofNat (v / 2 ^ 8)]

/-- `nic_send` of a frame that was received; frames longer than an Ethernet frame are not sent. -/
def nicSend (s : Stack) (f : Frame) (len : UInt16) : Handler Stack :=
  if 1514 < len.toNat then pure s
  else ⟨{ s with echoes := s.echoes ++ [fun i => if i < len.toNat then f i else 0] }, reads 0 len.toNat⟩

/-- The ICMP branch of `net_rx_deliver`; the reply is built in the frame. -/
def handleIcmp (s : Stack) (f : Frame) (len : UInt16) (ip_total : Nat) : Handler Stack := do
  let type ← readByte f 34
  let s := if type = 0 then { s with icmp_got_reply := true } else s
  let type ← readByte f 34
  if type ≠ 8 then pure s
  else
    let f ← writeBytes f 34 [0]
    let f ← writeBytes f 36 [0, 0]
    let checksum ← ipChecksum f 34 (sub64 ip_total 20)
    let f ← writeBytes f 36 (wordBytes checksum)
    let src_ip ← readBytes f 26 4
    let dst_ip ← readBytes f 30 4
    let f ← writeBytes f 26 dst_ip
    let f ← writeBytes f 30 src_ip
    let f ← writeBytes f 24 [0, 0]
    let checksum ← ipChecksum f 14 20
    let f ← writeBytes f 24 (wordBytes checksum)
    nicSend s f len

/-! ## DHCP -/

def dhcpOffer : Nat := 2

def dhcpAck : Nat := 5

/-- Where the options of a DHCP packet begin, behind Ethernet, IP and UDP headers and its other fields. -/
def optionsAt : Nat := 42 + 236

/-- The loop of `handle_dhcp` over the options, from an index on. -/
def dhcpLoop (f : Frame) (i msg_type : Nat) : Handler Nat :=
  if i < 64 then do
    let mark ← readByte f (optionsAt + i)
    if mark = 255 then pure msg_type
    else
      let opt ← readByte f (optionsAt + i)
      let len ← readByte f (optionsAt + i + 1)
      let msg_type ← (if opt = 53 ∧ len = 1 then readByte f (optionsAt + i + 2) else pure msg_type : Handler Nat)
      dhcpLoop f (i + 2 + len) msg_type
  else pure msg_type
termination_by 64 - i

def handleDhcp (s : Stack) (f : Frame) : Handler Stack := do
  let first ← readByte f optionsAt
  if first ≠ 99 then pure s
  else
    let second ← readByte f (optionsAt + 1)
    if second ≠ 130 then pure s
    else
      let xid ← readBe32 f (42 + 4)
      if xid ≠ s.dhcp_xid then pure s
      else
        let msg_type ← dhcpLoop f 4 0
        if msg_type = dhcpOffer ∨ msg_type = dhcpAck then do
          let yiaddr ← readBe32 f (42 + 16)
          pure { s with dhcp_offered_ip := yiaddr }
        else pure s

/-! ## DNS -/

/-- Where the payload of a datagram begins. -/
def payloadAt : Nat := 42

/-- The loops of `dns_handle_reply` over the labels of a name, from an offset on. -/
def skipLabels (f : Frame) (plen off : Nat) : Handler Nat :=
  if off < plen then do
    let size ← readByte f (payloadAt + off)
    if size = 0 then pure off else skipLabels f plen (off + size + 1)
  else pure off
termination_by plen - off

/-- The loop of `dns_handle_reply` over the answers, `left` of them, from an offset on; the address that
was found. -/
def dnsRecords (f : Frame) (plen : Nat) : (left off : Nat) → Handler (Option Nat)
  | 0, _ => pure none
  | left + 1, off =>
      if plen ≤ off then pure none
      else do
        let size ← readByte f (payloadAt + off)
        let off ← (if size / 64 = 3 then pure (off + 2) else (· + 1) <$> skipLabels f plen off : Handler Nat)
        if plen < off + 10 then pure none
        else
          let rtype ← readBe16 f (payloadAt + off)
          let rdlen ← readBe16 f (payloadAt + off + 8)
          if rtype = 1 ∧ rdlen = 4 ∧ off + 10 + 4 ≤ plen then some <$> readLe32 f (payloadAt + off + 10)
          else dnsRecords f plen left (off + 10 + rdlen)

/-- `dns_handle_reply`.  The test for a name that is too long is inside the loop of the source, which ends
there anyway. -/
def dnsHandleReply (s : Stack) (f : Frame) (plen : Nat) : Handler Stack := do
  if plen < 12 then pure s
  else
    let txid ← readBe16 f payloadAt
    if s.dns_txid ≠ 0 ∧ txid ≠ s.dns_txid then pure s
    else
      let flags ← readBe16 f (payloadAt + 2)
      let ancount ← readBe16 f (payloadAt + 6)
      if flags < 2 ^ 15 ∨ ancount = 0 then pure s
      else
        let off ← skipLabels f plen 12
        if plen < off then pure s
        else
          let found ← dnsRecords f plen ancount (off + 5)
          pure { s with dns_result := found.getD s.dns_result }

/-- The UDP branch of `net_rx_deliver`. -/
def handleUdp (s : Stack) (f : Frame) : Handler Stack := do
  let dport ← readBe16 f 36
  let sport ← readBe16 f 34
  let s ← (if dport = 68 then handleDhcp s f else pure s : Handler Stack)
  if sport = 53 then do
    let length ← readBe16 f 38
    dnsHandleReply s f (sub64 length 8 % 2 ^ 16)
  else pure s

/-! ## TCP -/

/-- The bytes `handle_tcp` takes from a segment, which begin at an index of the frame, and where it puts
them. -/
def tcpTouched (n : Host) (seg : Segment) (data : Nat) : List Place :=
  if seg.flags.syn && !seg.flags.ack then []
  else
    match tcpFind n seg.src_ip seg.src_port seg.dst_port with
    | none => []
    | some i =>
        let c := n.tcp_conns i
        if c.state = .established ∨ c.state = .closeWait then
          let copy := min seg.data.length (tcpRxBufSz - c.rx_buf.length)
          reads data copy ++ (List.range' c.rx_buf.length copy).map .rxBuf
        else []

/-- The segment of a frame; the lengths are computed with 16 bits. -/
def segmentAt (f : Frame) (ip_total : Nat) : Segment :=
  let ip_hdr_len := (f 14).toNat % 2 ^ 4 * 4
  let tcp_hdr_len := (f 46).toNat / 2 ^ 4 * 4
  let data_len := (ip_total + 2 ^ 16 - (ip_hdr_len + tcp_hdr_len)) % 2 ^ 16
  let flags := (f 47).toNat
  { src_ip := le32 f 26
    src_port := be16 f 34
    dst_port := be16 f 36
    seq := be32 f 38
    flags := ⟨flags.testBit 0, flags.testBit 1, flags.testBit 3, flags.testBit 4⟩
    data := bytesAt f (34 + tcp_hdr_len) data_len }

theorem receive_fits (c : TcpConn) (seg : Segment) (fits : c.rx_buf.length ≤ tcpRxBufSz) :
    (c.receive seg).rx_buf.length ≤ tcpRxBufSz := by
  unfold TcpConn.receive
  by_cases empty : seg.data = []
  · rw [if_pos empty]
    split <;> exact fits
  · have short := List.length_take_le (tcpRxBufSz - c.rx_buf.length) seg.data
    rw [if_neg empty]
    split
    all_goals
      simp only [List.length_append]
      omega

theorem handle_fits (c : TcpConn) (seg : Segment) (fits : c.rx_buf.length ≤ tcpRxBufSz) :
    (c.handle seg).rx_buf.length ≤ tcpRxBufSz := by
  unfold TcpConn.handle
  cases c.state with
  | established => exact receive_fits c seg fits
  | closeWait => exact receive_fits c seg fits
  | closed => exact fits
  | listen => exact fits
  | synRcvd =>
      dsimp only
      split <;> exact fits
  | synSent =>
      dsimp only
      split <;> exact fits

/-- No receive buffer overflows. -/
theorem handleTcp_fits {n : Host} (fits : ∀ i, (n.tcp_conns i).rx_buf.length ≤ tcpRxBufSz) (seg : Segment)
    (i : Nat) : ((handleTcp n seg).tcp_conns i).rx_buf.length ≤ tcpRxBufSz := by
  have updated : ∀ (m : Host) (j : Nat) (c : TcpConn), (∀ i, (m.tcp_conns i).rx_buf.length ≤ tcpRxBufSz) →
      c.rx_buf.length ≤ tcpRxBufSz → ∀ i, ((m.setConn j c).tcp_conns i).rx_buf.length ≤ tcpRxBufSz := by
    intro m j c fits short i
    by_cases here : i = j
    · rw [here, setConn_self]
      exact short
    · rw [setConn_of_ne here]
      exact fits i
  unfold handleTcp
  split
  · cases tcpFindListener n seg.dst_port with
    | none => exact fits i
    | some _ =>
        cases tcpAlloc n with
        | none => exact fits i
        | some j =>
            have short : ([] : List UInt8).length ≤ tcpRxBufSz := Nat.zero_le _
            exact updated _ j _ (updated n j _ fits short) short i
  · cases tcpFind n seg.src_ip seg.src_port seg.dst_port with
    | none => exact fits i
    | some j =>
        dsimp only
        rw [handleConn_conns]
        exact updated n j _ fits (handle_fits _ seg (fits j)) i

/-- The TCP branch of `net_rx_deliver`; the fields of the headers are read before the segment is handled. -/
def handleTcpFrame (s : Stack) (f : Frame) (ip_total : Nat) : Handler Stack := do
  let _ ← readByte f 14
  let data_off ← readByte f 46
  let _ ← readByte f 47
  let _ ← readBe16 f 36
  let _ ← readBe16 f 34
  let _ ← readLe32 f 26
  let _ ← readBe32 f 38
  let seg := segmentAt f ip_total
  ⟨{ s with tcp := handleTcp s.tcp seg, fits := handleTcp_fits s.fits seg },
    tcpTouched s.tcp seg (34 + data_off / 2 ^ 4 * 4)⟩

/-! ## The dispatch -/

def ethArp : Nat := 0x0806

def ethIp : Nat := 0x0800

def netRxDeliver (s : Stack) (f : Frame) (len : UInt16) : Handler Stack := do
  if len.toNat < 14 then pure s
  else
    let etype ← readBe16 f 12
    if etype = ethArp ∧ 14 + 28 ≤ len.toNat then handleArp s f
    else if etype = ethIp ∧ 14 + 20 ≤ len.toNat then do
      let ip_total ← readBe16 f 16
      let proto ← readByte f 23
      if proto = 1 then handleIcmp s f len ip_total
      else if proto = 17 then handleUdp s f
      else if proto = 6 then handleTcpFrame s f ip_total
      else pure s
    else pure s

end Systrix.Net
