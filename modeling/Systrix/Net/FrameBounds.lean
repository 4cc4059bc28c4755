import Systrix.Net.Frame

/-!
# Frames and their lengths

Which frames `net_rx_deliver` handles without a look behind their end: the lengths a frame announces have
to be those it has.
-/

namespace Systrix.Net

open Machine Relation

/-! ## What the lengths of a frame have to be -/

section Conditions

variable (s : Stack) (f : Frame) (len : UInt16)

/-- An echo request is as long as its IP header says, which counts that header. -/
def IcmpFits : Prop :=
  34 < len.toNat ∧ ((f 34).toNat = 8 → 38 ≤ len.toNat ∧ 20 ≤ be16 f 16 ∧ 14 + be16 f 16 ≤ len.toNat)

/-- A byte of the options of a DHCP packet. -/
def optionByte (i : Nat) : Nat := (f (optionsAt + i)).toNat

/-- The option behind another one, if that is not the end mark or behind the 64 bytes of the options. -/
def nextOption (i : Nat) : Option Nat :=
  if i < 64 ∧ optionByte f i ≠ 255 then some (i + 2 + optionByte f (i + 1)) else none

/-- An option is in the frame as far as it matters: its code, its length when it is no end mark, and the
message type. -/
def OptionFits (i : Nat) : Prop :=
  i < 64 → optionsAt + i < len.toNat ∧ (optionByte f i ≠ 255 → optionsAt + i + 1 < len.toNat ∧
    (optionByte f i = 53 → optionByte f (i + 1) = 1 → optionsAt + i + 2 < len.toNat))

/-- The options are in the frame, one after the other, up to the end mark. -/
def OptionsFit (start : Nat) : Prop :=
  ∀ i, ReflTransGen (fun i k => nextOption f i = some k) start i → OptionFits f len i

/-- So is the mark before them, and they are those of an answer to this host. -/
def DhcpFits : Prop :=
  optionsAt < len.toNat ∧ (optionByte f 0 = 99 → optionsAt + 1 < len.toNat ∧
    (optionByte f 1 = 130 → be32 f 46 = s.dhcp_xid → OptionsFit f len 4))

variable (plen : Nat)

/-- A byte of the payload of a datagram. -/
def payloadByte (i : Nat) : Nat := (f (payloadAt + i)).toNat

/-- The label behind another one, if that is not the empty one or behind the payload. -/
def nextLabel (off : Nat) : Option Nat :=
  if off < plen ∧ payloadByte f off ≠ 0 then some (off + payloadByte f off + 1) else none

/-- The labels of a name are in the frame. -/
def LabelsFit (off : Nat) : Prop :=
  ∀ i, ReflTransGen (fun i k => nextLabel f plen i = some k) off i → i < plen → payloadAt + i < len.toNat

/-- The labels of a name end at an offset. -/
def NameEnds (off e : Nat) : Prop :=
  ReflTransGen (fun i k => nextLabel f plen i = some k) off e ∧ nextLabel f plen e = none

/-- The name of a record, which may be a pointer, ends before an offset. -/
def RecordName (off e : Nat) : Prop :=
  if payloadByte f off / 64 = 3 then e = off + 2 else ∃ last, NameEnds f plen off last ∧ e = last + 1

/-- The fields behind a name are those of a record with an address. -/
def IsAddress (e : Nat) : Prop :=
  be16 f (payloadAt + e) = 1 ∧ be16 f (payloadAt + e + 8) = 4 ∧ e + 10 + 4 ≤ plen

instance (e : Nat) : Decidable (IsAddress f plen e) := inferInstanceAs (Decidable (_ ∧ _ ∧ _))

/-- The records of a reply are in the frame, up to the first with an address. -/
def RecordsFit : (left off : Nat) → Prop
  | 0, _ => True
  | left + 1, off => off < plen →
      payloadAt + off < len.toNat ∧ (payloadByte f off / 64 ≠ 3 → LabelsFit f len plen off) ∧
        ∀ e, RecordName f plen off e → e + 10 ≤ plen →
          payloadAt + e + 10 ≤ len.toNat ∧
            if IsAddress f plen e then payloadAt + e + 10 + 4 ≤ len.toNat
            else RecordsFit left (e + 10 + be16 f (payloadAt + e + 8))

/-- A reply to this host is in the frame: its header, the name it answers for and its records. -/
def DnsFits : Prop :=
  12 ≤ plen → payloadAt + 2 ≤ len.toNat ∧
    (s.dns_txid = 0 ∨ be16 f payloadAt = s.dns_txid → payloadAt + 8 ≤ len.toNat ∧
      (2 ^ 15 ≤ be16 f (payloadAt + 2) → be16 f (payloadAt + 6) ≠ 0 →
        LabelsFit f len plen 12 ∧ ∀ e, NameEnds f plen 12 e → e ≤ plen →
          RecordsFit f len plen (be16 f (payloadAt + 6)) (e + 5)))

/-- The ports of a datagram are in the frame, and what those of DHCP and DNS look at. -/
def UdpFits : Prop :=
  38 ≤ len.toNat ∧ (be16 f 36 = 68 → DhcpFits s f len) ∧
    (be16 f 34 = 53 → 40 ≤ len.toNat ∧ DnsFits s f len ((be16 f 38 + 2 ^ 16 - 8) % 2 ^ 16))

/-- The fields of a segment are in the frame, and as much of its data as there is room for in the receive
buffer of an open connection it belongs to. -/
def TcpFits : Prop :=
  48 ≤ len.toNat ∧ ∀ i, s.tcp.Reaches i (segmentAt f (be16 f 16)) →
    (s.tcp.tcp_conns i).state = .established ∨ (s.tcp.tcp_conns i).state = .closeWait →
    let copy := min (segmentAt f (be16 f 16)).data.length (tcpRxBufSz - (s.tcp.tcp_conns i).rx_buf.length)
    copy = 0 ∨ 34 + (f 46).toNat / 2 ^ 4 * 4 + copy ≤ len.toNat

/-- The lengths of an IP packet are those of its frame. -/
def FrameFits : Prop :=
  be16 f 12 = ethIp → 34 ≤ len.toNat →
    ((f 23).toNat = 1 → IcmpFits f len) ∧ ((f 23).toNat = 17 → UdpFits s f len) ∧
      ((f 23).toNat = 6 → TcpFits s f len)

end Conditions

/-! ## What a handler touches -/

section Touched

variable {s : Stack} {f : Frame} {len : UInt16} {i n : Nat}

theorem range_inside {place : Nat → Place} (inside : ∀ j, (place j).Inside len ↔ j < len.toNat) :
    (∀ p ∈ (List.range' i n).map place, p.Inside len) ↔ n = 0 ∨ i + n ≤ len.toNat := by
  have flat : (∀ p ∈ (List.range' i n).map place, p.Inside len) ↔ ∀ j, i ≤ j ∧ j < i + n → j < len.toNat := by
    rw [List.forall_mem_map]
    refine forall_congr' fun j => ?_
    rw [List.mem_range'_1, inside]
  rw [flat]
  constructor
  · intro every
    by_cases none : n = 0
    · exact .inl none
    · have last := every (i + n - 1) (by omega)
      omega
  · intro short j between
    omega

theorem reads_inside : (∀ place ∈ reads i n, place.Inside len) ↔ n = 0 ∨ i + n ≤ len.toNat :=
  range_inside fun _ => Iff.rfl

theorem writes_inside : (∀ place ∈ writes i n, place.Inside len) ↔ n = 0 ∨ i + n ≤ len.toNat :=
  range_inside fun _ => Iff.rfl

@[simp] theorem within_readByte : (readByte f i).Within (Place.Inside len) ↔ i < len.toNat := by
  refine reads_inside.trans ?_
  omega

@[simp] theorem within_readBe16 : (readBe16 f i).Within (Place.Inside len) ↔ i + 2 ≤ len.toNat := by
  refine reads_inside.trans ?_
  omega

@[simp] theorem within_readBe32 : (readBe32 f i).Within (Place.Inside len) ↔ i + 4 ≤ len.toNat := by
  refine reads_inside.trans ?_
  omega

@[simp] theorem within_readLe32 : (readLe32 f i).Within (Place.Inside len) ↔ i + 4 ≤ len.toNat := by
  refine reads_inside.trans ?_
  omega

@[simp] theorem within_readBytes :
    (readBytes f i n).Within (Place.Inside len) ↔ n = 0 ∨ i + n ≤ len.toNat := reads_inside

@[simp] theorem within_writeBytes (bytes : List UInt8) :
    (writeBytes f i bytes).Within (Place.Inside len) ↔ bytes.length = 0 ∨ i + bytes.length ≤ len.toNat :=
  writes_inside

@[simp] theorem within_ipChecksum :
    (ipChecksum f i n).Within (Place.Inside len) ↔ n = 0 ∨ i + n ≤ len.toNat := reads_inside

@[simp] theorem length_readBytes : (readBytes f i n).value.length = n := by
  change ((List.range' i n).map f).length = n
  rw [List.length_map, List.length_range']

@[simp] theorem value_readByte : (readByte f i).value = (f i).toNat := (rfl)

@[simp] theorem value_readBe16 : (readBe16 f i).value = be16 f i := (rfl)

@[simp] theorem value_readBe32 : (readBe32 f i).value = be32 f i := (rfl)

theorem be16_lt (f : Frame) (i : Nat) : be16 f i < 2 ^ 16 := by
  have high := (f i).toNat_lt
  have low := (f (i + 1)).toNat_lt
  unfold be16
  omega

/-! ### ARP and ICMP -/

theorem arpTableAdd_within {ip mac : Nat} (inside : mac + 6 ≤ len.toNat) :
    (arpTableAdd s f ip mac).Within (Place.Inside len) := by
  unfold arpTableAdd
  split
  · rename_i j found
    have listed : j < s.arp_table.length := (List.findIdx?_eq_some_iff_getElem.mp found).1
    have entry : (Place.arpTable j).Inside len := Nat.lt_of_lt_of_le listed s.arp_fits
    simp only [Logged.within_bind, Logged.within_mk, List.forall_mem_singleton, within_readBytes]
    exact ⟨.inr inside, entry⟩
  · split
    · rename_i room
      simp only [Logged.within_bind, Logged.within_mk, List.forall_mem_singleton, within_readBytes]
      exact ⟨.inr inside, room⟩
    · exact Logged.within_pure s

/-- An ARP packet is checked to be in the frame. -/
theorem handleArp_within (inside : 42 ≤ len.toNat) : (handleArp s f).Within (Place.Inside len) := by
  have added : ∀ ip, (arpTableAdd s f ip 22).Within (Place.Inside len) := fun _ =>
    arpTableAdd_within (by omega)
  unfold handleArp
  simp only [Logged.within_bind, Logged.within_ite, Logged.within_pure, within_readLe32, within_readBe16,
    within_readBytes, added]
  refine ⟨by omega, trivial, by omega, fun _ => trivial, fun _ => ⟨by omega, fun _ => trivial, fun _ => ?_⟩⟩
  exact ⟨by omega, .inr (by omega), trivial⟩

theorem nicSend_within : (nicSend s f len).Within (Place.Inside len) := by
  unfold nicSend
  split
  · exact Logged.within_pure s
  · exact reads_inside.mpr (.inr (Nat.zero_add _).le)

theorem handleIcmp_within :
    (handleIcmp s f len (be16 f 16)).Within (Place.Inside len) ↔ IcmpFits f len := by
  have short := len.toNat_lt
  have small := be16_lt f 16
  unfold handleIcmp IcmpFits
  by_cases echo : (f 34).toNat = 8
  · simp only [Logged.within_bind, within_readByte, value_readByte, echo, ne_eq, not_true_eq_false, if_false]
    have length : ∀ v, (wordBytes v).length = 2 := fun _ => rfl
    simp only [within_writeBytes, within_ipChecksum, within_readBytes, nicSend_within, length, length_readBytes,
      List.length_cons, List.length_nil, and_true]
    have checksum : 38 ≤ len.toNat → ((sub64 (be16 f 16) 20 = 0 ∨ 34 + sub64 (be16 f 16) 20 ≤ len.toNat) ↔
        20 ≤ be16 f 16 ∧ 14 + be16 f 16 ≤ len.toNat) := by
      intro room
      unfold sub64
      omega
    constructor
    · rintro ⟨inside, -, -, -, sum, word, -⟩
      exact ⟨inside, fun _ => ⟨by omega, (checksum (by omega)).mp sum⟩⟩
    · rintro ⟨inside, fits⟩
      obtain ⟨room, total⟩ := fits trivial
      have sum := (checksum room).mpr total
      omega
  · simp only [Logged.within_bind, within_readByte, value_readByte, ne_eq, echo, not_false_eq_true, if_true,
      Logged.within_pure, false_implies, and_true, and_self]

/-! ### DHCP -/

theorem optionsFit_iff (i : Nat) : OptionsFit f len i ↔
    OptionFits f len i ∧ ∀ k, nextOption f i = some k → OptionsFit f len k := forall_walk_iff i

theorem dhcpLoop_within (i msg_type : Nat) :
    (dhcpLoop f i msg_type).Within (Place.Inside len) ↔ OptionsFit f len i := by
  fun_induction dhcpLoop f i msg_type with
  | case1 i msg_type inside ih =>
    have first : (f (optionsAt + i)).toNat = optionByte f i := rfl
    have second : (f (optionsAt + i + 1)).toNat = optionByte f (i + 1) := rfl
    rw [optionsFit_iff]
    unfold OptionFits nextOption
    simp only [Logged.within_bind, Logged.within_ite, Logged.within_pure, within_readByte, value_readByte, ih, first,
      second, inside, true_and]
    by_cases mark : optionByte f i = 255
    · simp [mark]
    · simp only [mark, not_false_eq_true, forall_const, ne_eq, if_true, Option.some.injEq, forall_eq']
      constructor
      · rintro ⟨code, -, -, size, ⟨type, -⟩, later⟩
        exact ⟨⟨code, size, fun isType isOne => type ⟨isType, isOne⟩⟩, later⟩
      · rintro ⟨⟨code, size, type⟩, later⟩
        exact ⟨code, fun _ => trivial, code, size, ⟨fun both => type both.1 both.2, fun _ => trivial⟩, later⟩
  | case2 i msg_type outside =>
    rw [optionsFit_iff]
    unfold OptionFits nextOption
    simp [outside]

theorem handleDhcp_within : (handleDhcp s f).Within (Place.Inside len) ↔ DhcpFits s f len := by
  have first : (f optionsAt).toNat = optionByte f 0 := rfl
  have second : (f (optionsAt + 1)).toNat = optionByte f 1 := rfl
  unfold handleDhcp DhcpFits
  simp only [Logged.within_bind, Logged.within_ite, Logged.within_pure, within_readByte, within_readBe32,
    value_readByte, value_readBe32, dhcpLoop_within, first, second]
  refine and_congr_right fun inside => ?_
  have behind : 278 < len.toNat := inside
  have xid : 42 + 4 + 4 ≤ len.toNat := by omega
  have yiaddr : 42 + 16 + 4 ≤ len.toNat := by omega
  simp only [ne_eq, not_not, xid, yiaddr, implies_true, and_true, true_and]

theorem handleDhcp_dns_txid : (handleDhcp s f).value.dns_txid = s.dns_txid := by
  unfold handleDhcp
  simp only [Logged.value_bind, Logged.value_ite, Logged.value_pure]
  split_ifs <;> rfl

/-! ### DNS -/

theorem labelsFit_iff (plen off : Nat) : LabelsFit f len plen off ↔
    (off < plen → payloadAt + off < len.toNat) ∧
      ∀ k, nextLabel f plen off = some k → LabelsFit f len plen k := forall_walk_iff off

theorem skipLabels_within (plen off : Nat) :
    (skipLabels f plen off).Within (Place.Inside len) ↔ LabelsFit f len plen off := by
  fun_induction skipLabels f plen off with
  | case1 off inside ih =>
    have byte : (f (payloadAt + off)).toNat = payloadByte f off := rfl
    rw [labelsFit_iff]
    unfold nextLabel
    simp only [Logged.within_bind, Logged.within_ite, Logged.within_pure, within_readByte, value_readByte, ih, byte,
      inside, true_and, forall_const]
    by_cases ended : payloadByte f off = 0
    · simp [ended]
    · simp [ended]
  | case2 off outside =>
    rw [labelsFit_iff]
    unfold nextLabel
    simp [outside]

/-- The loop over the labels stops where they end. -/
theorem skipLabels_ends (plen off : Nat) : NameEnds f plen off (skipLabels f plen off).value := by
  fun_induction skipLabels f plen off with
  | case1 off inside ih =>
    simp only [Logged.value_bind, value_readByte]
    by_cases ended : (f (payloadAt + off)).toNat = 0
    · have last : nextLabel f plen off = none := if_neg fun more => more.2 ended
      rw [if_pos ended]
      exact ⟨.refl, last⟩
    · have next : nextLabel f plen off = some (off + (f (payloadAt + off)).toNat + 1) := if_pos ⟨inside, ended⟩
      rw [if_neg ended]
      obtain ⟨walk, last⟩ := ih (f (payloadAt + off)).toNat
      exact ⟨.head next walk, last⟩
  | case2 off outside =>
    have last : nextLabel f plen off = none := if_neg fun more => outside more.1
    exact ⟨.refl, last⟩

theorem nameEnds_iff {plen off e : Nat} : NameEnds f plen off e ↔ e = (skipLabels f plen off).value := by
  constructor
  · rintro ⟨walk, last⟩
    obtain ⟨walk', last'⟩ := skipLabels_ends (f := f) plen off
    exact walk_end_unique walk last walk' last'
  · rintro rfl
    exact skipLabels_ends plen off

theorem recordName_iff {plen off e : Nat} : RecordName f plen off e ↔
    e = if payloadByte f off / 64 = 3 then off + 2 else (skipLabels f plen off).value + 1 := by
  unfold RecordName
  by_cases pointer : payloadByte f off / 64 = 3
  · rw [if_pos pointer, if_pos pointer]
  · rw [if_neg pointer, if_neg pointer]
    simp only [nameEnds_iff, exists_eq_left]

theorem dnsRecords_within (plen left off : Nat) :
    (dnsRecords f plen left off).Within (Place.Inside len) ↔ RecordsFit f len plen left off := by
  induction left generalizing off with
  | zero => exact iff_of_true (Logged.within_pure _) trivial
  | succ left ih =>
      have byte : (f (payloadAt + off)).toNat = payloadByte f off := rfl
      rw [dnsRecords, RecordsFit]
      by_cases outside : plen ≤ off
      · rw [if_pos outside]
        exact iff_of_true (Logged.within_pure _) fun inside => absurd inside (Nat.not_lt.mpr outside)
      · have inside : off < plen := Nat.not_le.mp outside
        simp only [if_neg outside, inside, forall_const, recordName_iff, forall_eq, Logged.within_bind,
          Logged.within_ite, Logged.value_ite, Logged.value_pure, Logged.value_map, Logged.within_map,
          Logged.within_pure, within_readByte, value_readByte, within_readBe16, value_readBe16, within_readLe32, ih,
          byte, skipLabels_within]
        generalize (if payloadByte f off / 64 = 3 then off + 2 else (skipLabels f plen off).value + 1) = e
        refine and_congr_right fun _ => and_congr ⟨And.right, fun labels => ⟨fun _ => trivial, labels⟩⟩ ?_
        by_cases long : plen < e + 10
        · exact iff_of_true ⟨fun _ => trivial, fun short => absurd long short⟩
            fun short => absurd long (Nat.not_lt.mpr short)
        · have short : e + 10 ≤ plen := Nat.not_lt.mp long
          by_cases address : IsAddress f plen e
          · have fields : be16 f (payloadAt + e) = 1 ∧ be16 f (payloadAt + e + 8) = 4 ∧ e + 10 + 4 ≤ plen := address
            rw [if_pos address]
            simp only [long, short, fields, false_implies, true_and, and_self, not_true_eq_false, forall_const,
              not_false_eq_true, and_true]
            omega
          · have fields : ¬(be16 f (payloadAt + e) = 1 ∧ be16 f (payloadAt + e + 8) = 4 ∧ e + 10 + 4 ≤ plen) := address
            rw [if_neg address]
            simp only [long, short, fields, false_implies, true_and, forall_const, not_false_eq_true]
            rw [← and_assoc]
            refine and_congr_left fun _ => ?_
            omega

theorem dnsHandleReply_within (plen : Nat) :
    (dnsHandleReply s f plen).Within (Place.Inside len) ↔ DnsFits s f len plen := by
  have header : ∀ P, payloadAt + 2 + 2 ≤ len.toNat ∧ payloadAt + 6 + 2 ≤ len.toNat ∧ P ↔
      payloadAt + 8 ≤ len.toNat ∧ P := by
    intro P
    rw [← and_assoc]
    refine and_congr_left fun _ => ?_
    omega
  unfold dnsHandleReply DnsFits
  simp only [Logged.within_bind, Logged.within_ite, Logged.within_pure, within_readBe16, value_readBe16,
    skipLabels_within, dnsRecords_within, nameEnds_iff, forall_eq, header, implies_true, true_and, and_true,
    Nat.not_lt, not_and_or, not_or, ne_eq, not_not, and_imp]

theorem dnsFits_congr {s' : Stack} (same : s'.dns_txid = s.dns_txid) (plen : Nat) :
    DnsFits s' f len plen ↔ DnsFits s f len plen := by
  unfold DnsFits
  rw [same]

/-! ### Datagrams and segments -/

theorem handleUdp_within : (handleUdp s f).Within (Place.Inside len) ↔ UdpFits s f len := by
  have same : (if be16 f 36 = 68 then handleDhcp s f else pure s).value.dns_txid = s.dns_txid := by
    split
    · exact handleDhcp_dns_txid
    · rfl
  have length : sub64 (be16 f 38) 8 % 2 ^ 16 = (be16 f 38 + 2 ^ 16 - 8) % 2 ^ 16 := by
    have small := be16_lt f 38
    unfold sub64
    omega
  unfold handleUdp UdpFits
  simp only [Logged.within_bind, Logged.within_ite, Logged.within_pure, within_readBe16, value_readBe16,
    handleDhcp_within, dnsHandleReply_within, dnsFits_congr same, length, implies_true, and_true]
  constructor
  · rintro ⟨ports, -, dhcp, dns⟩
    exact ⟨ports, dhcp, dns⟩
  · rintro ⟨ports, dhcp, dns⟩
    exact ⟨ports, by omega, dhcp, dns⟩

theorem tcpTouched_inside {n : Host} {seg : Segment} {data : Nat}
    (fits : ∀ i, (n.tcp_conns i).rx_buf.length ≤ tcpRxBufSz) :
    (∀ place ∈ tcpTouched n seg data, place.Inside len) ↔
      ∀ i, n.Reaches i seg → (n.tcp_conns i).state = .established ∨ (n.tcp_conns i).state = .closeWait →
        let copy := min seg.data.length (tcpRxBufSz - (n.tcp_conns i).rx_buf.length)
        copy = 0 ∨ data + copy ≤ len.toNat := by
  unfold tcpTouched
  by_cases opens : (seg.flags.syn && !seg.flags.ack) = true
  · rw [if_pos opens]
    refine iff_of_true (fun _ member => absurd member List.not_mem_nil) fun i reaches => ?_
    exact Bool.noConfusion (opens.symm.trans reaches.1)
  · rw [if_neg opens]
    have notOpens := Bool.eq_false_iff.mpr opens
    cases found : tcpFind n seg.src_ip seg.src_port seg.dst_port with
    | none =>
        refine iff_of_true (fun _ member => absurd member List.not_mem_nil) fun i reaches => ?_
        have isSome := reaches.2
        rw [found] at isSome
        cases isSome
    | some i =>
        have only : ∀ j, n.Reaches j seg ↔ j = i := by
          intro j
          have here : n.Reaches j seg ↔ some i = some j := by
            rw [← found]
            exact and_iff_right notOpens
          rw [here, Option.some.injEq, eq_comm]
        simp only [only, forall_eq]
        by_cases opened : (n.tcp_conns i).state = .established ∨ (n.tcp_conns i).state = .closeWait
        · have buffer : ∀ place ∈ (List.range' (n.tcp_conns i).rx_buf.length
              (min seg.data.length (tcpRxBufSz - (n.tcp_conns i).rx_buf.length))).map Place.rxBuf,
              place.Inside len := by
            have room := fits i
            intro place member
            obtain ⟨j, between, rfl⟩ := List.mem_map.mp member
            rw [List.mem_range'_1] at between
            change j < tcpRxBufSz
            omega
          rw [if_pos opened, List.forall_mem_append, reads_inside]
          simp only [opened, forall_const]
          exact and_iff_left buffer
        · rw [if_neg opened]
          exact iff_of_true (fun _ member => absurd member List.not_mem_nil) fun isOpen => absurd isOpen opened

theorem handleTcpFrame_within :
    (handleTcpFrame s f (be16 f 16)).Within (Place.Inside len) ↔ TcpFits s f len := by
  unfold handleTcpFrame TcpFits
  simp only [Logged.within_bind, Logged.within_mk, within_readByte, value_readByte, within_readBe16,
    within_readLe32, within_readBe32, tcpTouched_inside s.fits]
  constructor
  · rintro ⟨-, -, flags, -, -, -, -, data⟩
    exact ⟨flags, data⟩
  · rintro ⟨fields, data⟩
    exact ⟨by omega, by omega, fields, by omega, by omega, by omega, by omega, data⟩

end Touched

/-- A frame is handled without a look behind its end, and without a write behind it or behind a table, when
the lengths it announces are those it has, and only then. -/
theorem netRxDeliver_within_iff (s : Stack) (f : Frame) (len : UInt16) :
    (netRxDeliver s f len).Within (Place.Inside len) ↔ FrameFits s f len := by
  unfold netRxDeliver FrameFits
  simp only [Logged.within_bind, Logged.within_ite, Logged.within_pure, within_readBe16, value_readBe16,
    within_readByte, value_readByte, handleIcmp_within, handleUdp_within, handleTcpFrame_within]
  by_cases isIp : be16 f 12 = ethIp ∧ 34 ≤ len.toNat
  · obtain ⟨ip, header⟩ := isIp
    have notArp : ¬(ethIp = ethArp ∧ 14 + 28 ≤ len.toNat) := fun isArp => absurd isArp.1 (by decide)
    have long : ¬len.toNat < 14 := by omega
    simp only [long, notArp, ip, header, false_implies, true_and, not_false_eq_true, forall_const, and_self,
      not_true_eq_false, and_true]
    constructor
    · rintro ⟨-, -, -, icmp, others⟩
      refine ⟨icmp, fun udp => ?_, fun tcp => ?_⟩
      · exact (others (by omega)).1 udp
      · exact ((others (by omega)).2 (by omega)).1 tcp
    · rintro ⟨icmp, udp, tcp⟩
      exact ⟨by omega, by omega, by omega, icmp, fun _ => ⟨udp, fun _ => ⟨tcp, fun _ => trivial⟩⟩⟩
  · have none : be16 f 12 = ethIp → 34 ≤ len.toNat → False := fun ip header => isIp ⟨ip, header⟩
    refine iff_of_true ⟨fun _ => trivial, fun long => ⟨by omega, ?_, ?_⟩⟩ fun ip header => (none ip header).elim
    · exact fun isArp => handleArp_within isArp.2
    · exact fun _ => ⟨fun ip => absurd ip isIp, fun _ => trivial⟩

/-- The stack before anything was received. -/
def Stack.start : Stack where
  tcp := ⟨fun _ => zeroConn, [], 49152, []⟩
  fits _ := Nat.zero_le _
  arp_table := []
  arp_fits := Nat.zero_le _
  arp_replies := []
  net_ip := 0
  icmp_got_reply := false
  echoes := []
  dhcp_xid := 0x12345678
  dhcp_offered_ip := 0
  dns_txid := 0
  dns_result := 0

/-- An IP header for UDP, and nothing behind it. -/
def emptyDatagram : Frame := fun i => if i = 12 then 8 else if i = 23 then 17 else 0

/-- The ports of a datagram are read although the frame ends before them. -/
theorem emptyDatagram_read_behind :
    ¬(netRxDeliver Stack.start emptyDatagram 34).Within (Place.Inside 34) := by
  intro within
  have behind : Place.read 36 ∈ (netRxDeliver Stack.start emptyDatagram 34).log := by decide
  have inside : 36 < (34 : UInt16).toNat := within _ behind
  exact absurd inside (by decide)

end Systrix.Net
