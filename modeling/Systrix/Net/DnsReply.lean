import Systrix.Lib.DnsMessage
import Systrix.Net.FrameBounds

/-!
# DNS replies

What `dns_handle_reply` finds in a response: the first address, wherever the names of the records up to it are labels
only or a pointer only.  Labels that end in a pointer are not skipped right.
-/

namespace Systrix.Net

open Digits DnsMessage

/-- `net_make_ip`: an address as it is in memory. -/
def netMakeIp (a b c d : UInt8) : Nat := d.toNat * 2 ^ 24 + c.toNat * 2 ^ 16 + b.toNat * 2 ^ 8 + a.toNat

/-- The address that the data of a record hold. -/
def rdataIp : List UInt8 → Nat
  | [a, b, c, d] => netMakeIp a b c d
  | _ => 0

/-- The datagram has these bytes from an offset on. -/
def Carries (f : Frame) (off : Nat) (bytes : List UInt8) : Prop := bytesAt f (payloadAt + off) bytes.length = bytes

/-- The first address of a response. -/
def answerIp (reply : Response) : Option Nat := (firstAddress reply.answers).map rdataIp

section Reading

variable {f : Frame} {off x : Nat}

theorem bytesAt_add (f : Frame) (i m n : Nat) : bytesAt f i (m + n) = bytesAt f i m ++ bytesAt f (i + m) n := by
  rw [bytesAt, bytesAt, bytesAt, ← List.map_append, List.range'_append_1]

theorem carries_append {front back : List UInt8} :
    Carries f off (front ++ back) ↔ Carries f off front ∧ Carries f (off + front.length) back := by
  unfold Carries
  rw [List.length_append, bytesAt_add, ← Nat.add_assoc]
  constructor
  · intro same
    exact List.append_inj same (by rw [bytesAt, List.length_map, List.length_range'])
  · rintro ⟨first, second⟩
    rw [first, second]

theorem carries_cons {byte : UInt8} {bytes : List UInt8} :
    Carries f off (byte :: bytes) ↔ f (payloadAt + off) = byte ∧ Carries f (off + 1) bytes := by
  rw [← List.singleton_append, carries_append]
  refine and_congr_left fun _ => ?_
  exact ⟨fun same => List.head_eq_of_cons_eq same, fun same => congrArg (fun byte => [byte]) same⟩

/-- A field of two bytes. -/
theorem be16_of_carries (carried : Carries f off (toBytes 2 x)) (fits : x < 2 ^ 16) : be16 f (payloadAt + off) = x := by
  have bytes : bytesAt f (payloadAt + off) 2 = toBytes 2 x := by
    have same := carried
    rwa [Carries, length_toBytes] at same
  calc be16 f (payloadAt + off) = ofBytes (bytesAt f (payloadAt + off) 2) := by
        change _ = (0 * 256 + (f (payloadAt + off)).toNat) * 256 + (f (payloadAt + off + 1)).toNat
        rw [be16]
        omega
    _ = x := by rw [bytes, ofBytes_toBytes fits]

/-- The data of an address. -/
theorem le32_of_carries {rdata : List UInt8} (carried : Carries f off rdata) (four : rdata.length = 4) :
    le32 f (payloadAt + off) = rdataIp rdata := by
  obtain ⟨a, b, c, d, rfl⟩ := List.length_eq_four.mp four
  simp only [carries_cons] at carried
  obtain ⟨first, second, third, fourth, -⟩ := carried
  simp only [Nat.add_assoc, Nat.reduceAdd] at second third fourth
  rw [rdataIp, netMakeIp, le32, le16, le16]
  simp only [Nat.add_assoc, Nat.reduceAdd, first, second, third, fourth]
  omega

end Reading

section Names

variable {f : Frame} {plen off : Nat}

/-- The labels of a name are skipped up to the zero byte. -/
theorem skipLabels_of_carries {labels : List Label} {rest : List UInt8}
    (carried : Carries f off (labelsWire labels ++ 0 :: rest)) (inside : off + (labelsWire labels).length < plen) :
    (skipLabels f plen off).value = off + (labelsWire labels).length := by
  induction labels generalizing off with
  | nil =>
      obtain ⟨ended, -⟩ := carries_cons.mp carried
      rw [skipLabels, if_pos (Nat.lt_of_le_of_lt (Nat.le_add_right _ _) inside)]
      simp only [Logged.value_bind, value_readByte, ended]
      rfl
  | cons label labels ih =>
      have long := length_labelsWire_cons label labels
      have shape : labelsWire (label :: labels) = UInt8.ofNat label.bytes.length :: (label.bytes ++ labelsWire labels) := rfl
      rw [shape, List.cons_append, List.append_assoc, carries_cons, carries_append] at carried
      obtain ⟨size, -, behind⟩ := carried
      have toNat : (UInt8.ofNat label.bytes.length).toNat = label.bytes.length :=
        UInt8.toNat_ofNat_of_lt' (Nat.lt_trans label.short (by decide))
      have next : (skipLabels f plen (off + label.bytes.length + 1)).value =
          off + label.bytes.length + 1 + (labelsWire labels).length := ih (by rwa [Nat.add_right_comm]) (by omega)
      rw [skipLabels, if_pos (by omega)]
      simp only [Logged.value_bind, value_readByte, size, toNat, if_neg (Nat.ne_of_gt label.nonempty), next]
      omega

/-- The owner of a record is skipped. -/
theorem skipName_of_carries {name : Name} (carried : Carries f off name.wire) (plain : name.Plain)
    (inside : off + name.wire.length ≤ plen) :
    (if (f (payloadAt + off)).toNat / 64 = 3 then off + 2 else (skipLabels f plen off).value + 1) =
      off + name.wire.length := by
  obtain ⟨labels, ending⟩ := name
  cases ending with
  | root =>
      have long : (Name.wire ⟨labels, .root⟩).length = (labelsWire labels).length + 1 := List.length_append
      have noPointer : (f (payloadAt + off)).toNat / 64 ≠ 3 := by
        cases labels with
        | nil =>
            obtain ⟨zero, -⟩ := carries_cons.mp carried
            rw [zero]
            decide
        | cons label labels =>
            obtain ⟨size, -⟩ := carries_cons.mp carried
            have short := label.short
            rw [size, UInt8.toNat_ofNat_of_lt' (Nat.lt_trans short (by decide))]
            omega
      have skipped : (skipLabels f plen off).value = off + (labelsWire labels).length :=
        skipLabels_of_carries carried (by omega)
      rw [if_neg noPointer, skipped, long]
      omega
  | pointer offset small =>
      obtain rfl : labels = [] := by
        rcases plain with impossible | none
        · cases impossible
        · exact none
      have first : f (payloadAt + off) = UInt8.ofNat (digit (0xC000 + offset) 1) := (carries_cons.mp carried).1
      have high : (f (payloadAt + off)).toNat / 64 = 3 := by
        rw [first, UInt8.toNat_ofNat_of_lt' (digit_lt _ _), digit]
        omega
      rw [if_pos high]
      rfl

end Names

section Records

variable {f : Frame} {plen : Nat}

/-- The loop over the answers finds the first address. -/
theorem dnsRecords_of_carries {answers : List Record} {off : Nat} (carried : Carries f off (answers.flatMap Record.wire))
    (inside : off + (answers.flatMap Record.wire).length ≤ plen)
    (plain : ∀ record ∈ upToAddress answers, record.owner.Plain) :
    (dnsRecords f plen answers.length off).value = (firstAddress answers).map rdataIp := by
  induction answers generalizing off with
  | nil => rfl
  | cons record rest ih =>
      have mine : record ∈ upToAddress (record :: rest) := by
        rw [upToAddress]
        split
        · exact List.mem_singleton_self record
        · exact List.mem_cons_self
      have long := record.length_wire
      rw [List.flatMap_cons, carries_append] at carried
      rw [List.flatMap_cons, List.length_append] at inside
      obtain ⟨here, behind⟩ := carried
      rw [Record.wire, carries_append, carries_append] at here
      obtain ⟨owner, fields, rdata⟩ := here
      have name : (if (f (payloadAt + off)).toNat / 64 = 3 then off + 2 else (skipLabels f plen off).value + 1) =
          off + record.owner.wire.length := skipName_of_carries owner (plain record mine) (by omega)
      obtain ⟨e, named⟩ : ∃ e, e = off + record.owner.wire.length := ⟨_, rfl⟩
      rw [← named] at name fields rdata
      rw [record.length_fields] at rdata
      simp only [Record.fields, carries_append, length_toBytes] at fields
      obtain ⟨type, -, -, size⟩ := fields
      have rtype : be16 f (payloadAt + e) = record.rtype := be16_of_carries type record.rtype_lt
      have rdlen : be16 f (payloadAt + e + 8) = record.rdata.length := by
        rw [Nat.add_assoc payloadAt, ← be16_of_carries size record.rdata_lt]
      rw [List.length_cons, dnsRecords, if_neg (by omega)]
      simp only [Logged.value_bind, Logged.value_ite, Logged.value_map, Logged.value_pure, value_readByte,
        value_readBe16, name, rtype, rdlen]
      rw [if_neg (by omega)]
      by_cases isAddress : record.rtype = 1
      · have four := record.address isAddress
        have value := le32_of_carries rdata four
        rw [← Nat.add_assoc] at value
        rw [if_pos ⟨isAddress, four, by omega⟩, firstAddress, if_pos isAddress, Option.map_some, ← value]
        rfl
      · have next : off + record.wire.length = e + 10 + record.rdata.length := by omega
        have later : (dnsRecords f plen rest.length (e + 10 + record.rdata.length)).value =
            (firstAddress rest).map rdataIp := by
          refine ih (next ▸ behind) (by omega) fun other member => plain other ?_
          rw [upToAddress, if_neg isAddress]
          exact List.mem_cons_of_mem _ member
        rw [if_neg fun both => isAddress both.1, firstAddress, if_neg isAddress, later]

end Records

section Reply

variable (s : Stack) {f : Frame}

/-- A datagram with another identifier changes nothing. -/
theorem dnsHandleReply_other (plen : Nat) (pending : s.dns_txid ≠ 0) (other : be16 f payloadAt ≠ s.dns_txid) :
    (dnsHandleReply s f plen).value = s := by
  unfold dnsHandleReply
  simp only [Logged.value_bind, Logged.value_ite, Logged.value_pure, value_readBe16, if_pos (And.intro pending other),
    ite_self]

/-- The first address of a response becomes the result. -/
theorem dnsHandleReply_of_carries (reply : Response) (carried : Carries f 0 reply.wire)
    (plain : ∀ record ∈ upToAddress reply.answers, record.owner.Plain)
    (accepted : s.dns_txid = 0 ∨ reply.id = s.dns_txid) :
    (dnsHandleReply s f reply.wire.length).value = { s with dns_result := (answerIp reply).getD s.dns_result } := by
  obtain ⟨plen, length⟩ : ∃ plen, plen = reply.wire.length := ⟨_, rfl⟩
  have parts : plen = 12 + ((labelsWire reply.question).length + (1 + (4 + ((reply.answers.flatMap Record.wire).length +
      ((reply.authority.flatMap Record.wire).length + (reply.additional.flatMap Record.wire).length))))) := by
    simp only [length, Response.wire, List.length_append, reply.length_header, reply.length_asked]
    rfl
  rw [← length]
  simp only [Response.wire, carries_append, reply.length_header, Nat.zero_add] at carried
  obtain ⟨header, question, ended, -, answers, -, -⟩ := carried
  simp only [Response.header, carries_append, length_toBytes, Nat.zero_add] at header
  obtain ⟨id, flags, -, count, -, -⟩ := header
  have txid := be16_of_carries id reply.id_lt
  have flagsEq := be16_of_carries flags reply.flags_lt
  have ancount := be16_of_carries count reply.answers_lt
  rw [Nat.add_zero] at txid
  have skipped : (skipLabels f plen 12).value = 12 + (labelsWire reply.question).length :=
    skipLabels_of_carries (carries_append.mpr ⟨question, ended⟩) (by omega)
  have isResponse := reply.isResponse
  unfold dnsHandleReply
  simp only [Logged.value_bind, Logged.value_ite, Logged.value_pure, value_readBe16, txid, flagsEq, ancount, skipped]
  rw [if_neg (by omega), if_neg fun both => accepted.elim both.1 both.2]
  by_cases none : reply.answers.length = 0
  · have empty : reply.answers = [] := List.length_eq_zero_iff.mp none
    rw [if_pos (.inr none), answerIp, empty]
    rfl
  · rw [if_neg (by omega), if_neg (by omega), answerIp]
    rw [reply.length_asked] at answers
    have found : (dnsRecords f plen reply.answers.length (12 + (labelsWire reply.question).length + 5)).value =
        (firstAddress reply.answers).map rdataIp := dnsRecords_of_carries answers (by omega) plain
    rw [found]

end Reply

/-- The result is left alone by what has another identifier, and becomes the first address of a response that is
accepted and in which the names up to that address are labels only or a pointer only. -/
theorem dnsHandleReply_replies (s : Stack) (f : Frame) :
    (∀ plen, s.dns_txid ≠ 0 → be16 f payloadAt ≠ s.dns_txid → (dnsHandleReply s f plen).value = s) ∧
      ∀ reply : Response, Carries f 0 reply.wire → (∀ record ∈ upToAddress reply.answers, record.owner.Plain) →
        s.dns_txid = 0 ∨ reply.id = s.dns_txid →
        (dnsHandleReply s f reply.wire.length).value = { s with dns_result := (answerIp reply).getD s.dns_result } :=
  ⟨fun plen => dnsHandleReply_other s plen, fun reply => dnsHandleReply_of_carries s reply⟩

/-! ## A name that ends in a pointer -/

/-- The frame of a datagram. -/
def datagram (bytes : List UInt8) : Frame := fun i => bytes.getD (i - payloadAt) 0

theorem carries_datagram (bytes : List UInt8) : Carries (datagram bytes) 0 bytes := by
  refine List.ext_getElem (by rw [bytesAt, List.length_map, List.length_range']) fun i inside inside' => ?_
  rw [Nat.add_zero] at inside
  simp only [bytesAt, datagram, List.getElem_map, List.getElem_range', Nat.add_zero, Nat.one_mul, Nat.add_sub_cancel_left]
  exact List.getD_eq_getElem _ _ inside'

/-- `a` -/
def labelA : Label := ⟨[97], by decide, by decide⟩

/-- A response to the question for `a` with the address 10.0.0.1. -/
def addressReply (id : Nat) (id_lt : id < 2 ^ 16) (owner : Name) : Response where
  id := id
  flags := 0x8180
  question := [labelA]
  qtype := 1
  qclass := 1
  answers := [⟨owner, 1, 1, 60, [10, 0, 0, 1], by decide, by decide, fun _ => rfl⟩]
  authority := []
  additional := []
  id_lt := id_lt
  flags_lt := by decide
  isResponse := by decide
  answers_lt := Nat.one_lt_two_pow (by decide)

/-- The owner is a pointer to the question. -/
def pointerReply : Response := addressReply 1 (by decide) ⟨[], .pointer 12 (by decide)⟩

/-- The owner is a label and a pointer to the question, as in `a.a`. -/
def suffixReply : Response := addressReply 1 (by decide) ⟨[labelA], .pointer 12 (by decide)⟩

/-- A response to another query. -/
def strayReply : Response := addressReply 7 (by decide) ⟨[labelA], .root⟩

theorem dnsHandleReply_replies_pointer :
    (dnsHandleReply { Stack.start with dns_txid := 1 } (datagram pointerReply.wire)
      pointerReply.wire.length).value.dns_result = netMakeIp 10 0 0 1 := by
  rw [(dnsHandleReply_replies _ _).2 _ (carries_datagram _) ?_ (.inr rfl)]
  · rfl
  · intro record member
    obtain rfl := List.mem_singleton.mp member
    exact .inr rfl

/-- An owner of a label and a pointer is not skipped, so that the only address is missed; and while there is no
identifier the handler takes a response to another query. -/
theorem dnsHandleReply_misses :
    (answerIp suffixReply = some (netMakeIp 10 0 0 1) ∧
      (dnsHandleReply { Stack.start with dns_txid := 1 } (datagram suffixReply.wire)
        suffixReply.wire.length).value.dns_result = 0) ∧
      strayReply.id ≠ Stack.start.dns_txid ∧
      (dnsHandleReply Stack.start (datagram strayReply.wire) strayReply.wire.length).value.dns_result =
        netMakeIp 10 0 0 1 := by
  refine ⟨⟨rfl, ?_⟩, by decide, ?_⟩
  · obtain ⟨f, frame⟩ : ∃ f, f = datagram suffixReply.wire := ⟨_, rfl⟩
    have question : (skipLabels f 37 12).value = 14 :=
      (nameEnds_iff.mp ⟨.head (b := 14) (by rw [frame]; decide) .refl, by rw [frame]; decide⟩).symm
    -- the first byte of the pointer is taken for the length of a label
    have owner : (skipLabels f 37 19).value = 214 :=
      (nameEnds_iff.mp ⟨.head (b := 21) (by rw [frame]; decide) (.head (by rw [frame]; decide) .refl),
        by rw [frame]; decide⟩).symm
    have count : be16 f (payloadAt + 6) = 1 := by rw [frame]; decide
    have flags : be16 f (payloadAt + 2) = 0x8180 := by rw [frame]; decide
    have id : be16 f payloadAt = 1 := by rw [frame]; decide
    have first : (f (payloadAt + 19)).toNat = 1 := by rw [frame]; decide
    have length : suffixReply.wire.length = 37 := by decide
    rw [← frame, length]
    simp [dnsHandleReply, dnsRecords, question, owner, count, flags, id, first, Stack.start]
  · rw [dnsHandleReply_of_carries _ _ (carries_datagram _) ?_ (.inl rfl)]
    · rfl
    · intro record member
      obtain rfl := List.mem_singleton.mp member
      exact .inl rfl

end Systrix.Net
