import Systrix.Lib.Digits

/-!
# DNS messages

The wire format of a response: names as labels, as a pointer or as labels that end in a pointer, resource records, and
the header with its counts.
-/

namespace DnsMessage

open Digits

/-! ## Names -/

/-- A label of a name. -/
structure Label where
  bytes : List UInt8
  nonempty : 0 < bytes.length
  short : bytes.length < 64

/-- What ends a name: the root, or a pointer into the message. -/
inductive Ending where
  | root
  | pointer (offset : Nat) (inside : offset < 2 ^ 14)

structure Name where
  labels : List Label
  ending : Ending

def Label.wire (label : Label) : List UInt8 := UInt8.ofNat label.bytes.length :: label.bytes

def labelsWire (labels : List Label) : List UInt8 := labels.flatMap Label.wire

def Ending.wire : Ending → List UInt8
  | .root => [0]
  | .pointer offset _ => toBytes 2 (0xC000 + offset)

def Name.wire (name : Name) : List UInt8 := labelsWire name.labels ++ name.ending.wire

/-- The name is given by labels only or by a pointer only. -/
def Name.Plain (name : Name) : Prop := name.ending = .root ∨ name.labels = []

/-! ## Records -/

/-- A resource record; type 1 is an address. -/
structure Record where
  owner : Name
  rtype : Nat
  rclass : Nat
  ttl : Nat
  rdata : List UInt8
  rtype_lt : rtype < 2 ^ 16
  rdata_lt : rdata.length < 2 ^ 16
  address : rtype = 1 → rdata.length = 4

/-- The fields between the owner and the data. -/
def Record.fields (record : Record) : List UInt8 :=
  toBytes 2 record.rtype ++ (toBytes 2 record.rclass ++ (toBytes 4 record.ttl ++ toBytes 2 record.rdata.length))

def Record.wire (record : Record) : List UInt8 := record.owner.wire ++ (record.fields ++ record.rdata)

/-- The data of the first address. -/
def firstAddress : List Record → Option (List UInt8)
  | [] => none
  | record :: rest => if record.rtype = 1 then some record.rdata else firstAddress rest

/-- The records up to the first address, and all of them if there is none. -/
def upToAddress : List Record → List Record
  | [] => []
  | record :: rest => if record.rtype = 1 then [record] else record :: upToAddress rest

/-! ## Responses -/

/-- A response to one question. -/
structure Response where
  id : Nat
  flags : Nat
  question : List Label
  qtype : Nat
  qclass : Nat
  answers : List Record
  authority : List Record
  additional : List Record
  id_lt : id < 2 ^ 16
  flags_lt : flags < 2 ^ 16
  isResponse : 2 ^ 15 ≤ flags
  answers_lt : answers.length < 2 ^ 16

namespace Response

variable (reply : Response)

def header : List UInt8 :=
  toBytes 2 reply.id ++ (toBytes 2 reply.flags ++ (toBytes 2 1 ++ (toBytes 2 reply.answers.length ++
    (toBytes 2 reply.authority.length ++ toBytes 2 reply.additional.length))))

/-- What follows the name in the question. -/
def asked : List UInt8 := toBytes 2 reply.qtype ++ toBytes 2 reply.qclass

def wire : List UInt8 :=
  reply.header ++ (labelsWire reply.question ++ ([0] ++ (reply.asked ++ (reply.answers.flatMap Record.wire ++
    (reply.authority.flatMap Record.wire ++ reply.additional.flatMap Record.wire)))))

end Response

/-! ## Lengths -/

theorem length_labelsWire_cons (label : Label) (labels : List Label) :
    (labelsWire (label :: labels)).length = label.bytes.length + 1 + (labelsWire labels).length := by
  rw [labelsWire, List.flatMap_cons, List.length_append]
  rfl

theorem Record.length_fields (record : Record) : record.fields.length = 10 := by
  simp only [Record.fields, List.length_append, length_toBytes]

theorem Record.length_wire (record : Record) :
    record.wire.length = record.owner.wire.length + 10 + record.rdata.length := by
  rw [Record.wire, List.length_append, List.length_append, record.length_fields, Nat.add_assoc]

theorem Response.length_header (reply : Response) : reply.header.length = 12 := by
  simp only [Response.header, List.length_append, length_toBytes]

theorem Response.length_asked (reply : Response) : reply.asked.length = 4 := by
  simp only [Response.asked, List.length_append, length_toBytes]

end DnsMessage
