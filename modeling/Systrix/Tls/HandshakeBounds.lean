import Systrix.Tls.Handshake

/-!
# Which messages are read within their bounds

The parser compares no length with the size of the record.  It stays inside just where every part that it looks at is
whole: the parts are named here, and the parser is proved to read them and nothing else.
-/

namespace Systrix.Tls

open BoundedRead Fallible Machine

variable {α : Type}

/-! ## DER -/

section Der

variable (msg : List UInt8)

/-- A byte of the message, or of the zeros behind it. -/
def byteAt (p : Nat) : UInt8 := msg.getD p 0

/-- The bytes of a DER length. -/
def lengthSize (p : Nat) : Nat := if byteAt msg p < 0x80 then 1 else 1 + (byteAt msg p &&& 0x7f).toNat

/-- The number that a DER length stands for, in 32 bits. -/
def lengthValue (p : Nat) : Nat :=
  if byteAt msg p < 0x80 then (byteAt msg p).toNat
  else (bytesAt msg (p + 1) (byteAt msg p &&& 0x7f).toNat).foldl (fun len byte => u32 (len * 256) ||| byte.toNat) 0

/-- Where the contents behind a DER length begin. -/
def contents (p : Nat) : Nat := p + lengthSize msg p

/-- The length is inside the message. -/
def LengthWhole (p : Nat) : Prop := contents msg p ≤ msg.length

/-- A part whose tag is looked at, unless it is behind the end that the parser was given: the tag is inside, and what
follows is whole if the tag is the right one. -/
def TagWhole (stop p : Nat) (tag : UInt8) (rest : Prop) : Prop := p < stop → p < msg.length ∧ (byteAt msg p = tag → rest)

/-- The modulus at `p`, and the exponent behind it. -/
def NumbersWhole (stop p nlen : Nat) : Prop :=
  nlen ≤ rsaMaxBytes →
    (0 < nlen → p + nlen ≤ msg.length) ∧
      TagWhole msg stop (p + nlen) 0x02
        (LengthWhole msg (p + nlen + 1) ∧
          (lengthValue msg (p + nlen + 1) ≤ 4 → 0 < lengthValue msg (p + nlen + 1) →
            contents msg (p + nlen + 1) + lengthValue msg (p + nlen + 1) ≤ msg.length))

/-- The key at `der`: two sequences, a bit string with a sequence inside, and the two numbers. -/
def KeyWhole (der stop : Nat) : Prop :=
  TagWhole msg stop der 0x30 <| LengthWhole msg (der + 1) ∧
    let algorithm := contents msg (der + 1)
    TagWhole msg stop algorithm 0x30 <| LengthWhole msg (algorithm + 1) ∧
      let bits := contents msg (algorithm + 1) + lengthValue msg (algorithm + 1)
      TagWhole msg stop bits 0x03 <| LengthWhole msg (bits + 1) ∧
        let numbers := contents msg (bits + 1) + 1
        TagWhole msg stop numbers 0x30 <| LengthWhole msg (numbers + 1) ∧
          let modulus := contents msg (numbers + 1)
          TagWhole msg stop modulus 0x02 <| LengthWhole msg (modulus + 1) ∧
            let value := contents msg (modulus + 1)
            value < msg.length ∧
              (byteAt msg value = 0x00 → NumbersWhole msg stop (value + 1) (sub32 (lengthValue msg (modulus + 1)) 1)) ∧
              (byteAt msg value ≠ 0x00 → NumbersWhole msg stop value (lengthValue msg (modulus + 1)))

end Der

variable {msg : List UInt8}

theorem inside_derLength {post : DerLength → Prop} {p : Nat} :
    Inside post (derLength msg p) ↔ LengthWhole msg p ∧ post ⟨lengthValue msg p, lengthSize msg p⟩ := by
  rw [derLength, inside_bind, inside_readByte, LengthWhole, contents, lengthSize, lengthValue, ← byteAt]
  by_cases short : byteAt msg p < 0x80
  · rw [if_pos short, if_pos short, if_pos short, inside_pure]
    exact Iff.rfl
  · rw [if_neg short, if_neg short, if_neg short]
    simp only [inside_bind, inside_readBytes, inside_pure]
    rw [← and_assoc]
    refine and_congr_left fun _ => ?_
    omega

theorem inside_expectTag {post : Unit → Prop} {stop p : Nat} {tag : UInt8} :
    Inside post (expectTag msg stop p tag) ↔ TagWhole msg stop p tag (post ()) := by
  rw [expectTag, TagWhole]
  by_cases behind : stop ≤ p
  · rw [if_pos behind]
    exact inside_throw.trans (iff_of_true trivial fun before => absurd behind (Nat.not_le.mpr before))
  · have before := Nat.not_le.mp behind
    rw [if_neg behind, inside_bind, inside_readByte, ← byteAt, inside_ite, inside_throw, inside_pure,
      forall_prop_of_true before]
    refine and_congr_right fun _ => ⟨fun both same => both.2 (not_not.mpr same), fun rest => ⟨fun _ => trivial, ?_⟩⟩
    exact fun same => rest (not_not.mp same)

/-- A part whose tag is looked at is whole if what follows is. -/
theorem tagWhole_congr {stop p : Nat} {tag : UInt8} {rest rest' : Prop} (same : rest ↔ rest') :
    TagWhole msg stop p tag rest ↔ TagWhole msg stop p tag rest' := by
  rw [propext same]

theorem inside_parseModulus {stop p nlen : Nat} :
    Inside (fun _ => True) (parseModulus msg stop p nlen) ↔ NumbersWhole msg stop p nlen := by
  rw [parseModulus, NumbersWhole]
  by_cases long : nlen > rsaMaxBytes
  · rw [if_pos long]
    exact inside_throw.trans (iff_of_true trivial fun fits => absurd long (Nat.not_lt.mpr fits))
  · rw [if_neg long, forall_prop_of_true (Nat.not_lt.mp long)]
    simp only [inside_bind, inside_readBytes, inside_expectTag, inside_derLength, inside_ite, inside_throw, inside_pure]
    refine and_congr_right fun _ => tagWhole_congr (and_congr_right fun _ => ?_)
    rw [← contents]
    refine ⟨fun both short => (both.2 (Nat.not_lt.mpr short)).1, fun fits => ⟨fun _ => trivial, fun short => ⟨?_, trivial⟩⟩⟩
    exact fits (Nat.not_lt.mp short)

/-- The parser of the key stays inside the message just where its parts are whole. -/
theorem inside_parseRsaPubkey {der derlen : Nat} :
    Inside (fun _ => True) (parseRsaPubkey msg der derlen) ↔ KeyWhole msg der (der + derlen) := by
  rw [parseRsaPubkey, KeyWhole]
  simp only [inside_bind, inside_readByte, inside_expectTag, inside_derLength, inside_ite, inside_parseModulus]
  exact Iff.rfl

/-! ## The identifier of RSA -/

section Parts

variable (msg : List UInt8)

/-- The identifier is at `p`. -/
def OidAt (p : Nat) : Prop := rsaOid <+: msg.drop p

instance (p : Nat) : Decidable (OidAt msg p) := inferInstanceAs (Decidable (_ <+: _))

/-- The message ends within an identifier at `p`, or before it. -/
def OidCut (p : Nat) : Prop := msg.drop p <+: rsaOid ∧ msg.drop p ≠ rsaOid

/-- Where the search over `l` bytes finds the identifier. -/
def firstOid (tbs l : Nat) : Option Nat :=
  (List.range' 0 (l + 1 - rsaOid.length)).find? fun i => decide (OidAt msg (tbs + i))

/-- The places that the search looks at, up to the first identifier. -/
def ScanWhole (tbs l : Nat) : Prop :=
  ∀ i, 0 ≤ i → i < 0 + (l + 1 - rsaOid.length) → (∀ j, 0 ≤ j → j < i → ¬OidAt msg (tbs + j)) → ¬OidCut msg (tbs + i)

end Parts

theorem inside_memcmpEq {post : Bool → Prop} {p : Nat} {bytes : List UInt8} :
    Inside post (memcmpEq msg p bytes) ↔
      ¬(msg.drop p <+: bytes ∧ msg.drop p ≠ bytes) ∧ post (decide (bytes <+: msg.drop p)) := by
  induction bytes generalizing p with
  | nil =>
      have empty : ¬(msg.drop p <+: [] ∧ msg.drop p ≠ []) := fun cut => cut.2 (List.prefix_nil.mp cut.1)
      rw [memcmpEq, inside_pure, decide_eq_true List.nil_prefix]
      exact (and_iff_right empty).symm
  | cons byte bytes ih =>
      rw [memcmpEq, inside_bind, inside_readByte]
      by_cases inside : p < msg.length
      · have here : msg.drop p = msg.getD p 0 :: msg.drop (p + 1) := by
          rw [List.getD_eq_getElem _ _ inside]
          exact List.drop_eq_getElem_cons inside
        rw [and_iff_right inside, inside_ite, inside_pure, ih, here]
        simp only [List.cons_prefix_cons, ne_eq, List.cons.injEq]
        by_cases same : msg.getD p 0 = byte
        · simp only [same, true_and, not_true_eq_false, not_false_iff, false_imp_iff, true_imp_iff]
        · simp only [same, Ne.symm same, false_and, not_false_iff, true_imp_iff, not_true_eq_false, false_imp_iff,
            and_true, true_and, decide_false]
      · rw [List.drop_eq_nil_of_le (Nat.not_lt.mp inside)]
        refine iff_of_false (fun both => inside both.1) fun both => both.1 ⟨List.nil_prefix, ?_⟩
        exact (List.cons_ne_nil _ _).symm

theorem inside_findOid {post : Option Nat → Prop} {tbs left i : Nat} :
    Inside post (findOid msg tbs left i) ↔
      (∀ k, i ≤ k → k < i + left → (∀ j, i ≤ j → j < k → ¬OidAt msg (tbs + j)) → ¬OidCut msg (tbs + k)) ∧
        post ((List.range' i left).find? fun k => decide (OidAt msg (tbs + k))) := by
  induction left generalizing i with
  | zero =>
      rw [findOid, inside_pure]
      exact (and_iff_right fun k above below => absurd below (Nat.not_lt.mpr above)).symm
  | succ left ih =>
      rw [findOid, inside_bind, inside_memcmpEq, List.range'_succ, List.find?_cons]
      by_cases found : OidAt msg (tbs + i)
      · have prefixed : rsaOid <+: msg.drop (tbs + i) := found
        rw [decide_eq_true found, decide_eq_true prefixed, if_pos rfl, inside_pure]
        refine and_congr_left fun _ => ⟨fun whole k above _ none => ?_, fun whole => ?_⟩
        · rcases Nat.eq_or_lt_of_le above with rfl | later
          · exact whole
          · exact absurd found (none i (Nat.le_refl i) later)
        · exact whole i (Nat.le_refl i) (by omega) fun j above below => absurd below (Nat.not_lt.mpr above)
      · have other : ¬rsaOid <+: msg.drop (tbs + i) := found
        rw [decide_eq_false found, decide_eq_false other, if_neg Bool.false_ne_true, ih, ← and_assoc]
        refine and_congr_left fun _ => ⟨fun both k above below none => ?_, fun whole => ⟨?_, fun k above below none => ?_⟩⟩
        · rcases Nat.eq_or_lt_of_le above with rfl | later
          · exact both.1
          · exact both.2 k later (by omega) fun j above' => none j (Nat.le_of_succ_le above')
        · exact whole i (Nat.le_refl i) (by omega) fun j above below => absurd below (Nat.not_lt.mpr above)
        · refine whole k (Nat.le_of_succ_le above) (by omega) fun j above' below' => ?_
          rcases Nat.eq_or_lt_of_le above' with rfl | later
          · exact found
          · exact none j later below'

/-! ## Messages -/

section Parts

variable (msg : List UInt8)

/-- The certificate message with its body at `body`: the start of the certificate, the places of the search, and the
key around the identifier. -/
def CertificateWhole (body : Nat) : Prop :=
  let der := body + 6
  der < msg.length ∧ (byteAt msg der = 0x30 → LengthWhole msg (der + 1) ∧
    let inner := contents msg (der + 1)
    inner < msg.length ∧ (byteAt msg inner = 0x30 → LengthWhole msg (inner + 1) ∧
      let tbs := contents msg (inner + 1)
      let l := lengthValue msg (inner + 1)
      ScanWhole msg tbs l ∧ ∀ i, firstOid msg tbs l = some i →
        let spki := tbs + i - 4
        KeyWhole msg spki (spki + sub32 (der + be24 (bytesAt msg (body + 3) 3)) spki)))

/-- The message at `pos`: its header, and what is looked at in its body. -/
def MessageWhole (pos : Nat) : Prop :=
  pos + 4 ≤ msg.length ∧ (byteAt msg pos = tlsServerHello → pos + 4 + 34 ≤ msg.length) ∧
    (byteAt msg pos = tlsCertificate → CertificateWhole msg (pos + 4))

/-- Where the message behind the one at `pos` starts. -/
def nextPos (pos : Nat) : Nat := pos + 4 + be24 (bytesAt msg (pos + 1) 3)

/-- A message starts at `p` if one starts at `pos`. -/
inductive Starts : Nat → Nat → Prop
  | here {pos : Nat} : Starts pos pos
  | later {pos p : Nat} (inside : pos < msg.length) (rest : Starts (nextPos msg pos) p) : Starts pos p

/-- All messages from the one at `pos` on are whole. -/
def WholeFrom (pos : Nat) : Prop := ∀ p, Starts msg pos p → p < msg.length → MessageWhole msg p

/-- One of them says that the server is done. -/
def DoneFrom (pos : Nat) : Prop := ∃ p, Starts msg pos p ∧ p < msg.length ∧ byteAt msg p = tlsServerHelloDone

end Parts

theorem starts_iff {pos p : Nat} (inside : pos < msg.length) :
    Starts msg pos p ↔ p = pos ∨ Starts msg (nextPos msg pos) p := by
  constructor
  · intro starts
    cases starts with
    | here => exact .inl rfl
    | later _ rest => exact .inr rest
  · rintro (rfl | rest)
    · exact .here
    · exact .later inside rest

theorem wholeFrom_iff {pos : Nat} (inside : pos < msg.length) :
    WholeFrom msg pos ↔ MessageWhole msg pos ∧ WholeFrom msg (nextPos msg pos) := by
  refine ⟨fun whole => ⟨whole pos .here inside, fun p starts => whole p (.later inside starts)⟩, fun both p starts => ?_⟩
  rcases (starts_iff inside).mp starts with rfl | rest
  · exact fun _ => both.1
  · exact both.2 p rest

theorem doneFrom_iff {pos : Nat} (inside : pos < msg.length) :
    DoneFrom msg pos ↔ byteAt msg pos = tlsServerHelloDone ∨ DoneFrom msg (nextPos msg pos) := by
  constructor
  · rintro ⟨p, starts, before, done⟩
    rcases (starts_iff inside).mp starts with rfl | rest
    · exact .inl done
    · exact .inr ⟨p, rest, before, done⟩
  · rintro (done | ⟨p, rest, before, done⟩)
    · exact ⟨pos, .here, inside, done⟩
    · exact ⟨p, .later inside rest, before, done⟩

theorem starts_of_le {pos p : Nat} (outside : msg.length ≤ pos) (starts : Starts msg pos p) : p = pos := by
  cases starts with
  | here => rfl
  | later inside _ => exact absurd inside (Nat.not_lt.mpr outside)

theorem inside_serverKey {cert_end tbs : Nat} {flight : Flight} {found : Option Nat} :
    Inside (fun _ => True) (serverKey msg cert_end tbs flight found) ↔
      ∀ i, found = some i → KeyWhole msg (tbs + i - 4) (tbs + i - 4 + sub32 cert_end (tbs + i - 4)) := by
  cases found with
  | none => exact iff_of_true (.ok trivial) fun i none => by cases none
  | some i =>
      simp only [serverKey, inside_bind, inside_pure, inside_attempt, inside_parseRsaPubkey, Option.some_inj]
      exact ⟨fun whole j same => same ▸ whole, fun whole => whole i rfl⟩

theorem inside_certificate {body : Nat} {flight : Flight} :
    Inside (fun _ => True) (certificate msg body flight) ↔ CertificateWhole msg body := by
  rw [certificate, CertificateWhole]
  simp only [inside_bind, inside_readBytes, inside_readByte, inside_ite, inside_pure, inside_derLength, inside_findOid,
    inside_serverKey, ne_eq, not_not, implies_true, true_and]
  refine ⟨fun whole => whole.2.2, fun whole => ⟨fun _ => ?_, fun _ => ?_, whole⟩⟩
  · have start := whole.1
    omega
  · have start := whole.1
    omega

/-! ## Runs over messages -/

theorem inside_message {hs_type : UInt8} {body : Nat} {flight : Flight} :
    Inside (fun _ => True) (message msg hs_type body flight) ↔
      (hs_type = tlsServerHello → body + 34 ≤ msg.length) ∧ (hs_type = tlsCertificate → CertificateWhole msg body) := by
  rw [message]
  by_cases hello : hs_type = tlsServerHello
  · have other : hs_type ≠ tlsCertificate := by
      rw [hello]
      decide
    rw [if_pos hello]
    simp only [inside_bind, inside_readBytes, inside_pure, and_true]
    refine ⟨fun fits => ⟨fun _ => ?_, fun isOther => absurd isOther other⟩, fun whole _ => ?_⟩
    · have all := fits (by decide)
      omega
    · have all := whole.1 hello
      omega
  · rw [if_neg hello, and_iff_right fun isHello => absurd isHello hello]
    by_cases cert : hs_type = tlsCertificate
    · rw [if_pos cert, inside_certificate]
      exact ⟨fun whole _ => whole, fun whole => whole cert⟩
    · rw [if_neg cert]
      refine iff_of_true ?_ fun isCert => absurd isCert cert
      split
      · exact .ok trivial
      · exact .ok trivial

theorem persists_derLength (p : Nat) : Persists (derLength msg p) := by
  refine (persists_readByte msg p).bind fun first => ?_
  split
  · exact persists_pure _
  · exact (persists_readBytes msg (p + 1) _).bind fun bytes => persists_pure _

theorem persists_memcmpEq (p : Nat) (bytes : List UInt8) : Persists (memcmpEq msg p bytes) := by
  induction bytes generalizing p with
  | nil => exact persists_pure _
  | cons byte bytes ih =>
      refine (persists_readByte msg p).bind fun read => ?_
      split
      · exact persists_pure _
      · exact ih (p + 1)

theorem persists_findOid (tbs left i : Nat) : Persists (findOid msg tbs left i) := by
  induction left generalizing i with
  | zero => exact persists_pure _
  | succ left ih =>
      refine (persists_memcmpEq (tbs + i) rsaOid).bind fun same => ?_
      split
      · exact persists_pure _
      · exact ih (i + 1)

theorem persists_certificate (body : Nat) (flight : Flight) : Persists (certificate msg body flight) := by
  refine (persists_readBytes msg body 3).bind fun _ => (persists_readBytes msg (body + 3) 3).bind fun cert_len => ?_
  refine (persists_readByte msg (body + 6)).bind fun outer => ?_
  split
  · exact persists_pure _
  · refine (persists_derLength (body + 6 + 1)).bind fun outerLen => (persists_readByte msg _).bind fun inner => ?_
    split
    · exact persists_pure _
    · refine (persists_derLength _).bind fun l => (persists_findOid _ _ 0).bind fun found => ?_
      cases found with
      | none => exact persists_pure _
      | some i => exact (persists_attempt _).bind fun key => persists_pure _

/-- A message is never refused. -/
theorem persists_message (hs_type : UInt8) (body : Nat) (flight : Flight) :
    Persists (message msg hs_type body flight) := by
  rw [message]
  split_ifs
  · exact (persists_readBytes msg (body + 2) 32).bind fun random => persists_pure _
  · exact persists_certificate body flight
  · exact persists_pure _
  · exact persists_pure _

theorem persists_messages (pos : Nat) (flight : Flight) : Persists (messages msg pos flight) := by
  induction left : msg.length - pos using Nat.strong_induction_on generalizing pos flight with
  | _ left ih =>
      rw [messages]
      split
      · refine (persists_readByte msg pos).bind fun hs_type => (persists_readBytes msg (pos + 1) 3).bind fun hs_len2 => ?_
        refine (persists_message hs_type (pos + 4) flight).bind fun after => ih _ ?_ _ after rfl
        omega
      · exact persists_pure _

/-- The messages of a record are read inside it just where they are whole. -/
theorem inside_messages {pos : Nat} {flight : Flight} :
    Inside (fun _ => True) (messages msg pos flight) ↔ WholeFrom msg pos := by
  induction left : msg.length - pos using Nat.strong_induction_on generalizing pos flight with
  | _ left ih =>
      rw [messages]
      by_cases inside : pos < msg.length
      · have rest : ∀ flight, Inside (fun _ => True) (messages msg (nextPos msg pos) flight) ↔
            WholeFrom msg (nextPos msg pos) := by
          intro flight
          refine ih (msg.length - nextPos msg pos) ?_ rfl
          rw [nextPos]
          omega
        rw [if_pos inside, inside_bind, inside_readByte, inside_bind, inside_readBytes, inside_bind, ← nextPos,
          inside_congr rest, inside_const (persists_message _ _ _), inside_message, wholeFrom_iff inside, MessageWhole,
          ← byteAt]
        constructor
        · rintro ⟨-, header, whole, later⟩
          have all := header (by decide)
          exact ⟨⟨by omega, whole⟩, later⟩
        · rintro ⟨⟨header, whole⟩, later⟩
          exact ⟨inside, fun _ => by omega, whole, later⟩
      · rw [if_neg inside]
        refine iff_of_true (.ok trivial) fun p starts before => ?_
        rw [starts_of_le (Nat.not_lt.mp inside) starts] at before
        exact absurd before inside

theorem certificate_done (body : Nat) (flight : Flight) :
    Ends (fun _ => True) (fun after => after.got_done = flight.got_done) (certificate msg body flight) := by
  refine (ends_any _).bind fun _ _ => (ends_any _).bind fun cert_len _ => (ends_any _).bind fun outer _ => ?_
  split
  · exact .ok rfl
  · refine (ends_any _).bind fun outerLen _ => (ends_any _).bind fun inner _ => ?_
    split
    · exact .ok rfl
    · refine (ends_any _).bind fun l _ => (ends_any _).bind fun found _ => ?_
      cases found with
      | none => exact .ok rfl
      | some i => exact (ends_any _).bind fun key _ => .ok rfl

theorem message_done (hs_type : UInt8) (body : Nat) (flight : Flight) :
    Ends (fun _ => True) (fun after => after.got_done = true ↔ hs_type = tlsServerHelloDone ∨ flight.got_done = true)
      (message msg hs_type body flight) := by
  rw [message]
  split_ifs with hello cert done
  · have other : hs_type ≠ tlsServerHelloDone := by
      rw [hello]
      decide
    exact (ends_any _).bind fun random _ => .ok (or_iff_right other).symm
  · have other : hs_type ≠ tlsServerHelloDone := by
      rw [cert]
      decide
    refine (certificate_done body flight).mono fun after same => ?_
    rw [same]
    exact (or_iff_right other).symm
  · exact .ok (iff_of_true rfl (.inl done))
  · exact .ok (or_iff_right done).symm

/-- The loop over the messages of a record notes whether one of them says that the server is done. -/
theorem messages_done (pos : Nat) (flight : Flight) :
    Ends (fun _ => True) (fun after => after.got_done = true ↔ DoneFrom msg pos ∨ flight.got_done = true)
      (messages msg pos flight) := by
  induction left : msg.length - pos using Nat.strong_induction_on generalizing pos flight with
  | _ left ih =>
      rw [messages]
      by_cases inside : pos < msg.length
      · rw [if_pos inside, readByte, if_pos inside]
        refine (Ends.ok rfl : Ends _ (· = byteAt msg pos) _).bind fun hs_type isType => ?_
        refine (ends_readBytes msg (pos + 1) 3).bind fun hs_len2 isLen => ?_
        refine (message_done hs_type (pos + 4) flight).bind fun after isDone => ?_
        rw [isLen, ← nextPos]
        refine (ih (msg.length - nextPos msg pos) ?_ (nextPos msg pos) after rfl).mono fun last both => ?_
        · rw [nextPos]
          omega
        · rw [both, isDone, isType, doneFrom_iff inside, or_left_comm, or_assoc]
      · rw [if_neg inside]
        refine .ok (or_iff_right ?_).symm
        rintro ⟨p, starts, before, -⟩
        rw [starts_of_le (Nat.not_lt.mp inside) starts] at before
        exact inside before

/-! ## Runs over records -/

/-- All messages of the record are whole. -/
def RecordWhole (msg : List UInt8) : Prop := WholeFrom msg 0

/-- A message of the record says that the server is done. -/
def SaysDone (msg : List UInt8) : Prop := DoneFrom msg 0

/-- The records are whole, up to the first one that is no handshake record or says that the server is done. -/
def FlightWhole : List (UInt8 × List UInt8) → Prop
  | [] => True
  | (type, msg) :: records => type = tlsHandshake → RecordWhole msg ∧ (¬SaysDone msg → FlightWhole records)

/-- Before the first record. -/
def Flight.start : Flight := ⟨[], none, false, false, false⟩

theorem inside_serverFlight {records : List (UInt8 × List UInt8)} {flight : Flight} (busy : flight.got_done = false) :
    Inside (fun _ => True) (serverFlight records flight) ↔ FlightWhole records := by
  induction records generalizing flight with
  | nil => exact iff_of_true (.error rfl) trivial
  | cons record records ih =>
      obtain ⟨type, msg⟩ := record
      rw [serverFlight, FlightWhole]
      by_cases other : type ≠ tlsHandshake
      · rw [if_pos other]
        exact iff_of_true (.error rfl) fun same => absurd same other
      · have recordWhole : Inside (fun _ => True) (messages msg 0 flight) ↔ RecordWhole msg := inside_messages
        have persists : Persists (messages msg 0 flight) := persists_messages 0 flight
        have done : Ends _ _ (messages msg 0 flight) := messages_done 0 flight
        rw [if_neg other, forall_prop_of_true (not_not.mp other), inside_bind, ← recordWhole]
        cases run : messages msg 0 flight with
        | error stop =>
            cases stop with
            | outside index => exact iff_of_false inside_outside.mp fun both => inside_outside.mp both.1
            | rejected => exact absurd run persists
        | ok after =>
            rw [run, ends_ok, busy, ← SaysDone, or_iff_left Bool.false_ne_true] at done
            rw [inside_ok, inside_ok, true_and, ← done]
            by_cases ended : after.got_done = true
            · rw [if_pos ended]
              exact iff_of_true (.ok trivial) fun goes => absurd ended goes
            · rw [if_neg ended, ih (Bool.not_eq_true _ ▸ ended), forall_prop_of_true ended]

/-- The messages of the server, and a key wherever it is, are read within their bounds just where they are whole. -/
theorem serverReads_inside_iff (records : List (UInt8 × List UInt8)) (msg : List UInt8) (der derlen : Nat) :
    ((∀ index, serverFlight records .start ≠ .error (.outside index)) ↔ FlightWhole records) ∧
      ((∀ index, parseRsaPubkey msg der derlen ≠ .error (.outside index)) ↔ KeyWhole msg der (der + derlen)) :=
  ⟨inside_true_iff.symm.trans (inside_serverFlight rfl), inside_true_iff.symm.trans inside_parseRsaPubkey⟩

/-- A record of a single byte is read behind its end. -/
theorem serverReads_outside_oneByte : ¬∀ index, serverFlight [(tlsHandshake, [tlsServerHello])] .start ≠ .error (.outside index) := by
  intro inside
  have whole := (inside_serverFlight rfl).mp (inside_true_iff.mpr inside)
  exact absurd ((whole rfl).1 0 .here (by decide)).1 (by decide)

end Systrix.Tls
