import Systrix.Lib.BoundedRead
import Systrix.Lib.Machine

/-!
# The messages of the server

The parser of the server's handshake messages and of the key in its certificate, as in `user/tls.h`, with the index of
every byte it reads.
-/

namespace Systrix.Tls

open BoundedRead Machine

/-! ## DER -/

/-- What `_der_length` returns and stores. -/
structure DerLength where
  len : Nat
  consumed : Nat

def derLength (msg : List UInt8) (p : Nat) : Except Stop DerLength := do
  let first ← readByte msg p
  if first < 0x80 then pure ⟨first.toNat, 1⟩
  else
    let nb := (first &&& 0x7f).toNat
    let bytes ← readBytes msg (p + 1) nb
    pure ⟨bytes.foldl (fun len byte => u32 (len * 256) ||| byte.toNat) 0, 1 + nb⟩

/-- `p >= end || *p != tag` -/
def expectTag (msg : List UInt8) (stop p : Nat) (tag : UInt8) : Except Stop Unit :=
  if stop ≤ p then throw .rejected
  else do
    let byte ← readByte msg p
    if byte ≠ tag then throw .rejected else pure ()

def rsaMaxBytes : Nat := 256

/-- `RsaPubKey`: the bytes of `n` that are used, and all four of `e`. -/
structure RsaPubKey where
  n : List UInt8
  e : List UInt8
  elen : Nat
  deriving DecidableEq

/-- The number of the modulus and what is behind it. -/
def parseModulus (msg : List UInt8) (stop p nlen : Nat) : Except Stop RsaPubKey :=
  if nlen > rsaMaxBytes then throw .rejected
  else do
    let n ← readBytes msg p nlen
    let p := p + nlen
    expectTag msg stop p 0x02
    let elen ← derLength msg (p + 1)
    let p := p + 1 + elen.consumed
    if elen.len > 4 then throw .rejected
    else do
      let e ← readBytes msg p elen.len
      pure ⟨n, List.replicate (4 - elen.len) 0 ++ e, elen.len⟩

/-- `parse_rsa_pubkey`; indices are those of the message that `der` points into. -/
def parseRsaPubkey (msg : List UInt8) (der derlen : Nat) : Except Stop RsaPubKey := do
  let stop := der + derlen
  expectTag msg stop der 0x30
  let outer ← derLength msg (der + 1)
  let p := der + 1 + outer.consumed
  expectTag msg stop p 0x30
  let alen ← derLength msg (p + 1)
  let p := p + 1 + alen.consumed + alen.len
  expectTag msg stop p 0x03
  let bslen ← derLength msg (p + 1)
  let p := p + 1 + bslen.consumed + 1
  expectTag msg stop p 0x30
  let inner ← derLength msg (p + 1)
  let p := p + 1 + inner.consumed
  expectTag msg stop p 0x02
  let nlen ← derLength msg (p + 1)
  let p := p + 1 + nlen.consumed
  let lead ← readByte msg p
  if lead = 0x00 then parseModulus msg stop (p + 1) (sub32 nlen.len 1) else parseModulus msg stop p nlen.len

/-! ## Handshake messages -/

def tlsServerHello : UInt8 := 2

def tlsCertificate : UInt8 := 11

def tlsServerHelloDone : UInt8 := 14

def tlsHandshake : UInt8 := 22

def rsaOid : List UInt8 := [0x2a, 0x86, 0x48, 0x86, 0xf7, 0x0d, 0x01, 0x01, 0x01]

/-- What the messages of the server have set.  The key is the one of the last certificate, if it was parsed. -/
structure Flight where
  server_random : List UInt8
  server_key : Option RsaPubKey
  got_hello : Bool
  got_cert : Bool
  got_done : Bool

/-- The number in three bytes. -/
def be24 (bytes : List UInt8) : Nat := bytes.foldl (fun value byte => value * 256 + byte.toNat) 0

/-- `memcmp(p, bytes, sizeof(bytes)) == 0`, which ends at the first byte that differs. -/
def memcmpEq (msg : List UInt8) (p : Nat) : List UInt8 → Except Stop Bool
  | [] => pure true
  | byte :: bytes => do
      let read ← readByte msg p
      if read ≠ byte then pure false else memcmpEq msg (p + 1) bytes

/-- The search for the identifier of RSA from `tbs + i` on. -/
def findOid (msg : List UInt8) (tbs : Nat) : (left i : Nat) → Except Stop (Option Nat)
  | 0, _ => pure none
  | left + 1, i => do
      let same ← memcmpEq msg (tbs + i) rsaOid
      if same then pure (some i) else findOid msg tbs left (i + 1)

/-- The key around the identifier that was found, in the certificate that ends at `cert_end`.  Whether it was parsed is
not looked at. -/
def serverKey (msg : List UInt8) (cert_end tbs : Nat) (flight : Flight) : Option Nat → Except Stop Flight
  | none => pure flight
  | some i => do
      let spki := tbs + i - 4
      let key ← attempt (parseRsaPubkey msg spki (sub32 cert_end spki))
      pure { flight with server_key := key, got_cert := true }

/-- The certificate message whose body is at `hs_body`. -/
def certificate (msg : List UInt8) (hs_body : Nat) (flight : Flight) : Except Stop Flight := do
  let _clist_len ← readBytes msg hs_body 3
  let cert_len ← readBytes msg (hs_body + 3) 3
  let cert_der := hs_body + 6
  let outer ← readByte msg cert_der
  if outer ≠ 0x30 then pure flight
  else do
    let outerLen ← derLength msg (cert_der + 1)
    let p := cert_der + 1 + outerLen.consumed
    let inner ← readByte msg p
    if inner ≠ 0x30 then pure flight
    else do
      let l ← derLength msg (p + 1)
      let tbs := p + 1 + l.consumed
      let found ← findOid msg tbs (l.len + 1 - rsaOid.length) 0
      serverKey msg (cert_der + be24 cert_len) tbs flight found

/-- A message whose header is at `pos`. -/
def message (msg : List UInt8) (hs_type : UInt8) (hs_body : Nat) (flight : Flight) : Except Stop Flight :=
  if hs_type = tlsServerHello then do
    let random ← readBytes msg (hs_body + 2) 32
    pure { flight with server_random := random, got_hello := true }
  else if hs_type = tlsCertificate then certificate msg hs_body flight
  else if hs_type = tlsServerHelloDone then pure { flight with got_done := true }
  else pure flight

/-- The messages of a record, from `pos` on. -/
def messages (msg : List UInt8) (pos : Nat) (flight : Flight) : Except Stop Flight :=
  if pos < msg.length then do
    let hs_type ← readByte msg pos
    let hs_len2 ← readBytes msg (pos + 1) 3
    let flight ← message msg hs_type (pos + 4) flight
    messages msg (pos + 4 + be24 hs_len2) flight
  else pure flight
termination_by msg.length - pos

/-- The records that are received until the server is done, each with its type. -/
def serverFlight : List (UInt8 × List UInt8) → Flight → Except Stop Flight
  | [], _ => throw .rejected
  | (type, msg) :: records, flight =>
      if type ≠ tlsHandshake then throw .rejected
      else do
        let flight ← messages msg 0 flight
        if flight.got_done then pure flight else serverFlight records flight

end Systrix.Tls
