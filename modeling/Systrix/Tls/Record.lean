import Systrix.Tls.Gcm
import Systrix.User.ReadStream

/-!
# Receiving records

`_net_recv_exact`, `tls_recv_record` and `tls_read` of `user/tls.h`, and the records that a peer sends.  `recv` on a
connection is like `read` on a file of all the bytes that the peer sends: it waits for at least one of them, and gives
none at their end.
-/

namespace Systrix.Tls

open ByteMemory
open Systrix.User (OpenFile)

def tlsBufSize : Nat := 16384 + 256

def tlsApplicationData : UInt8 := 23

def tlsAlert : UInt8 := 21

/-- The loop of `_net_recv_exact` for `left` more bytes.  Each turn receives one at least. -/
def netRecvLoop : (fuel left : Nat) → OpenFile → Option (List UInt8) × OpenFile
  | 0, left, fd => (if left = 0 then some [] else none, fd)
  | fuel + 1, left, fd =>
      if left = 0 then (some [], fd)
      else
        let (r, bytes, fd) := fd.read left
        if r ≤ 0 then (none, fd)
        else
          let (rest, fd) := netRecvLoop fuel (left - r.toNat) fd
          (rest.map (bytes ++ ·), fd)

/-- `_net_recv_exact`: the bytes, or none of them for a failure. -/
def netRecvExact (fd : OpenFile) (len : Nat) : Option (List UInt8) × OpenFile := netRecvLoop len len fd

/-- `TlsCtx`, as far as receiving needs it: the connection, the keys of the direction from the server, and the first
`applen` bytes of `appbuf`. -/
structure TlsCtx where
  fd : OpenFile
  dec : GcmCtx
  encrypted : Bool
  appbuf : List UInt8
  fits : appbuf.length ≤ tlsBufSize

/-- `aad`: the sequence number, the type, the version and the length of the plaintext. -/
def recordAad (seq : UInt64) (type : UInt8) (pt_len : Nat) : Memory := fun i =>
  if i < 8 then bigEndian seq i
  else if i = 8 then type
  else if i < 11 then 3
  else if i = 11 then UInt8.ofNat (pt_len >>> 8) else UInt8.ofNat pt_len

/-- `memcpy(t->dec.iv+4, buf, 8);` -/
def setExplicit (g : GcmCtx) (buf : List UInt8) : GcmCtx :=
  { g with iv := .ofFn fun i => if i.val < 4 then g.iv[i.val] else buf.getD (i.val - 4) 0 }

/-- What `tls_recv_record` returns: the type or -1, and the bytes of `buf` up to `*out_len`. -/
structure Received where
  type : Int
  buf : List UInt8
  fits : buf.length ≤ tlsBufSize

/-- The result of a failure. -/
def Received.failure : Received := ⟨-1, [], Nat.zero_le _⟩

/-- The first `pt_len` bytes of `pt`, moved to the front of `buf`. -/
def Received.plain (type : UInt8) (pt : Memory) {len : Nat} (small : len ≤ tlsBufSize) : Received where
  type := type.toNat
  buf := (List.range (len - 24)).map pt
  fits := by
    rw [List.length_map, List.length_range]
    exact Nat.le_trans (Nat.sub_le len 24) small

/-- `gcm_open` on the ciphertext of a record. -/
def openFragment (g : GcmCtx) (type : UInt8) (buf : List UInt8) : Int × Record :=
  let pt_len := buf.length - 24
  gcmOpen (setExplicit g buf) (fun i => buf.getD (8 + i) 0) (UInt32.ofNat pt_len) (recordAad g.seq type pt_len) 13
    (.ofFn fun i => buf.getD (8 + pt_len + i.val) 0)

/-- The part of `tls_recv_record` for a record that is encrypted: a nonce, a ciphertext and a tag. -/
def openRecord (t : TlsCtx) (type : UInt8) (buf : List UInt8) (small : buf.length ≤ tlsBufSize) : Received × TlsCtx :=
  if buf.length < 24 then (.failure, t)
  else
    let opened := openFragment t.dec type buf
    let t := { t with dec := opened.2.ctx }
    if opened.1 < 0 then (.failure, t) else (.plain type opened.2.data small, t)

def tlsRecvRecord (t : TlsCtx) : Received × TlsCtx :=
  let hdr := netRecvExact t.fd 5
  let t := { t with fd := hdr.2 }
  match hdr.1 with
  | none => (.failure, t)
  | some hdr =>
      let len := (hdr.getD 3 0).toNat <<< 8 ||| (hdr.getD 4 0).toNat
      if tlsBufSize < len then (.failure, t)
      else
        let body := netRecvExact t.fd len
        let t := { t with fd := body.2 }
        match body.1 with
        | none => (.failure, t)
        | some buf =>
            -- `buf` has `len` bytes; the test only carries that to the result.
            if small : buf.length ≤ tlsBufSize then
              if t.encrypted then openRecord t (hdr.getD 0 0) buf small else (⟨(hdr.getD 0 0).toNat, buf, small⟩, t)
            else (.failure, t)

/-- `tls_read`: the result, the bytes stored in `out`, and the context. -/
def tlsRead (t : TlsCtx) (maxlen : UInt32) : Int × List UInt8 × TlsCtx :=
  if 0 < t.appbuf.length then
    let take := min t.appbuf.length maxlen.toNat
    (take, t.appbuf.take take,
      { t with appbuf := t.appbuf.drop take, fits := by rw [List.length_drop]; have := t.fits; omega })
  else
    let r := tlsRecvRecord t
    let t := r.2
    if r.1.type = tlsApplicationData.toNat then
      let take := min r.1.buf.length maxlen.toNat
      (take, r.1.buf.take take,
        if take < r.1.buf.length then
          { t with appbuf := r.1.buf.drop take, fits := by rw [List.length_drop]; have := r.1.fits; omega }
        else t)
    else if r.1.type = tlsAlert.toNat then (0, [], t)
    else (-1, [], t)

/-! ## The peer -/

/-- A record of a conforming peer: its type, the explicit part of its nonce, and its plaintext. -/
structure PeerRecord where
  type : UInt8
  explicit : UInt64
  plain : List UInt8
  conforming : plain.length ≤ 2 ^ 14

/-- The keys of a peer, for a nonce of the implicit IV and an explicit part. -/
def peerCtx (key16 : Block) (iv4 : Vector UInt8 4) (explicit : UInt64) : GcmCtx where
  key := aesKeyExpand key16
  h := aesEncryptBlock (aesKeyExpand key16) (.replicate 16 0)
  iv := .ofFn fun i => if low : i.val < 4 then iv4[i.val] else 0
  seq := explicit

namespace PeerRecord

/-- The sealed plaintext: the peer uses its own nonce, and the number of the record in the additional data. -/
def sealed (r : PeerRecord) (key16 : Block) (iv4 : Vector UInt8 4) (seq : UInt64) : Block × Record :=
  gcmSeal (peerCtx key16 iv4 r.explicit) (fun i => r.plain.getD i 0) (UInt32.ofNat r.plain.length)
    (recordAad seq r.type r.plain.length) 13

/-- The explicit nonce, the ciphertext and the tag. -/
def fragment (r : PeerRecord) (key16 : Block) (iv4 : Vector UInt8 4) (seq : UInt64) : List UInt8 :=
  (List.range 8).map (bigEndian r.explicit) ++ (List.range r.plain.length).map (r.sealed key16 iv4 seq).2.data ++
    (r.sealed key16 iv4 seq).1.toList

/-- The bytes of record `seq`. -/
def wire (r : PeerRecord) (key16 : Block) (iv4 : Vector UInt8 4) (seq : UInt64) : List UInt8 :=
  [r.type, 3, 3, UInt8.ofNat ((24 + r.plain.length) >>> 8), UInt8.ofNat (24 + r.plain.length)] ++
    r.fragment key16 iv4 seq

end PeerRecord

/-- The bytes of records with numbers from `seq` on. -/
def wires (key16 : Block) (iv4 : Vector UInt8 4) : (seq : UInt64) → List PeerRecord → List UInt8
  | _, [] => []
  | seq, r :: rs => r.wire key16 iv4 seq ++ wires key16 iv4 (seq + 1) rs

end Systrix.Tls

/-!
## Which records are opened

A record of the peer is opened exactly when its explicit nonce is the sequence number of the receiver, because
`gcm_open` takes the nonce from there.
-/

namespace Systrix.Tls

open ByteMemory CounterMode
open Systrix.User (OpenFile)

/-! ## Receiving bytes -/

/-- `recv` does not fail. -/
def Reliable (fd : OpenFile) : Prop := ∀ n, fd.answers n ≠ .failure

/-- What `_net_recv_exact` does: it takes exactly the bytes asked for, or fails. -/
inductive Receives (fd : OpenFile) (len : Nat) : Option (List UInt8) × OpenFile → Prop where
  | bytes {later : OpenFile} (inside : fd.pos + len ≤ fd.content.length) (content : later.content = fd.content)
      (pos : later.pos = fd.pos + len) (answers : later.answers = fd.answers) :
      Receives fd len (some ((fd.content.drop fd.pos).take len), later)
  | failed {later : OpenFile} (content : later.content = fd.content) (answers : later.answers = fd.answers)
      (short : Reliable fd → fd.content.length < fd.pos + len ∧ later.pos = fd.content.length) : Receives fd len (none, later)

/-- What `recv` does. -/
theorem recv_spec (fd : OpenFile) (len : Nat) :
    (∃ later, fd.read len = (-1, [], later) ∧ later.content = fd.content ∧ later.answers = fd.answers ∧ ¬Reliable fd)
      ∨ ∃ (n : Nat) (later : OpenFile), fd.read len = ((n : Int), (fd.content.drop fd.pos).take n, later) ∧ n ≤ len
        ∧ n ≤ fd.content.length - fd.pos ∧ (n = 0 → len = 0 ∨ fd.content.length ≤ fd.pos)
        ∧ later.content = fd.content ∧ later.answers = fd.answers ∧ later.pos = fd.pos + n := by
  unfold OpenFile.read
  cases answer : fd.answers fd.reads with
  | failure => exact .inl ⟨_, rfl, rfl, rfl, fun reliable => reliable fd.reads answer⟩
  | bytes most =>
    refine .inr ⟨min (max 1 most) (min (2 ^ 63 - 1) (min len (fd.content.length - fd.pos))), _, rfl, ?_, ?_, ?_, rfl, rfl,
      rfl⟩ <;> omega

theorem netRecvLoop_spec {fuel left : Nat} {fd : OpenFile} (inside : fd.pos ≤ fd.content.length) (enough : left ≤ fuel) :
    Receives fd left (netRecvLoop fuel left fd) := by
  induction fuel generalizing left fd with
  | zero =>
    obtain rfl : left = 0 := by omega
    exact .bytes inside rfl rfl rfl
  | succ fuel ih =>
    rw [netRecvLoop]
    by_cases none : left = 0
    · subst none
      exact .bytes inside rfl rfl rfl
    · rw [if_neg none]
      rcases recv_spec fd left with ⟨later, read, content, answers, broken⟩ |
        ⟨n, later, read, short, rest, ended, content, answers, pos⟩
      · simp only [read]
        exact .failed content answers fun reliable => absurd reliable broken
      · simp only [read]
        by_cases empty : n = 0
        · subst empty
          exact .failed content answers fun _ => by omega
        · rw [if_neg (by omega), Int.toNat_natCast]
          have next : Receives later (left - n) (netRecvLoop fuel (left - n) later) :=
            ih (by rw [content]; omega) (by omega)
          generalize netRecvLoop fuel (left - n) later = result at next
          cases next with
          | @bytes last inside' content' pos' answers' =>
            have both : (fd.content.drop fd.pos).take n ++ (later.content.drop later.pos).take (left - n)
                = (fd.content.drop fd.pos).take left := by
              rw [content, pos, ← List.drop_drop, ← List.take_add, Nat.add_sub_cancel' short]
            simp only [Option.map_some, both]
            exact .bytes (by rw [content] at inside'; omega) (content'.trans content) (by omega) (answers'.trans answers)
          | @failed last content' answers' short' =>
            simp only [Option.map_none]
            refine .failed (content'.trans content) (answers'.trans answers) fun reliable => ?_
            have before := short' (by unfold Reliable; rw [answers]; exact reliable)
            rw [content] at before
            omega

theorem netRecvExact_spec {fd : OpenFile} (inside : fd.pos ≤ fd.content.length) (len : Nat) :
    Receives fd len (netRecvExact fd len) :=
  netRecvLoop_spec inside (Nat.le_refl len)

/-! ## Tags -/

theorem padded_congr {data data' : Memory} {offset len : Nat} (same : ∀ i < len, data (offset + i) = data' (offset + i)) :
    padded data offset len = padded data' offset len := by
  unfold padded
  congr 1
  funext i
  split_ifs with inside
  · exact same i.val inside
  · rfl

/-- The hash of some bytes depends on these only. -/
theorem gcmGhash_congr (h : Block) {data data' : Memory} {len : Nat} :
    ∀ {offset : Nat} (tag : Block), (∀ i < len, data (offset + i) = data' (offset + i)) →
      gcmGhash h tag data offset len = gcmGhash h tag data' offset len := by
  induction len using Nat.strongRecOn with
  | ind len ih =>
    intro offset tag same
    rw [gcmGhash, gcmGhash.eq_def h tag data']
    by_cases long : 16 ≤ len
    · rw [if_pos long, if_pos long, padded_congr fun i inside => same i (by omega)]
      refine ih (len - 16) (by omega) _ fun i inside => ?_
      have byte := same (16 + i) (by omega)
      rwa [← Nat.add_assoc] at byte
    · rw [if_neg long, if_neg long, padded_congr same]

theorem gcmTag_data (g : GcmCtx) {data data' : Memory} {len : UInt32} (same : ∀ i < len.toNat, data i = data' i)
    (aad : Memory) (aad_len : UInt32) : gcmTag g data len aad aad_len = gcmTag g data' len aad aad_len := by
  have bytes : ∀ i < len.toNat, data (0 + i) = data' (0 + i) := fun i inside => by
    rw [Nat.zero_add]
    exact same i inside
  simp only [gcmTag, gcmGhash_congr g.h _ bytes]

/-- The tags of two contexts with the same key are equal exactly when their nonces are. -/
theorem gcmTag_eq_iff {g g' : GcmCtx} (key : g'.key = g.key) (h : g'.h = g.h) (data : Memory) (len : UInt32)
    (aad : Memory) (aad_len : UInt32) :
    gcmTag g' data len aad aad_len = gcmTag g data len aad aad_len ↔ nonce g' = nonce g := by
  simp only [gcmTag, key, h]
  constructor
  · intro same
    apply aesEncryptBlock_injective g.key
    apply Vector.ext
    intro i inside
    have byte := congrArg (fun b : Block => b[i]) same
    simp only [Block.xor, Vector.getElem_zipWith] at byte
    exact (UInt8.xor_right_inj _).mp byte
  · intro same
    rw [same]

/-! ## Opening a record -/

theorem peerCtx_keyed (key16 : Block) (iv4 : Vector UInt8 4) (explicit : UInt64) :
    (peerCtx key16 iv4 explicit).Keyed key16 iv4 where
  key := rfl
  h := rfl
  fixed i low := by simp [peerCtx, low]

section Fragment

variable {key16 : Block} {iv4 : Vector UInt8 4}

/-- Storing the explicit nonce keeps the keys and the number. -/
theorem setExplicit_keyed {g : GcmCtx} (keyed : g.Keyed key16 iv4) (buf : List UInt8) :
    (setExplicit g buf).Keyed key16 iv4 where
  key := keyed.key
  h := keyed.h
  fixed i low := by
    rw [← keyed.fixed i low]
    simp [setExplicit, low]

namespace PeerRecord

variable (r : PeerRecord) (seq : UInt64)

theorem length_fragment : (r.fragment key16 iv4 seq).length = 24 + r.plain.length := by
  simp only [fragment, List.length_append, List.length_map, List.length_range, Vector.length_toList]
  omega

theorem fragment_cipher {i : Nat} (inside : i < r.plain.length) :
    (r.fragment key16 iv4 seq).getD (8 + i) 0 = (r.sealed key16 iv4 seq).2.data i := by
  rw [fragment, List.append_assoc, List.getD_append_right _ _ _ _ (by simp), List.getD_append _ _ _ _ (by simpa using inside)]
  simp [List.getD_eq_getElem?_getD, inside]

theorem fragment_tag (i : Fin 16) :
    (r.fragment key16 iv4 seq).getD (8 + r.plain.length + i.val) 0 = (r.sealed key16 iv4 seq).1.get i := by
  rw [fragment, List.getD_append_right _ _ _ _ (by simp)]
  simp [List.getD_eq_getElem?_getD]
  rfl

end PeerRecord

/-- The number of bytes of a plaintext fits. -/
theorem PeerRecord.toNat_length (r : PeerRecord) : (UInt32.ofNat r.plain.length).toNat = r.plain.length :=
  UInt32.toNat_ofNat_of_lt' (Nat.lt_of_le_of_lt r.conforming (by decide))

variable {g : GcmCtx}

theorem openFragment_fragment (g : GcmCtx) (r : PeerRecord) (seq : UInt64) :
    openFragment g r.type (r.fragment key16 iv4 seq) =
      gcmOpen (setExplicit g (r.fragment key16 iv4 seq)) (fun i => (r.fragment key16 iv4 seq).getD (8 + i) 0)
        (UInt32.ofNat r.plain.length) (recordAad g.seq r.type r.plain.length) 13 (r.sealed key16 iv4 seq).1 := by
  have tag : (.ofFn fun i : Fin 16 => (r.fragment key16 iv4 seq).getD (8 + r.plain.length + i.val) 0 : Block) =
      (r.sealed key16 iv4 seq).1 := by
    apply Vector.ext
    intro i inside
    rw [Vector.getElem_ofFn]
    exact r.fragment_tag seq ⟨i, inside⟩
  have length : (r.fragment key16 iv4 seq).length - 24 = r.plain.length := by
    rw [r.length_fragment]
    omega
  rw [openFragment, length, tag]

/-- The tag of a record is the one that the receiver computes exactly when the explicit nonce is the receiver's number. -/
theorem tag_eq_iff (keyed : g.Keyed key16 iv4) (r : PeerRecord) :
    (r.sealed key16 iv4 g.seq).1 = gcmTag (setExplicit g (r.fragment key16 iv4 g.seq))
        (fun i => (r.fragment key16 iv4 g.seq).getD (8 + i) 0) (UInt32.ofNat r.plain.length)
        (recordAad g.seq r.type r.plain.length) 13
      ↔ r.explicit = g.seq := by
  have data : ∀ i < (UInt32.ofNat r.plain.length).toNat,
      (r.fragment key16 iv4 g.seq).getD (8 + i) 0 = (r.sealed key16 iv4 g.seq).2.data i := fun i inside =>
    r.fragment_cipher g.seq (by rwa [r.toNat_length] at inside)
  have receiver := setExplicit_keyed keyed (r.fragment key16 iv4 g.seq)
  have peer := peerCtx_keyed key16 iv4 r.explicit
  have nonces : nonce (peerCtx key16 iv4 r.explicit) = nonce (setExplicit g (r.fragment key16 iv4 g.seq))
      ↔ r.explicit = g.seq :=
    nonce_eq_iff fun i low => (peer.fixed i low).trans (receiver.fixed i low).symm
  rw [gcmTag_data _ data, ← nonces]
  exact gcmTag_eq_iff (peer.key.trans receiver.key.symm) (peer.h.trans receiver.h.symm) _ _ _ _

/-- What the receiver makes of the ciphertext then. -/
theorem opened_data (keyed : g.Keyed key16 iv4) (r : PeerRecord) (same : r.explicit = g.seq) {i : Nat}
    (inside : i < r.plain.length) :
    ctrLoop (setExplicit g (r.fragment key16 iv4 g.seq)) (fun i => (r.fragment key16 iv4 g.seq).getD (8 + i) 0)
      (UInt32.ofNat r.plain.length) i = r.plain.getD i 0 := by
  have receiver := setExplicit_keyed keyed (r.fragment key16 iv4 g.seq)
  have peer := peerCtx_keyed key16 iv4 r.explicit
  have nonces : nonce (setExplicit g (r.fragment key16 iv4 g.seq)) = nonce (peerCtx key16 iv4 r.explicit) :=
    (nonce_eq_iff fun i low => (receiver.fixed i low).trans (peer.fixed i low).symm).mpr same.symm
  have cipher : (r.fragment key16 iv4 g.seq).getD (8 + i) 0 = (r.sealed key16 iv4 g.seq).2.data i :=
    r.fragment_cipher g.seq inside
  have sealed : (r.sealed key16 iv4 g.seq).2.data =
      ctrLoop (peerCtx key16 iv4 r.explicit) (fun i => r.plain.getD i 0) (UInt32.ofNat r.plain.length) := rfl
  rw [ctrLoop_eq, nonces, receiver.key, r.toNat_length, mask_of_lt inside, cipher, sealed, ctrLoop_eq, peer.key, r.toNat_length,
    mask_of_lt inside, UInt8.xor_assoc, UInt8.xor_self, UInt8.xor_zero]

/-- A record is opened, with its plaintext, exactly when its explicit nonce is the receiver's number. -/
theorem openRecord_spec {t : TlsCtx} (keyed : t.dec.Keyed key16 iv4) (r : PeerRecord)
    (small : (r.fragment key16 iv4 t.dec.seq).length ≤ tlsBufSize) :
    ∃ dec, dec.Keyed key16 iv4
      ∧ (r.explicit = t.dec.seq → dec.seq = t.dec.seq + 1
        ∧ (openRecord t r.type (r.fragment key16 iv4 t.dec.seq) small).1.type = r.type.toNat
        ∧ (openRecord t r.type (r.fragment key16 iv4 t.dec.seq) small).1.buf = r.plain)
      ∧ (r.explicit ≠ t.dec.seq → (openRecord t r.type (r.fragment key16 iv4 t.dec.seq) small).1 = .failure)
      ∧ (openRecord t r.type (r.fragment key16 iv4 t.dec.seq) small).2 = { t with dec := dec } := by
  have receiver := setExplicit_keyed keyed (r.fragment key16 iv4 t.dec.seq)
  have right := tag_eq_iff keyed r
  have long : ¬(r.fragment key16 iv4 t.dec.seq).length < 24 := by
    rw [r.length_fragment]
    omega
  unfold openRecord
  rw [if_neg long]
  simp only [openFragment_fragment]
  by_cases same : r.explicit = t.dec.seq
  · have accepted : ¬mismatch (gcmTag (setExplicit t.dec (r.fragment key16 iv4 t.dec.seq))
        (fun i => (r.fragment key16 iv4 t.dec.seq).getD (8 + i) 0) (UInt32.ofNat r.plain.length)
        (recordAad t.dec.seq r.type r.plain.length) 13) (r.sealed key16 iv4 t.dec.seq).1 ≠ 0 :=
      not_not.mpr ((mismatch_eq_zero_iff _ _).mpr (right.mpr same).symm)
    simp only [gcmOpen, if_neg accepted, if_neg (Int.lt_irrefl 0)]
    refine ⟨{ setExplicit t.dec (r.fragment key16 iv4 t.dec.seq) with seq := t.dec.seq + 1 },
      ⟨receiver.key, receiver.h, receiver.fixed⟩, fun _ => ⟨rfl, rfl, ?_⟩, fun other => absurd same other, rfl⟩
    have length : (r.fragment key16 iv4 t.dec.seq).length - 24 = r.plain.length := by
      rw [r.length_fragment]
      omega
    simp only [Received.plain, length]
    apply List.ext_getElem
    · simp only [List.length_map, List.length_range]
    · intro i inside inside'
      rw [List.getElem_map, List.getElem_range, opened_data keyed r same inside', List.getD_eq_getElem _ _ inside']
  · have rejected : mismatch (gcmTag (setExplicit t.dec (r.fragment key16 iv4 t.dec.seq))
        (fun i => (r.fragment key16 iv4 t.dec.seq).getD (8 + i) 0) (UInt32.ofNat r.plain.length)
        (recordAad t.dec.seq r.type r.plain.length) 13) (r.sealed key16 iv4 t.dec.seq).1 ≠ 0 := fun zero =>
      same (right.mp ((mismatch_eq_zero_iff _ _).mp zero).symm)
    simp only [gcmOpen, if_pos rejected, if_pos (by decide : (-1 : Int) < 0)]
    exact ⟨setExplicit t.dec (r.fragment key16 iv4 t.dec.seq), receiver, fun other => absurd other same, fun _ => trivial, rfl⟩

/-! ## Receiving a record -/

/-- The two bytes of a length tell it. -/
theorem recordLength_eq {n : Nat} (small : n < 2 ^ 16) :
    (UInt8.ofNat (n >>> 8)).toNat <<< 8 ||| (UInt8.ofNat n).toNat = n := by
  rw [UInt8.toNat_ofNat', UInt8.toNat_ofNat', ← Nat.shiftLeft_add_eq_or_of_lt (Nat.mod_lt _ (by decide)), Nat.shiftLeft_eq,
    Nat.shiftRight_eq_div_pow]
  omega

/-- The peer's records from here on are what the connection still gives. -/
structure Pending (key16 : Block) (iv4 : Vector UInt8 4) (t : TlsCtx) (rs : List PeerRecord) : Prop where
  encrypted : t.encrypted = true
  keyed : t.dec.Keyed key16 iv4
  inside : t.fd.pos ≤ t.fd.content.length
  stream : t.fd.content.drop t.fd.pos = wires key16 iv4 t.dec.seq rs

/-- What `tls_recv_record` does with the next record of the peer. -/
structure TakesRecord (key16 : Block) (iv4 : Vector UInt8 4) (t : TlsCtx) (r : PeerRecord) (rs : List PeerRecord)
    (result : Received × TlsCtx) : Prop where
  appbuf : result.2.appbuf = t.appbuf
  answers : result.2.fd.answers = t.fd.answers
  outcome : (r.explicit = t.dec.seq ∧ result.1.type = r.type.toNat ∧ result.1.buf = r.plain ∧ Pending key16 iv4 result.2 rs
      ∧ result.2.dec.seq = t.dec.seq + 1)
    ∨ (result.1 = .failure ∧ (Reliable t.fd → r.explicit ≠ t.dec.seq))

theorem tlsRecvRecord_spec {t : TlsCtx} {r : PeerRecord} {rs : List PeerRecord} (pending : Pending key16 iv4 t (r :: rs)) :
    TakesRecord key16 iv4 t r rs (tlsRecvRecord t) := by
  have stream := pending.stream
  rw [wires, PeerRecord.wire] at stream
  have header := netRecvExact_spec pending.inside 5
  unfold tlsRecvRecord
  generalize netRecvExact t.fd 5 = hdr at header
  cases header with
  | @failed later content answers short =>
    refine ⟨rfl, answers, .inr ⟨rfl, fun reliable => ?_⟩⟩
    have total := congrArg List.length stream
    have before := short reliable
    simp only [List.length_append, List.length_drop, List.length_cons, List.length_nil] at total
    omega
  | @bytes later inside content pos answers =>
    rw [stream]
    have small := r.conforming
    have rest : later.content.drop later.pos =
        r.fragment key16 iv4 t.dec.seq ++ wires key16 iv4 (t.dec.seq + 1) rs := by
      rw [content, pos, ← List.drop_drop, stream]
      rfl
    have total := congrArg List.length rest
    rw [List.length_drop, List.length_append, r.length_fragment] at total
    simp only [List.cons_append, List.nil_append, List.take_succ_cons, List.take_zero, List.getD_cons_succ,
      List.getD_cons_zero]
    rw [recordLength_eq (by omega), if_neg (by unfold tlsBufSize; omega)]
    have body := netRecvExact_spec (by omega : later.pos ≤ later.content.length) (24 + r.plain.length)
    generalize netRecvExact later (24 + r.plain.length) = body_ at body
    cases body with
    | @failed last content' answers' short =>
      refine ⟨rfl, answers'.trans answers, .inr ⟨rfl, fun reliable => ?_⟩⟩
      have before := short (by unfold Reliable; rw [answers]; exact reliable)
      omega
    | @bytes last inside' content' pos' answers' =>
      have buf : (later.content.drop later.pos).take (24 + r.plain.length) = r.fragment key16 iv4 t.dec.seq := by
        rw [rest, ← r.length_fragment t.dec.seq, List.take_left']
        rfl
      have fits : (r.fragment key16 iv4 t.dec.seq).length ≤ tlsBufSize := by
        rw [r.length_fragment]
        unfold tlsBufSize
        omega
      rw [buf]
      simp only [dif_pos fits]
      rw [if_pos pending.encrypted]
      have after : last.content.drop last.pos = wires key16 iv4 (t.dec.seq + 1) rs := by
        rw [content', pos', ← List.drop_drop, rest, ← r.length_fragment t.dec.seq, List.drop_left']
        rfl
      obtain ⟨dec, keyed, accepted, rejected, context⟩ :=
        @openRecord_spec key16 iv4 { t with fd := last } pending.keyed r fits
      refine ⟨by rw [context], by rw [context]; exact answers'.trans answers, ?_⟩
      by_cases same : r.explicit = t.dec.seq
      · obtain ⟨seq, type, plain⟩ := accepted same
        refine .inl ⟨same, type, plain, ?_, by rw [context]; exact seq⟩
        rw [context]
        refine ⟨pending.encrypted, keyed, ?_, ?_⟩
        · simp only [content', pos']
          exact inside'
        · simp only [seq]
          exact after
      · exact .inr ⟨rejected same, fun _ => same⟩

/-- At the end of the records nothing is received. -/
theorem tlsRecvRecord_end {t : TlsCtx} (pending : Pending key16 iv4 t []) :
    (tlsRecvRecord t).1 = .failure ∧ (tlsRecvRecord t).2.appbuf = t.appbuf
      ∧ (tlsRecvRecord t).2.fd.answers = t.fd.answers
      ∧ (Reliable t.fd → Pending key16 iv4 (tlsRecvRecord t).2 []) := by
  have header := netRecvExact_spec pending.inside 5
  have total := congrArg List.length pending.stream
  rw [List.length_drop, wires, List.length_nil] at total
  unfold tlsRecvRecord
  generalize netRecvExact t.fd 5 = hdr at header
  cases header with
  | @failed later content answers short =>
    refine ⟨rfl, rfl, answers, fun reliable => ⟨pending.encrypted, pending.keyed, ?_, ?_⟩⟩
    · have before := short reliable
      simp only [content]
      omega
    · have before := short reliable
      simp only [content, before.2, List.drop_length, wires]
  | @bytes later inside content pos answers => omega

/-! ## All records -/

/-- The explicit nonces of records are their numbers. -/
def InSequence : UInt64 → List PeerRecord → Prop
  | _, [] => True
  | seq, r :: rs => r.explicit = seq ∧ InSequence (seq + 1) rs

/-- `tls_recv_record` returns every record in order, and opens it with the implicit IV and the explicit nonce that the
record carries. -/
def ReceivesAll (key16 : Block) (iv4 : Vector UInt8 4) : TlsCtx → List PeerRecord → Prop
  | _, [] => True
  | t, r :: rs =>
      (tlsRecvRecord t).1.type = r.type.toNat ∧ (tlsRecvRecord t).1.buf = r.plain
        ∧ nonce t.dec = nonce (peerCtx key16 iv4 r.explicit) ∧ ReceivesAll key16 iv4 (tlsRecvRecord t).2 rs

theorem receivesAll_iff {rs : List PeerRecord} {t : TlsCtx} (pending : Pending key16 iv4 t rs) (reliable : Reliable t.fd) :
    ReceivesAll key16 iv4 t rs ↔ InSequence t.dec.seq rs := by
  induction rs generalizing t with
  | nil => exact Iff.rfl
  | cons r rs ih =>
    have taken := tlsRecvRecord_spec pending
    rcases taken.outcome with ⟨same, type, plain, next, seq⟩ | ⟨failure, other⟩
    · have onward := ih next (by unfold Reliable; rw [taken.answers]; exact reliable)
      have used : nonce t.dec = nonce (peerCtx key16 iv4 r.explicit) :=
        (nonce_eq_iff fun i low => (pending.keyed.fixed i low).trans ((peerCtx_keyed key16 iv4 _).fixed i low).symm).mpr
          same.symm
      rw [seq] at onward
      rw [ReceivesAll, InSequence, onward]
      exact ⟨fun all => ⟨same, all.2.2.2⟩, fun all => ⟨type, plain, used, all.2⟩⟩
    · refine iff_of_false (fun all => ?_) fun all => other reliable all.1
      have type := all.1
      rw [failure] at type
      have positive := Int.natCast_nonneg r.type.toNat
      simp only [Received.failure] at type
      omega

end Fragment

/-- For every peer, whatever explicit nonces it uses, its records are received exactly when these are the numbers of the
records. -/
theorem received_iff (key16 : Block) (iv4 : Vector UInt8 4) (g : GcmCtx) (start : UInt64) {rs : List PeerRecord}
    {fd : OpenFile} (inside : fd.pos ≤ fd.content.length) (stream : fd.content.drop fd.pos = wires key16 iv4 start rs)
    (reliable : Reliable fd) (appbuf : List UInt8) (fits : appbuf.length ≤ tlsBufSize) :
    ReceivesAll key16 iv4 ⟨fd, { gcmInit g key16 iv4 with seq := start }, true, appbuf, fits⟩ rs ↔ InSequence start rs := by
  have keyed := gcmInit_keyed g key16 iv4
  exact receivesAll_iff ⟨rfl, ⟨keyed.key, keyed.h, keyed.fixed⟩, inside, stream⟩ reliable

/-- A record with two letters. -/
def greeting (explicit : UInt64) : PeerRecord := ⟨tlsApplicationData, explicit, [0x68, 0x69], by decide⟩

/-- A connection that gives the bytes of a record five at a time, and its keys. -/
def greeted (explicit : UInt64) : TlsCtx where
  fd := ⟨wires (.replicate 16 1) (.replicate 4 2) 0 [greeting explicit], 0, fun _ => .bytes 5, 0⟩
  dec := { gcmInit (peerCtx (.replicate 16 0) (.replicate 4 0) 0) (.replicate 16 1) (.replicate 4 2) with seq := 0 }
  encrypted := true
  appbuf := []
  fits := Nat.zero_le _

theorem greeted_reliable (explicit : UInt64) : Reliable (greeted explicit).fd := by
  intro n failure
  cases failure

theorem greeted_pending (explicit : UInt64) :
    Pending (.replicate 16 1) (.replicate 4 2) (greeted explicit) [greeting explicit] := by
  have keyed := gcmInit_keyed (peerCtx (.replicate 16 0) (.replicate 4 0) 0) (.replicate 16 1) (.replicate 4 2)
  exact ⟨rfl, ⟨keyed.key, keyed.h, keyed.fixed⟩, Nat.zero_le _, rfl⟩

/-- The first record has the explicit nonce 0. -/
theorem received_iff_greeting :
    ReceivesAll (.replicate 16 1) (.replicate 4 2) (greeted 0) [greeting 0] ↔ InSequence 0 [greeting 0] :=
  received_iff (.replicate 16 1) (.replicate 4 2) (peerCtx (.replicate 16 0) (.replicate 4 0) 0) 0 (Nat.zero_le _) rfl
    (greeted_reliable 0) [] (Nat.zero_le _)

/-- A peer that draws its explicit nonces at random is legal too. -/
theorem random_nonce_rejected : ¬ReceivesAll (.replicate 16 1) (.replicate 4 2) (greeted 0x5eed) [greeting 0x5eed] := by
  rw [receivesAll_iff (greeted_pending 0x5eed) (greeted_reliable 0x5eed)]
  exact fun all => absurd all.1 (by decide)

end Systrix.Tls
