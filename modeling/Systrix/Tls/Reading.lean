import Systrix.Tls.Record

/-!
# Reading application data

The bytes that `tls_read` returns, call after call, and the bytes it keeps are the plaintexts of the records that were
received.
-/

namespace Systrix.Tls

/-- `tls_read` for each of some sizes: the bytes of all calls, and the context behind them. -/
def readAll (t : TlsCtx) : List UInt32 → List UInt8 × TlsCtx
  | [] => ([], t)
  | maxlen :: more =>
      ((tlsRead t maxlen).2.1 ++ (readAll (tlsRead t maxlen).2.2 more).1, (readAll (tlsRead t maxlen).2.2 more).2)

/-- The calls before the first one that fails. -/
def beforeError (t : TlsCtx) : List UInt32 → List UInt32
  | [] => []
  | maxlen :: more => if (tlsRead t maxlen).1 < 0 then [] else maxlen :: beforeError (tlsRead t maxlen).2.2 more

/-- What was returned and what is kept are the bytes that were kept before and the plaintexts of some first records. -/
structure ReadInOrder (kept : List UInt8) (rs : List PeerRecord) (result : List UInt8 × TlsCtx) : Prop where
  exact : ∃ k, result.1 ++ result.2.appbuf = kept ++ (rs.take k).flatMap PeerRecord.plain
  isPrefix : result.1 <+: kept ++ rs.flatMap PeerRecord.plain

theorem readInOrder_of_exact {kept : List UInt8} {rs : List PeerRecord} {result : List UInt8 × TlsCtx} {k : Nat}
    (exact : result.1 ++ result.2.appbuf = kept ++ (rs.take k).flatMap PeerRecord.plain) :
    ReadInOrder kept rs result where
  exact := ⟨k, exact⟩
  isPrefix := by
    have all : rs.flatMap PeerRecord.plain =
        (rs.take k).flatMap PeerRecord.plain ++ (rs.drop k).flatMap PeerRecord.plain := by
      rw [← List.flatMap_append, List.take_append_drop]
    rw [all, ← List.append_assoc, ← exact, List.append_assoc]
    exact List.prefix_append _ _

variable {key16 : Block} {iv4 : Vector UInt8 4}

/-- What one call does with the records that are still to come. -/
inductive ReadStep (key16 : Block) (iv4 : Vector UInt8 4) (t : TlsCtx) (rs : List PeerRecord) (maxlen : UInt32) :
    Int × List UInt8 × TlsCtx → Prop where
  | bytes {bytes : List UInt8} {later : TlsCtx} {k : Nat} (room : bytes.length ≤ maxlen.toNat)
      (joined : bytes ++ later.appbuf = t.appbuf ++ (rs.take k).flatMap PeerRecord.plain)
      (pending : Pending key16 iv4 later (rs.drop k)) (answers : later.fd.answers = t.fd.answers)
      (sequence : InSequence t.dec.seq rs → InSequence later.dec.seq (rs.drop k)) :
      ReadStep key16 iv4 t rs maxlen (bytes.length, bytes, later)
  | failed {later : TlsCtx} (empty : t.appbuf = []) (still : later.appbuf = [])
      (answers : later.fd.answers = t.fd.answers)
      (ended : Reliable t.fd → InSequence t.dec.seq rs → rs = [] ∧ Pending key16 iv4 later []) :
      ReadStep key16 iv4 t rs maxlen (-1, [], later)

/-- A context keeps what is pending when only its buffer changes. -/
theorem Pending.rebuffered {t : TlsCtx} {rs : List PeerRecord} (pending : Pending key16 iv4 t rs) (appbuf : List UInt8)
    (fits : appbuf.length ≤ tlsBufSize) : Pending key16 iv4 { t with appbuf := appbuf, fits := fits } rs :=
  ⟨pending.encrypted, pending.keyed, pending.inside, pending.stream⟩

theorem emptied_eq {t : TlsCtx} (empty : t.appbuf = []) : { t with appbuf := [], fits := Nat.zero_le _ } = t := by
  obtain ⟨fd, dec, encrypted, appbuf, fits⟩ := t
  subst empty
  rfl

/-- Of a record that is received, the part with room is returned and the rest is kept. -/
theorem tlsRead_received {t : TlsCtx} (empty : t.appbuf = []) (maxlen : UInt32)
    (type : (tlsRecvRecord t).1.type = tlsApplicationData.toNat) (appbuf : (tlsRecvRecord t).2.appbuf = []) :
    ∃ (kept : List UInt8) (fits : kept.length ≤ tlsBufSize),
      tlsRead t maxlen = ((((tlsRecvRecord t).1.buf.take maxlen.toNat).length : Int),
        (tlsRecvRecord t).1.buf.take maxlen.toNat, { (tlsRecvRecord t).2 with appbuf := kept, fits := fits })
      ∧ (tlsRecvRecord t).1.buf.take maxlen.toNat ++ kept = (tlsRecvRecord t).1.buf := by
  have closed : ¬0 < t.appbuf.length := by
    rw [empty]
    decide
  have small := (tlsRecvRecord t).1.fits
  unfold tlsRead
  rw [if_neg closed]
  simp only [if_pos type]
  by_cases short : (tlsRecvRecord t).1.buf.length ≤ maxlen.toNat
  · have all : min (tlsRecvRecord t).1.buf.length maxlen.toNat = (tlsRecvRecord t).1.buf.length := Nat.min_eq_left short
    refine ⟨[], Nat.zero_le _, ?_, by rw [List.take_of_length_le short, List.append_nil]⟩
    simp only [all, List.take_length, List.take_of_length_le short, if_neg (Nat.lt_irrefl _), emptied_eq appbuf]
  · have part : min (tlsRecvRecord t).1.buf.length maxlen.toNat = maxlen.toNat := Nat.min_eq_right (by omega)
    refine ⟨(tlsRecvRecord t).1.buf.drop maxlen.toNat, by rw [List.length_drop]; omega, ?_, List.take_append_drop _ _⟩
    simp only [part, if_pos (Nat.not_le.mp short), List.length_take_of_le (Nat.le_of_not_le short)]

theorem tlsRead_spec {t : TlsCtx} {rs : List PeerRecord} (pending : Pending key16 iv4 t rs)
    (application : ∀ r ∈ rs, r.type = tlsApplicationData) (maxlen : UInt32) :
    ReadStep key16 iv4 t rs maxlen (tlsRead t maxlen) := by
  by_cases some_ : 0 < t.appbuf.length
  · have count : ((t.appbuf.take (min t.appbuf.length maxlen.toNat)).length : Int) =
        (min t.appbuf.length maxlen.toNat : Nat) := by
      rw [List.length_take, Nat.min_eq_left (Nat.min_le_left _ _)]
    unfold tlsRead
    simp only [if_pos some_]
    rw [← count]
    refine .bytes (k := 0) ?_ ?_ (pending.rebuffered _ _) rfl id
    · rw [List.length_take]
      omega
    · simp only [List.take_append_drop, List.take_zero, List.flatMap_nil, List.append_nil]
  · have empty : t.appbuf = [] := List.eq_nil_of_length_eq_zero (by omega)
    have failing : (tlsRecvRecord t).1 = .failure → tlsRead t maxlen = (-1, [], (tlsRecvRecord t).2) := by
      intro failure
      have type : (tlsRecvRecord t).1.type = -1 := congrArg Received.type failure
      unfold tlsRead
      simp only [if_neg some_, type, if_neg (by decide : ¬(-1 : Int) = tlsApplicationData.toNat),
        if_neg (by decide : ¬(-1 : Int) = tlsAlert.toNat)]
    cases rs with
    | nil =>
      obtain ⟨failure, appbuf, answers, next⟩ := tlsRecvRecord_end pending
      rw [failing failure]
      exact .failed empty (appbuf.trans empty) answers fun reliable _ => ⟨rfl, next reliable⟩
    | cons r rs =>
      have taken := tlsRecvRecord_spec pending
      rcases taken.outcome with ⟨same, type, plain, next, seq⟩ | ⟨failure, other⟩
      · rw [application r List.mem_cons_self] at type
        obtain ⟨kept, fits, result, whole⟩ := tlsRead_received empty maxlen type (taken.appbuf.trans empty)
        rw [result]
        refine .bytes (k := 1) (List.length_take_le _ _) ?_ (next.rebuffered kept fits) taken.answers fun all => ?_
        · rw [plain] at whole
          simp only [plain, whole, empty, List.take_succ_cons, List.take_zero, List.flatMap_cons, List.flatMap_nil,
            List.append_nil, List.nil_append]
        · simp only [seq]
          exact all.2
      · rw [failing failure]
        exact .failed empty (taken.appbuf.trans empty) taken.answers fun reliable all => absurd all.1 (other reliable)

/-- What was joined over a call and over the calls behind it. -/
theorem joined_trans {bytes more kept last first : List UInt8} {rs : List PeerRecord} {k k' : Nat}
    (joined : bytes ++ kept = first ++ (rs.take k).flatMap PeerRecord.plain)
    (rest : more ++ last = kept ++ ((rs.drop k).take k').flatMap PeerRecord.plain) :
    bytes ++ more ++ last = first ++ (rs.take (k + k')).flatMap PeerRecord.plain := by
  rw [List.append_assoc, rest, ← List.append_assoc, joined, List.append_assoc, ← List.flatMap_append, ← List.take_add]

theorem readAll_beforeError {t : TlsCtx} {rs : List PeerRecord} (pending : Pending key16 iv4 t rs)
    (application : ∀ r ∈ rs, r.type = tlsApplicationData) (maxlens : List UInt32) :
    ∃ k, (readAll t (beforeError t maxlens)).1 ++ (readAll t (beforeError t maxlens)).2.appbuf
      = t.appbuf ++ (rs.take k).flatMap PeerRecord.plain := by
  induction maxlens generalizing t rs with
  | nil => exact ⟨0, by simp only [beforeError, readAll, List.nil_append, List.take_zero, List.flatMap_nil, List.append_nil]⟩
  | cons maxlen more ih =>
    have step := tlsRead_spec pending application maxlen
    generalize read : tlsRead t maxlen = result at step
    cases step with
    | @bytes bytes later k room joined pending' answers sequence =>
      obtain ⟨k', rest⟩ := ih pending' fun r member => application r (List.mem_of_mem_drop member)
      refine ⟨k + k', ?_⟩
      rw [beforeError, read, if_neg (Int.not_lt.mpr (Int.natCast_nonneg _)), readAll, read]
      exact joined_trans joined rest
    | @failed later empty still answers ended =>
      refine ⟨0, ?_⟩
      rw [beforeError, read, if_pos (show (-1 : Int) < 0 by decide), readAll, List.nil_append, List.take_zero, List.flatMap_nil,
        List.append_nil]

/-- While the connection works and the explicit nonces are the numbers of the records, the records are read one after the
other whatever the calls are. -/
theorem readAll_reliable {t : TlsCtx} {rs : List PeerRecord} (pending : Pending key16 iv4 t rs)
    (application : ∀ r ∈ rs, r.type = tlsApplicationData) (reliable : Reliable t.fd) (sequence : InSequence t.dec.seq rs)
    (maxlens : List UInt32) :
    ∃ k, (readAll t maxlens).1 ++ (readAll t maxlens).2.appbuf = t.appbuf ++ (rs.take k).flatMap PeerRecord.plain
      ∧ Pending key16 iv4 (readAll t maxlens).2 (rs.drop k) ∧ Reliable (readAll t maxlens).2.fd
      ∧ InSequence (readAll t maxlens).2.dec.seq (rs.drop k) := by
  induction maxlens generalizing t rs with
  | nil =>
    exact ⟨0, by simp only [readAll, List.nil_append, List.take_zero, List.flatMap_nil, List.append_nil], pending, reliable,
      sequence⟩
  | cons maxlen more ih =>
    have step := tlsRead_spec pending application maxlen
    generalize read : tlsRead t maxlen = result at step
    cases step with
    | @bytes bytes later k room joined pending' answers sequence' =>
      obtain ⟨k', rest, last⟩ := ih pending' (fun r member => application r (List.mem_of_mem_drop member))
        (by unfold Reliable; rw [answers]; exact reliable) (sequence' sequence)
      rw [List.drop_drop] at last
      refine ⟨k + k', ?_⟩
      rw [readAll, read]
      exact ⟨joined_trans joined rest, last⟩
    | @failed later empty still answers ended =>
      obtain ⟨rfl, pending'⟩ := ended reliable sequence
      obtain ⟨k, rest, last⟩ := ih pending' application (by unfold Reliable; rw [answers]; exact reliable) trivial
      refine ⟨k, ?_⟩
      rw [readAll, read, List.nil_append, empty, ← still]
      exact ⟨rest, last⟩

/-- A call counts the bytes it returns, and has room for them; a call that fails returns none. -/
theorem tlsRead_count (t : TlsCtx) (maxlen : UInt32) :
    (tlsRead t maxlen).1 = -1 ∧ (tlsRead t maxlen).2.1 = []
      ∨ (tlsRead t maxlen).1 = ((tlsRead t maxlen).2.1.length : Int) ∧ (tlsRead t maxlen).2.1.length ≤ maxlen.toNat := by
  have counted : ∀ buf : List UInt8, ((min buf.length maxlen.toNat : Nat) : Int) =
      ((buf.take (min buf.length maxlen.toNat)).length : Int)
        ∧ (buf.take (min buf.length maxlen.toNat)).length ≤ maxlen.toNat := by
    intro buf
    rw [List.length_take]
    omega
  unfold tlsRead
  split
  · exact .inr (counted _)
  · simp only
    split
    · exact .inr (counted _)
    · split
      · exact .inr ⟨rfl, Nat.zero_le _⟩
      · exact .inl ⟨rfl, rfl⟩

/-- For every sequence of records of application data, with any explicit nonces and over any connection, and for every
sequence of calls: up to the first error they return the plaintexts in order.  On a connection that works, and with the
numbers of the records as explicit nonces, that holds for all calls, and an error only comes when everything was read. -/
theorem tlsRead_in_order {t : TlsCtx} {rs : List PeerRecord} (pending : Pending key16 iv4 t rs)
    (application : ∀ r ∈ rs, r.type = tlsApplicationData) (maxlens : List UInt32) :
    ReadInOrder t.appbuf rs (readAll t (beforeError t maxlens))
      ∧ (∀ later maxlen, (tlsRead later maxlen).1 = -1 ∧ (tlsRead later maxlen).2.1 = []
        ∨ (tlsRead later maxlen).1 = ((tlsRead later maxlen).2.1.length : Int)
          ∧ (tlsRead later maxlen).2.1.length ≤ maxlen.toNat)
      ∧ (Reliable t.fd → InSequence t.dec.seq rs → ReadInOrder t.appbuf rs (readAll t maxlens)
        ∧ ∀ maxlen, (tlsRead (readAll t maxlens).2 maxlen).1 < 0 →
          (readAll t maxlens).1 = t.appbuf ++ rs.flatMap PeerRecord.plain) := by
  refine ⟨?_, tlsRead_count, fun reliable sequence => ?_⟩
  · obtain ⟨k, exact⟩ := readAll_beforeError pending application maxlens
    exact readInOrder_of_exact exact
  · obtain ⟨k, exact, last, working, next⟩ := readAll_reliable pending application reliable sequence maxlens
    refine ⟨readInOrder_of_exact exact, fun maxlen failed => ?_⟩
    have step := tlsRead_spec last (fun r member => application r (List.mem_of_mem_drop member)) maxlen
    generalize tlsRead (readAll t maxlens).2 maxlen = result at step failed
    cases step with
    | bytes room joined pending' answers sequence' => exact absurd failed (Int.not_lt.mpr (Int.natCast_nonneg _))
    | failed empty still answers ended =>
      have done := (ended working next).1
      rw [empty, List.append_nil] at exact
      rw [exact, List.take_of_length_le (List.drop_eq_nil_iff.mp done)]

/-- One byte and then up to five of a record with two letters. -/
theorem tlsRead_in_order_greeting : ReadInOrder [] [greeting 0] (readAll (greeted 0) [1, 5]) := by
  have all := tlsRead_in_order (greeted_pending 0) (fun r member => by rw [List.mem_singleton.mp member]; rfl) [1, 5]
  exact (all.2.2 (greeted_reliable 0) ⟨rfl, trivial⟩).1

end Systrix.Tls
