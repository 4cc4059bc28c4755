import Systrix.User.WriteStream

/-!
# What buffered writing reports

As long as every write takes all bytes, the file and the buffer behind its position are the file that the calls report.
-/

namespace Systrix.User

open Systrix.Libc (wrapInt)

/-! ## Writes -/

/-- What a write does. -/
inductive WrittenFile.Writes (file : WrittenFile) (bytes : List UInt8) : Int × WrittenFile → Prop where
  | bytes {n : Nat} {later : WrittenFile} (short : n ≤ bytes.length)
      (content : later.content = overwrite file.content file.pos (bytes.take n)) (pos : later.pos = file.pos + n)
      (refused : later.refused = file.refused + (bytes.length - n)) : Writes file bytes (n, later)
  | failed {later : WrittenFile} (content : later.content = file.content) (pos : later.pos = file.pos)
      (refused : later.refused = file.refused + bytes.length) : Writes file bytes (-1, later)

theorem WrittenFile.write_spec (file : WrittenFile) (bytes : List UInt8) : file.Writes bytes (file.write bytes) := by
  unfold write
  cases file.answers file.writes with
  | failure => exact .failed rfl rfl rfl
  | bytes most => exact .bytes (by unfold taken; omega) rfl rfl rfl

namespace WriteStream

variable {s : WriteStream} {g : ReportedFile}

/-- What holds of the fields of a stream between calls. -/
structure Sound (s : WriteStream) : Prop where
  room : s.wbuf.length < bufsiz
  direct : s.strm = true → s.wbuf = []
  shut : s.writable = false → s.wbuf = []
  closed : s.fd < 0 → s.writable = false
  unread : s.rlen = s.rpos

theorem opened_sound (file : WrittenFile) {fd : Int} (real : 0 ≤ fd) (strm : Bool) : (opened file fd strm).Sound where
  room := (by decide : 0 < bufsiz)
  direct := fun _ => rfl
  shut := fun wrong => absurd (show true = false from wrong) (by decide)
  closed := fun negative => absurd real (Int.not_le.mpr negative)
  unread := rfl

end WriteStream

theorem WriteStream.opened_stored (file : WrittenFile) (fd : Int) (strm : Bool) :
    Stored (WriteStream.opened file fd strm) ⟨file.content, file.pos⟩ where
  bytes := overwrite_nil _ _
  place := rfl

/-- A stream whose buffer is empty holds what its file holds. -/
theorem stored_of_empty {s : WriteStream} (empty : s.wbuf = []) : Stored s ⟨s.file.content, s.file.pos⟩ where
  bytes := by rw [empty, overwrite_nil]
  place := by rw [empty]; rfl

theorem Stored.of_empty {s : WriteStream} {g : ReportedFile} (stored : Stored s g) (empty : s.wbuf = []) :
    g = ⟨s.file.content, s.file.pos⟩ := by
  have bytes := stored.bytes
  have place := stored.place
  rw [empty] at bytes place
  rw [overwrite_nil] at bytes
  cases g
  simp only at bytes place
  rw [← bytes, ← place]
  rfl

namespace WriteStream

variable {s : WriteStream} {g : ReportedFile}

/-- A stream keeps what holds of its fields when its file and its error flag change. -/
theorem Sound.refile (sound : s.Sound) (file : WrittenFile) (err : Bool) : Sound { s with file := file, err := err } :=
  ⟨sound.room, sound.direct, sound.shut, sound.closed, sound.unread⟩

/-- An emptied buffer is in order. -/
theorem Sound.emptied (sound : s.Sound) (file : WrittenFile) (err : Bool) :
    Sound { s with file := file, err := err, wbuf := [] } :=
  ⟨(by decide : 0 < bufsiz), fun _ => rfl, fun _ => rfl, sound.closed, sound.unread⟩

/-! ## `fflush` -/

/-- A flush empties the buffer.  Unless bytes were refused, it is in the file; and an error tells that nothing of it is. -/
theorem fflush_spec (empties : s.writable = false → s.wbuf = []) :
    ∃ r file err, s.fflush = (r, { s with file := file, err := err, wbuf := [] })
      ∧ s.file.refused ≤ file.refused ∧ file.pos + file.refused = s.file.pos + s.wbuf.length + s.file.refused
      ∧ (file.refused = s.file.refused → ∀ g, Stored s g → g = ⟨file.content, file.pos⟩)
      ∧ (file.refused = s.file.refused → 0 ≤ r)
      ∧ (file.refused = s.file.refused ∨ r < 0 ∨ 0 ≤ (s.file.write s.wbuf).1) := by
  unfold fflush
  have whole : ∀ {file : WrittenFile} {err : Bool}, s.wbuf = [] → file = s.file → err = s.err →
      s = { s with file := file, err := err, wbuf := [] } := by
    rintro _ _ empty rfl rfl
    rw [← empty]
  by_cases shut : s.writable = false
  · rw [if_pos shut]
    exact ⟨0, s.file, s.err, by rw [← whole (empties shut) rfl rfl], Nat.le_refl _, by rw [empties shut]; rfl,
      fun _ g stored => stored.of_empty (empties shut), fun _ => Int.le_refl 0, .inl rfl⟩
  · rw [if_neg shut]
    by_cases empty : s.wbuf.length = 0
    · have none := List.eq_nil_of_length_eq_zero empty
      rw [if_pos empty]
      exact ⟨0, s.file, s.err, by rw [← whole none rfl rfl], Nat.le_refl _, by rw [none]; rfl,
        fun _ g stored => stored.of_empty none,
        fun _ => Int.le_refl 0, .inl rfl⟩
    · rw [if_neg empty]
      cases result : s.file.write s.wbuf with
      | mk n file =>
        have writes := s.file.write_spec s.wbuf
        rw [result] at writes
        cases writes with
        | @bytes n later short content pos refused =>
          simp only
          rw [if_neg (by omega)]
          refine ⟨0, file, s.err, rfl, by omega, by omega, ?_, fun _ => Int.le_refl 0, .inr (.inr (Int.natCast_nonneg n))⟩
          intro same g stored
          have all : n = s.wbuf.length := by omega
          have bytes := stored.bytes
          have place := stored.place
          rw [all, List.take_length] at content
          rw [all] at pos
          cases g
          simp only at bytes place
          rw [content, pos, bytes, place]
        | @failed later content pos refused =>
          simp only
          rw [if_pos (by decide)]
          exact ⟨-1, file, true, rfl, by omega, by omega, fun same => by omega, fun same => by omega, .inr (.inl (by decide))⟩

/-! ## `fwrite` -/

/-- The report after some more bytes. -/
def more (g : ReportedFile) (bytes : List UInt8) : ReportedFile :=
  ⟨overwrite g.content g.pos bytes, g.pos + bytes.length⟩

theorem stored_more (stored : Stored s g) (bytes : List UInt8) :
    Stored { s with wbuf := s.wbuf ++ bytes } (more g bytes) where
  bytes := by
    rw [more, ← stored.bytes, ← stored.place, overwrite_overwrite s.file.inside]
  place := by
    rw [more, ← stored.place]
    simp only [List.length_append]
    omega

theorem more_more {g : ReportedFile} (inside : g.pos ≤ g.content.length) (a b : List UInt8) :
    more (more g a) b = more g (a ++ b) := by
  rw [more, more, more, overwrite_overwrite inside, List.length_append, Nat.add_assoc]

end WriteStream

theorem Stored.inside {s : WriteStream} {g : ReportedFile} (stored : Stored s g) : g.pos ≤ g.content.length := by
  rw [← stored.bytes, ← stored.place, length_overwrite s.file.inside]
  exact Nat.le_max_right _ _

/-- A turn of the loop of `fwrite` that does not end it: how much it takes, and what the stream is before its flush. -/
theorem chunk_eq {total written wpos : Nat} (small : total < 2 ^ 31) (less : written < total) (room : wpos < bufsiz) :
    ∃ k : Nat, 0 < k ∧ k ≤ total - written ∧ wpos + k ≤ bufsiz
      ∧ (if ((bufsiz : Nat) : Int) - wpos < wrapInt (total - written : Nat) then ((bufsiz : Nat) : Int) - wpos
          else wrapInt (total - written : Nat)) = k
      ∧ (((written : Int) + (k : Int)) % 2 ^ 64).toNat = written + k := by
  have exact : wrapInt (total - written : Nat) = ((total - written : Nat) : Int) := by
    unfold wrapInt
    apply Int.bmod_eq_of_le <;> omega
  rw [exact]
  refine ⟨min (bufsiz - wpos) (total - written), by omega, by omega, by omega, ?_, by omega⟩
  split <;> omega

namespace WriteStream

variable {s : WriteStream} {g : ReportedFile}

/-- The bytes from a position on are the next ones and the bytes behind these. -/
theorem drop_take_split {src : List UInt8} {total written k : Nat} (rest : k ≤ total - written) :
    (src.take total).drop written = (src.drop written).take k ++ (src.take total).drop (written + k) := by
  rw [← List.take_append_drop k ((src.take total).drop written), List.drop_drop, List.drop_take, List.take_take,
    Nat.min_eq_left rest]

theorem piece_length {src : List UInt8} {total written k : Nat} (long : total ≤ src.length) (rest : k ≤ total - written) :
    ((src.drop written).take k).length = k := by
  rw [List.length_take, List.length_drop]
  omega

/-- The loop of `fwrite` ends, and stores the rest of the bytes unless some were refused. -/
theorem fwriteLoop_spec {src : List UInt8} {total : Nat} (small : total < 2 ^ 31) (long : total ≤ src.length)
    (fuel : Nat) {written : Nat} (before : written ≤ total) (sound : s.Sound) (buffered : s.strm = false)
    (ready : s.writable = true) :
    (total - written < fuel → ∃ result, fwriteLoop src total fuel written s = some result)
      ∧ ∀ w after, fwriteLoop src total fuel written s = some (w, after) → after.Sound
        ∧ s.file.refused ≤ after.file.refused
        ∧ after.file.pos + after.wbuf.length + after.file.refused
          ≤ s.file.pos + s.wbuf.length + s.file.refused + (total - written)
        ∧ (after.file.refused = s.file.refused → w = total
          ∧ ∀ g, Stored s g → Stored after (more g ((src.take total).drop written))) := by
  induction fuel generalizing s written with
  | zero => exact ⟨fun enough => absurd enough (Nat.not_lt_zero _), nofun⟩
  | succ fuel ih =>
    rw [fwriteLoop]
    by_cases less : written < total
    · obtain ⟨k, positive, rest, fits, chunk, sum⟩ := chunk_eq small less sound.room
      have piece := piece_length long rest
      have writable : ∀ {wbuf : List UInt8}, ({ s with wbuf := wbuf } : WriteStream).writable = false → wbuf = [] :=
        fun shut => absurd (ready.symm.trans shut) (by decide)
      rw [if_pos less]
      simp only [chunk, sum, Int.toNat_natCast]
      clear chunk sum
      have next : written + k ≤ total := by omega
      by_cases full : (s.wbuf ++ (src.drop written).take k).length = bufsiz
      · obtain ⟨r, file, err, flushed, grown, moved, held, success, -⟩ :=
          fflush_spec (s := { s with wbuf := s.wbuf ++ (src.drop written).take k }) writable
        have grown : s.file.refused ≤ file.refused := grown
        have moved : file.pos + file.refused = s.file.pos + (s.wbuf.length + k) + s.file.refused := by
          rwa [List.length_append, piece] at moved
        have emptied := sound.emptied file err
        rw [if_pos full, flushed]
        by_cases failed : r < 0
        · simp only [if_pos failed]
          refine ⟨fun _ => ⟨_, rfl⟩, ?_⟩
          rintro w after ⟨⟩
          refine ⟨emptied, grown, by simp only [List.length_nil]; omega, fun same => ?_⟩
          exact absurd (success same) (Int.not_le.mpr failed)
        · simp only [if_neg failed]
          obtain ⟨returns, stores⟩ := ih next emptied buffered ready
          refine ⟨fun enough => returns (by omega), fun w after run => ?_⟩
          obtain ⟨later, grows, spent, last⟩ := stores w after run
          simp only [List.length_nil] at spent
          have grows : file.refused ≤ after.file.refused := grows
          refine ⟨later, Nat.le_trans grown grows, by omega, fun same => ?_⟩
          have first : file.refused = s.file.refused := by omega
          obtain ⟨all, last⟩ := last (same.trans first.symm)
          refine ⟨all, fun g stored => ?_⟩
          have here := held first _ (stored_more stored ((src.drop written).take k))
          have empty : Stored ({ s with file := file, err := err, wbuf := [] } : WriteStream) ⟨file.content, file.pos⟩ :=
            stored_of_empty rfl
          rw [← here] at empty
          have there := last _ empty
          rw [more_more stored.inside] at there
          rwa [drop_take_split rest]
      · have filled : ({ s with wbuf := s.wbuf ++ (src.drop written).take k } : WriteStream).Sound := by
          refine ⟨?_, fun strm => absurd (buffered.symm.trans strm) (by decide), writable, sound.closed, sound.unread⟩
          simp only [List.length_append, piece] at full ⊢
          omega
        rw [if_neg full]
        obtain ⟨returns, stores⟩ := ih next filled buffered ready
        refine ⟨fun enough => returns (by omega), fun w after run => ?_⟩
        obtain ⟨later, grows, spent, last⟩ := stores w after run
        simp only [List.length_append, piece] at spent
        refine ⟨later, grows, by omega, fun same => ?_⟩
        obtain ⟨all, last⟩ := last same
        refine ⟨all, fun g stored => ?_⟩
        have there := last _ (stored_more stored ((src.drop written).take k))
        rw [more_more stored.inside] at there
        rwa [drop_take_split rest]
    · rw [if_neg less]
      refine ⟨fun _ => ⟨_, rfl⟩, ?_⟩
      rintro w after ⟨⟩
      refine ⟨sound, Nat.le_refl _, by omega, fun _ => ⟨by omega, fun g stored => ?_⟩⟩
      have nothing : (src.take total).drop written = [] := by
        apply List.drop_eq_nil_of_le
        rw [List.length_take]
        omega
      rw [nothing]
      simpa [more] using stored

@[simp] theorem more_nil (g : ReportedFile) : more g [] = g := by
  simp [more]

/-- Without a buffer, what a write takes is behind what was stored. -/
theorem stored_written {file : WrittenFile} {err : Bool} {bytes : List UInt8} (stored : Stored s g) (empty : s.wbuf = [])
    (content : file.content = overwrite s.file.content s.file.pos bytes) (pos : file.pos = s.file.pos + bytes.length) :
    Stored { s with file := file, err := err } (more g bytes) := by
  rw [stored.of_empty empty, more]
  constructor
  · simp only [empty, overwrite_nil, content]
  · simp only [empty, pos, List.length_nil, Nat.add_zero]

theorem count_eq (n size : Nat) : (if 0 < size then n / size else 0) = n / size := by
  cases size with
  | zero => simp
  | succ size => rw [if_pos (Nat.succ_pos size)]

/-- On a stream without a buffer, `fwrite` counts the whole elements of what its write takes. -/
theorem fwrite_direct {src : List UInt8} {size nmemb fuel n : Nat} {after : WriteStream} (sound : s.Sound)
    (direct : s.strm = true) (ready : s.writable = true) (long : size * nmemb % 2 ^ 64 ≤ src.length)
    (run : s.fwrite fuel src size nmemb = some (n, after)) :
    after.Sound ∧ n = (s.file.write (src.take (size * nmemb % 2 ^ 64))).1.toNat / size
      ∧ (s.file.refused ≤ after.file.refused ∧ after.wbuf = s.wbuf
        ∧ after.file.pos + after.file.refused = s.file.pos + s.file.refused + size * nmemb % 2 ^ 64)
      ∧ ∀ g, Stored s g →
        Stored after (more g (src.take (s.file.write (src.take (size * nmemb % 2 ^ 64))).1.toNat)) := by
  unfold fwrite at run
  rw [if_neg (by rw [ready]; decide)] at run
  generalize size * nmemb % 2 ^ 64 = total at run long ⊢
  simp only [if_pos direct, count_eq] at run
  have writes := s.file.write_spec (src.take total)
  have length : (src.take total).length = total := List.length_take_of_le long
  cases result : s.file.write (src.take total) with
  | mk r file =>
    rw [result] at writes run
    cases writes with
    | @bytes m later short content pos refused =>
      rw [length] at short
      rw [List.take_take, Nat.min_eq_left short] at content
      simp only [Int.toNat_natCast]
      by_cases none : total = 0
      · obtain rfl : m = 0 := by omega
        rw [if_pos none] at run
        cases run
        exact ⟨sound, (Nat.zero_div size).symm, ⟨Nat.le_refl _, rfl, by omega⟩, fun g stored => by simpa using stored⟩
      · simp only [if_neg none, if_neg (Int.not_lt.mpr (Int.natCast_nonneg m)), Int.toNat_natCast] at run
        cases run
        refine ⟨sound.refile _ _, rfl, ⟨by simp only; omega, rfl, by simp only; omega⟩, fun g stored => ?_⟩
        apply stored_written stored (sound.direct direct) content
        rw [pos, List.length_take_of_le (Nat.le_trans short long)]
    | @failed later content pos refused =>
      have nothing : (-1 : Int).toNat = 0 := rfl
      simp only [nothing, Nat.zero_div, List.take_zero, more_nil]
      by_cases none : total = 0
      · rw [if_pos none] at run
        cases run
        exact ⟨sound, rfl, ⟨Nat.le_refl _, rfl, by omega⟩, fun g stored => stored⟩
      · simp only [if_neg none, if_pos (by decide : (-1 : Int) < 0)] at run
        cases run
        refine ⟨sound.refile _ _, rfl, ⟨by simp only; omega, rfl, by simp only; omega⟩, fun g stored => ?_⟩
        rw [← more_nil g]
        apply stored_written stored (sound.direct direct)
        · rw [overwrite_nil, content]
        · exact pos

/-- On a stream with a buffer, `fwrite` counts and stores all bytes unless some were refused. -/
theorem fwrite_buffered {src : List UInt8} {size nmemb fuel : Nat} (sound : s.Sound) (buffered : s.strm = false)
    (ready : s.writable = true) (small : size * nmemb % 2 ^ 64 < 2 ^ 31) (long : size * nmemb % 2 ^ 64 ≤ src.length) :
    (size * nmemb % 2 ^ 64 < fuel → ∃ result, s.fwrite fuel src size nmemb = some result)
      ∧ ∀ n after, s.fwrite fuel src size nmemb = some (n, after) → after.Sound
        ∧ s.file.refused ≤ after.file.refused
        ∧ after.file.pos + after.wbuf.length + after.file.refused
          ≤ s.file.pos + s.wbuf.length + s.file.refused + size * nmemb % 2 ^ 64
        ∧ (after.file.refused = s.file.refused → n = size * nmemb % 2 ^ 64 / size
          ∧ ∀ g, Stored s g → Stored after (more g (src.take (size * nmemb % 2 ^ 64)))) := by
  unfold fwrite
  rw [if_neg (by rw [ready]; decide)]
  generalize size * nmemb % 2 ^ 64 = total at small long ⊢
  simp only [if_neg (by rw [buffered]; decide : ¬ s.strm = true), count_eq]
  by_cases none : total = 0
  · subst none
    refine ⟨fun _ => ⟨_, rfl⟩, ?_⟩
    rintro n after ⟨⟩
    exact ⟨sound, Nat.le_refl _, Nat.le_refl _,
      fun _ => ⟨(Nat.zero_div size).symm, fun g stored => by simpa using stored⟩⟩
  · rw [if_neg none]
    obtain ⟨returns, stores⟩ := fwriteLoop_spec small long fuel (Nat.zero_le total) sound buffered ready
    constructor
    · intro enough
      obtain ⟨result, run⟩ := returns (by omega)
      exact ⟨_, by rw [run]; rfl⟩
    · intro n after run
      obtain ⟨⟨w, last⟩, loop, result⟩ := Option.bind_eq_some_iff.mp run
      cases result
      obtain ⟨later, grows, spent, all⟩ := stores w last loop
      refine ⟨later, grows, spent, fun same => ?_⟩
      obtain ⟨rfl, stored⟩ := all same
      exact ⟨rfl, stored⟩

/-! ## One call -/

theorem fwrite_shut (shut : s.writable = false) (fuel : Nat) (src : List UInt8) (size nmemb : Nat) :
    s.fwrite fuel src size nmemb = some (0, s) := by
  unfold fwrite
  rw [if_pos shut]

theorem fflush_shut (shut : s.writable = false) : s.fflush = (0, s) := by
  unfold fflush
  rw [if_pos shut]

theorem fwrite_step {fuel size nmemb n : Nat} {src : List UInt8} {after : WriteStream} (sound : s.Sound) (stored : Stored s g)
    (clean : WriteCall.Clean fuel s (.fwrite src size nmemb)) (run : s.fwrite fuel src size nmemb = some (n, after)) :
    after.Sound ∧ Stored after (more g (src.take (n * size))) := by
  cases ready : s.writable with
  | false =>
    rw [fwrite_shut ready] at run
    cases run
    rw [Nat.zero_mul, List.take_zero, more_nil]
    exact ⟨sound, stored⟩
  | true =>
    obtain ⟨long, clean⟩ := clean.resolve_left (by rw [ready]; decide)
    cases direct : s.strm with
    | true =>
      rw [if_pos direct] at clean
      obtain ⟨later, rfl, -, stores⟩ := fwrite_direct sound direct ready long run
      have whole : size ∣ (s.file.write (src.take (size * nmemb % 2 ^ 64))).1.toNat := by
        rcases clean with failed | whole
        · rw [Int.toNat_of_nonpos (Int.le_of_lt failed)]
          exact Nat.dvd_zero size
        · exact whole
      rw [Nat.div_mul_cancel whole]
      exact ⟨later, stores g stored⟩
    | false =>
      rw [if_neg (by rw [direct]; decide)] at clean
      obtain ⟨small, whole, all⟩ := clean
      obtain ⟨later, -, -, stores⟩ := (fwrite_buffered sound direct ready small long).2 n after run
      obtain ⟨count, placed⟩ := stores (all (n : Int) after (by simp only [perform, run, Option.map_some]))
      rw [count, Nat.div_mul_cancel whole]
      exact ⟨later, placed g stored⟩

/-- The bytes of a text end in the stream or are refused; and if none is refused, all of them are stored. -/
theorem fwrite_all {fuel n : Nat} {text : List UInt8} {after : WriteStream} (sound : s.Sound) (ready : s.writable = true)
    (small : text.length < 2 ^ 31) (run : s.fwrite fuel text 1 text.length = some (n, after)) :
    s.file.refused ≤ after.file.refused
      ∧ after.file.pos + after.wbuf.length + after.file.refused
        ≤ s.file.pos + s.wbuf.length + s.file.refused + text.length
      ∧ (after.file.refused = s.file.refused → ∀ g, Stored s g → Stored after (more g text)) := by
  have total : 1 * text.length % 2 ^ 64 = text.length := by
    rw [Nat.one_mul, Nat.mod_eq_of_lt (Nat.lt_trans small (by decide))]
  cases direct : s.strm with
  | true =>
    obtain ⟨-, -, ⟨grows, kept, spent⟩, stores⟩ := fwrite_direct sound direct ready (by rw [total]) run
    rw [total, List.take_length] at stores
    rw [total] at spent
    refine ⟨grows, by rw [kept]; omega, fun same g stored => ?_⟩
    have placed := stores g stored
    have before := stored.place
    have later := placed.place
    rw [kept] at later
    have all : text.length ≤ (s.file.write text).1.toNat := by
      simp only [more, List.length_take] at later
      omega
    rwa [List.take_of_length_le all] at placed
  | false =>
    obtain ⟨-, grows, spent, stores⟩ :=
      (fwrite_buffered sound direct ready (by rwa [total]) (by rw [total])).2 n after run
    rw [total] at spent stores
    refine ⟨grows, spent, fun same g stored => ?_⟩
    have placed := (stores same).2 g stored
    rwa [List.take_length] at placed

/-- The bytes of a text are the elements of an `fwrite`. -/
theorem fwrite_text {fuel n : Nat} {text : List UInt8} {after : WriteStream} (sound : s.Sound) (stored : Stored s g)
    (size : text.length < 2 ^ 64)
    (clean : s.writable = false ∨ s.strm = true ∨ text.length < 2 ^ 31 ∧ after.file.refused = s.file.refused)
    (run : s.fwrite fuel text 1 text.length = some (n, after)) :
    after.Sound ∧ n ≤ text.length ∧ Stored after (more g (text.take n))
      ∧ (s.writable = true → n = if s.strm = true then (s.file.write text).1.toNat else text.length) := by
  have total : 1 * text.length % 2 ^ 64 = text.length := by
    rw [Nat.one_mul, Nat.mod_eq_of_lt size]
  cases ready : s.writable with
  | false =>
    rw [fwrite_shut ready] at run
    cases run
    rw [List.take_zero, more_nil]
    exact ⟨sound, Nat.zero_le _, stored, fun wrong => absurd wrong (by decide)⟩
  | true =>
    cases direct : s.strm with
    | true =>
      obtain ⟨later, rfl, -, stores⟩ := fwrite_direct sound direct ready (by rw [total]) run
      rw [total, List.take_length] at stores
      rw [total, List.take_length, Nat.div_one]
      refine ⟨later, ?_, stores g stored, fun _ => (if_pos rfl).symm⟩
      have writes := s.file.write_spec text
      generalize s.file.write text = result at writes
      cases writes with
      | bytes short => exact short
      | failed => exact Nat.zero_le _
    | false =>
      rw [ready, direct] at clean
      obtain ⟨small, same⟩ := (clean.resolve_left (by decide)).resolve_left (by decide)
      obtain ⟨later, -, -, stores⟩ :=
        (fwrite_buffered sound direct ready (by rwa [total]) (by rw [total])).2 n after run
      obtain ⟨count, placed⟩ := stores same
      rw [total, Nat.div_one] at count
      rw [total] at placed
      rw [count]
      exact ⟨later, Nat.le_refl _, placed g stored, fun _ => (if_neg (by decide)).symm⟩

theorem fputc_step {fuel : Nat} {c r : Int} {after : WriteStream} (sound : s.Sound) (stored : Stored s g)
    (clean : WriteCall.Clean fuel s (.fputc c)) (run : s.fputc fuel c = some (r, after)) :
    after.Sound ∧ Stored after (more g (WriteCall.reported (.fputc c) r)) := by
  have performed : s.perform fuel (.fputc c) = some (r, after) := run
  unfold fputc at run
  obtain ⟨⟨n, last⟩, call, result⟩ := Option.bind_eq_some_iff.mp run
  cases result
  simp only [WriteCall.Clean] at clean
  have text : s.writable = false ∨ s.strm = true
      ∨ [UInt8.ofNat (c % 256).toNat].length < 2 ^ 31 ∧ after.file.refused = s.file.refused := by
    rcases clean with shut | clean
    · exact .inl shut
    · split at clean
      case isTrue direct => exact .inr (.inl direct)
      case isFalse => exact .inr (.inr ⟨Nat.one_lt_two_pow (by decide), clean.2 _ _ performed⟩)
  obtain ⟨later, short, placed, taken⟩ := fwrite_text sound stored (Nat.one_lt_two_pow (by decide)) text call
  refine ⟨later, ?_⟩
  rw [List.length_singleton] at short
  by_cases one : n = 1
  · subst one
    have real : c ≠ eofChar := by
      rcases clean with shut | clean
      · rw [fwrite_shut shut] at call
        cases call
      · split at clean
        case isTrue direct =>
          have ready : s.writable = true := by
            cases unlocked : s.writable with
            | true => rfl
            | false =>
              rw [fwrite_shut unlocked] at call
              cases call
          have count := taken ready
          rw [if_pos direct] at count
          rcases clean with real | nothing
          · exact real
          · omega
        case isFalse => exact clean.1
    simpa [WriteCall.reported, real] using placed
  · obtain rfl : n = 0 := by omega
    simpa [WriteCall.reported] using placed

theorem fputs_step {fuel : Nat} {text : Option (List UInt8)} {r : Int} {after : WriteStream} (sound : s.Sound)
    (stored : Stored s g) (clean : WriteCall.Clean fuel s (.fputs text)) (run : s.fputs fuel text = some (r, after)) :
    after.Sound ∧ Stored after (more g (WriteCall.reported (.fputs text) r)) := by
  have performed : s.perform fuel (.fputs text) = some (r, after) := run
  cases text with
  | none =>
    cases run
    simpa [WriteCall.reported] using ⟨sound, stored⟩
  | some text =>
    obtain ⟨⟨n, last⟩, call, result⟩ := Option.bind_eq_some_iff.mp run
    cases result
    have reported : WriteCall.reported (.fputs (some text)) (if n = text.length then 0 else eofChar)
        = if n = text.length then text else [] := by
      by_cases all : n = text.length <;> simp [WriteCall.reported, all, eofChar]
    rw [reported]
    rcases clean with shut | clean
    · rw [fwrite_shut shut] at call
      cases call
      refine ⟨sound, ?_⟩
      split
      case isTrue none => rwa [List.eq_nil_of_length_eq_zero none.symm, more_nil]
      case isFalse => rwa [more_nil]
    · obtain ⟨size, clean⟩ := clean text rfl
      have whole : s.writable = false ∨ s.strm = true ∨ text.length < 2 ^ 31 ∧ after.file.refused = s.file.refused := by
        split at clean
        case isTrue direct => exact .inr (.inl direct)
        case isFalse => exact .inr (.inr ⟨clean.1, clean.2 _ _ performed⟩)
      obtain ⟨later, short, placed, count⟩ := fwrite_text sound stored size whole call
      refine ⟨later, ?_⟩
      split
      case isTrue all => rwa [all, List.take_length] at placed
      case isFalse some =>
        have none : n = 0 := by
          cases ready : s.writable with
          | false =>
            rw [fwrite_shut ready] at call
            cases call
            rfl
          | true =>
            have count := count ready
            split at clean
            case isTrue direct =>
              rw [if_pos direct] at count
              omega
            case isFalse buffered =>
              rw [if_neg buffered] at count
              exact absurd count some
        rwa [none, List.take_zero] at placed

/-- After a flush that no bytes were refused in, the report is the file. -/
theorem fflush_emptied (sound : s.Sound) (stored : Stored s g)
    (same : s.writable = false ∨ s.fflush.2.file.refused = s.file.refused) :
    ∃ r file err, s.fflush = (r, { s with file := file, err := err, wbuf := [] }) ∧ 0 ≤ r
      ∧ g = ⟨file.content, file.pos⟩ := by
  obtain ⟨r, file, err, flushed, -, -, held, success, -⟩ := fflush_spec sound.shut
  have same : file.refused = s.file.refused := by
    rcases same with shut | same
    · rw [fflush_shut shut] at flushed
      exact (congrArg (fun result => result.2.file.refused) flushed).symm
    · rwa [flushed] at same
  exact ⟨r, file, err, flushed, success same, held same g stored⟩

theorem fflush_step {fuel : Nat} (sound : s.Sound) (stored : Stored s g) (clean : WriteCall.Clean fuel s .fflush) :
    s.fflush.2.Sound ∧ Stored s.fflush.2 (g.next s.fd .fflush s.fflush.1 s.fflush.2.file) := by
  obtain ⟨r, file, err, flushed, -, -, held, success, told⟩ := fflush_spec sound.shut
  have all : s.writable = false ∨ (s.file.write s.wbuf).1 < 0 ∨ file.refused = s.file.refused := by
    refine clean.imp_right (Or.imp_right fun all => ?_)
    exact all r { s with file := file, err := err, wbuf := [] } (by simp only [perform, flushed])
  rw [flushed]
  refine ⟨sound.emptied file err, ?_⟩
  simp only [ReportedFile.next]
  by_cases failed : r < 0
  · rw [if_pos failed]
    exact stored_of_empty rfl
  · rw [if_neg failed]
    have same : file.refused = s.file.refused := by
      rcases all with shut | nothing | same
      · rw [fflush_shut shut] at flushed
        exact (congrArg (fun result => result.2.file.refused) flushed).symm
      · rcases told with same | failed' | some
        · exact same
        · exact absurd failed' failed
        · exact absurd some (Int.not_le.mpr nothing)
      · exact same
    rw [held same g stored]
    exact stored_of_empty rfl

theorem lseek_fst (file : WrittenFile) (fd offset whence : Int) :
    (file.lseek fd offset whence).1 = sysLseek fd file.content.length file.pos offset whence := by
  simp only [WrittenFile.lseek]
  split <;> rfl

theorem lseek_refused (file : WrittenFile) (fd offset whence : Int) :
    (file.lseek fd offset whence).2.refused = file.refused := by
  simp only [WrittenFile.lseek]
  split <;> rfl

theorem fseek_step {fuel : Nat} {offset whence : Int} (sound : s.Sound) (stored : Stored s g)
    (clean : WriteCall.Clean fuel s (.fseek offset whence)) :
    (s.fseek offset whence).2.Sound
      ∧ Stored (s.fseek offset whence).2
        (g.next s.fd (.fseek offset whence) (s.fseek offset whence).1 (s.fseek offset whence).2.file) := by
  have all : s.writable = false ∨ (s.fseek offset whence).2.file.refused = s.file.refused :=
    clean.imp_right fun all => all _ _ rfl
  unfold fseek at all ⊢
  by_cases shut : s.fd < 0
  · rw [if_pos shut]
    exact ⟨sound, stored⟩
  · simp only [if_neg shut] at all ⊢
    rw [lseek_refused] at all
    obtain ⟨n, file, err, flushed, -, rfl⟩ := fflush_emptied sound stored all
    rw [flushed]
    refine ⟨⟨(by decide : 0 < bufsiz), fun _ => rfl, fun _ => rfl, sound.closed, rfl⟩, ?_⟩
    unfold WrittenFile.lseek
    by_cases failed : sysLseek s.fd file.content.length file.pos offset whence < 0
    · simp only [if_pos failed]
      exact stored_of_empty rfl
    · simp only [if_neg failed]
      exact stored_of_empty rfl

theorem fclose_step {fuel : Nat} (sound : s.Sound) (stored : Stored s g) (clean : WriteCall.Clean fuel s .fclose) :
    s.fclose.2.Sound ∧ Stored s.fclose.2 g := by
  have all : s.writable = false ∨ s.fclose.2.file.refused = s.file.refused := clean.imp_right fun all => all _ _ rfl
  unfold fclose at all ⊢
  by_cases shut : s.fd < 0
  · rw [if_pos shut]
    exact ⟨sound, stored⟩
  · simp only [if_neg shut] at all ⊢
    obtain ⟨n, file, err, flushed, -, rfl⟩ := fflush_emptied sound stored all
    rw [flushed]
    exact ⟨⟨(by decide : 0 < bufsiz), fun _ => rfl, fun _ => rfl, fun _ => rfl, rfl⟩, stored_of_empty rfl⟩

/-- `ftell` on an empty buffer tells where the next byte goes. -/
theorem ftell_step (sound : s.Sound) (stored : Stored s g) (empty : s.wbuf = []) (told : 0 ≤ s.ftell) : s.ftell = g.pos := by
  rw [stored.of_empty empty]
  unfold ftell at told ⊢
  by_cases shut : s.fd < 0
  · rw [if_pos shut] at told
    omega
  · rw [if_neg shut, sound.unread, lseek_fst] at told ⊢
    have := s.file.inside
    have := s.file.small
    unfold sysLseek at told ⊢
    by_cases standard : s.fd < 3
    · rw [if_pos standard] at told
      omega
    · rw [if_neg standard, if_neg (by decide), if_pos rfl] at told ⊢
      simp only
      omega

/-! ## All calls -/

/-- A call that meets the condition leaves the stream holding what is reported. -/
theorem perform_step {fuel : Nat} {call : WriteCall} {r : Int} {after : WriteStream} (sound : s.Sound) (stored : Stored s g)
    (clean : call.Clean fuel s) (run : s.perform fuel call = some (r, after)) :
    after.Sound ∧ Stored after (g.next s.fd call r after.file) := by
  cases call with
  | fwrite src size nmemb =>
    obtain ⟨⟨n, last⟩, call, result⟩ := Option.map_eq_some_iff.mp run
    cases result
    exact fwrite_step sound stored clean call
  | fputc c => exact fputc_step sound stored clean run
  | fputs text => exact fputs_step sound stored clean run
  | fflush =>
    have step := fflush_step sound stored clean
    rwa [Option.some.inj run] at step
  | fseek offset whence =>
    have step := fseek_step sound stored clean
    rwa [Option.some.inj run] at step
  | ftell =>
    cases run
    refine ⟨sound, ?_⟩
    simpa [ReportedFile.next, WriteCall.reported] using stored
  | fclose =>
    obtain ⟨later, kept⟩ := fclose_step sound stored clean
    rw [Option.some.inj run] at later kept
    refine ⟨later, ?_⟩
    simpa [ReportedFile.next, WriteCall.reported] using kept

theorem fwrite_returns {fuel size nmemb : Nat} {src : List UInt8} (sound : s.Sound)
    (bounded : s.writable = false ∨ s.strm = true ∨ size * nmemb % 2 ^ 64 < fuel ∧ size * nmemb % 2 ^ 64 < 2 ^ 31
      ∧ size * nmemb % 2 ^ 64 ≤ src.length) :
    ∃ result, s.fwrite fuel src size nmemb = some result := by
  cases ready : s.writable with
  | false => exact ⟨_, fwrite_shut ready fuel src size nmemb⟩
  | true =>
    cases direct : s.strm with
    | true =>
      unfold fwrite
      rw [if_neg (by rw [ready]; decide)]
      simp only [if_pos direct]
      split
      · exact ⟨_, rfl⟩
      · split <;> exact ⟨_, rfl⟩
    | false =>
      rw [ready, direct] at bounded
      obtain ⟨enough, small, long⟩ := (bounded.resolve_left (by decide)).resolve_left (by decide)
      exact (fwrite_buffered sound direct ready small long).1 enough

/-- A call that meets the condition returns. -/
theorem perform_returns {fuel : Nat} (enough : 2 ^ 31 ≤ fuel) {call : WriteCall} (sound : s.Sound)
    (clean : call.Clean fuel s) : ∃ r after, s.perform fuel call = some (r, after) := by
  cases call with
  | fwrite src size nmemb =>
    have bounded : s.writable = false ∨ s.strm = true ∨ size * nmemb % 2 ^ 64 < fuel ∧ size * nmemb % 2 ^ 64 < 2 ^ 31
        ∧ size * nmemb % 2 ^ 64 ≤ src.length := by
      refine clean.imp_right fun clean => ?_
      obtain ⟨long, clean⟩ := clean
      by_cases direct : s.strm = true
      · exact .inl direct
      · rw [if_neg direct] at clean
        exact .inr ⟨Nat.lt_of_lt_of_le clean.1 enough, clean.1, long⟩
    obtain ⟨⟨n, after⟩, run⟩ := fwrite_returns sound bounded
    exact ⟨n, after, by simp only [perform, run, Option.map_some]⟩
  | fputc c =>
    have bounded : s.writable = false ∨ s.strm = true ∨ 1 * 1 % 2 ^ 64 < fuel ∧ 1 * 1 % 2 ^ 64 < 2 ^ 31
        ∧ 1 * 1 % 2 ^ 64 ≤ [UInt8.ofNat (c % 256).toNat].length :=
      .inr (.inr ⟨Nat.lt_of_lt_of_le (by decide) enough, by decide, Nat.le_refl 1⟩)
    obtain ⟨⟨n, after⟩, run⟩ := fwrite_returns sound bounded
    exact ⟨_, after, by simp only [perform, fputc, run]; rfl⟩
  | fputs text =>
    cases text with
    | none => exact ⟨_, s, rfl⟩
    | some text =>
      have bounded : s.writable = false ∨ s.strm = true ∨ 1 * text.length % 2 ^ 64 < fuel
          ∧ 1 * text.length % 2 ^ 64 < 2 ^ 31 ∧ 1 * text.length % 2 ^ 64 ≤ text.length := by
        refine clean.imp_right fun clean => ?_
        obtain ⟨size, clean⟩ := clean text rfl
        by_cases direct : s.strm = true
        · exact .inl direct
        · rw [if_neg direct] at clean
          have total : 1 * text.length % 2 ^ 64 = text.length := by
            rw [Nat.one_mul, Nat.mod_eq_of_lt size]
          rw [total]
          exact .inr ⟨Nat.lt_of_lt_of_le clean.1 enough, clean.1, Nat.le_refl _⟩
      obtain ⟨⟨n, after⟩, run⟩ := fwrite_returns sound bounded
      exact ⟨_, after, by simp only [perform, fputs, run]; rfl⟩
  | fflush => exact ⟨_, _, rfl⟩
  | fseek offset whence => exact ⟨_, _, rfl⟩
  | ftell => exact ⟨_, _, rfl⟩
  | fclose => exact ⟨_, _, rfl⟩

/-- Every state that is reached by calls that meet the condition is in order and holds what is reported. -/
theorem written_sound {fuel : Nat} {file : WrittenFile} {fd : Int} (real : 0 ≤ fd) {strm : Bool}
    (reached : Written (fun s call => call.Clean fuel s) fuel (opened file fd strm) s g) : s.Sound ∧ Stored s g := by
  induction reached with
  | opened => exact ⟨opened_sound file real strm, opened_stored file fd strm⟩
  | call before met run ih => exact perform_step ih.1 ih.2 met run

/-- In every run of calls that meet the condition the file and the buffer hold what the calls report, the next call
returns, and `ftell` tells where the next byte goes. -/
theorem writes_stored {fuel : Nat} {file : WrittenFile} {fd : Int} (real : 0 ≤ fd) {strm : Bool} {s : WriteStream}
    {g : ReportedFile} (reached : Written (fun s call => call.Clean fuel s) fuel (opened file fd strm) s g) :
    Stored s g
      ∧ (∀ call : WriteCall, call.Clean fuel s → 2 ^ 31 ≤ fuel → ∃ r after, s.perform fuel call = some (r, after))
      ∧ (WriteCall.Clean fuel s .ftell → 0 ≤ s.ftell → s.ftell = g.pos) := by
  obtain ⟨sound, stored⟩ := written_sound real reached
  refine ⟨stored, fun call clean enough => perform_returns enough sound clean, fun clean told => ?_⟩
  exact ftell_step sound stored (clean.elim sound.shut id) told

/-- A byte is written and the stream is flushed. -/
theorem writes_stored_byte :
    ∃ s g, Written (fun s call => call.Clean 8 s) 8
        (opened ⟨[], 0, fun _ => .bytes 4096, 0, 0, Nat.le_refl 0, by decide⟩ 3 false) s g
      ∧ s.file.content = [97] ∧ g.content = [97] ∧ g.pos = 1 ∧ Stored s g ∧ s.ftell = g.pos := by
  have second := Written.call (.opened : Written (fun s call => call.Clean 8 s) 8 _ _ _) (.inr (by
    refine ⟨by decide, ?_⟩
    rintro r after run
    cases run
    rfl)) (rfl : (opened ⟨[], 0, fun _ => .bytes 4096, 0, 0, Nat.le_refl 0, by decide⟩ 3 false).perform 8 (.fputc 97)
      = some (_, _))
  have third := second.call (show WriteCall.Clean 8 _ .fflush from .inr (.inr (by
    rintro r after run
    cases run
    rfl))) (rfl : WriteStream.perform 8 _ .fflush = some (_, _))
  exact ⟨_, _, third, rfl, rfl, rfl, (writes_stored (by decide) third).1,
    (writes_stored (by decide) third).2.2 (.inr rfl) (by decide)⟩

/-- A flush that is cut short loses a byte and reports success; and `ftell` does not count the byte in the buffer. -/
theorem writes_lost :
    (∃ s g, Written (fun _ _ => True) 8
        (opened ⟨[], 0, fun _ => .bytes 1, 0, 0, Nat.le_refl 0, by decide⟩ 3 false) s g ∧ ¬ Stored s g)
      ∧ ∃ s g, Written (fun _ _ => True) 8
        (opened ⟨[], 0, fun _ => .bytes 1, 0, 0, Nat.le_refl 0, by decide⟩ 3 false) s g ∧ 0 ≤ s.ftell ∧ s.ftell ≠ g.pos := by
  have second := Written.call (.opened : Written (fun _ _ => True) 8 _ _ _) trivial
    (rfl : (opened ⟨[], 0, fun _ => .bytes 1, 0, 0, Nat.le_refl 0, by decide⟩ 3 false).perform 8 (.fputs (some [97, 98]))
      = some (_, _))
  have third := second.call trivial (rfl : WriteStream.perform 8 _ .fflush = some (_, _))
  exact ⟨⟨_, _, third, fun stored => absurd stored.place (by decide)⟩, _, _, second, by decide, by decide⟩

end WriteStream

end Systrix.User
