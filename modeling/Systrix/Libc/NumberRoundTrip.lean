import Systrix.Libc.NumberText

/-!
# Formatting a number and reading it back

Every integer directive, with any flags and any width, writes a number that `strtoll` or `strtoull` reads back.
-/

namespace Systrix.Libc

section reading

variable {conv : Conversion} {f : FormatFlags} {width : Int} {uval : BitVec 64} {neg : Bool} {tmp : List UInt8}
  {a z b base : Nat}

/-- The number begins with a digit. -/
theorem exists_first (holds : Holds conv uval tmp) : ∃ c d s,
    altText f conv.spec uval tmp ++ plainText z b tmp = c :: s ∧ digitValue c = some d := by
  have zero : digitValue '0'.toUInt8 = some 0 := by decide
  unfold altText
  split_ifs
  · exact ⟨_, 0, _, rfl, zero⟩
  · exact ⟨_, 0, _, rfl, zero⟩
  · exact ⟨_, 0, _, rfl, zero⟩
  · cases z with
    | succ z => exact ⟨_, 0, _, rfl, zero⟩
    | zero =>
        cases digits : tmp.reverse with
        | nil => exact absurd (List.reverse_eq_nil_iff.mp digits) holds.some
        | cons c s =>
            have member : c ∈ tmp := by
              rw [← List.mem_reverse, digits]
              exact List.mem_cons_self
            obtain ⟨d, -, value⟩ := holds.digits c member
            refine ⟨c, d, s ++ List.replicate b ' '.toUInt8, ?_, value⟩
            rw [plainText, digits]
            rfl

theorem strtoll_text (a z b : Nat) (neg : Bool) (holds : Holds conv uval tmp)
    (allowed : base = conv.base ∨ (base = 0 ∧ f.hash = true ∧ conv.Marked)) :
    strtoll (List.replicate a ' '.toUInt8 ++ (signText f neg ++ (altText f conv.spec uval tmp ++ plainText z b tmp)))
      base = (if neg then -uval else uval, List.replicate b ' '.toUInt8) := by
  obtain ⟨c, d, s, eq, value⟩ := exists_first (f := f) (z := z) (b := b) holds
  obtain ⟨k, s', skips, reads⟩ := read_number (f := f) (z := z) (b := b) holds allowed
  rw [eq] at skips ⊢
  rw [strtoll, skipWsSign_text a value s]
  dsimp only
  rw [skips]
  dsimp only
  rw [reads]

end reading

/-! ## Formats -/

/-- The flags. -/
def flagChars : List UInt8 := ['-', '0', '+', ' ', '#'].map Char.toUInt8

/-- A width in a format: digits, or an argument. -/
inductive FieldWidth where
  | digits (ds : List UInt8)
  | star (bits : BitVec 64)

namespace FieldWidth

def text : FieldWidth → List UInt8
  | digits ds => ds
  | star _ => ['*'.toUInt8]

def args : FieldWidth → List VaArg
  | digits _ => []
  | star bits => [.int bits]

/-- The digits are digits. -/
def Valid : FieldWidth → Prop
  | digits ds => ∀ c ∈ ds, '0'.toUInt8 ≤ c ∧ c ≤ '9'.toUInt8
  | star _ => True

end FieldWidth

/-- `"ll"` and the conversion. -/
def Conversion.ending (conv : Conversion) : List UInt8 := ['l'.toUInt8, 'l'.toUInt8, conv.spec]

/-- A format for one number. -/
def Conversion.format (conv : Conversion) (flags : List UInt8) (width : FieldWidth) : List UInt8 :=
  '%'.toUInt8 :: (flags ++ (width.text ++ conv.ending))

section formats

variable {conv : Conversion} {f : FormatFlags} {flags s : List UInt8}

theorem readFlags_flags (areFlags : ∀ c ∈ flags, c ∈ flagChars) (f : FormatFlags) (s : List UInt8) :
    ∃ f', readFlags f (flags ++ s) = readFlags f' s ∧ (f.hash = true ∨ '#'.toUInt8 ∈ flags → f'.hash = true) := by
  induction flags generalizing f with
  | nil => exact ⟨f, rfl, fun either => either.resolve_right List.not_mem_nil⟩
  | cons c flags ih =>
      have later : ∀ c ∈ flags, c ∈ flagChars := fun c member => areFlags c (List.mem_cons_of_mem _ member)
      have flag := areFlags c List.mem_cons_self
      simp only [flagChars, List.map_cons, List.map_nil, List.mem_cons, List.not_mem_nil, or_false] at flag
      have step : ∃ f', readFlags f (c :: (flags ++ s)) = readFlags f' (flags ++ s) ∧
          (f.hash = true ∨ c = '#'.toUInt8 → f'.hash = true) := by
        rcases flag with rfl | rfl | rfl | rfl | rfl
        · exact ⟨{ f with left := true }, rfl, fun either => either.resolve_right (by decide)⟩
        · exact ⟨{ f with zero := true }, rfl, fun either => either.resolve_right (by decide)⟩
        · exact ⟨{ f with plus := true }, rfl, fun either => either.resolve_right (by decide)⟩
        · exact ⟨{ f with space := true }, rfl, fun either => either.resolve_right (by decide)⟩
        · exact ⟨{ f with hash := true }, rfl, fun _ => rfl⟩
      obtain ⟨f₁, first, keeps⟩ := step
      obtain ⟨f₂, rest, keeps'⟩ := ih later f₁
      refine ⟨f₂, first.trans rest, fun either => keeps' ?_⟩
      rcases either with old | new
      · exact Or.inl (keeps (Or.inl old))
      · rcases List.mem_cons.mp new with same | later
        · exact Or.inl (keeps (Or.inr same.symm))
        · exact Or.inr later

/-- The flags end before what is none. -/
theorem readFlags_stop {c : UInt8} (none : c ∉ flagChars) (f : FormatFlags) (s : List UInt8) :
    readFlags f (c :: s) = (f, c :: s) := by
  simp only [flagChars, List.map_cons, List.map_nil, List.mem_cons, List.not_mem_nil, or_false, not_or] at none
  obtain ⟨noLeft, noZero, noPlus, noSpace, noHash⟩ := none
  rw [readFlags, if_neg noLeft, if_neg noZero, if_neg noPlus, if_neg noSpace, if_neg noHash]

theorem digit_flag {c : UInt8} (digit : '0'.toUInt8 ≤ c ∧ c ≤ '9'.toUInt8) (some : c ≠ '0'.toUInt8) :
    c ∉ flagChars := by
  simp only [flagChars, List.map_cons, List.map_nil, List.mem_cons, List.not_mem_nil, or_false, not_or]
  refine ⟨?_, some, ?_, ?_, ?_⟩ <;> rintro rfl <;> exact absurd digit (by decide)

/-- Zeros in front of a width are flags. -/
theorem readFlags_digits {ds : List UInt8} (digits : ∀ c ∈ ds, '0'.toUInt8 ≤ c ∧ c ≤ '9'.toUInt8) (f : FormatFlags)
    {c : UInt8} (none : c ∉ flagChars) (s : List UInt8) :
    ∃ f' ds', readFlags f (ds ++ c :: s) = (f', ds' ++ c :: s) ∧ f'.hash = f.hash ∧
      ∀ c ∈ ds', '0'.toUInt8 ≤ c ∧ c ≤ '9'.toUInt8 := by
  induction ds generalizing f with
  | nil => exact ⟨f, [], readFlags_stop none f s, rfl, digits⟩
  | cons d ds ih =>
      by_cases zero : d = '0'.toUInt8
      · subst zero
        obtain ⟨f', ds', reads, hash, rest⟩ :=
          ih (fun c member => digits c (List.mem_cons_of_mem _ member)) { f with zero := true }
        exact ⟨f', ds', reads, hash, rest⟩
      · have stops := digit_flag (digits d List.mem_cons_self) zero
        exact ⟨f, d :: ds, readFlags_stop stops f (ds ++ c :: s), rfl, digits⟩

theorem readDecimal_digits {ds : List UInt8} (digits : ∀ c ∈ ds, '0'.toUInt8 ≤ c ∧ c ≤ '9'.toUInt8) (n : Int)
    {c : UInt8} (none : ¬('0'.toUInt8 ≤ c ∧ c ≤ '9'.toUInt8)) (s : List UInt8) :
    ∃ width, readDecimal n (ds ++ c :: s) = (width, c :: s) := by
  induction ds generalizing n with
  | nil => exact ⟨n, if_neg none⟩
  | cons d ds ih =>
      obtain ⟨width, reads⟩ := ih (fun c member => digits c (List.mem_cons_of_mem _ member))
        (wrapInt (n * 10 + (d.toNat - 48)))
      exact ⟨width, (if_pos (digits d List.mem_cons_self)).trans reads⟩

/-- Flags and width. -/
theorem readHead (conv : Conversion) (areFlags : ∀ c ∈ flags, c ∈ flagChars) {w : FieldWidth} (valid : w.Valid)
    (v : BitVec 64) :
    ∃ f₁ s₁ f₂ width, readFlags {} (flags ++ (w.text ++ conv.ending)) = (f₁, s₁) ∧
      readWidth f₁ s₁ (w.args ++ [.int v]) = some (f₂, width, conv.ending, [.int v]) ∧
      ('#'.toUInt8 ∈ flags → f₂.hash = true) := by
  obtain ⟨f', reads, keeps⟩ := readFlags_flags areFlags {} (w.text ++ conv.ending)
  have noFlag : 'l'.toUInt8 ∉ flagChars := by decide
  have noDigit : ¬('0'.toUInt8 ≤ 'l'.toUInt8 ∧ 'l'.toUInt8 ≤ '9'.toUInt8) := by decide
  rw [reads]
  cases w with
  | digits ds =>
      obtain ⟨f₁, ds', stops, hash, rest⟩ := readFlags_digits valid f' noFlag ['l'.toUInt8, conv.spec]
      obtain ⟨width, number⟩ := readDecimal_digits rest 0 noDigit ['l'.toUInt8, conv.spec]
      refine ⟨f₁, _, f₁, width, stops, ?_, fun member => hash.trans (keeps (Or.inr member))⟩
      have noStar : (ds' ++ 'l'.toUInt8 :: ['l'.toUInt8, conv.spec]).head? ≠ some '*'.toUInt8 := by
        cases ds' with
        | nil => exact fun star => absurd (Option.some.inj star) (by decide)
        | cons d ds' =>
            intro star
            have digit := rest d List.mem_cons_self
            rw [Option.some.inj star] at digit
            exact absurd digit (by decide)
      rw [readWidth, if_neg noStar, number]
      rfl
  | star bits =>
      have stops : readFlags f' ('*'.toUInt8 :: conv.ending) = (f', '*'.toUInt8 :: conv.ending) :=
        readFlags_stop (by decide) f' _
      by_cases negative : (bits.setWidth 32).toInt < 0
      · refine ⟨f', _, { f' with left := true }, wrapInt (-(bits.setWidth 32).toInt), stops, ?_,
          fun member => keeps (Or.inr member)⟩
        rw [readWidth, if_pos List.head?_cons]
        exact congrArg some (if_pos negative)
      · refine ⟨f', _, f', (bits.setWidth 32).toInt, stops, ?_, fun member => keeps (Or.inr member)⟩
        rw [readWidth, if_pos List.head?_cons]
        exact congrArg some (if_neg negative)

/-- The text of a format for one number. -/
theorem formatText_number (conv : Conversion) (areFlags : ∀ c ∈ flags, c ∈ flagChars) {w : FieldWidth}
    (valid : w.Valid) (v : BitVec 64) :
    ∃ (f : FormatFlags) (width : Int), ('#'.toUInt8 ∈ flags → f.hash = true) ∧
      ∀ text, numberText f width conv.spec (numberArg conv.spec 2 v).1 (numberArg conv.spec 2 v).2 = some text →
        formatText (conv.format flags w) (w.args ++ [.int v]) = some text := by
  obtain ⟨f₁, s₁, f, width, flagsRead, widthRead, hash⟩ := readHead conv areFlags valid v
  refine ⟨f, width, hash, fun text wrote => ?_⟩
  have read : directive (flags ++ (w.text ++ conv.ending)) (w.args ++ [.int v]) = some (text, [], []) := by
    rw [directive, flagsRead]
    dsimp only
    rw [widthRead]
    have noPrecision : readPrecision conv.ending [.int v] = some (-1, conv.ending, [.int v]) :=
      if_pos fun found => absurd (Option.some.inj found) (by decide)
    simp only [Option.bind_eq_bind, Option.bind_some, noPrecision]
    cases conv <;> exact (congrArg (fun t => Option.bind t fun text => some (text, [], [])) wrote)
  have rounds : (conv.format flags w).length = (flags ++ (w.text ++ conv.ending)).length + 1 := List.length_cons
  rw [formatText, rounds, Conversion.format, vprintfCb, if_neg (not_not.mpr rfl), read]
  simp only [Option.bind_eq_bind, Option.bind_some, vprintfCb]
  exact congrArg some (List.append_nil text)

end formats

/-! ## The round trip -/

/-- The function that reads what a conversion writes. -/
def Conversion.read (conv : Conversion) : List UInt8 → Nat → BitVec 64 × List UInt8 :=
  if conv = .d then strtoll else strtoull

theorem Conversion.read_eq (conv : Conversion) : conv.read = strtoll := by
  unfold Conversion.read
  split
  · rfl
  · funext s base
    exact strtoull_eq s base

/-- A text is read as a value, and reading ends just after the last digit. -/
def ReadsBack (conv : Conversion) (text : List UInt8) (base : Nat) (v : BitVec 64) : Prop :=
  ∃ before digit after, text = before ++ digit :: after ∧ (∃ d < conv.base, digitValue digit = some d) ∧
    (∀ c ∈ after, digitValue c = none) ∧ conv.read text base = (v, after)

theorem numberArg_value (conv : Conversion) (v : BitVec 64) :
    (if (numberArg conv.spec 2 v).2 then -(numberArg conv.spec 2 v).1 else (numberArg conv.spec 2 v).1) = v := by
  cases conv with
  | d =>
      by_cases negative : v.toInt < 0
      · have arg : numberArg Conversion.d.spec 2 v = (-v, true) := if_pos negative
        rw [arg, if_pos rfl, BitVec.neg_neg]
      · have arg : numberArg Conversion.d.spec 2 v = (v, false) := if_neg negative
        rw [arg, if_neg Bool.false_ne_true]
  | u => rfl
  | x => rfl
  | X => rfl
  | o => rfl

theorem numberText_reads (conv : Conversion) (f : FormatFlags) (width : Int) (v : BitVec 64) {base : Nat}
    (allowed : base = conv.base ∨ (base = 0 ∧ f.hash = true ∧ conv.Marked)) :
    ∃ text, numberText f width conv.spec (numberArg conv.spec 2 v).1 (numberArg conv.spec 2 v).2 = some text ∧
      ReadsBack conv text base v := by
  obtain ⟨a, z, b, tmp, holds, eq⟩ :=
    numberText_eq conv f width (numberArg conv.spec 2 v).1 (numberArg conv.spec 2 v).2
  have reads := strtoll_text a z b (numberArg conv.spec 2 v).2 holds allowed
  rw [numberArg_value] at reads
  cases tmp with
  | nil => exact absurd rfl holds.some
  | cons digit more =>
      refine ⟨_, eq, List.replicate a ' '.toUInt8 ++ (signText f (numberArg conv.spec 2 v).2 ++
          (altText f conv.spec (numberArg conv.spec 2 v).1 (digit :: more) ++
            (List.replicate z '0'.toUInt8 ++ more.reverse))),
        digit, List.replicate b ' '.toUInt8, ?_, holds.digits digit List.mem_cons_self, fun c member => ?_, ?_⟩
      · simp only [List.reverse_cons, List.append_assoc, List.singleton_append]
      · rw [(List.mem_replicate.mp member).2]
        decide
      · rw [conv.read_eq]
        exact reads

/-- What an integer directive writes is read back, whatever the flags and the width are. -/
theorem strto_vsnprintf (conv : Conversion) {flags : List UInt8} (areFlags : ∀ c ∈ flags, c ∈ flagChars)
    {width : FieldWidth} (valid : width.Valid) (v : BitVec 64) {base : Nat}
    (allowed : base = conv.base ∨ (base = 0 ∧ '#'.toUInt8 ∈ flags ∧ conv.Marked)) :
    ∃ text, formatText (conv.format flags width) (width.args ++ [.int v]) = some text ∧
      ∀ size, text.length < size →
        vsnprintf size (conv.format flags width) (width.args ++ [.int v]) = some (text, wrapInt text.length) ∧
          ReadsBack conv text base v := by
  obtain ⟨f, w, hash, formats⟩ := formatText_number conv areFlags valid v
  have allowed' : base = conv.base ∨ (base = 0 ∧ f.hash = true ∧ conv.Marked) :=
    allowed.imp_right fun marked => ⟨marked.1, hash marked.2.1, marked.2.2⟩
  obtain ⟨text, wrote, reads⟩ := numberText_reads conv f w v allowed'
  have formatted := formats text wrote
  refine ⟨text, formatted, fun size fits => ⟨?_, reads⟩⟩
  rw [vsnprintf_eq (Nat.ne_of_gt (Nat.lt_of_le_of_lt (Nat.zero_le _) fits)) formatted,
    List.take_of_length_le (Nat.le_sub_one_of_lt fits)]

/-- `"%-+#8llx"` of 255, read in base 0. -/
theorem strto_vsnprintf_hex : ∃ text,
    formatText (Conversion.x.format [0x2D, 0x2B, 0x23] (.digits [0x38])) [.int 255] = some text ∧
      ∀ size, text.length < size →
        vsnprintf size (Conversion.x.format [0x2D, 0x2B, 0x23] (.digits [0x38])) [.int 255] =
          some (text, wrapInt text.length) ∧ ReadsBack .x text 0 255 := by
  have valid : (FieldWidth.digits [0x38]).Valid := by
    intro c member
    rw [List.mem_singleton.mp member]
    exact ⟨by decide, by decide⟩
  have areFlags : ∀ c ∈ ([0x2D, 0x2B, 0x23] : List UInt8), c ∈ flagChars := by decide +kernel
  exact strto_vsnprintf .x areFlags valid 255 (Or.inr ⟨rfl, by decide, Or.inl rfl⟩)

end Systrix.Libc
