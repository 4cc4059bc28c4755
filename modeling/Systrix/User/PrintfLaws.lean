import Systrix.User.Printf

/-!
# When formatted output prints what it reports

`vsnprintf` returns the length of the text and stores at most the size of its buffer, so a caller that writes as many
bytes as it returns reads behind them once the text is longer.
-/

namespace Systrix.User

open Systrix.Libc (wrapInt)

/-! ## `vsnprintf` -/

theorem foldl_putc_pos (size : Nat) (text : List UInt8) (tmp : Tmp) :
    (text.foldl (Tmp.putc size) tmp).pos = tmp.pos + text.length := by
  induction text generalizing tmp with
  | nil => rfl
  | cons c text ih =>
    rw [List.foldl_cons, ih, List.length_cons]
    simp only [Tmp.putc]
    omega

/-- The buffer takes the characters for all its places but the last one. -/
theorem foldl_putc_stored {size : Nat} (text : List UInt8) (before : List UInt8) :
    (text.foldl (Tmp.putc size) ⟨fun i => (before.take (size - 1))[i]?, before.length⟩).stored =
      fun i => ((before ++ text).take (size - 1))[i]? := by
  induction text generalizing before with
  | nil => rw [List.append_nil]; rfl
  | cons c text ih =>
    have step : Tmp.putc size ⟨fun i => (before.take (size - 1))[i]?, before.length⟩ c =
        ⟨fun i => ((before ++ [c]).take (size - 1))[i]?, (before ++ [c]).length⟩ := by
      rw [Tmp.putc, List.length_append, List.length_singleton]
      congr 1
      funext i
      by_cases room : before.length < size - 1
      · have both : (before ++ [c]).length ≤ size - 1 := by
          rw [List.length_append, List.length_singleton]
          omega
        simp only [if_pos room, List.take_of_length_le (Nat.le_of_lt room), List.take_of_length_le both]
        by_cases last : i = before.length
        · rw [last, Function.update_self, List.getElem?_concat_length]
        · rw [Function.update_of_ne last]
          rcases Nat.lt_or_gt_of_ne last with inside | outside
          · rw [List.getElem?_append_left inside]
          · rw [List.getElem?_eq_none (Nat.le_of_lt outside), List.getElem?_eq_none (by
              rw [List.length_append, List.length_singleton]
              omega)]
      · rw [if_neg room, List.take_append_of_le_length (by omega)]
    rw [List.foldl_cons, step, ih, List.append_assoc]
    rfl

/-- What `vsnprintf` stores: the text as far as there is room, and a NUL. -/
def stored (size : Nat) (text : List UInt8) : List UInt8 := text.take (size - 1) ++ [0]

theorem vsnprintf_eq {size : Nat} (room : size ≠ 0) {fmt : List UInt8} {args : List VaArg} {formatted : Formatted}
    (formats : formatText fmt args = some formatted) :
    vsnprintf size fmt args =
      some ⟨wrapInt formatted.text.length, fun i => (stored size formatted.text)[i]?, formatted.stores⟩ := by
  have pos := foldl_putc_pos size formatted.text ⟨fun _ => none, 0⟩
  have content := @foldl_putc_stored size formatted.text []
  simp only [List.take_nil, List.getElem?_nil, List.length_nil, List.nil_append] at content
  rw [Nat.zero_add] at pos
  rw [vsnprintf, if_neg room, formats]
  simp only [Option.bind_eq_bind, Option.bind_some, pos, content, Option.pure_def, stored]
  have last : (if formatted.text.length < size then formatted.text.length else size - 1)
      = (formatted.text.take (size - 1)).length := by
    rw [List.length_take]
    split <;> omega
  rw [last]
  congr 2
  funext i
  by_cases here : i = (formatted.text.take (size - 1)).length
  · rw [here, Function.update_self, List.getElem?_concat_length]
  · rw [Function.update_of_ne here]
    rcases Nat.lt_or_gt_of_ne here with inside | outside
    · rw [List.getElem?_append_left inside]
    · rw [List.getElem?_eq_none (Nat.le_of_lt outside), List.getElem?_eq_none (by
        rw [List.length_append, List.length_singleton]
        omega)]

/-- Only bytes that were stored can be read. -/
theorem readTmp_eq (l : List UInt8) (n : Nat) :
    readTmp (fun i => l[i]?) n = if n ≤ l.length then some (l.take n) else none := by
  unfold readTmp
  induction n with
  | zero => rfl
  | succ n ih =>
    rw [List.range_succ, List.mapM_append, ih]
    by_cases inside : n + 1 ≤ l.length
    · rw [if_pos (by omega), if_pos inside, List.take_add_one, List.getElem?_eq_getElem inside]
      simp [List.mapM_cons, List.getElem?_eq_getElem inside]
    · rw [if_neg inside]
      by_cases at_ : n ≤ l.length
      · rw [if_pos at_]
        simp [List.mapM_cons, List.getElem?_eq_none (Nat.not_lt.mp inside)]
      · rw [if_neg at_]
        rfl

/-! ## Reading as many bytes as it returns -/

/-- The length of a text, as far as an `int` can tell, is that of a prefix of it in a buffer of a size: it is smaller than
the buffer, or the NUL at the end of the buffer is a character of the text. -/
def CountFits (size : Nat) (text : List UInt8) : Prop :=
  text.length % 2 ^ 32 < size ∨ text.length % 2 ^ 32 = size ∧ text[size - 1]? = some 0

theorem countFits_iff {size : Nat} (room : size ≠ 0) (text : List UInt8) :
    CountFits size text ↔ text.length % 2 ^ 32 ≤ (stored size text).length
      ∧ (stored size text).take (text.length % 2 ^ 32) <+: text := by
  have least : text.length % 2 ^ 32 ≤ text.length := Nat.mod_le _ _
  have length : (stored size text).length = min (size - 1) text.length + 1 := by
    rw [stored, List.length_append, List.length_take, List.length_singleton]
  unfold CountFits
  generalize text.length % 2 ^ 32 = n at least ⊢
  rw [length]
  by_cases short : n < size
  · have inside : n ≤ (text.take (size - 1)).length := by
      rw [List.length_take]
      omega
    refine iff_of_true (.inl short) ⟨by omega, ?_⟩
    rw [stored, List.take_append_of_le_length inside, List.take_take]
    exact List.take_prefix _ _
  · by_cases exact : n = size
    · subst exact
      have last : n - 1 < text.length := by omega
      have whole : (stored n text).take n = text.take (n - 1) ++ [0] := by
        apply List.take_of_length_le
        rw [length]
        omega
      have next : text.take n = text.take (n - 1) ++ [text[n - 1]] := by
        have succ : n = n - 1 + 1 := by omega
        conv_lhs => rw [succ]
        rw [List.take_add_one, List.getElem?_eq_getElem last]
        rfl
      rw [whole, List.prefix_iff_eq_take, List.length_append, List.length_take_of_le (by omega), List.length_singleton,
        Nat.sub_add_cancel (by omega), next, List.append_cancel_left_eq, List.getElem?_eq_getElem last]
      simp only [Nat.lt_irrefl, true_and, false_or, Option.some.injEq, List.cons.injEq, and_true]
      constructor
      · intro nul
        exact ⟨by omega, nul.symm⟩
      · intro both
        exact both.2.symm
    · refine iff_of_false (by omega) (by omega)

/-- The count of a text as an `int`, when it is not negative. -/
theorem wrapInt_length {n : Nat} (positive : 0 ≤ wrapInt n) : wrapInt n = (n % 2 ^ 32 : Nat) := by
  unfold wrapInt at positive ⊢
  rw [Int.bmod_def] at positive ⊢
  split at positive <;> omega

theorem wrapInt_small {n : Nat} (small : n % 2 ^ 32 < 2 ^ 31) : wrapInt n = (n % 2 ^ 32 : Nat) := by
  unfold wrapInt
  rw [Int.bmod_def]
  split <;> omega

/-- Bytes are in a file at the position it had, which is behind them now. -/
structure WrittenFile.Took (file : WrittenFile) (bytes : List UInt8) (later : WrittenFile) : Prop where
  content : later.content = overwrite file.content file.pos bytes
  pos : later.pos = file.pos + bytes.length

theorem overwrite_injective {content : List UInt8} {pos : Nat} {a b : List UInt8} (length : a.length = b.length)
    (same : overwrite content pos a = overwrite content pos b) : a = b := by
  unfold overwrite at same
  rw [length, List.append_assoc, List.append_assoc, List.append_cancel_left_eq] at same
  exact (List.append_inj same length).1

/-- A write took certain bytes exactly when these are the ones it was given, and it refused none. -/
theorem write_took (file : WrittenFile) {bytes given : List UInt8} (length : bytes.length = given.length) :
    file.Took bytes (file.write given).2 ↔ bytes = given ∧ (file.write given).2.refused = file.refused := by
  have writes := file.write_spec given
  generalize file.write given = result at writes
  cases writes with
  | @bytes n later short content pos refused =>
    simp only
    constructor
    · rintro ⟨took, moved⟩
      have all : n = given.length := by omega
      rw [took, all, List.take_length] at content
      exact ⟨overwrite_injective length content, by omega⟩
    · rintro ⟨rfl, none⟩
      have all : n = bytes.length := by omega
      rw [all, List.take_length] at content
      exact ⟨content, by omega⟩
  | @failed later content pos refused =>
    simp only
    constructor
    · rintro ⟨took, moved⟩
      have none : given.length = 0 := by omega
      exact ⟨by rw [List.eq_nil_of_length_eq_zero none, List.eq_nil_of_length_eq_zero (length.trans none)], by omega⟩
    · rintro ⟨rfl, none⟩
      have empty : bytes = [] := List.eq_nil_of_length_eq_zero (by omega)
      exact ⟨by rw [content, empty, overwrite_nil], by rw [pos, empty]; rfl⟩

/-- A prefix of a text is printed, and its length is the result. -/
def Prints (text : List UInt8) (result : Int) (took : List UInt8 → Prop) : Prop :=
  ∃ bytes, bytes <+: text ∧ result = bytes.length ∧ took bytes

/-- `vfprintf` reads no byte of its buffer that was not stored, and prints what it reports. -/
def VfprintfOk (file : WrittenFile) (fmt : List UInt8) (args : List VaArg) (text : List UInt8) : Prop :=
  ∃ printed, vfprintf file fmt args = some printed ∧ Prints text printed.result fun bytes => file.Took bytes printed.sink

/-- So does `vprintf`. -/
def VprintfOk (stdout : WrittenFile) (fmt : List UInt8) (args : List VaArg) (text : List UInt8) : Prop :=
  ∃ printed, vprintf stdout fmt args = some printed ∧ Prints text printed.result fun bytes => stdout.Took bytes printed.sink

/-- So does `vfprint`, on a stream. -/
def VfprintOk (fuel : Nat) (f : WriteStream) (fmt : List UInt8) (args : List VaArg) (text : List UInt8) : Prop :=
  ∃ printed, vfprint fuel f fmt args = some printed
    ∧ Prints text printed.result fun bytes => ∀ g, Stored f g → Stored printed.sink (WriteStream.more g bytes)

/-- What is read of the buffer then is a prefix of the text. -/
theorem CountFits.read {size : Nat} (room : size ≠ 0) {text : List UInt8} (fits : CountFits size text) :
    readTmp (fun i => (stored size text)[i]?) (text.length % 2 ^ 32) = some (text.take (text.length % 2 ^ 32)) := by
  obtain ⟨inside, isPrefix⟩ := (countFits_iff room text).mp fits
  rw [readTmp_eq, if_pos inside, List.prefix_iff_eq_take.mp isPrefix, List.length_take_of_le inside]

section Formats

variable {fmt : List UInt8} {args : List VaArg} {formatted : Formatted} (formats : formatText fmt args = some formatted)

include formats

theorem vfprintf_eq (file : WrittenFile) {n : Nat}
    (count : (if wrapInt formatted.text.length < 0 then 0 else (wrapInt formatted.text.length).toNat) = n) :
    vfprintf file fmt args = (readTmp (fun i => (stored 1024 formatted.text)[i]?) n).map fun bytes =>
      ⟨wrapInt formatted.text.length, (file.write bytes).2, formatted.stores⟩ := by
  have printed := vsnprintf_eq (by decide : 1024 ≠ 0) formats
  rw [vfprintf, printed, Option.bind_eq_bind, Option.bind_some, count]
  generalize readTmp _ n = read
  cases read with
  | none => rw [Option.bind_eq_bind, Option.bind_none, Option.map_none]
  | some bytes => rw [Option.bind_eq_bind, Option.bind_some, Option.map_some, Option.pure_def]

theorem vfprintf_ok_iff (file : WrittenFile) :
    VfprintfOk file fmt args formatted.text ↔ CountFits 1024 formatted.text
      ∧ (file.write (formatted.text.take (formatted.text.length % 2 ^ 32))).2.refused = file.refused := by
  have least : formatted.text.length % 2 ^ 32 ≤ formatted.text.length := Nat.mod_le _ _
  constructor
  · rintro ⟨printed, run, bytes, isPrefix, result, took⟩
    rw [vfprintf_eq formats file rfl] at run
    obtain ⟨out, read, rfl⟩ := Option.map_eq_some_iff.mp run
    have positive : 0 ≤ wrapInt formatted.text.length := by
      have := Int.natCast_nonneg bytes.length
      simp only at result
      omega
    have count := wrapInt_length positive
    rw [if_neg (Int.not_lt.mpr positive), count, Int.toNat_natCast, readTmp_eq] at read
    split at read
    case isFalse => cases read
    case isTrue inside =>
      have length : bytes.length = out.length := by
        rw [← Option.some.inj read, List.length_take_of_le inside]
        simp only at result
        omega
      obtain ⟨rfl, none⟩ := (write_took file length).mp took
      have fits := (countFits_iff (by decide) formatted.text).mpr ⟨inside, by rw [Option.some.inj read]; exact isPrefix⟩
      have long : bytes.length = formatted.text.length % 2 ^ 32 := by
        simp only at result
        omega
      have same : bytes = formatted.text.take (formatted.text.length % 2 ^ 32) := by
        rw [← long]
        exact List.prefix_iff_eq_take.mp isPrefix
      rw [← same]
      exact ⟨fits, none⟩
  · rintro ⟨fits, none⟩
    have small : formatted.text.length % 2 ^ 32 < 2 ^ 31 := by
      rcases fits with short | full <;> omega
    have count := wrapInt_small small
    have nat : (if wrapInt formatted.text.length < 0 then 0 else (wrapInt formatted.text.length).toNat)
        = formatted.text.length % 2 ^ 32 := by
      rw [if_neg (by omega), count, Int.toNat_natCast]
    have run := vfprintf_eq formats file nat
    rw [fits.read (by decide)] at run
    refine ⟨_, run, formatted.text.take (formatted.text.length % 2 ^ 32), List.take_prefix _ _, ?_, ?_⟩
    · simp only [List.length_take_of_le least, count]
    · exact (write_took file rfl).mpr ⟨rfl, none⟩

omit formats in
/-- Bytes that two reports agree on. -/
theorem stored_injective {s : WriteStream} {g : ReportedFile} {a b : List UInt8} (length : a.length = b.length)
    (left : Stored s (WriteStream.more g a)) (right : Stored s (WriteStream.more g b)) : a = b :=
  overwrite_injective length (left.bytes.symm.trans right.bytes)

theorem vfprint_eq {fuel : Nat} {f : WriteStream} {n : Nat} (positive : 0 < n)
    (count : wrapInt formatted.text.length = n) (ready : f.writable = true) :
    vfprint fuel f fmt args = (readTmp (fun i => (stored 2048 formatted.text)[i]?) n).bind fun bytes =>
      (f.fwrite fuel bytes 1 n).map fun count => ⟨n, count.2, formatted.stores⟩ := by
  have printed := vsnprintf_eq (by decide : 2048 ≠ 0) formats
  have go : ¬((n : Int) ≤ 0 ∨ f.writable = false) := by
    rw [ready]
    simp only [Bool.true_eq_false, or_false]
    omega
  rw [vfprint, printed, Option.bind_eq_bind, Option.bind_some, count, if_neg go, Int.toNat_natCast, Option.bind_eq_bind]
  refine congrArg (Option.bind _) (funext fun bytes => ?_)
  generalize f.fwrite fuel bytes 1 n = result
  cases result with
  | none => rw [Option.bind_eq_bind, Option.bind_none, Option.map_none]
  | some count => rw [Option.bind_eq_bind, Option.bind_some, Option.map_some, Option.pure_def]

theorem vfprint_nothing {fuel : Nat} {f : WriteStream} (stop : wrapInt formatted.text.length ≤ 0 ∨ f.writable = false) :
    vfprint fuel f fmt args = some ⟨wrapInt formatted.text.length, f, formatted.stores⟩ := by
  have printed := vsnprintf_eq (by decide : 2048 ≠ 0) formats
  rw [vfprint, printed, Option.bind_eq_bind, Option.bind_some, if_pos stop, Option.pure_def]

omit formats in
theorem length_stored_le {size : Nat} (room : size ≠ 0) (text : List UInt8) : (stored size text).length ≤ size := by
  rw [stored, List.length_append, List.length_take, List.length_singleton]
  omega

/-- A call that prints what it reports has a count that fits, and no byte of it was refused. -/
theorem vfprint_fits {fuel : Nat} {f : WriteStream} (sound : f.Sound) (some_ : formatted.text.length % 2 ^ 32 ≠ 0)
    (printed : VfprintOk fuel f fmt args formatted.text) :
    CountFits 2048 formatted.text ∧ f.writable = true
      ∧ ∀ n later, f.fwrite fuel (formatted.text.take (formatted.text.length % 2 ^ 32)) 1 (formatted.text.length % 2 ^ 32)
        = some (n, later) → later.file.refused = f.file.refused := by
  obtain ⟨printed, run, bytes, isPrefix, result, took⟩ := printed
  have here : Stored f ⟨overwrite f.file.content f.file.pos f.wbuf, f.file.pos + f.wbuf.length⟩ := ⟨rfl, rfl⟩
  have placed := took _ here
  have nonneg := Int.natCast_nonneg bytes.length
  have positive : 0 ≤ wrapInt formatted.text.length := by
    by_cases negative : wrapInt formatted.text.length < 0
    · rw [vfprint_nothing formats (.inl (Int.le_of_lt negative))] at run
      rw [← Option.some.inj run] at result
      simp only at result
      omega
    · exact Int.not_lt.mp negative
  have count := wrapInt_length positive
  cases ready : f.writable with
  | false =>
    rw [vfprint_nothing formats (.inr ready)] at run
    rw [← Option.some.inj run] at result placed
    have place := placed.place
    simp only [WriteStream.more] at result place
    omega
  | true =>
    rw [vfprint_eq formats (Nat.pos_of_ne_zero some_) count ready] at run
    obtain ⟨out, read, run⟩ := Option.bind_eq_some_iff.mp run
    obtain ⟨⟨n, later⟩, wrote, rfl⟩ := Option.map_eq_some_iff.mp run
    rw [readTmp_eq] at read
    split at read
    case isFalse => cases read
    case isTrue inside =>
      have out_eq := Option.some.inj read
      have length : out.length = formatted.text.length % 2 ^ 32 := by
        rw [← out_eq, List.length_take_of_le inside]
      have small := Nat.le_trans inside (length_stored_le (by decide) formatted.text)
      have same_length : bytes.length = out.length := by
        simp only at result
        omega
      rw [← length] at wrote small
      obtain ⟨grows, spent, stores⟩ :=
        WriteStream.fwrite_all sound ready (Nat.lt_of_le_of_lt small (by decide)) wrote
      have place := placed.place
      simp only [WriteStream.more] at place
      have same : later.file.refused = f.file.refused := by omega
      have bytes_eq := stored_injective same_length placed (stores same _ here)
      rw [bytes_eq] at isPrefix
      have text_eq : formatted.text.take (formatted.text.length % 2 ^ 32) = out := by
        rw [← length]
        exact (List.prefix_iff_eq_take.mp isPrefix).symm
      refine ⟨(countFits_iff (by decide) _).mpr ⟨inside, by rw [out_eq]; exact isPrefix⟩, rfl, ?_⟩
      intro n' later' again
      rw [text_eq, ← length, wrote] at again
      cases again
      exact same

/-- An empty count prints nothing. -/
theorem vfprint_empty {fuel : Nat} {f : WriteStream} (none : formatted.text.length % 2 ^ 32 = 0) :
    VfprintOk fuel f fmt args formatted.text := by
  have count := wrapInt_small (by omega : formatted.text.length % 2 ^ 32 < 2 ^ 31)
  have zero : wrapInt formatted.text.length = 0 := by omega
  refine ⟨_, vfprint_nothing formats (.inl (Int.le_of_eq zero)), [], List.nil_prefix, ?_, fun g stored => ?_⟩
  · simp only [zero, List.length_nil, Nat.cast_zero]
  · rwa [WriteStream.more_nil]

theorem vfprint_ok_iff {fuel : Nat} (enough : 2048 < fuel) {f : WriteStream} (sound : f.Sound) :
    VfprintOk fuel f fmt args formatted.text ↔ formatted.text.length % 2 ^ 32 = 0
      ∨ CountFits 2048 formatted.text ∧ f.writable = true
        ∧ ∀ n later, f.fwrite fuel (formatted.text.take (formatted.text.length % 2 ^ 32)) 1 (formatted.text.length % 2 ^ 32)
          = some (n, later) → later.file.refused = f.file.refused := by
  by_cases none : formatted.text.length % 2 ^ 32 = 0
  · exact iff_of_true (vfprint_empty formats none) (.inl none)
  · refine ⟨fun printed => .inr (vfprint_fits formats sound none printed), fun fits => ?_⟩
    obtain ⟨fits, ready, all⟩ := fits.resolve_left none
    have small : formatted.text.length % 2 ^ 32 ≤ 2048 := by
      rcases fits with short | full <;> omega
    have count := wrapInt_small (by omega : formatted.text.length % 2 ^ 32 < 2 ^ 31)
    have read := fits.read (by decide)
    have length := List.length_take_of_le (Nat.mod_le formatted.text.length (2 ^ 32))
    have run : vfprint fuel f fmt args = _ := vfprint_eq formats (Nat.pos_of_ne_zero none) count ready
    rw [read, Option.bind_some] at run
    generalize formatted.text.length % 2 ^ 32 = n at none small count length run all
    have few : (formatted.text.take n).length < 2 ^ 31 := by omega
    have returns : ∃ result, f.fwrite fuel (formatted.text.take n) 1 n = some result :=
      WriteStream.fwrite_returns sound (.inr (.inr (by omega)))
    obtain ⟨⟨m, later⟩, wrote⟩ := returns
    have same := all m later wrote
    rw [wrote, Option.map_some] at run
    have whole : f.fwrite fuel (formatted.text.take n) 1 (formatted.text.take n).length = some (m, later) := by
      rw [length, wrote]
    obtain ⟨-, -, stores⟩ := WriteStream.fwrite_all sound ready few whole
    refine ⟨_, run, formatted.text.take n, List.take_prefix _ _, ?_, ?_⟩
    · simp only [length]
    · intro g stored
      exact stores same g stored

/-- For a format that goes with its arguments, the three functions print what they report exactly when the count of the
text fits their buffer and no byte is refused. -/
theorem printed_iff (file : WrittenFile) {fuel : Nat} (enough : 2048 < fuel) {f : WriteStream} (sound : f.Sound) :
    (VfprintfOk file fmt args formatted.text ↔ CountFits 1024 formatted.text
        ∧ (file.write (formatted.text.take (formatted.text.length % 2 ^ 32))).2.refused = file.refused)
      ∧ (VprintfOk file fmt args formatted.text ↔ CountFits 1024 formatted.text
        ∧ (file.write (formatted.text.take (formatted.text.length % 2 ^ 32))).2.refused = file.refused)
      ∧ (VfprintOk fuel f fmt args formatted.text ↔ formatted.text.length % 2 ^ 32 = 0
        ∨ CountFits 2048 formatted.text ∧ f.writable = true
          ∧ ∀ n later, f.fwrite fuel (formatted.text.take (formatted.text.length % 2 ^ 32)) 1
              (formatted.text.length % 2 ^ 32) = some (n, later) → later.file.refused = f.file.refused) :=
  ⟨vfprintf_ok_iff formats file, vfprintf_ok_iff formats file, vfprint_ok_iff formats enough sound⟩

end Formats

/-- A file that takes everything. -/
def freshFile : WrittenFile := ⟨[], 0, fun _ => .bytes 4096, 0, 0, Nat.le_refl 0, by decide⟩

/-- `%s!` with a text prints one character more than the text. -/
theorem printed_iff_text :
    VfprintfOk freshFile [0x25, 0x73, 0x21] [.str (some [0x68, 0x69])] [0x68, 0x69, 0x21] ↔ CountFits 1024 [0x68, 0x69, 0x21]
      ∧ (freshFile.write ([0x68, 0x69, 0x21] : List UInt8)).2.refused = freshFile.refused :=
  (@printed_iff [0x25, 0x73, 0x21] [.str (some [0x68, 0x69])] ⟨[0x68, 0x69, 0x21], []⟩ rfl freshFile 4096
    (by decide) (WriteStream.opened freshFile 3 false) (WriteStream.opened_sound freshFile (by decide) false)).1

/-- `%1024c` formats 1023 blanks and a letter, and `vfprintf` reads behind the buffer for the letter. -/
theorem printf_overreads : ∃ formatted, formatText [0x25, 0x31, 0x30, 0x32, 0x34, 0x63] [.int 97] = some formatted
    ∧ formatted.text.length = 1024 ∧ ¬VfprintfOk freshFile [0x25, 0x31, 0x30, 0x32, 0x34, 0x63] [.int 97] formatted.text := by
  have formats : formatText [0x25, 0x31, 0x30, 0x32, 0x34, 0x63] [.int 97]
      = some ⟨(padText 0x20 1023 ++ [97] ++ []) ++ [], []⟩ := rfl
  have text : (padText 0x20 1023 ++ [97] ++ []) ++ [] = List.replicate 1023 0x20 ++ [97] := by
    rw [List.append_nil, List.append_nil, padText]
    rfl
  rw [text] at formats
  have length : (List.replicate 1023 (0x20 : UInt8) ++ [97]).length = 1024 := by
    rw [List.length_append, List.length_replicate, List.length_singleton]
  refine ⟨_, formats, length, ?_⟩
  rw [vfprintf_ok_iff formats freshFile, CountFits, length]
  rintro ⟨short | ⟨-, last⟩, -⟩
  · exact absurd short (by decide)
  · have letter : (List.replicate 1023 (0x20 : UInt8) ++ [97])[1023]? = some 97 := by
      rw [List.getElem?_append_right (by rw [List.length_replicate]), List.length_replicate]
      rfl
    rw [letter] at last
    exact absurd last (by decide)

end Systrix.User
