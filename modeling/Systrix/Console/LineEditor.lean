import Mathlib.Data.List.Destutter
import Mathlib.Data.List.Forall2
import Systrix.Lib.Run
import Systrix.Lib.TextBuffer

/-!
# The line editor of the shell

`read_line` of `kernel/kernel.c` and the ring of earlier lines behind it, against an editor that has a list
of characters and a cursor, and the lines submitted so far as a list.  What is drawn on the screen is left
out.
-/

namespace Systrix.Console

open TextBuffer

def histMax : Nat := 16

def histLen : Nat := 128

/-- `'\r'` -/
def keyEnter : UInt8 := 0x0D

/-- `'\b'` -/
def keyBackspace : UInt8 := 0x08

def keyUp : UInt8 := 0x80

def keyDown : UInt8 := 0x81

def keyLeft : UInt8 := 0x82

def keyRight : UInt8 := 0x83

def keyDel : UInt8 := 0x7F

/-! ## The history ring -/

/-- `hist_buf`, `hist_count` and `hist_head` -/
structure History where
  buf : Nat → Nat → UInt8
  count : Nat
  head : Nat

/-- The history at boot. -/
def History.init : History := ⟨fun _ _ => 0, 0, 0⟩

def histPush (h : History) (s : Nat → UInt8) : History :=
  if s 0 = 0 then h
  else if 0 < h.count ∧ strncmpEq (h.buf ((h.head + histMax - 1) % histMax)) s 0 (histLen - 1) then h
  else
    { buf := Function.update h.buf h.head (copyString (h.buf h.head) s 0 (histLen - 1))
      head := (h.head + 1) % histMax
      count := if h.count < histMax then h.count + 1 else h.count }

def histGet (h : History) (back : Nat) : Option (Nat → UInt8) :=
  if back < 1 ∨ h.count < back then none else some (h.buf ((h.head + histMax * 2 - back) % histMax))

/-! ## `read_line` -/

/-- The buffer and the variables of `read_line`. -/
structure Line where
  buf : Buffer UInt8
  n : Nat
  cur : Nat
  hist_pos : Nat

/-- `while (*p && n < max - 1) buf[n++] = *p++` from character `n` of the entry on; `left` is `max - 1 - n`. -/
def recallEntry (buf : Buffer UInt8) (p : Nat → UInt8) (n : Nat) : (left : Nat) → Buffer UInt8 × Nat
  | 0 => (buf, n)
  | left + 1 => if p n = 0 then (buf, n) else recallEntry (buf.put n (p n)) p (n + 1) left

/-- The line becomes an entry of the history. -/
def Line.recalled (l : Line) (max : Nat) (p : Nat → UInt8) (hist_pos : Nat) : Line :=
  let out := recallEntry l.buf p 0 (max - 1)
  ⟨out.1, out.2, out.2, hist_pos⟩

/-- What `read_line` does about a key other than Enter. -/
def Line.key (max : Nat) (hist : History) (l : Line) (c : UInt8) : Line :=
  if c = keyBackspace then
    if 0 < l.cur then
      { l with buf := l.buf.shiftDown (l.cur - 1) (l.n - 1 - (l.cur - 1)), n := l.n - 1, cur := l.cur - 1 }
    else l
  else if c = keyDel then
    if l.cur < l.n then { l with buf := l.buf.shiftDown l.cur (l.n - 1 - l.cur), n := l.n - 1 } else l
  else if c = keyLeft then if 0 < l.cur then { l with cur := l.cur - 1 } else l
  else if c = keyRight then if l.cur < l.n then { l with cur := l.cur + 1 } else l
  else if c = keyUp then
    match histGet hist (l.hist_pos + 1) with
    | none => l
    | some h => l.recalled max h (l.hist_pos + 1)
  else if c = keyDown then
    if l.hist_pos = 0 then l
    else
      let hist_pos := l.hist_pos - 1
      let empty : Line := ⟨l.buf, 0, 0, hist_pos⟩
      if 0 < hist_pos then
        match histGet hist hist_pos with
        | none => empty
        | some h => l.recalled max h hist_pos
      else empty
  else if c < 0x20 ∨ keyUp ≤ c then l
  else if max - 1 ≤ l.n then l
  else
    { buf := (l.buf.shiftUp l.cur (l.n - l.cur)).put l.cur c
      n := l.n + 1
      cur := l.cur + 1
      hist_pos := 0 }

/-- The history, the call of `read_line` under way with its `max`, and the buffers of the calls that have
returned, the last one first. -/
structure Shell where
  hist : History
  reading : Option (Nat × Line)
  returned : List (Nat × Buffer UInt8)

/-- A call of `read_line` with `max` and what is in the buffer, or a key. -/
inductive Event where
  | call (max : Nat) (buf : Nat → UInt8)
  | key (c : UInt8)

/-- `max` is between 2 and `HIST_LEN`. -/
def Event.Valid : Event → Prop
  | .call max _ => 2 ≤ max ∧ max ≤ histLen
  | .key _ => True

namespace Shell

/-- The shell at boot. -/
def start : Shell := ⟨.init, none, []⟩

/-- One event; a key that nobody reads is lost. -/
def step (s : Shell) : Event → Shell
  | .call max buf =>
      match s.reading with
      | none => { s with reading := some (max, ⟨⟨buf, []⟩, 0, 0, 0⟩) }
      | some _ => s
  | .key c =>
      match s.reading with
      | none => s
      | some (max, l) =>
          if c = keyEnter then
            let buf := l.buf.put l.n 0
            ⟨histPush s.hist buf.cells, none, (max, buf) :: s.returned⟩
          else { s with reading := some (max, l.key max s.hist c) }

end Shell

/-! ## The editor -/

/-- A line with a cursor, and how far back in the history it was recalled from; 0 when it was not. -/
structure Editor where
  line : List UInt8
  cursor : Nat
  back : Nat

/-- The lines that can be recalled, the newest first: those submitted that are not empty, without immediate
repetitions. -/
def history (submitted : List (List UInt8)) : List (List UInt8) := (submitted.filter (· ≠ [])).destutter (· ≠ ·)

/-- The line some steps back, within the capacity of the history. -/
def recallable (lines : List (List UInt8)) (back : Nat) : Option (List UInt8) :=
  if 1 ≤ back ∧ back ≤ histMax then lines[back - 1]? else none

/-- The line becomes one of the history, as far as it fits. -/
def Editor.recalled (max : Nat) (line : List UInt8) (back : Nat) : Editor :=
  ⟨line.take (max - 1), (line.take (max - 1)).length, back⟩

/-- What a key other than Enter does to the line. -/
def Editor.key (max : Nat) (lines : List (List UInt8)) (e : Editor) (c : UInt8) : Editor :=
  if c = keyBackspace then
    if 0 < e.cursor then { e with line := e.line.eraseIdx (e.cursor - 1), cursor := e.cursor - 1 } else e
  else if c = keyDel then { e with line := e.line.eraseIdx e.cursor }
  else if c = keyLeft then { e with cursor := e.cursor - 1 }
  else if c = keyRight then { e with cursor := min (e.cursor + 1) e.line.length }
  else if c = keyUp then
    match recallable lines (e.back + 1) with
    | none => e
    | some line => .recalled max line (e.back + 1)
  else if c = keyDown then
    if e.back = 0 then e
    else
      match recallable lines (e.back - 1) with
      | none => ⟨[], 0, e.back - 1⟩
      | some line => .recalled max line (e.back - 1)
  else if c < 0x20 ∨ keyUp ≤ c then e
  else if e.line.length < max - 1 then ⟨e.line.insertIdx e.cursor c, e.cursor + 1, 0⟩
  else e

/-- The editor at work with the length it has room for, and the lines submitted, the last one first. -/
structure Session where
  editor : Option (Nat × Editor)
  submitted : List (List UInt8)

namespace Session

/-- The session at boot. -/
def start : Session := ⟨none, []⟩

/-- One event. -/
def step (a : Session) : Event → Session
  | .call max _ =>
      match a.editor with
      | none => { a with editor := some (max, ⟨[], 0, 0⟩) }
      | some _ => a
  | .key c =>
      match a.editor with
      | none => a
      | some (max, e) =>
          if c = keyEnter then ⟨none, e.line :: a.submitted⟩
          else { a with editor := some (max, e.key max (history a.submitted) c) }

end Session

/-! ## The history against the lines submitted -/

/-- The ring holds the lines that can be recalled. -/
structure HistoryRefines (h : History) (lines : List (List UInt8)) : Prop where
  head : h.head < histMax
  count : h.count = min lines.length histMax
  recalls : ∀ back, Option.Rel (fun buf line => StringAt buf 0 line) (histGet h back) (recallable lines back)
  short : ∀ line ∈ lines, line.length < histLen

theorem head_destutter (newest : List UInt8) (rest : List (List UInt8)) :
    ((newest :: rest).destutter (· ≠ ·)).head? = some newest := by
  rw [List.destutter_cons']
  induction rest with
  | nil => rfl
  | cons line rest ih =>
      rw [List.destutter'_cons]
      split_ifs
      · rfl
      · exact ih

/-- The history once one more line is submitted. -/
theorem history_cons (line : List UInt8) (submitted : List (List UInt8)) : history (line :: submitted) =
    if line = [] ∨ (history submitted).head? = some line then history submitted
    else line :: history submitted := by
  unfold history
  by_cases isEmpty : line = []
  · rw [List.filter_cons_of_neg (by simp [isEmpty]), if_pos (.inl isEmpty)]
  rw [List.filter_cons_of_pos (by simp [isEmpty])]
  cases older : submitted.filter (· ≠ []) with
  | nil => simp [isEmpty]
  | cons newest rest =>
      rw [head_destutter, List.destutter_cons_cons]
      by_cases same : line = newest
      · subst same
        rw [if_neg (not_not.mpr rfl), if_pos (.inr rfl)]
        rfl
      · rw [if_pos same, if_neg]
        · rfl
        · rintro (none | equal)
          · exact isEmpty none
          · exact same (Option.some.inj equal).symm

theorem recallable_zero (lines : List (List UInt8)) : recallable lines 0 = none := if_neg (by omega)

theorem recallable_newest (line : List UInt8) (lines : List (List UInt8)) : recallable (line :: lines) 1 = some line :=
  rfl

theorem recallable_older (line : List UInt8) (lines : List (List UInt8)) {back : Nat} (older : 2 ≤ back)
    (kept : back ≤ histMax) : recallable (line :: lines) back = recallable lines (back - 1) := by
  unfold recallable
  rw [if_pos (by omega), if_pos (by omega), List.getElem?_cons, if_neg (by omega)]

/-- No line lies further back than there are. -/
theorem recallable_none (lines : List (List UInt8)) {back : Nat} (beyond : min lines.length histMax < back) :
    recallable lines back = none := by
  unfold recallable
  split_ifs
  · exact List.getElem?_eq_none (by omega)
  · rfl

theorem HistoryRefines.init : HistoryRefines .init [] where
  head := by decide
  count := rfl
  recalls back := by
    have nothing : histGet .init back = none := if_pos (by simp only [History.init]; omega)
    rw [nothing, recallable]
    split_ifs <;> exact .none
  short line member := absurd member List.not_mem_nil

/-- The newest entry of the ring is the newest line. -/
theorem HistoryRefines.newest {h : History} {lines : List (List UInt8)} (refines : HistoryRefines h lines)
    {s : Nat → UInt8} {line : List UInt8} (string : StringAt s 0 line) (short : line.length < histLen) :
    (0 < h.count ∧ strncmpEq (h.buf ((h.head + histMax - 1) % histMax)) s 0 (histLen - 1) = true) ↔
      lines.head? = some line := by
  have count := refines.count
  have head := refines.head
  cases lines with
  | nil => exact iff_of_false (fun both => absurd both.1 (by rw [count]; decide)) (Option.some_ne_none line).symm
  | cons newest lines =>
      have some : 0 < h.count := by
        rw [count, List.length_cons]
        unfold histMax
        omega
      have sameIndex : (h.head + histMax * 2 - 1) % histMax = (h.head + histMax - 1) % histMax := by
        unfold histMax at head ⊢
        omega
      have recalls := refines.recalls 1
      rw [recallable_newest, histGet, if_neg (by omega), sameIndex] at recalls
      cases recalls with
      | some entry =>
          have fits := refines.short newest List.mem_cons_self
          rw [StringAt.strncmpEq_iff entry string (Nat.le_sub_one_of_lt fits) (Nat.le_sub_one_of_lt short),
            List.head?_cons, and_iff_right some, Option.some_inj]

/-- A line goes into the ring. -/
theorem HistoryRefines.added {h : History} {lines : List (List UInt8)} (refines : HistoryRefines h lines)
    {s : Nat → UInt8} {line : List UInt8} (string : StringAt s 0 line) (short : line.length < histLen) :
    HistoryRefines
      { buf := Function.update h.buf h.head (copyString (h.buf h.head) s 0 (histLen - 1))
        head := (h.head + 1) % histMax
        count := if h.count < histMax then h.count + 1 else h.count } (line :: lines) where
  head := Nat.mod_lt _ (by decide)
  count := by
    have count := refines.count
    dsimp only
    rw [List.length_cons]
    split_ifs <;> omega
  recalls back := by
    have count := refines.count
    have head := refines.head
    unfold histGet
    dsimp only
    by_cases isNewest : back = 1
    · subst isNewest
      have index : ((h.head + 1) % histMax + histMax * 2 - 1) % histMax = h.head := by
        unfold histMax at head ⊢
        omega
      rw [if_neg (by split_ifs <;> omega), index, recallable_newest, Function.update_self]
      exact .some (string.copy (Nat.le_sub_one_of_lt short) _)
    by_cases inside : 2 ≤ back ∧ back ≤ (if h.count < histMax then h.count + 1 else h.count)
    · have within : back ≤ histMax := by
        have bound := inside.2
        split_ifs at bound <;> omega
      have before : back - 1 ≤ h.count := by
        have bound := inside.2
        split_ifs at bound <;> omega
      have index : ((h.head + 1) % histMax + histMax * 2 - back) % histMax =
          (h.head + histMax * 2 - (back - 1)) % histMax := by
        unfold histMax at head within ⊢
        omega
      have other : (h.head + histMax * 2 - (back - 1)) % histMax ≠ h.head := by
        unfold histMax at head within ⊢
        omega
      have recalls := refines.recalls (back - 1)
      rw [histGet, if_neg (by omega)] at recalls
      rw [if_neg (by omega), index, Function.update_of_ne other, recallable_older line lines inside.1 within]
      exact recalls
    · have nothing : recallable (line :: lines) back = none := by
        by_cases isZero : back = 0
        · rw [isZero]
          exact recallable_zero _
        · refine recallable_none _ ?_
          rw [List.length_cons]
          split_ifs at inside <;> omega
      rw [if_pos (by omega), nothing]
      exact .none
  short other member := by
    rcases List.mem_cons.mp member with rfl | old
    · exact short
    · exact refines.short other old

theorem StringAt_zero {s : Nat → UInt8} {line : List UInt8} (string : StringAt s 0 line) : s 0 = 0 ↔ line = [] := by
  cases line with
  | nil => exact iff_of_true string rfl
  | cons c line =>
      obtain ⟨first, real, -⟩ := string
      rw [first]
      exact iff_of_false real (List.cons_ne_nil c line)

/-- `hist_push` of a line that was submitted. -/
theorem HistoryRefines.push {h : History} {submitted : List (List UInt8)}
    (refines : HistoryRefines h (history submitted)) {s : Nat → UInt8} {line : List UInt8}
    (string : StringAt s 0 line) (short : line.length < histLen) :
    HistoryRefines (histPush h s) (history (line :: submitted)) := by
  rw [history_cons]
  unfold histPush
  by_cases isEmpty : line = []
  · rw [if_pos ((StringAt_zero string).mpr isEmpty), if_pos (.inl isEmpty)]
    exact refines
  rw [if_neg fun zero => isEmpty ((StringAt_zero string).mp zero)]
  by_cases again : (history submitted).head? = some line
  · rw [if_pos ((refines.newest string short).mpr again), if_pos (.inr again)]
    exact refines
  · rw [if_neg fun same => again ((refines.newest string short).mp same), if_neg (not_or.mpr ⟨isEmpty, again⟩)]
    exact refines.added string short

/-! ## The line against the editor -/

/-- The buffer holds the line, and all writes to it were below `max`. -/
structure LineRefines (max : Nat) (l : Line) (e : Editor) : Prop where
  n : l.n = e.line.length
  cur : l.cur = e.cursor
  hist_pos : l.hist_pos = e.back
  holds : l.buf.Holds e.line
  nonzero : 0 ∉ e.line
  cursor_le : e.cursor ≤ e.line.length
  length_lt : e.line.length < max
  below : l.buf.Below max

/-- The loop copies as much of an entry as fits. -/
theorem recallEntry_spec (p : Nat → UInt8) {n : Nat} {text : List UInt8} (string : StringAt p n text) (left : Nat)
    (b : Buffer UInt8) : (recallEntry b p n left).2 = n + min left text.length ∧
      (∀ j, (recallEntry b p n left).1.cells j = if n ≤ j ∧ j < n + min left text.length then p j else b.cells j) ∧
      ∀ bound, b.Below bound → n + left ≤ bound → (recallEntry b p n left).1.Below bound := by
  induction left generalizing n text b with
  | zero =>
      refine ⟨?_, fun j => (if_neg ?_).symm, fun bound below _ => below⟩
      · rw [Nat.zero_min]
        rfl
      · rw [Nat.zero_min]
        omega
  | succ left ih =>
      rw [recallEntry]
      cases text with
      | nil =>
          have stop : p n = 0 := string
          rw [if_pos stop, List.length_nil, Nat.min_zero]
          exact ⟨rfl, fun j => (if_neg (by omega)).symm, fun bound below _ => below⟩
      | cons c text =>
          obtain ⟨first, real, rest⟩ := string
          rw [if_neg (by rw [first]; exact real)]
          obtain ⟨count, cells, below⟩ := ih rest (b.put n (p n))
          refine ⟨?_, fun j => ?_, fun bound isBelow fits => ?_⟩
          · rw [count, List.length_cons]
            omega
          · rw [cells, List.length_cons]
            by_cases here : j = n
            · subst here
              rw [if_neg (by omega), if_pos (by omega), Buffer.put_self]
            · rw [Buffer.put_of_ne _ here]
              by_cases inside : n + 1 ≤ j ∧ j < n + 1 + min left text.length
              · rw [if_pos inside, if_pos (by omega)]
              · rw [if_neg inside, if_neg (by omega)]
          · have here : n < bound := by omega
            exact below bound (isBelow.put here _) (by omega)

theorem LineRefines.recalled {max : Nat} {l : Line} {e : Editor} (refines : LineRefines max l e) (room : 2 ≤ max)
    {p : Nat → UInt8} {line : List UInt8} (string : StringAt p 0 line) (back : Nat) :
    LineRefines max (l.recalled max p back) (.recalled max line back) := by
  obtain ⟨count, cells, below⟩ := recallEntry_spec p string (max - 1) l.buf
  rw [Nat.zero_add, ← List.length_take] at count
  refine ⟨count, count, rfl, fun i inside => ?_, fun zero => ?_, Nat.le_refl _, ?_, ?_⟩
  · have short : i < (line.take (max - 1)).length := inside
    rw [List.length_take] at short
    have cell : (l.recalled max p back).buf.cells i = p i := by
      refine (cells i).trans (if_pos ⟨Nat.zero_le i, ?_⟩)
      rw [Nat.zero_add]
      exact short
    rw [cell]
    show (line.take (max - 1))[i]? = some (p i)
    rw [List.getElem?_take_of_lt (by omega), string.cells i (by omega), Nat.zero_add]
  · exact string.nonzero (List.mem_of_mem_take zero)
  · show (line.take (max - 1)).length < max
    rw [List.length_take]
    omega
  · exact below max refines.below (by omega)

/-- The character at the cursor goes. -/
theorem LineRefines.erase {max : Nat} {l : Line} {e : Editor} (refines : LineRefines max l e) {i : Nat}
    (inside : i < e.line.length) {cursor : Nat} (fits : cursor < e.line.length) :
    LineRefines max { l with buf := l.buf.shiftDown i (l.n - 1 - i), n := l.n - 1, cur := cursor }
      { e with line := e.line.eraseIdx i, cursor := cursor } := by
  obtain ⟨n, -, hist_pos, holds, nonzero, -, length_lt, below⟩ := refines
  have length := List.length_eraseIdx_of_lt inside
  rw [n]
  have nonzero' : 0 ∉ e.line.eraseIdx i := fun zero => nonzero (List.mem_of_mem_eraseIdx zero)
  refine ⟨length.symm, rfl, hist_pos, holds.erase inside, nonzero', ?_, ?_, ?_⟩
  · show cursor ≤ (e.line.eraseIdx i).length
    rw [length]
    exact Nat.le_sub_one_of_lt fits
  · show (e.line.eraseIdx i).length < max
    rw [length]
    omega
  · exact below.shiftDown (by omega)

/-- A character comes in at the cursor. -/
theorem LineRefines.insert {max : Nat} {l : Line} {e : Editor} (refines : LineRefines max l e) {c : UInt8}
    (real : c ≠ 0) (fits : e.line.length < max - 1) :
    LineRefines max ⟨(l.buf.shiftUp l.cur (l.n - l.cur)).put l.cur c, l.n + 1, l.cur + 1, 0⟩
      ⟨e.line.insertIdx e.cursor c, e.cursor + 1, 0⟩ := by
  obtain ⟨n, cur, -, holds, nonzero, cursor_le, -, below⟩ := refines
  have length := List.length_insertIdx_of_le_length cursor_le c
  rw [n, cur]
  refine ⟨length.symm, rfl, rfl, holds.insert cursor_le c, fun zero => ?_, ?_, ?_, ?_⟩
  · rcases (List.mem_insertIdx cursor_le).mp zero with same | old
    · exact real same.symm
    · exact nonzero old
  · show e.cursor + 1 ≤ (e.line.insertIdx e.cursor c).length
    rw [length]
    exact Nat.succ_le_succ cursor_le
  · show (e.line.insertIdx e.cursor c).length < max
    rw [length]
    omega
  · refine (below.shiftUp ?_).put ?_ c
    · omega
    · omega

/-- A key does to the buffer what it does to the line. -/
theorem LineRefines.key {max : Nat} {l : Line} {e : Editor} (refines : LineRefines max l e) (room : 2 ≤ max)
    {h : History} {lines : List (List UInt8)} (ring : HistoryRefines h lines) (c : UInt8) :
    LineRefines max (l.key max h c) (e.key max lines c) := by
  have same := refines
  obtain ⟨n, cur, hist_pos, holds, nonzero, cursor_le, length_lt, below⟩ := refines
  unfold Line.key Editor.key
  by_cases isBackspace : c = keyBackspace
  · rw [if_pos isBackspace, if_pos isBackspace, cur]
    split_ifs with positive
    · exact same.erase (by omega) (by omega)
    · exact same
  rw [if_neg isBackspace, if_neg isBackspace]
  by_cases isDel : c = keyDel
  · rw [if_pos isDel, if_pos isDel]
    split_ifs with inside
    · rw [cur, n] at inside
      have erased := same.erase inside inside
      rw [← cur] at erased
      rw [← cur]
      exact erased
    · rw [cur, n] at inside
      rw [List.eraseIdx_of_length_le (Nat.not_lt.mp inside)]
      exact same
  rw [if_neg isDel, if_neg isDel]
  by_cases isLeft : c = keyLeft
  · rw [if_pos isLeft, if_pos isLeft]
    split_ifs with positive
    · refine ⟨n, ?_, hist_pos, holds, nonzero, ?_, length_lt, below⟩
      · show l.cur - 1 = e.cursor - 1
        rw [cur]
      · exact Nat.le_trans (Nat.sub_le _ _) cursor_le
    · have atStart : e.cursor - 1 = e.cursor := by omega
      rw [atStart]
      exact same
  rw [if_neg isLeft, if_neg isLeft]
  by_cases isRight : c = keyRight
  · rw [if_pos isRight, if_pos isRight]
    split_ifs with inside
    · refine ⟨n, ?_, hist_pos, holds, nonzero, Nat.min_le_right _ _, length_lt, below⟩
      show l.cur + 1 = min (e.cursor + 1) e.line.length
      omega
    · have atEnd : min (e.cursor + 1) e.line.length = e.cursor := by omega
      rw [atEnd]
      exact same
  rw [if_neg isRight, if_neg isRight]
  by_cases isUp : c = keyUp
  · rw [if_pos isUp, if_pos isUp, hist_pos]
    have recalls := ring.recalls (e.back + 1)
    revert recalls
    cases histGet h (e.back + 1) with
    | none =>
        cases recallable lines (e.back + 1) with
        | none => exact fun _ => same
        | some line => exact fun recalls => by cases recalls
    | some buf =>
        cases recallable lines (e.back + 1) with
        | none => exact fun recalls => by cases recalls
        | some line =>
            intro recalls
            cases recalls with
            | some string => exact same.recalled room string _
  rw [if_neg isUp, if_neg isUp]
  by_cases isDown : c = keyDown
  · rw [if_pos isDown, if_pos isDown, hist_pos]
    by_cases live : e.back = 0
    · rw [if_pos live, if_pos live]
      exact same
    rw [if_neg live, if_neg live]
    have empty : LineRefines max ⟨l.buf, 0, 0, e.back - 1⟩ ⟨[], 0, e.back - 1⟩ :=
      ⟨rfl, rfl, rfl, fun i inside => absurd inside (Nat.not_lt_zero i), List.not_mem_nil, Nat.le_refl 0,
        Nat.lt_of_lt_of_le Nat.zero_lt_two room, below⟩
    dsimp only
    by_cases last : 0 < e.back - 1
    · rw [if_pos last]
      have recalls := ring.recalls (e.back - 1)
      revert recalls
      cases histGet h (e.back - 1) with
      | none =>
          cases recallable lines (e.back - 1) with
          | none => exact fun _ => empty
          | some line => exact fun recalls => by cases recalls
      | some buf =>
          cases recallable lines (e.back - 1) with
          | none => exact fun recalls => by cases recalls
          | some line =>
              intro recalls
              cases recalls with
              | some string => exact same.recalled room string _
    · have nothing : recallable lines (e.back - 1) = none := by
        rw [Nat.eq_zero_of_not_pos last]
        exact recallable_zero lines
      rw [if_neg last, nothing]
      exact empty
  rw [if_neg isDown, if_neg isDown]
  by_cases unprintable : c < 0x20 ∨ keyUp ≤ c
  · rw [if_pos unprintable, if_pos unprintable]
    exact same
  rw [if_neg unprintable, if_neg unprintable]
  by_cases fits : e.line.length < max - 1
  · rw [if_neg (by omega), if_pos fits]
    refine same.insert ?_ fits
    rintro rfl
    exact unprintable (.inl (by decide))
  · rw [if_pos (by omega), if_neg fits]
    exact same

/-! ## Runs -/

/-- A call that has returned: the buffer holds the line as a string, and all writes to it were below `max`. -/
def Returned (call : Nat × Buffer UInt8) (line : List UInt8) : Prop :=
  StringAt call.2.cells 0 line ∧ line.length < call.1 ∧ call.2.Below call.1

/-- A call under way, with a `max` between 2 and `HIST_LEN`. -/
def ReadingRefines (call : Nat × Line) (editor : Nat × Editor) : Prop :=
  call.1 = editor.1 ∧ 2 ≤ call.1 ∧ call.1 ≤ histLen ∧ LineRefines call.1 call.2 editor.2

/-- The shell does what the editor does: on the line under way, in what was returned, and in what can be
recalled. -/
structure Refines (s : Shell) (a : Session) : Prop where
  reading : Option.Rel ReadingRefines s.reading a.editor
  returned : List.Forall₂ Returned s.returned a.submitted
  hist : HistoryRefines s.hist (history a.submitted)

theorem refines_start : Refines .start .start where
  reading := .none
  returned := .nil
  hist := .init

/-- Enter submits the line. -/
theorem Refines.enter {s : Shell} {a : Session} (refines : Refines s a) {max : Nat} {l : Line} {e : Editor}
    (line : LineRefines max l e) (bound : max ≤ histLen) :
    Refines ⟨histPush s.hist (l.buf.put l.n 0).cells, none, (max, l.buf.put l.n 0) :: s.returned⟩
      ⟨none, e.line :: a.submitted⟩ := by
  have string : StringAt (l.buf.put l.n 0).cells 0 e.line := by
    rw [line.n]
    refine StringAt.of_cells (fun j inside => ?_) ?_ line.nonzero
    · rw [Nat.zero_add]
      exact line.holds.append_put 0 j inside
    · rw [Nat.zero_add, Buffer.put_self]
  refine ⟨.none, .cons ⟨string, line.length_lt, line.below.put ?_ 0⟩ refines.returned, ?_⟩
  · rw [line.n]
    exact line.length_lt
  · exact refines.hist.push string (Nat.lt_of_lt_of_le line.length_lt bound)

theorem Refines.step (s : Shell) (a : Session) (event : Event) (valid : event.Valid) (refines : Refines s a) :
    Refines (s.step event) (a.step event) := by
  have reading := refines.reading
  unfold Shell.step Session.step
  cases event with
  | call max buf =>
      dsimp only
      revert reading
      cases s.reading with
      | none =>
          cases a.editor with
          | none =>
              intro _
              refine ⟨.some ⟨rfl, valid.1, valid.2, ?_⟩, refines.returned, refines.hist⟩
              exact ⟨rfl, rfl, rfl, fun i inside => absurd inside (Nat.not_lt_zero i), List.not_mem_nil, Nat.le_refl 0,
                Nat.lt_of_lt_of_le Nat.zero_lt_two valid.1, fun i member => absurd member List.not_mem_nil⟩
          | some editor => exact fun related => by cases related
      | some call =>
          cases a.editor with
          | none => exact fun related => by cases related
          | some editor => exact fun _ => refines
  | key c =>
      dsimp only
      revert reading
      cases s.reading with
      | none =>
          cases a.editor with
          | none => exact fun _ => refines
          | some editor => exact fun related => by cases related
      | some call =>
          cases a.editor with
          | none => exact fun related => by cases related
          | some editor =>
              intro related
              obtain ⟨max, l⟩ := call
              obtain ⟨max', e⟩ := editor
              cases related with
              | some related =>
                  obtain ⟨rfl, room, bound, line⟩ := related
                  dsimp only at room bound line ⊢
                  split_ifs
                  · exact refines.enter line bound
                  · exact ⟨.some ⟨rfl, room, bound, line.key room refines.hist c⟩, refines.returned, refines.hist⟩

/-- Whatever is typed in however many calls, `read_line` does what the editor does. -/
theorem readLine_refines (events : List Event) (valid : ∀ event ∈ events, event.Valid) :
    Refines (Run.final Shell.step .start events) (Run.final Session.step .start events) :=
  Run.final_rel Refines.step refines_start valid

/-- A line is submitted, recalled and changed. -/
def recallAndErase : List Event :=
  [.call 80 fun _ => 0, .key 0x6C, .key 0x73, .key keyEnter, .call 8 fun _ => 0xFF, .key keyUp, .key keyBackspace]

theorem readLine_refines_recallAndErase :
    Refines (Run.final Shell.step .start recallAndErase) (Run.final Session.step .start recallAndErase) :=
  readLine_refines recallAndErase (by simp [recallAndErase, Event.Valid, histLen])

example : (Run.final Session.step .start recallAndErase).editor.map (fun call => call.2.line) = some [0x6C] := by decide

end Systrix.Console
