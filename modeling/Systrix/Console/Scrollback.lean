import Mathlib.Data.Nat.Bitwise
import Systrix.Console.Vga
import Systrix.Lib.Run

/-!
# What the console shows

The screen against the text that was printed, at the offset by which the view is scrolled back: for one
call, and over runs.
-/

namespace Systrix.Console

open LineHistory

/-- The screen is the text at the scroll offset, which does not go beyond the rows that are kept. -/
structure Shows (v : Vga) (t : ConsoleText) : Prop where
  kept : v.scroll_offset + vgaRows ≤ scrollbackRows
  screen : ∀ r < vgaRows, v.fb r = t.view vgaRows v.scroll_offset r

/-- The row above the window that ends `k` rows above the newest row, in its slot of the back-buffer: the
newest row has taken the slot when the window begins with the oldest row that is kept. -/
def rowAbove (t : ConsoleText) (k : Nat) : Row :=
  if k + vgaRows = scrollbackRows then t.row t.newest else t.row (t.newest - k - vgaRows)

section

variable {v : Vga} {t : ConsoleText}

theorem Shows.moveTo (shows : Shows v t) (col : Fin vgaCols) :
    Shows { v with cur_col := col } (t.moveTo col) := ⟨shows.kept, shows.screen⟩

/-- The cursor is at the line of the newest row. -/
theorem Follows.live_eq_newest (follows : Follows v t) {r : Nat} (line : r < vgaRows) :
    ((t.newest + 1 - vgaRows : Nat) + r : Int) = t.newest ↔ r = v.cur_row := by
  have isRow := follows.row
  have rows : vgaRows = 25 := rfl
  omega

theorem Shows.writeCell (shows : Shows v t) (follows : Follows v t) (x : Cell) :
    Shows (writeCell v x) (t.put x) := by
  refine ⟨shows.kept, fun r line => ?_⟩
  have before := shows.screen r line
  unfold Console.writeCell
  by_cases isLive : v.scroll_offset = 0
  · simp only [isLive, Text.view, if_true] at before ⊢
    by_cases here : r = v.cur_row
    · have newest := (follows.live_eq_newest line).mpr here
      rw [Text.live, newest] at before
      rw [Text.live, Text.put_newest, newest, t.put_row_self, ← here, Function.update_self, before, follows.col]
    · rw [Function.update_of_ne here, before, Text.live, Text.live, Text.put_newest]
      refine (t.put_row_of_ne x ?_).symm
      exact fun newest => here ((follows.live_eq_newest line).mp newest)
  · simp only [isLive, Text.view, if_false] at before ⊢
    rw [before]
    exact (t.window_put x (Nat.pos_of_ne_zero isLive) line).symm

/-- While the view is live, ending a row keeps the screen right. -/
theorem Shows.endRow (shows : Shows v t) (follows : Follows v t) (isLive : v.scroll_offset = 0) :
    Shows (endRow v) t.endRow := by
  have isRow := follows.row
  have rows : vgaRows = 25 := rfl
  have screen := shows.screen
  simp only [isLive, Text.view, if_true] at screen
  have live : (Console.endRow v).scroll_offset = 0 ∧
      ∀ r < vgaRows, (Console.endRow v).fb r = t.endRow.live vgaRows r := by
    by_cases room : v.cur_row < vgaRows - 1
    · rw [endRow_of_room room]
      refine ⟨isLive, fun r line => (screen r line).trans (congrArg t.row ?_)⟩
      change ((t.newest + 1 - vgaRows : Nat) + r : Int) = (t.newest + 1 + 1 - vgaRows : Nat) + r
      omega
    · rw [endRow_of_live room isLive]
      refine ⟨isLive, fun r line => ?_⟩
      change (if r < vgaRows - 1 then v.fb (r + 1) else if r < vgaRows then blankRow else v.fb r) = _
      by_cases moved : r < vgaRows - 1
      · rw [if_pos moved, screen (r + 1) (Nat.succ_lt_of_lt_pred moved)]
        refine congrArg t.row ?_
        change ((t.newest + 1 - vgaRows : Nat) + (r + 1 : Nat) : Int) = (t.newest + 1 + 1 - vgaRows : Nat) + r
        omega
      · rw [if_neg moved, if_pos line]
        refine (t.outside _ (.inr ?_)).symm
        change (t.newest : Int) < (t.newest + 1 + 1 - vgaRows : Nat) + r
        omega
  refine ⟨?_, fun r line => ?_⟩
  · rw [live.1]
    decide
  · rw [live.2 r line, live.1]
    exact (if_pos rfl).symm

theorem endRow_fb (v : Vga) (back : v.scroll_offset ≠ 0) :
    (endRow v).fb = v.fb ∧ (endRow v).scroll_offset = v.scroll_offset := by
  by_cases room : v.cur_row < vgaRows - 1
  · rw [endRow_of_room room]
    exact ⟨rfl, rfl⟩
  · rw [endRow_of_back room back]
    exact ⟨rfl, rfl⟩

/-- A row that ends behind a view that is scrolled back moves the text under the view. -/
theorem Shows.endRow_iff (shows : Shows v t) (back : v.scroll_offset ≠ 0) :
    Shows (Console.endRow v) t.endRow ↔
      t.endRow.Uniform vgaRows v.scroll_offset (t.endRow.row (t.endRow.newest - v.scroll_offset - vgaRows)) := by
  obtain ⟨fb, offset⟩ := endRow_fb v back
  have screen := shows.screen
  simp only [Text.view, back, if_false] at screen
  have lines : ∀ r : Nat, r < vgaRows → v.fb r = t.endRow.row (t.endRow.newest - v.scroll_offset - vgaRows + r) := by
    intro r line
    refine (screen r line).trans (congrArg t.row ?_)
    change (t.newest : Int) - v.scroll_offset + 1 - vgaRows + r = (t.newest + 1 : Nat) - v.scroll_offset - vgaRows + r
    omega
  have first := lines 0 (by decide)
  rw [Int.ofNat_zero, Int.add_zero] at first
  rw [← first, ← Text.drawnAbove_iff (by decide) fun r _ line => lines r line]
  constructor
  · intro shown r line
    have after := shown.screen r line
    rw [fb, offset, Text.view, if_neg back] at after
    exact after
  · intro right
    refine ⟨offset.symm ▸ shows.kept, fun r line => ?_⟩
    rw [fb, offset, Text.view, if_neg back]
    exact right r line

/-! ### Redrawing -/

/-- The lines that a redraw at offset `k` draws. -/
theorem Follows.redraw (follows : Follows v t) {k : Nat} (inText : k ≤ t.newest)
    (kept : k + vgaRows ≤ scrollbackRows) :
    (vgaRedraw { v with scroll_offset := k }).fb 0 = rowAbove t k ∧
      ∀ r : Nat, r < vgaRows → (0 < r ∨ k + vgaRows < scrollbackRows) →
        (vgaRedraw { v with scroll_offset := k }).fb r = t.row (t.newest - k - vgaRows + r) := by
  have total := follows.total
  have drawn : ∀ r : Nat, r < vgaRows →
      (vgaRedraw { v with scroll_offset := k }).fb r = v.back_buf ((t.newest - k + r) % scrollbackRows) := by
    intro r line
    have top : (v.buf_total - vgaRows - k + r : Int) = ((t.newest - k + r : Nat) : Int) := by omega
    change (if r < vgaRows then if (v.buf_total - vgaRows - k + r : Int) < 0 then blankRow
      else v.back_buf ((v.buf_total - vgaRows - k + r : Int).toNat % scrollbackRows) else v.fb r) = _
    rw [if_pos line, top, if_neg (by omega), Int.toNat_natCast]
  have below : ∀ r : Nat, r < vgaRows → t.newest - k + r ≤ v.buf_total := by
    intro r line
    omega
  have read : ∀ r : Nat, r < vgaRows → (0 < r ∨ k + vgaRows < scrollbackRows) →
      (vgaRedraw { v with scroll_offset := k }).fb r = t.row (t.newest - k - vgaRows + r) := by
    intro r line recent
    rw [drawn r line, follows.ring _ (below r line) (by omega)]
    refine congrArg t.row ?_
    omega
  refine ⟨?_, read⟩
  unfold rowAbove
  by_cases oldest : k + vgaRows = scrollbackRows
  · have newest : ((v.buf_total : Nat) - vgaRows : Int) = t.newest := by omega
    rw [if_pos oldest, drawn 0 (by decide), follows.ring.lost (by decide) (by omega), newest]
  · rw [if_neg oldest, read 0 (by decide) (.inr (Nat.lt_of_le_of_ne kept oldest)), Int.ofNat_zero, Int.add_zero]

/-- A redraw begins one row too high. -/
theorem Follows.redraw_iff (follows : Follows v t) {k : Nat} (inText : k ≤ t.newest)
    (kept : k + vgaRows ≤ scrollbackRows) :
    (∀ r < vgaRows, (vgaRedraw { v with scroll_offset := k }).fb r = t.view vgaRows k r) ↔
      t.Uniform vgaRows k (rowAbove t k) := by
  obtain ⟨first, lines⟩ := follows.redraw inText kept
  rw [← first]
  by_cases isLive : k = 0
  · subst isLive
    simp only [Text.view, if_true]
    by_cases few : t.newest + 1 < vgaRows
    · refine Text.drawnAbove_live_iff few fun r line => ?_
      rw [lines r line (.inr (by decide)), Int.ofNat_zero, Int.sub_zero]
    · rw [← Text.drawnAbove_iff (by decide) fun r some line => lines r line (.inl some)]
      refine forall₂_congr fun r _ => ?_
      rw [Text.live_eq_window (Nat.not_lt.mp few)]
  · simp only [Text.view, isLive, if_false]
    exact Text.drawnAbove_iff (by decide) fun r some line => lines r line (.inl some)

theorem inverted_vgaAttr : inverted vgaAttr ≠ vgaAttr := by decide

/-- What a redraw draws has the attribute of text. -/
theorem Follows.redraw_attr (follows : Follows v t) {k : Nat} (inText : k ≤ t.newest)
    (kept : k + vgaRows ≤ scrollbackRows) {r : Nat} (line : r < vgaRows) (c : Fin vgaCols) :
    ((vgaRedraw { v with scroll_offset := k }).fb r c).attr = vgaAttr := by
  obtain ⟨first, lines⟩ := follows.redraw inText kept
  cases r with
  | zero =>
      rw [first]
      unfold rowAbove
      split <;> exact follows.attrs _ _
  | succ r =>
      rw [lines (r + 1) line (.inl (Nat.succ_pos r))]
      exact follows.attrs _ _

theorem Follows.view_attr (follows : Follows v t) (k r : Nat) (c : Fin vgaCols) :
    (t.view vgaRows k r c).attr = vgaAttr := by
  unfold Text.view
  split <;> exact follows.attrs _ _

/-- The pointer is drawn into the screen. -/
theorem mouseShow_fb (v : Vga) :
    ((mouseShow v).fb v.mouse.row v.mouse.col).attr = inverted (v.fb v.mouse.row v.mouse.col).attr := by
  unfold mouseShow mouseDraw
  rw [if_pos rfl]
  simp only [Function.update_self]

theorem mouseRefresh_offset (v : Vga) : (mouseRefresh v).scroll_offset = v.scroll_offset := by
  unfold mouseRefresh mouseShow mouseDraw
  split <;> rfl

/-- A redraw at offset `k` is right when all rows are kept, when they and the row above them have the same text,
and when there is no pointer. -/
theorem Follows.shows_redraw_iff (follows : Follows v t) {k : Nat} (inText : k ≤ t.newest) :
    Shows (mouseRefresh (vgaRedraw { v with scroll_offset := k })) t ↔
      k + vgaRows ≤ scrollbackRows ∧ t.Uniform vgaRows k (rowAbove t k) ∧ v.mouse.ready = false := by
  have offset := mouseRefresh_offset (vgaRedraw { v with scroll_offset := k })
  have plain : v.mouse.ready = false →
      mouseRefresh (vgaRedraw { v with scroll_offset := k }) = vgaRedraw { v with scroll_offset := k } := by
    intro noPointer
    exact if_neg (Bool.eq_false_iff.mp noPointer)
  constructor
  · intro shows
    have kept := shows.kept
    have screen := shows.screen
    rw [offset] at kept screen
    have noPointer : v.mouse.ready = false := by
      by_contra pointer
      have shown := congrArg Cell.attr (congrFun (screen v.mouse.row v.mouse.row_lt) v.mouse.col)
      have drawn : mouseRefresh (vgaRedraw { v with scroll_offset := k }) =
          mouseShow (vgaRedraw { v with scroll_offset := k }) := if_pos (Bool.not_eq_false _ ▸ pointer)
      rw [drawn] at shown
      apply inverted_vgaAttr
      calc inverted vgaAttr
          = inverted ((vgaRedraw { v with scroll_offset := k }).fb v.mouse.row v.mouse.col).attr := by
            rw [follows.redraw_attr inText kept v.mouse.row_lt]
        _ = ((mouseShow (vgaRedraw { v with scroll_offset := k })).fb v.mouse.row v.mouse.col).attr :=
            (mouseShow_fb (vgaRedraw { v with scroll_offset := k })).symm
        _ = vgaAttr := shown.trans (follows.view_attr k _ _)
    rw [plain noPointer] at screen
    exact ⟨kept, (follows.redraw_iff inText kept).mp screen, noPointer⟩
  · rintro ⟨kept, uniform, noPointer⟩
    rw [plain noPointer]
    exact ⟨kept, (follows.redraw_iff inText kept).mpr uniform⟩

end

/-! ### One call -/

section

variable {v : Vga} {t : ConsoleText}

theorem Follows.redrawn (follows : Follows v t) {k : Nat} (inText : k ≤ t.newest) :
    Follows (mouseRefresh (vgaRedraw { v with scroll_offset := k })) t := by
  unfold mouseRefresh mouseShow mouseDraw
  split <;> exact ⟨follows.total, follows.next, follows.row, follows.col, inText, follows.ring, follows.attrs⟩

theorem follows_clear (v : Vga) : Follows (vgaClear v) (.empty blank vgaCols_pos) where
  total := rfl
  next := rfl
  row := rfl
  col := rfl
  offset := Nat.le_refl _
  ring := by
    intro i _ _
    exact if_pos (Nat.mod_lt _ (by decide))
  attrs := fun _ _ => rfl

theorem shows_clear (v : Vga) : Shows (vgaClear v) (.empty blank vgaCols_pos) := by
  refine ⟨?_, fun r line => if_pos line⟩
  change 0 + vgaRows ≤ scrollbackRows
  decide

/-- What printing a character does to the console and to the text. -/
theorem putchar_cases (follows : Follows v t) (c : UInt8) :
    (∃ col, vgaPutchar v c = { v with cur_col := col } ∧ printed t c = t.moveTo col) ∨
      (vgaPutchar v c = endRow v ∧ printed t c = t.endRow) ∨
      (∃ col, vgaPutchar v c = { writeCell v (cell c) with cur_col := col } ∧
        printed t c = (t.put (cell c)).moveTo col) ∨
      (vgaPutchar v c = endRow (writeCell v (cell c)) ∧ printed t c = (t.put (cell c)).endRow) := by
  unfold vgaPutchar printed
  by_cases isReturn : c = 0x0D
  · rw [if_pos isReturn, if_pos isReturn]
    exact .inl ⟨col0, rfl, rfl⟩
  · rw [if_neg isReturn, if_neg isReturn]
    by_cases isNewline : c = 0x0A
    · rw [if_pos isNewline, if_pos isNewline]
      exact .inr (.inl ⟨rfl, rfl⟩)
    · rw [if_neg isNewline, if_neg isNewline]
      have col : (writeCell v (cell c)).cur_col = t.col := follows.col
      unfold Text.write
      by_cases inside : t.col + 1 < vgaCols
      · have inside' : (writeCell v (cell c)).cur_col + 1 < vgaCols := col ▸ inside
        rw [dif_pos inside, dif_pos inside']
        refine .inr (.inr (.inl ⟨⟨t.col + 1, inside⟩, ?_, rfl⟩))
        congr 2
        exact congrArg (fun i : Fin vgaCols => i.val + 1) col
      · have outside : ¬(writeCell v (cell c)).cur_col + 1 < vgaCols := col ▸ inside
        rw [dif_neg inside, dif_neg outside]
        exact .inr (.inr (.inr ⟨rfl, rfl⟩))

theorem Follows.putchar (follows : Follows v t) (c : UInt8) : Follows (vgaPutchar v c) (printed t c) := by
  have written := follows.writeCell (show (cell c).attr = vgaAttr from rfl)
  rcases putchar_cases follows c with ⟨col, after, text⟩ | ⟨after, text⟩ | ⟨col, after, text⟩ | ⟨after, text⟩
  · rw [after, text]
    exact follows.moveTo col
  · rw [after, text]
    exact follows.endRow
  · rw [after, text]
    exact written.moveTo col
  · rw [after, text]
    exact written.endRow

/-- A character keeps the screen right, unless it ends a row behind a view that is scrolled back over text that
is not the same in all rows. -/
theorem Shows.putchar_iff (shows : Shows v t) (follows : Follows v t) (c : UInt8) :
    Shows (vgaPutchar v c) (printed t c) ↔
      v.scroll_offset = 0 ∨ (printed t c).newest = t.newest ∨
        (printed t c).Uniform vgaRows v.scroll_offset
          ((printed t c).row ((printed t c).newest - v.scroll_offset - vgaRows)) := by
  have written := shows.writeCell follows (cell c)
  have writtenFollows := follows.writeCell (show (cell c).attr = vgaAttr from rfl)
  have ended : ∀ {v' : Vga} {t' : ConsoleText}, Follows v' t' → Shows v' t' → v'.scroll_offset = v.scroll_offset →
      t'.newest = t.newest → (Shows (Console.endRow v') t'.endRow ↔ v.scroll_offset = 0 ∨
        t'.endRow.newest = t.newest ∨ t'.endRow.Uniform vgaRows v.scroll_offset
          (t'.endRow.row (t'.endRow.newest - v.scroll_offset - vgaRows))) := by
    intro v' t' follows' shows' offset newest
    have another : t'.endRow.newest ≠ t.newest := newest ▸ Nat.succ_ne_self _
    rw [← offset]
    by_cases isLive : v'.scroll_offset = 0
    · exact ⟨fun _ => .inl isLive, fun _ => shows'.endRow follows' isLive⟩
    · rw [shows'.endRow_iff isLive, or_iff_right isLive, or_iff_right another]
  rcases putchar_cases follows c with ⟨col, after, text⟩ | ⟨after, text⟩ | ⟨col, after, text⟩ | ⟨after, text⟩
  · rw [after, text]
    exact ⟨fun _ => .inr (.inl rfl), fun _ => shows.moveTo col⟩
  · rw [after, text]
    exact ended follows shows rfl rfl
  · rw [after, text]
    exact ⟨fun _ => .inr (.inl rfl), fun _ => written.moveTo col⟩
  · rw [after, text]
    exact ended writtenFollows written rfl rfl

/-- What a backspace does to the console and to the text. -/
theorem backspace_cases (follows : Follows v t) :
    (vgaBackspace v = v ∧ t.takeBack = t) ∨
      ∃ col, vgaBackspace v = writeCell { v with cur_col := col } blank ∧ t.takeBack = (t.moveTo col).put blank := by
  have same := follows.col
  by_cases first : t.col.val = 0
  · exact .inl ⟨if_pos (same.symm ▸ first), if_pos first⟩
  · refine .inr ⟨⟨t.col - 1, Nat.lt_of_le_of_lt (Nat.sub_le _ _) t.col.isLt⟩, ?_, if_neg first⟩
    refine (if_neg (same.symm ▸ first)).trans ?_
    congr 2
    exact Fin.ext (congrArg (fun i : Fin vgaCols => i.val - 1) same)

theorem Follows.backspace (follows : Follows v t) : Follows (vgaBackspace v) t.takeBack := by
  rcases backspace_cases follows with ⟨after, text⟩ | ⟨col, after, text⟩
  · rw [after, text]
    exact follows
  · rw [after, text]
    exact (follows.moveTo col).writeCell rfl

theorem Shows.backspace (shows : Shows v t) (follows : Follows v t) : Shows (vgaBackspace v) t.takeBack := by
  rcases backspace_cases follows with ⟨after, text⟩ | ⟨col, after, text⟩
  · rw [after, text]
    exact shows
  · rw [after, text]
    exact (shows.moveTo col).writeCell (follows.moveTo col) blank

end

/-! ## Runs -/

/-- The console beside the text it was given since it was cleared. -/
structure Scrollback where
  vga : Vga
  text : ConsoleText

namespace Scrollback

/-- A console that is cleared. -/
def start (v : Vga) : Scrollback := ⟨vgaClear v, .empty blank vgaCols_pos⟩

/-- One call. -/
def step (s : Scrollback) (op : ConsoleOp) : Scrollback := ⟨s.vga.step op, textStep s.text op⟩

/-- The screen after a call is the text at the scroll offset. -/
def ShowsAfter (s : Scrollback) (op : ConsoleOp) : Prop := Shows (s.step op).vga (s.step op).text

/-- A redraw at offset `k` draws only rows that are kept, these and the row above them have the same text, and
there is no pointer. -/
def Redraws (s : Scrollback) (k : Nat) : Prop :=
  k + vgaRows ≤ scrollbackRows ∧ s.text.Uniform vgaRows k (rowAbove s.text k) ∧ s.vga.mouse.ready = false

/-- A redraw draws rows that are all the same, and so does not show that it begins one row too high; and a row
that ends behind a view that is scrolled back moves only such rows under the view, which is not redrawn. -/
def Harmless (s : Scrollback) : ConsoleOp → Prop
  | .putchar c =>
      let text := printed s.text c
      s.vga.scroll_offset = 0 ∨ text.newest = s.text.newest ∨
        text.Uniform vgaRows s.vga.scroll_offset (text.row (text.newest - s.vga.scroll_offset - vgaRows))
  | .scrollUp => s.Redraws (min (s.vga.scroll_offset + scrollStep) s.text.newest)
  | .scrollDown => s.Redraws (s.vga.scroll_offset - scrollStep)
  | .snap => s.vga.scroll_offset = 0 ∨ s.Redraws 0
  | .backspace | .clear => True

/-- The counter of rows, an `int`, does not overflow. -/
def InRange (s : Scrollback) (op : ConsoleOp) : Prop := (s.step op).vga.buf_total < 2 ^ 31

instance (s : Scrollback) (op : ConsoleOp) : Decidable (s.InRange op) := inferInstanceAs (Decidable (_ < _))

variable {s : Scrollback}

theorem follows_step (follows : Follows s.vga s.text) (op : ConsoleOp) : Follows (s.step op).vga (s.step op).text := by
  cases op with
  | putchar c => exact follows.putchar c
  | backspace => exact follows.backspace
  | clear => exact follows_clear s.vga
  | scrollUp =>
      refine follows.redrawn (Nat.le_trans (Nat.min_le_right _ _) (Nat.le_of_eq ?_))
      rw [follows.total, Nat.add_sub_cancel]
  | scrollDown => exact follows.redrawn (Nat.le_trans (Nat.sub_le _ _) follows.offset)
  | snap =>
      change Follows (snapBack s.vga) s.text
      unfold snapBack
      split
      · exact follows.redrawn (Nat.zero_le _)
      · exact follows

/-- The console stands for the text, and shows it. -/
structure Inv (s : Scrollback) : Prop where
  follows : Follows s.vga s.text
  shows : Shows s.vga s.text

theorem inv_start (v : Vga) : (start v).Inv := ⟨follows_clear v, shows_clear v⟩

/-- A call leaves the screen right exactly when it is harmless. -/
theorem Inv.showsAfter_iff (inv : s.Inv) (op : ConsoleOp) : s.ShowsAfter op ↔ s.Harmless op := by
  have follows := inv.follows
  cases op with
  | putchar c => exact inv.shows.putchar_iff follows c
  | backspace => exact iff_of_true (inv.shows.backspace follows) trivial
  | clear => exact iff_of_true (shows_clear s.vga) trivial
  | scrollUp =>
      have inText : s.vga.buf_total - vgaRows = s.text.newest := by
        rw [follows.total, Nat.add_sub_cancel]
      change Shows (vgaScrollUp s.vga) s.text ↔ _
      unfold vgaScrollUp
      rw [inText]
      exact follows.shows_redraw_iff (Nat.min_le_right _ _)
  | scrollDown => exact follows.shows_redraw_iff (Nat.le_trans (Nat.sub_le _ _) follows.offset)
  | snap =>
      change Shows (snapBack s.vga) s.text ↔ _
      unfold snapBack
      by_cases back : s.vga.scroll_offset ≠ 0
      · rw [if_pos back, follows.shows_redraw_iff (Nat.zero_le _)]
        exact (or_iff_right back).symm
      · rw [if_neg back]
        exact iff_of_true inv.shows (.inl (not_not.mp back))

theorem Inv.step (inv : s.Inv) {op : ConsoleOp} (harmless : s.Harmless op) : (s.step op).Inv :=
  ⟨follows_step inv.follows op, (inv.showsAfter_iff op).mpr harmless⟩

/-- From a console that is cleared, the screen after every call is the text at the scroll offset exactly when
every call is harmless. -/
theorem shows_iff (v : Vga) (ops : List ConsoleOp) (inRange : Run.Meets step InRange (start v) ops) :
    Run.Meets step ShowsAfter (start v) ops ↔ Run.Meets step Harmless (start v) ops :=
  Run.meets_iff (I := Inv) (fun _ op inv _ => inv.showsAfter_iff op) (fun _ _ inv _ harmless => inv.step harmless)
    (inv_start v) inRange

/-- A console without a mouse, whose memory is zero. -/
def bare : Vga where
  back_buf := fun _ _ => ⟨0, 0⟩
  buf_next := 0
  buf_total := 0
  scroll_offset := 0
  cur_row := 0
  cur_col := col0
  fb := fun _ _ => ⟨0, 0⟩
  mouse := ⟨false, false, ⟨0, 0⟩, 12, ⟨40, by decide⟩, by decide⟩

/-- Scrolling while nothing is printed, and then printing. -/
theorem shows_iff_printing :
    Run.Meets step ShowsAfter (start bare) [.scrollDown, .putchar 0x41, .putchar 0x0A] :=
  (shows_iff bare [.scrollDown, .putchar 0x41, .putchar 0x0A] ⟨by decide, by decide, by decide, trivial⟩).mpr
    ⟨⟨by decide, fun _ _ => rfl, rfl⟩, .inl rfl, .inl rfl, trivial⟩

/-- Scrolling down on a screen that is live wipes off what was printed. -/
theorem scrollDown_wipes : ¬Run.Meets step ShowsAfter (start bare) [.putchar 0x41, .scrollDown] := by
  rintro ⟨-, shows, -⟩
  have first := congrFun (shows.screen 0 (by decide)) col0
  exact absurd first (by decide)

end Scrollback

end Systrix.Console
