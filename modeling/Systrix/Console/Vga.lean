import Systrix.Lib.LineHistory

/-!
# The text console

The console functions of `kernel/kernel.c`: what is printed goes to a ring of rows, and to the framebuffer
while the view is live.  The mirror on the serial port and the hardware cursor are left out, and a
cell is the pair of its attribute and its character.
-/

namespace Systrix.Console

open LineHistory

def vgaCols : Nat := 80

def vgaRows : Nat := 25

def vgaAttr : UInt8 := 0x0F

def scrollbackRows : Nat := 200

def scrollStep : Nat := 5

theorem vgaCols_pos : 0 < vgaCols := by decide

/-- The first column. -/
def col0 : Fin vgaCols := ⟨0, vgaCols_pos⟩

/-- A cell of the framebuffer. -/
structure Cell where
  attr : UInt8
  char : UInt8
  deriving DecidableEq

/-- `(VGA_ATTR << 8) | c` -/
def cell (c : UInt8) : Cell := ⟨vgaAttr, c⟩

/-- `(VGA_ATTR << 8) | ' '` -/
def blank : Cell := cell 0x20

abbrev Row := Fin vgaCols → Cell

def blankRow : Row := fun _ => blank

/-- The mouse pointer, which is always on the screen. -/
structure Mouse where
  ready : Bool
  visible : Bool
  saved : Cell
  row : Nat
  col : Fin vgaCols
  row_lt : row < vgaRows

/-- The variables of the console, and the framebuffer. -/
structure Vga where
  back_buf : Nat → Row
  buf_next : Nat
  buf_total : Nat
  scroll_offset : Nat
  cur_row : Nat
  cur_col : Fin vgaCols
  fb : Nat → Row
  mouse : Mouse

/-! ## The pointer -/

/-- The attribute with foreground and background exchanged, as in `mouse_draw`. -/
def inverted (attr : UInt8) : UInt8 := ((attr &&& 0x0F) <<< 4) ||| ((attr >>> 4) &&& 0x0F)

def mouseDraw (s : Vga) : Vga :=
  if s.mouse.visible then
    let under := s.fb s.mouse.row s.mouse.col
    let row := Function.update (s.fb s.mouse.row) s.mouse.col ⟨inverted under.attr, under.char⟩
    { s with fb := Function.update s.fb s.mouse.row row }
  else s

def mouseShow (s : Vga) : Vga :=
  mouseDraw { s with mouse := { s.mouse with saved := s.fb s.mouse.row s.mouse.col, visible := true } }

/-- `if (mouse_ready) mouse_show();` -/
def mouseRefresh (s : Vga) : Vga := if s.mouse.ready then mouseShow s else s

/-! ## Scrolling -/

def vgaRedraw (s : Vga) : Vga :=
  let top : Int := s.buf_total - vgaRows - s.scroll_offset
  { s with fb := fun r =>
      if r < vgaRows then
        if top + r < 0 then blankRow else s.back_buf ((top + r).toNat % scrollbackRows)
      else s.fb r }

def vgaScrollUp (s : Vga) : Vga :=
  let max_scroll := s.buf_total - vgaRows
  mouseRefresh (vgaRedraw { s with scroll_offset := min (s.scroll_offset + scrollStep) max_scroll })

def vgaScrollDown (s : Vga) : Vga :=
  mouseRefresh (vgaRedraw { s with scroll_offset := s.scroll_offset - scrollStep })

/-- What `read_key` does on a printable key: the view snaps back to the live screen. -/
def snapBack (s : Vga) : Vga :=
  if s.scroll_offset ≠ 0 then mouseRefresh (vgaRedraw { s with scroll_offset := 0 }) else s

/-- `vga_clear`, whose loop leaves the counters as they are set after it -/
def vgaClear (s : Vga) : Vga :=
  { s with
    back_buf := fun r => if r < scrollbackRows then blankRow else s.back_buf r
    buf_next := vgaRows % scrollbackRows
    buf_total := vgaRows
    scroll_offset := 0
    cur_row := 0
    cur_col := col0
    fb := fun r => if r < vgaRows then blankRow else s.fb r }

/-! ## Printing -/

def vgaFbScrollOne (s : Vga) : Vga :=
  { s with fb := fun r =>
      if r < vgaRows - 1 then s.fb (r + 1) else if r < vgaRows then blankRow else s.fb r }

def backbufAdvance (s : Vga) : Vga :=
  let buf_next := (s.buf_next + 1) % scrollbackRows
  { s with
    buf_next := buf_next
    buf_total := s.buf_total + 1
    back_buf := Function.update s.back_buf buf_next blankRow }

/-- The end of a row in `vga_putchar`. -/
def endRow (s : Vga) : Vga :=
  let s := backbufAdvance { s with cur_col := col0 }
  if s.cur_row < vgaRows - 1 then { s with cur_row := s.cur_row + 1 }
  else if s.scroll_offset = 0 then vgaFbScrollOne s else s

theorem endRow_of_room {v : Vga} (room : v.cur_row < vgaRows - 1) :
    endRow v = { backbufAdvance { v with cur_col := col0 } with cur_row := v.cur_row + 1 } := if_pos room

theorem endRow_of_live {v : Vga} (full : ¬v.cur_row < vgaRows - 1) (isLive : v.scroll_offset = 0) :
    endRow v = vgaFbScrollOne (backbufAdvance { v with cur_col := col0 }) := (if_neg full).trans (if_pos isLive)

theorem endRow_of_back {v : Vga} (full : ¬v.cur_row < vgaRows - 1) (back : v.scroll_offset ≠ 0) :
    endRow v = backbufAdvance { v with cur_col := col0 } := (if_neg full).trans (if_neg back)

/-- A cell written at the cursor to the back-buffer, and to the framebuffer while the view is live. -/
def writeCell (s : Vga) (x : Cell) : Vga :=
  { s with
    back_buf := Function.update s.back_buf s.buf_next (Function.update (s.back_buf s.buf_next) s.cur_col x)
    fb :=
      if s.scroll_offset = 0 then
        Function.update s.fb s.cur_row (Function.update (s.fb s.cur_row) s.cur_col x)
      else s.fb }

def vgaPutchar (s : Vga) (c : UInt8) : Vga :=
  if c = 0x0D then { s with cur_col := col0 }
  else if c = 0x0A then endRow s
  else
    let s := writeCell s (cell c)
    if inside : s.cur_col + 1 < vgaCols then { s with cur_col := ⟨s.cur_col + 1, inside⟩ } else endRow s

def vgaBackspace (s : Vga) : Vga :=
  if s.cur_col.val = 0 then s
  else
    writeCell { s with cur_col := ⟨s.cur_col - 1, Nat.lt_of_le_of_lt (Nat.sub_le _ _) s.cur_col.isLt⟩ } blank

/-! ## Calls -/

/-- A call of the console. -/
inductive ConsoleOp where
  | putchar (c : UInt8)
  | backspace
  | clear
  | scrollUp
  | scrollDown
  | snap

/-- One call. -/
def Vga.step (s : Vga) : ConsoleOp → Vga
  | .putchar c => vgaPutchar s c
  | .backspace => vgaBackspace s
  | .clear => vgaClear s
  | .scrollUp => vgaScrollUp s
  | .scrollDown => vgaScrollDown s
  | .snap => snapBack s

/-- The text of the console. -/
abbrev ConsoleText := Text blank vgaCols

/-- The text after a character is printed. -/
def printed (t : ConsoleText) (c : UInt8) : ConsoleText :=
  if c = 0x0D then t.moveTo col0 else if c = 0x0A then t.endRow else t.write (cell c)

/-- The text after a call. -/
def textStep (t : ConsoleText) : ConsoleOp → ConsoleText
  | .putchar c => printed t c
  | .backspace => t.takeBack
  | .clear => .empty blank vgaCols_pos
  | .scrollUp | .scrollDown | .snap => t

/-! ## The console keeps the text -/

/-- The variables of the console stand for the text. -/
structure Follows (v : Vga) (t : ConsoleText) : Prop where
  total : v.buf_total = t.newest + vgaRows
  next : v.buf_next = v.buf_total % scrollbackRows
  row : v.cur_row = min t.newest (vgaRows - 1)
  col : v.cur_col = t.col
  offset : v.scroll_offset ≤ t.newest
  ring : Holds scrollbackRows v.back_buf (fun i => t.row (i - vgaRows)) v.buf_total
  attrs : ∀ i c, (t.row i c).attr = vgaAttr

section

variable {v : Vga} {t : ConsoleText}

theorem Follows.moveTo (follows : Follows v t) (col : Fin vgaCols) :
    Follows { v with cur_col := col } (t.moveTo col) :=
  ⟨follows.total, follows.next, follows.row, rfl, follows.offset, follows.ring, follows.attrs⟩

theorem Follows.newestRow (follows : Follows v t) : v.back_buf v.buf_next = t.row t.newest := by
  rw [follows.next, follows.ring v.buf_total (Nat.le_refl _) (Nat.lt_add_of_pos_right (by decide)), follows.total]
  refine congrArg t.row ?_
  omega

theorem Follows.writeCell (follows : Follows v t) {x : Cell} (attr : x.attr = vgaAttr) :
    Follows (writeCell v x) (t.put x) where
  total := follows.total
  next := follows.next
  row := follows.row
  col := follows.col
  offset := follows.offset
  ring := by
    have total := follows.total
    have newest : ((v.buf_total : Nat) - vgaRows : Int) = t.newest := by omega
    rw [Console.writeCell, follows.newestRow, follows.next, follows.col]
    refine follows.ring.update _ ?_ ?_
    · intro i below
      exact t.put_row_of_ne x (by omega)
    · rw [newest]
      exact t.put_row_self x
  attrs := by
    intro i c
    by_cases isNewest : i = t.newest
    · rw [isNewest, t.put_row_self]
      by_cases isCol : c = t.col
      · rw [isCol, Function.update_self]
        exact attr
      · rw [Function.update_of_ne isCol]
        exact follows.attrs _ _
    · rw [t.put_row_of_ne x isNewest]
      exact follows.attrs _ _

theorem Follows.endRow (follows : Follows v t) : Follows (endRow v) t.endRow := by
  have total : v.buf_total + 1 = t.newest + 1 + vgaRows := by
    rw [follows.total]
    omega
  have next : (v.buf_next + 1) % scrollbackRows = (v.buf_total + 1) % scrollbackRows := by
    rw [follows.next, Nat.mod_add_mod]
  have offset : v.scroll_offset ≤ t.newest + 1 := Nat.le_succ_of_le follows.offset
  have isRow := follows.row
  have ring : Holds scrollbackRows (Function.update v.back_buf ((v.buf_next + 1) % scrollbackRows) blankRow)
      (fun i => t.row (i - vgaRows)) (v.buf_total + 1) := by
    rw [next]
    refine follows.ring.advance _ (fun _ _ => rfl) (t.outside _ (.inr ?_))
    omega
  by_cases room : v.cur_row < vgaRows - 1
  · rw [endRow_of_room room]
    refine ⟨total, next, ?_, rfl, offset, ring, follows.attrs⟩
    change v.cur_row + 1 = min (t.newest + 1) (vgaRows - 1)
    omega
  · have last : v.cur_row = min (t.newest + 1) (vgaRows - 1) := by omega
    by_cases isLive : v.scroll_offset = 0
    · rw [endRow_of_live room isLive]
      exact ⟨total, next, last, rfl, offset, ring, follows.attrs⟩
    · rw [endRow_of_back room isLive]
      exact ⟨total, next, last, rfl, offset, ring, follows.attrs⟩

end

end Systrix.Console
