import Systrix.Lib.Machine
import Systrix.Lib.OpenRing
import Systrix.Lib.Run

/-!
# Input rings

The key and mouse rings of `kernel/input.c`, with the repetition of a key that is held.  The pad is a single snapshot
and no ring, and is left out.
-/

namespace Systrix.Input

open Machine

def keyBufSize : Nat := 64

def mouseBufSize : Nat := 32

def repeatDelayTicks : Nat := 500

def repeatRateTicks : Nat := 60

/-- `KeyEvent` -/
structure KeyEvent where
  scancode : UInt8
  ascii : UInt8
  mods : UInt8
  deriving DecidableEq

/-- `MouseEvent` -/
structure MouseEvent where
  dx : Int
  dy : Int
  buttons : UInt8
  deriving DecidableEq

/-- The variables of `input.c`; a ring holds `key_ring`, `key_head` and `key_tail`, or those of the mouse. -/
structure InputState where
  key : OpenRing KeyEvent
  mou : OpenRing MouseEvent
  held_scancode : UInt8
  held_ascii : UInt8
  held_mods : UInt8
  held_since : Nat
  held_last_rep : Nat
  inp_shift : UInt8
  inp_ctrl : UInt8
  inp_caps : UInt8
  pit_ticks : Nat

/-- The variables when the kernel starts. -/
def InputState.start : InputState where
  key := ⟨fun _ => ⟨0, 0, 0⟩, 0, 0⟩
  mou := ⟨fun _ => ⟨0, 0, 0⟩, 0, 0⟩
  held_scancode := 0
  held_ascii := 0
  held_mods := 0
  held_since := 0
  held_last_rep := 0
  inp_shift := 0
  inp_ctrl := 0
  inp_caps := 0
  pit_ticks := 0

variable (s : InputState)

/-- The index behind another one, `(i + 1) & (size - 1)`. -/
def nextIndex (size i : Nat) : Nat := (i + 1) &&& (size - 1)

/-- The modifiers of a key event. -/
def modifiers : UInt8 :=
  (if s.inp_shift ≠ 0 then 1 else 0) ||| (if s.inp_ctrl ≠ 0 then 2 else 0) ||| (if s.inp_caps ≠ 0 then 8 else 0)

def inputPushKey (scancode ascii : UInt8) : InputState :=
  let mods := modifiers s
  let next := nextIndex keyBufSize s.key.tail
  if next = s.key.head then s
  else { s with
    key := ⟨Function.update s.key.slots s.key.tail ⟨scancode, ascii, mods⟩, s.key.head, next⟩
    held_scancode := scancode
    held_ascii := ascii
    held_mods := mods
    held_since := s.pit_ticks
    held_last_rep := s.pit_ticks }

def inputKeyRelease : InputState := { s with held_scancode := 0, held_ascii := 0 }

def inputModUpdate (shift ctrl caps : UInt8) : InputState := { s with inp_shift := shift, inp_ctrl := ctrl, inp_caps := caps }

def inputKeyRepeatTick : InputState :=
  if s.held_scancode = 0 then s
  else
    let now := s.pit_ticks
    let elapsed := sub64 now s.held_since
    if elapsed < repeatDelayTicks then s
    else if repeatRateTicks ≤ sub64 now s.held_last_rep then
      let s := { s with held_last_rep := now }
      let next := nextIndex keyBufSize s.key.tail
      if next = s.key.head then s
      else { s with
        key := ⟨Function.update s.key.slots s.key.tail ⟨s.held_scancode, s.held_ascii, s.held_mods⟩, s.key.head, next⟩ }
    else s

def inputPushMouse (dx dy : Int) (buttons : UInt8) : InputState :=
  let next := nextIndex mouseBufSize s.mou.tail
  let (head, next) :=
    if next = s.mou.head then (nextIndex mouseBufSize s.mou.head, nextIndex mouseBufSize s.mou.tail)
    else (s.mou.head, next)
  { s with mou := ⟨Function.update s.mou.slots s.mou.tail ⟨dx, dy, buttons⟩, head, next⟩ }

/-- The loop of both polls over the events that are left, for at most `max_events` of them. -/
def drain {Event : Type} (size : Nat) : (max_events : Nat) → OpenRing Event → List Event × OpenRing Event
  | 0, ring => ([], ring)
  | max_events + 1, ring =>
      if ring.head ≠ ring.tail then
        let (rest, ring') := drain size max_events ⟨ring.slots, nextIndex size ring.head, ring.tail⟩
        (ring.slots ring.head :: rest, ring')
      else ([], ring)

/-- `sys_poll_keys`: the events it copies to `buf`, which is `NULL` when `buf` is false. -/
def sysPollKeys (buf : Bool) (max_events : Nat) : List KeyEvent × InputState :=
  let s := inputKeyRepeatTick s
  if !buf || max_events = 0 then ([], s)
  else
    let (out, key) := drain keyBufSize max_events s.key
    (out, { s with key := key })

/-- `sys_poll_mouse`: the events it copies to `buf`, which is `NULL` when `buf` is false. -/
def sysPollMouse (buf : Bool) (max_events : Nat) : List MouseEvent × InputState :=
  if !buf || max_events = 0 then ([], s)
  else
    let (out, mou) := drain mouseBufSize max_events s.mou
    (out, { s with mou := mou })

end Systrix.Input

/-!
## What the polls deliver

The polls deliver the key events that found room, in order and each of them once, and of the mouse events the latest
ones that were not read yet.  Both are stated on the events pushed so far, whatever calls come in between.
-/

namespace Systrix.Input

open Machine Run

/-! ## The rings of the source -/

theorem nextIndex_key (i : Nat) : nextIndex keyBufSize i = (i + 1) % keyBufSize := Nat.and_two_pow_sub_one_eq_mod (i + 1) 6

theorem nextIndex_mouse (i : Nat) : nextIndex mouseBufSize i = (i + 1) % mouseBufSize :=
  Nat.and_two_pow_sub_one_eq_mod (i + 1) 5

/-- A poll takes the oldest events, as many as there are and as it has room for. -/
theorem drain_spec {Event : Type} {size : Nat} (next : ∀ i, nextIndex size i = (i + 1) % size) (max_events : Nat)
    {ring : OpenRing Event} (valid : ring.Valid size) :
    (drain size max_events ring).1 = (ring.contents size).take max_events ∧
      (drain size max_events ring).2.contents size =
        (ring.contents size).drop (drain size max_events ring).1.length ∧
      (drain size max_events ring).2.Valid size := by
  induction max_events generalizing ring with
  | zero => exact ⟨rfl, rfl, valid⟩
  | succ max_events ih =>
    unfold drain
    by_cases some : ring.head ≠ ring.tail
    · obtain ⟨out, left, valid'⟩ := ih valid.pop
      rw [if_pos some, next, valid.contents_pop some]
      exact ⟨congrArg _ out, left, valid'⟩
    · have none := valid.contents_eq_nil_iff.mpr (not_not.mp some)
      rw [if_neg some]
      refine ⟨?_, rfl, valid⟩
      rw [none, List.take_nil]

/-- How many events a poll has room for. -/
def room (buf : Bool) (max_events : Nat) : Nat := if buf then max_events else 0

/-- A missing buffer has no room. -/
theorem drain_room {Event : Type} (size : Nat) (buf : Bool) (max_events : Nat) (ring : OpenRing Event) :
    drain size (room buf max_events) ring = if !buf || max_events = 0 then ([], ring) else drain size max_events ring := by
  unfold room
  cases buf with
  | false => rfl
  | true =>
    cases max_events with
    | zero => rfl
    | succ max_events => rfl

variable (s : InputState)

/-- The test that keeps a key event out. -/
def KeyFull : Prop := nextIndex keyBufSize s.key.tail = s.key.head

instance : Decidable (KeyFull s) := inferInstanceAs (Decidable (_ = _))

theorem keyFull_iff : KeyFull s ↔ s.key.Full keyBufSize := by
  rw [KeyFull, nextIndex_key, OpenRing.Full]

/-- The event that `input_key_repeat_tick` pushes. -/
def repeatedKey : List KeyEvent :=
  if s.held_scancode ≠ 0 ∧ repeatDelayTicks ≤ sub64 s.pit_ticks s.held_since ∧
      repeatRateTicks ≤ sub64 s.pit_ticks s.held_last_rep then
    [⟨s.held_scancode, s.held_ascii, s.held_mods⟩]
  else []

/-- Key events pushed one after another, as long as there is room. -/
def pushAll (ring : OpenRing KeyEvent) (events : List KeyEvent) : OpenRing KeyEvent :=
  events.foldl (fun ring event => if ring.Full keyBufSize then ring else ring.push keyBufSize event) ring

/-- Mouse events pushed one after another, the oldest ones making room. -/
def slideAll (ring : OpenRing MouseEvent) (moves : List MouseEvent) : OpenRing MouseEvent :=
  moves.foldl (fun ring move =>
    (if ring.Full mouseBufSize then ring.pop mouseBufSize else ring).push mouseBufSize move) ring

theorem pushAll_singleton (ring : OpenRing KeyEvent) (event : KeyEvent) :
    pushAll ring [event] = if ring.Full keyBufSize then ring else ring.push keyBufSize event := rfl

/-- What a push does to the rings. -/
theorem inputPushKey_rings (scancode ascii : UInt8) :
    (inputPushKey s scancode ascii).key = pushAll s.key [⟨scancode, ascii, modifiers s⟩] ∧
      (inputPushKey s scancode ascii).mou = s.mou := by
  unfold inputPushKey
  dsimp only
  rw [nextIndex_key, pushAll_singleton]
  by_cases full : s.key.Full keyBufSize
  · rw [if_pos full, if_pos (show (s.key.tail + 1) % keyBufSize = s.key.head from full)]
    exact ⟨rfl, rfl⟩
  · rw [if_neg full, if_neg (show ¬ (s.key.tail + 1) % keyBufSize = s.key.head from full)]
    exact ⟨rfl, rfl⟩

theorem inputKeyRepeatTick_rings :
    (inputKeyRepeatTick s).key = pushAll s.key (repeatedKey s) ∧ (inputKeyRepeatTick s).mou = s.mou := by
  unfold inputKeyRepeatTick
  by_cases held : s.held_scancode = 0
  · have none : repeatedKey s = [] := if_neg fun all => all.1 held
    rw [if_pos held, none]
    exact ⟨rfl, rfl⟩
  · rw [if_neg held]
    by_cases early : sub64 s.pit_ticks s.held_since < repeatDelayTicks
    · have none : repeatedKey s = [] := if_neg fun all => absurd early (Nat.not_lt.mpr all.2.1)
      rw [if_pos early, none]
      exact ⟨rfl, rfl⟩
    · rw [if_neg early]
      by_cases due : repeatRateTicks ≤ sub64 s.pit_ticks s.held_last_rep
      · have one : repeatedKey s = [⟨s.held_scancode, s.held_ascii, s.held_mods⟩] :=
          if_pos ⟨held, Nat.not_lt.mp early, due⟩
        rw [if_pos due, one, pushAll_singleton]
        dsimp only
        rw [nextIndex_key]
        by_cases full : s.key.Full keyBufSize
        · rw [if_pos full, if_pos (show (s.key.tail + 1) % keyBufSize = s.key.head from full)]
          exact ⟨rfl, rfl⟩
        · rw [if_neg full, if_neg (show ¬ (s.key.tail + 1) % keyBufSize = s.key.head from full)]
          exact ⟨rfl, rfl⟩
      · have none : repeatedKey s = [] := if_neg fun all => due all.2.2
        rw [if_neg due, none]
        exact ⟨rfl, rfl⟩

theorem inputPushMouse_rings (dx dy : Int) (buttons : UInt8) :
    (inputPushMouse s dx dy buttons).key = s.key ∧
      (inputPushMouse s dx dy buttons).mou =
        (if s.mou.Full mouseBufSize then s.mou.pop mouseBufSize else s.mou).push mouseBufSize ⟨dx, dy, buttons⟩ := by
  unfold inputPushMouse
  dsimp only
  rw [nextIndex_mouse, nextIndex_mouse]
  by_cases full : s.mou.Full mouseBufSize
  · rw [if_pos full, if_pos (show (s.mou.tail + 1) % mouseBufSize = s.mou.head from full)]
    exact ⟨rfl, rfl⟩
  · rw [if_neg full, if_neg (show ¬ (s.mou.tail + 1) % mouseBufSize = s.mou.head from full)]
    exact ⟨rfl, rfl⟩

/-! ## Histories -/

/-- What happens to the rings: the calls of the drivers, the timer, and the system calls. -/
inductive Op where
  | timer
  | pushKey (scancode ascii : UInt8)
  | keyRelease
  | modUpdate (shift ctrl caps : UInt8)
  | repeatTick
  | pushMouse (dx dy : Int) (buttons : UInt8)
  | pollKeys (buf : Bool) (max_events : Nat)
  | pollMouse (buf : Bool) (max_events : Nat)

/-- The events that a poll delivers. -/
structure Delivery where
  keys : List KeyEvent
  moves : List MouseEvent

/-- What an operation delivers, and the variables after it. -/
def InputState.run : Op → Delivery × InputState
  | .timer => (⟨[], []⟩, { s with pit_ticks := u64 (s.pit_ticks + 1) })
  | .pushKey scancode ascii => (⟨[], []⟩, inputPushKey s scancode ascii)
  | .keyRelease => (⟨[], []⟩, inputKeyRelease s)
  | .modUpdate shift ctrl caps => (⟨[], []⟩, inputModUpdate s shift ctrl caps)
  | .repeatTick => (⟨[], []⟩, inputKeyRepeatTick s)
  | .pushMouse dx dy buttons => (⟨[], []⟩, inputPushMouse s dx dy buttons)
  | .pollKeys buf max_events =>
      let (keys, s) := sysPollKeys s buf max_events
      (⟨keys, []⟩, s)
  | .pollMouse buf max_events =>
      let (moves, s) := sysPollMouse s buf max_events
      (⟨[], moves⟩, s)

/-- The key event that an operation pushes. -/
def pushedKeys : Op → List KeyEvent
  | .pushKey scancode ascii => [⟨scancode, ascii, modifiers s⟩]
  | .repeatTick => repeatedKey s
  | .pollKeys _ _ => repeatedKey s
  | _ => []

/-- The mouse event that an operation pushes. -/
def pushedMoves : Op → List MouseEvent
  | .pushMouse dx dy buttons => [⟨dx, dy, buttons⟩]
  | _ => []

/-- How many key events an operation has room for. -/
def keyRoom : Op → Nat
  | .pollKeys buf max_events => room buf max_events
  | _ => 0

/-- How many mouse events an operation has room for. -/
def moveRoom : Op → Nat
  | .pollMouse buf max_events => room buf max_events
  | _ => 0

theorem length_pushedKeys (op : Op) : (pushedKeys s op).length ≤ 1 := by
  have repeated : (repeatedKey s).length ≤ 1 := by
    unfold repeatedKey
    split
    · exact Nat.le_refl 1
    · exact Nat.zero_le 1
  cases op with
  | pushKey scancode ascii => exact Nat.le_refl 1
  | repeatTick => exact repeated
  | pollKeys buf max_events => exact repeated
  | _ => exact Nat.zero_le 1

theorem length_pushedMoves (op : Op) : (pushedMoves op).length ≤ 1 := by
  cases op with
  | pushMouse dx dy buttons => exact Nat.le_refl 1
  | _ => exact Nat.zero_le 1

/-- No operation pushes and polls the mouse. -/
theorem pushedMoves_or_moveRoom (op : Op) : pushedMoves op = [] ∨ moveRoom op = 0 := by
  cases op with
  | pushMouse dx dy buttons => exact .inr rfl
  | _ => exact .inl rfl

/-- Every operation pushes its key event on the ring and then takes as many as it has room for. -/
theorem run_keys (op : Op) :
    ((s.run op).1.keys, (s.run op).2.key) = drain keyBufSize (keyRoom op) (pushAll s.key (pushedKeys s op)) := by
  cases op with
  | pushKey scancode ascii => exact congrArg (([] : List KeyEvent), ·) (inputPushKey_rings s scancode ascii).1
  | repeatTick => exact congrArg (([] : List KeyEvent), ·) (inputKeyRepeatTick_rings s).1
  | pushMouse dx dy buttons => exact congrArg (([] : List KeyEvent), ·) (inputPushMouse_rings s dx dy buttons).1
  | pollKeys buf max_events =>
    rw [keyRoom, pushedKeys, drain_room, ← (inputKeyRepeatTick_rings s).1]
    unfold InputState.run sysPollKeys
    dsimp only
    split <;> rfl
  | pollMouse buf max_events =>
    change _ = (([] : List KeyEvent), s.key)
    unfold InputState.run sysPollMouse
    dsimp only
    split <;> rfl
  | _ => rfl

/-- The same for the mouse, where the oldest event makes room. -/
theorem run_moves (op : Op) :
    ((s.run op).1.moves, (s.run op).2.mou) = drain mouseBufSize (moveRoom op) (slideAll s.mou (pushedMoves op)) := by
  cases op with
  | pushKey scancode ascii => exact congrArg (([] : List MouseEvent), ·) (inputPushKey_rings s scancode ascii).2
  | repeatTick => exact congrArg (([] : List MouseEvent), ·) (inputKeyRepeatTick_rings s).2
  | pushMouse dx dy buttons => exact congrArg (([] : List MouseEvent), ·) (inputPushMouse_rings s dx dy buttons).2
  | pollKeys buf max_events =>
    have kept := (inputKeyRepeatTick_rings s).2
    change _ = (([] : List MouseEvent), s.mou)
    unfold InputState.run sysPollKeys
    dsimp only
    split <;> exact congrArg (([] : List MouseEvent), ·) kept
  | pollMouse buf max_events =>
    change _ = drain mouseBufSize (room buf max_events) s.mou
    rw [drain_room]
    unfold InputState.run sysPollMouse
    dsimp only
    split <;> rfl
  | _ => rfl

/-- The variables, and what was pushed and delivered so far. -/
structure History where
  input : InputState
  /-- The pushed key events that found room. -/
  accepted : List KeyEvent
  /-- The key events that the polls delivered. -/
  keysOut : List KeyEvent
  /-- The pushed mouse events. -/
  moves : List MouseEvent
  /-- The mouse events that the polls delivered. -/
  movesOut : List MouseEvent
  /-- How many mouse events were pushed up to the last one that was delivered. -/
  movesRead : Nat

namespace History

variable (h : History)

/-- The accepted key events that were not delivered yet. -/
def unreadKeys : List KeyEvent := h.accepted.drop h.keysOut.length

/-- The mouse events behind the last one delivered, as far as the ring can hold them. -/
def unreadMoves : List MouseEvent := latest (mouseBufSize - 1) (h.moves.drop h.movesRead)

/-- An operation in the history. -/
def step (op : Op) : History :=
  let delivery := (h.input.run op).1
  { input := (h.input.run op).2
    accepted := h.accepted ++ if KeyFull h.input then [] else pushedKeys h.input op
    keysOut := h.keysOut ++ delivery.keys
    moves := h.moves ++ pushedMoves op
    movesOut := h.movesOut ++ delivery.moves
    movesRead :=
      if delivery.moves = [] then h.movesRead
      else h.moves.length - h.unreadMoves.length + delivery.moves.length }

/-- Nothing has happened. -/
def start : History := ⟨.start, [], [], [], [], 0⟩

/-- What an operation has to deliver: of the key events the oldest ones that were accepted, its own included, and are
unread, and of the mouse events the oldest of the latest unread ones. -/
def due (op : Op) : Delivery where
  keys := ((h.step op).accepted.drop h.keysOut.length).take (keyRoom op)
  moves := h.unreadMoves.take (moveRoom op)

/-- The rings hold what is unread. -/
structure Sound : Prop where
  keyValid : h.input.key.Valid keyBufSize
  mouValid : h.input.mou.Valid mouseBufSize
  keys : h.input.key.contents keyBufSize = h.unreadKeys
  moves : h.input.mou.contents mouseBufSize = h.unreadMoves
  keysOut_eq : h.keysOut = h.accepted.take h.keysOut.length
  movesOut_sublist : List.Sublist h.movesOut (h.moves.take h.movesRead)
  movesRead_le : h.movesRead ≤ h.moves.length

variable {h}

theorem Sound.keysOut_le (sound : h.Sound) : h.keysOut.length ≤ h.accepted.length := by
  rw [sound.keysOut_eq, List.length_take]
  exact Nat.min_le_right _ _

theorem Sound.start : Sound .start where
  keyValid := ⟨by decide, by decide⟩
  mouValid := ⟨by decide, by decide⟩
  keys := rfl
  moves := rfl
  keysOut_eq := rfl
  movesOut_sublist := List.Sublist.slnil
  movesRead_le := Nat.le_refl 0

/-- Pushing a key event, or none. -/
theorem Sound.pushAll (sound : h.Sound) {events : List KeyEvent} (one : events.length ≤ 1) :
    (pushAll h.input.key events).Valid keyBufSize ∧
      (pushAll h.input.key events).contents keyBufSize =
        (h.accepted ++ if KeyFull h.input then [] else events).drop h.keysOut.length := by
  rw [List.drop_append_of_le_length sound.keysOut_le, ← History.unreadKeys, ← sound.keys]
  match events, one with
  | [], _ => exact ⟨sound.keyValid, by rw [ite_self, List.append_nil]; rfl⟩
  | [event], _ =>
    rw [pushAll_singleton]
    by_cases full : h.input.key.Full keyBufSize
    · rw [if_pos full, if_pos ((keyFull_iff _).mpr full), List.append_nil]
      exact ⟨sound.keyValid, rfl⟩
    · rw [if_neg full, if_neg (mt (keyFull_iff _).mp full)]
      exact ⟨sound.keyValid.push event, sound.keyValid.contents_push full event⟩

/-- Pushing a mouse event, or none. -/
theorem Sound.slideAll (sound : h.Sound) {moves : List MouseEvent} (one : moves.length ≤ 1) :
    (slideAll h.input.mou moves).Valid mouseBufSize ∧
      (slideAll h.input.mou moves).contents mouseBufSize =
        latest (mouseBufSize - 1) ((h.moves ++ moves).drop h.movesRead) := by
  rw [List.drop_append_of_le_length sound.movesRead_le]
  match moves, one with
  | [], _ =>
    rw [List.append_nil]
    exact ⟨sound.mouValid, sound.moves⟩
  | [move], _ =>
    have valid : ((if h.input.mou.Full mouseBufSize then h.input.mou.pop mouseBufSize else h.input.mou).push
        mouseBufSize move).Valid mouseBufSize := by
      refine OpenRing.Valid.push ?_ move
      split
      · exact sound.mouValid.pop
      · exact sound.mouValid
    refine ⟨valid, ?_⟩
    rw [latest_append_singleton, ← unreadMoves, ← sound.moves]
    exact sound.mouValid.contents_slide (by decide) move

/-- The unread mouse events are the last ones pushed. -/
theorem Sound.drop_length_unreadMoves (sound : h.Sound) :
    h.moves.drop (h.moves.length - h.unreadMoves.length) = h.unreadMoves := by
  have read := sound.movesRead_le
  rw [unreadMoves, length_latest, latest, List.length_drop, List.drop_drop]
  congr 1
  omega

theorem Sound.drop_unreadMoves (sound : h.Sound) (count : Nat) :
    latest (mouseBufSize - 1) (h.moves.drop (h.moves.length - h.unreadMoves.length + count)) = h.unreadMoves.drop count := by
  have short : h.unreadMoves.length ≤ mouseBufSize - 1 := by
    rw [unreadMoves, length_latest]
    exact Nat.min_le_left _ _
  rw [← List.drop_drop, sound.drop_length_unreadMoves, latest_of_le]
  exact Nat.le_trans (List.length_drop ▸ Nat.sub_le _ _) short

/-- An operation delivers the key events that are due and leaves the others. -/
theorem Sound.step_keys (sound : h.Sound) (op : Op) :
    (h.input.run op).1.keys = (h.due op).keys ∧ (h.input.run op).2.key.Valid keyBufSize ∧
      (h.input.run op).2.key.contents keyBufSize = (h.step op).unreadKeys ∧
      (h.step op).keysOut = (h.step op).accepted.take (h.step op).keysOut.length := by
  obtain ⟨valid, contents⟩ := sound.pushAll (length_pushedKeys h.input op)
  obtain ⟨out, left, valid'⟩ := drain_spec nextIndex_key (keyRoom op) valid
  rw [← run_keys h.input op, contents] at out left
  rw [← run_keys h.input op] at valid'
  dsimp only at out left valid'
  have length_eq : (h.step op).keysOut.length = h.keysOut.length + (h.input.run op).1.keys.length :=
    List.length_append
  refine ⟨out, valid', ?_, ?_⟩
  · rw [left, List.drop_drop, unreadKeys, length_eq]
    rfl
  · have before : (h.step op).accepted.take h.keysOut.length = h.keysOut := by
      change (h.accepted ++ _).take _ = _
      rw [List.take_append_of_le_length sound.keysOut_le, ← sound.keysOut_eq]
    have now : ((h.step op).accepted.drop h.keysOut.length).take (h.input.run op).1.keys.length =
        (h.input.run op).1.keys := by
      conv_rhs => rw [out]
      rw [out, List.length_take]
      exact List.take_eq_take_min.symm
    rw [length_eq, List.take_add, before, now]
    rfl

/-- An operation delivers the mouse events that are due and leaves the others. -/
theorem Sound.step_moves (sound : h.Sound) (op : Op) :
    (h.input.run op).1.moves = (h.due op).moves ∧ (h.input.run op).2.mou.Valid mouseBufSize ∧
      (h.input.run op).2.mou.contents mouseBufSize = (h.step op).unreadMoves ∧
      List.Sublist (h.step op).movesOut ((h.step op).moves.take (h.step op).movesRead) ∧
      (h.step op).movesRead ≤ (h.step op).moves.length := by
  obtain ⟨valid, contents⟩ := sound.slideAll (length_pushedMoves op)
  obtain ⟨out, left, valid'⟩ := drain_spec nextIndex_mouse (moveRoom op) valid
  rw [← run_moves h.input op] at out left valid'
  dsimp only at out left valid'
  have quiet : pushedMoves op = [] → (h.step op).moves = h.moves ∧
      latest (mouseBufSize - 1) ((h.moves ++ pushedMoves op).drop h.movesRead) = h.unreadMoves := by
    intro quiet
    refine ⟨?_, ?_⟩
    · change h.moves ++ pushedMoves op = h.moves
      rw [quiet, List.append_nil]
    · rw [quiet, List.append_nil, unreadMoves]
  have due : (h.input.run op).1.moves = (h.due op).moves := by
    change _ = h.unreadMoves.take (moveRoom op)
    rcases pushedMoves_or_moveRoom op with nothing | noRoom
    · rw [out, contents, (quiet nothing).2]
    · rw [out, noRoom]
      rfl
  refine ⟨due, valid', ?_⟩
  by_cases none : (h.input.run op).1.moves = []
  · have still : (h.step op).movesRead = h.movesRead := if_pos none
    have movesOut : (h.step op).movesOut = h.movesOut := by
      change h.movesOut ++ _ = _
      rw [none, List.append_nil]
    refine ⟨?_, ?_, ?_⟩
    · rw [left, none, contents, unreadMoves, still]
      rfl
    · rw [movesOut, still]
      change List.Sublist _ ((h.moves ++ _).take _)
      rw [List.take_append_of_le_length sound.movesRead_le]
      exact sound.movesOut_sublist
    · rw [still]
      exact Nat.le_trans sound.movesRead_le (List.length_append ▸ Nat.le_add_right _ _)
  · have nothing : pushedMoves op = [] := by
      rcases pushedMoves_or_moveRoom op with nothing | noRoom
      · exact nothing
      · rw [out, noRoom] at none
        exact absurd rfl none
    obtain ⟨pushed, unread⟩ := quiet nothing
    have moved : (h.step op).movesRead =
        h.moves.length - h.unreadMoves.length + (h.input.run op).1.moves.length := if_neg none
    have few : (h.input.run op).1.moves.length ≤ h.unreadMoves.length := by
      rw [due]
      change (h.unreadMoves.take _).length ≤ _
      rw [List.length_take]
      exact Nat.min_le_right _ _
    have shorter : h.unreadMoves.length ≤ h.moves.length - h.movesRead := by
      rw [unreadMoves, length_latest, List.length_drop]
      exact Nat.min_le_right _ _
    have read := sound.movesRead_le
    refine ⟨?_, ?_, ?_⟩
    · have now : (h.step op).unreadMoves =
          latest (mouseBufSize - 1) ((h.step op).moves.drop (h.step op).movesRead) := rfl
      rw [left, contents, unread, now, moved, pushed, sound.drop_unreadMoves]
    · -- what was delivered before was pushed before what is delivered now
      rw [pushed, moved, List.take_add]
      refine List.Sublist.append ?_ ?_
      · exact sound.movesOut_sublist.trans (List.take_sublist_take_left (by omega))
      · rw [sound.drop_length_unreadMoves, due]
        have whole : ∀ k, h.unreadMoves.take k = h.unreadMoves.take (h.unreadMoves.take k).length := fun k => by
          rw [List.length_take]
          exact List.take_eq_take_min
        exact Eq.subst (whole _) (List.Sublist.refl _)
    · rw [moved, pushed]
      omega

/-- Every operation keeps the rings sound and delivers what is due. -/
theorem Sound.step (sound : h.Sound) (op : Op) : (h.step op).Sound ∧ (h.input.run op).1 = h.due op := by
  obtain ⟨keys, keyValid, keyContents, keysOut⟩ := sound.step_keys op
  obtain ⟨moves, mouValid, mouContents, movesOut, movesRead⟩ := sound.step_moves op
  refine ⟨⟨keyValid, mouValid, keyContents, mouContents, keysOut, movesOut, movesRead⟩, ?_⟩
  rw [Delivery.mk.injEq]
  exact ⟨keys, moves⟩

/-- The ring of the keys is full when it holds an event less than it has slots. -/
theorem Sound.keyFull_iff (sound : h.Sound) : KeyFull h.input ↔ h.unreadKeys.length + 1 = keyBufSize := by
  rw [Input.keyFull_iff, sound.keyValid.full_iff, sound.keys]

end History

/-- In every history each operation delivers what is due: of the key events the oldest accepted ones that are unread,
where an event is accepted unless all slots of the ring but one are taken, and of the mouse events the latest unread
ones that the ring can hold.  So the delivered keys are the accepted ones in order, up to those that are still unread, and
the delivered mouse events are pushed ones in order, each at most once. -/
theorem rings_deliver (ops : List Op) :
    Meets History.step
        (fun h op => (h.input.run op).1 = h.due op ∧ (KeyFull h.input ↔ h.unreadKeys.length + 1 = keyBufSize))
        .start ops ∧
      (final History.step .start ops).keysOut ++ (final History.step .start ops).unreadKeys =
        (final History.step .start ops).accepted ∧
      List.Sublist (final History.step .start ops).movesOut (final History.step .start ops).moves := by
  have keeps : ∀ (h : History) (op : Op), h.Sound → (h.step op).Sound := fun h op sound => (sound.step op).1
  have sound := Run.invariant keeps History.Sound.start ops
  refine ⟨?_, ?_, ?_⟩
  · have any : Meets History.step (fun _ _ => True) .start ops := meets_of_forall (fun _ _ => trivial) _
    exact any.imp (fun h op sound _ => keeps h op sound) (fun h op sound _ => ⟨(sound.step op).2, sound.keyFull_iff⟩)
      History.Sound.start
  · conv_lhs => rw [sound.keysOut_eq]
    exact List.take_append_drop _ _
  · exact sound.movesOut_sublist.trans (List.take_sublist _ _)

end Systrix.Input
