import Systrix.User.MutexLaws

/-!
# The threads that wait for a mutex

A thread sleeps only while somebody will wake it, unless the mutex is lost.
-/

namespace Systrix.User

open Proc

variable {T : Type} {s : Mutex T} {addr : Nat}

/-- In a call, with a step to take before the mutex is taken or after it is freed. -/
def Pc.Inside : Pc → Prop
  | .slowTry => True
  | .exchange => True
  | .wait => True
  | .again => True
  | .releasing => True
  | .waking => True
  | _ => False

/-- Not in the loop of `FUTEX_WAIT`. -/
def Pc.Plain : Pc → Prop
  | .sleeping _ => False
  | .expired _ => False
  | _ => True

/-- The thread waits to be woken. -/
def Mutex.Asleep (s : Mutex T) (t : T) : Prop := ∃ slot, s.pc t = .sleeping slot ∧ s.futexes.blocked t = true

/-- The thread is in a call and can go on. -/
def Mutex.Awake (s : Mutex T) (t : T) : Prop :=
  (s.pc t).Inside ∨ ∃ slot, s.pc t = .sleeping slot ∧ s.futexes.blocked t = false

/-- When a thread sleeps, another one holds the mutex or is in a call and can go on. -/
def Mutex.Live (s : Mutex T) : Prop := (∃ t, s.Asleep t) → ∃ u, s.Holds u ∨ s.Awake u

/-- The action is not the end of a wait at its deadline: `pthread_mutex_lock` waits without one. -/
def Action.Untimed : Action T → Prop
  | .timeout _ => False
  | _ => True

/-- The entries of the waiter table for the mutex are those of the threads that sleep, and
while some do, the word is 2 or a thread is in a call and can go on. -/
structure Tended (addr : Nat) (s : Mutex T) : Prop where
  entry : ∀ t slot, s.pc t = .sleeping slot → s.futexes.blocked t = true →
    addr ≠ 0 ∧ slot < futexMaxWaiters ∧ s.futexes.futex_table slot = ⟨addr, some t⟩
  sleeper : ∀ slot t, s.futexes.futex_table slot = ⟨addr, some t⟩ →
    s.pc t = .sleeping slot ∧ s.futexes.blocked t = true
  timely : ∀ t slot, s.pc t ≠ .expired slot
  watched : (∃ t, s.Asleep t) → s.lock = 2 ∨ ∃ u, s.Awake u

theorem Mutex.Fresh.tended (fresh : s.Fresh addr) : Tended addr s := by
  have outside : ∀ t slot, s.pc t ≠ .sleeping slot := by
    intro t slot here
    rw [fresh.outside t] at here
    cases here
  refine ⟨fun t slot here => absurd here (outside t slot), fun slot t here => ?_, fun t slot here => ?_, ?_⟩
  · refine absurd ?_ (fresh.quiet slot ?_)
    · rw [here]
    · rw [here]
      exact Option.some_ne_none t
  · rw [fresh.outside t] at here
    cases here
  · rintro ⟨t, slot, here, -⟩
    exact absurd here (outside t slot)

/-- While the mutex is not lost, a thread that sleeps is not alone. -/
theorem Tended.live (tended : Tended addr s) (owned : s.Owned) : s.Live := by
  intro asleep
  rcases tended.watched asleep with two | ⟨u, awake⟩
  · obtain ⟨u, holds⟩ := owned (by omega)
    exact ⟨u, .inl holds⟩
  · exact ⟨u, .inr awake⟩

theorem Pc.Plain.ne_sleeping {pc : Pc} (plain : pc.Plain) (slot : Nat) : pc ≠ .sleeping slot := by
  rintro rfl
  exact plain

theorem Pc.Plain.ne_expired {pc : Pc} (plain : pc.Plain) (slot : Nat) : pc ≠ .expired slot := by
  rintro rfl
  exact plain

theorem plain_loopHead (c : Nat) : (loopHead c).Plain := by
  unfold loopHead
  split <;> trivial

theorem inside_loopHead (c : Nat) : (loopHead c).Inside := by
  unfold loopHead
  split <;> trivial

theorem not_asleep {t : T} {pc : Pc} (here : s.pc t = pc) (plain : pc.Plain) : ¬ s.Asleep t := by
  rintro ⟨slot, asleep, -⟩
  exact plain.ne_sleeping slot (here.symm.trans asleep)

theorem not_awake {t : T} {pc : Pc} (here : s.pc t = pc) (plain : pc.Plain) (away : ¬ pc.Inside) : ¬ s.Awake t := by
  rintro (inside | ⟨slot, asleep, -⟩)
  · exact away (here ▸ inside)
  · exact plain.ne_sleeping slot (here.symm.trans asleep)

theorem futexAllocSlot_spec {f : Futexes T} {slot : Nat} (found : futexAllocSlot f = some slot) :
    slot < futexMaxWaiters ∧ (f.futex_table slot).addr = 0 := by
  have free := List.find?_some found
  exact ⟨List.mem_range.mp (List.mem_of_find?_eq_some found), of_decide_eq_true free⟩

theorem Tended.other (tended : Tended addr s) {slot : Nat} {waiter : Waiter T}
    (notHere : (s.futexes.futex_table slot).addr ≠ addr) (notThere : waiter.addr ≠ addr) :
    Tended addr { s with futexes := s.futexes.setWaiter slot waiter } := by
  refine ⟨fun t slot' asleep blocked => ?_, fun slot' t entry => ?_, tended.timely, tended.watched⟩
  · obtain ⟨mapped, bound, entry⟩ := tended.entry t slot' asleep blocked
    have slots : slot' ≠ slot := by
      rintro rfl
      rw [entry] at notHere
      exact notHere rfl
    exact ⟨mapped, bound, (setWaiter_of_ne s.futexes slots _).trans entry⟩
  · have slots : slot' ≠ slot := by
      rintro rfl
      have replaced := (setWaiter_self s.futexes slot' waiter).symm.trans entry
      rw [replaced] at notThere
      exact notThere rfl
    exact tended.sleeper slot' t ((setWaiter_of_ne s.futexes slots waiter).symm.trans entry)

variable [DecidableEq T]

/-- A thread that does not sleep goes on. -/
theorem Tended.move (tended : Tended addr s) {s' : Mutex T} {t : T} {pc : Pc}
    (pcs : s'.pc = Function.update s.pc t pc) (futexes : s'.futexes = s.futexes) (up : ¬ s.Asleep t)
    (plain : pc.Plain) (word : s.lock = 2 → s'.lock = 2 ∨ pc.Inside)
    (busy : s.Awake t → s'.lock = 2 ∨ pc.Inside) :
    Tended addr s' := by
  have here : s'.pc t = pc := by rw [pcs, Function.update_self]
  have there : ∀ u, u ≠ t → s'.pc u = s.pc u := fun u ne => by rw [pcs, Function.update_of_ne ne]
  have inside : s'.lock = 2 ∨ pc.Inside → s'.lock = 2 ∨ ∃ u, s'.Awake u := by
    rintro (two | inside)
    · exact .inl two
    · exact .inr ⟨t, .inl (here ▸ inside)⟩
  refine ⟨fun u slot asleep => ?_, fun slot u entry => ?_, fun u slot => ?_, ?_⟩
  · by_cases same : u = t
    · subst same
      exact absurd (here ▸ asleep) (plain.ne_sleeping slot)
    · rw [there u same] at asleep
      rw [futexes]
      exact tended.entry u slot asleep
  · rw [futexes] at entry ⊢
    obtain ⟨asleep, blocked⟩ := tended.sleeper slot u entry
    have other : u ≠ t := by
      rintro rfl
      exact up ⟨slot, asleep, blocked⟩
    exact ⟨(there u other).trans asleep, blocked⟩
  · by_cases same : u = t
    · rw [same, here]
      exact plain.ne_expired slot
    · rw [there u same]
      exact tended.timely u slot
  · rintro ⟨u, slot, asleep, blocked⟩
    have other : u ≠ t := by
      rintro rfl
      exact plain.ne_sleeping slot (here ▸ asleep)
    rw [there u other] at asleep
    rw [futexes] at blocked
    rcases tended.watched ⟨u, slot, asleep, blocked⟩ with two | ⟨v, awake⟩
    · exact inside (word two)
    · by_cases same : v = t
      · subst same
        exact inside (busy awake)
      · refine .inr ⟨v, ?_⟩
        unfold Mutex.Awake
        rw [there v same, futexes]
        exact awake

/-- An attempt on the word: it becomes 2, or the thread was not one that would wake others. -/
theorem Tended.attempt (tended : Tended addr s) {t : T} {pc : Pc} (here : s.pc t = pc) (plain : pc.Plain)
    {new : Nat} {success fail : Pc} (plainSuccess : success.Plain) (plainFail : fail.Plain)
    (taking : ¬ pc.Inside ∨ new = 2 ∨ success.Inside) (failing : ¬ pc.Inside ∨ fail.Inside) :
    Tended addr ((s.cmpxchg new).2.goto t (if (s.cmpxchg new).1 = 0 then success else fail)) := by
  by_cases free : s.lock = 0
  · rw [cmpxchg_free free, if_pos rfl]
    refine tended.move rfl rfl (not_asleep here plain) plainSuccess (fun two => ?_) fun awake => ?_
    · rw [free] at two
      cases two
    · exact taking.resolve_left fun away => not_awake here plain away awake
  · rw [cmpxchg_taken free, if_neg free]
    refine tended.move rfl rfl (not_asleep here plain) plainFail .inl fun awake => ?_
    exact .inr (failing.resolve_left fun away => not_awake here plain away awake)

/-! ## Sleeping and waking -/

/-- A wait that succeeds: the word was 2. -/
theorem futexWait_spec {f f' : Futexes T} {t : T} {word val slot : Nat}
    (waits : futexWait f t addr word val = .ok (slot, f')) :
    addr ≠ 0 ∧ word = val ∧ slot < futexMaxWaiters ∧ (f.futex_table slot).addr = 0 ∧
      f' = (f.setWaiter slot ⟨addr, some t⟩).setBlocked t true := by
  unfold futexWait at waits
  split at waits
  · cases waits
  · rename_i mapped
    split at waits
    · cases waits
    · rename_i same
      split at waits
      · cases waits
      · rename_i found
        cases waits
        obtain ⟨bound, free⟩ := futexAllocSlot_spec found
        exact ⟨mapped, not_not.mp same, bound, free, rfl⟩

theorem futexWakeLoop_done (addr i left : Nat) {val woken : Nat} (enough : ¬ woken < val) (f : Futexes T) :
    futexWakeLoop addr val i left woken f = (woken, f) := by
  cases left with
  | zero => rfl
  | succ left => exact if_neg enough

/-- Waking one thread wakes one that has an entry, if there is any. -/
theorem futexWakeLoop_one (addr i left : Nat) (f : Futexes T) :
    (∃ slot t, f.futex_table slot = ⟨addr, some t⟩ ∧
        (futexWakeLoop addr 1 i left 0 f).2 = (f.setWaiter slot ⟨0, none⟩).setBlocked t false) ∨
      (futexWakeLoop addr 1 i left 0 f).2 = f ∧
        ∀ slot t, i ≤ slot → slot < i + left → f.futex_table slot ≠ ⟨addr, some t⟩ := by
  induction left generalizing i with
  | zero => exact .inr ⟨rfl, fun slot t low high => absurd high (Nat.not_lt.mpr low)⟩
  | succ left ih =>
      -- The entry does not count, so the loop goes on to the next one.
      have skip (next : futexWakeLoop addr 1 i (left + 1) 0 f = futexWakeLoop addr 1 (i + 1) left 0 f)
          (absent : ∀ t, f.futex_table i ≠ ⟨addr, some t⟩) :
          (∃ slot t, f.futex_table slot = ⟨addr, some t⟩ ∧
              (futexWakeLoop addr 1 i (left + 1) 0 f).2 = (f.setWaiter slot ⟨0, none⟩).setBlocked t false) ∨
            (futexWakeLoop addr 1 i (left + 1) 0 f).2 = f ∧
              ∀ slot t, i ≤ slot → slot < i + (left + 1) → f.futex_table slot ≠ ⟨addr, some t⟩ := by
        rw [next]
        rcases ih (i + 1) with found | ⟨same, later⟩
        · exact .inl found
        · refine .inr ⟨same, fun slot t low high => ?_⟩
          by_cases first : slot = i
          · rw [first]
            exact absent t
          · exact later slot t (by omega) (by omega)
      cases entry : f.futex_table i with
      | mk address pcb =>
          cases pcb with
          | none =>
              refine skip ?_ fun t same => by rw [entry] at same; cases same
              rw [futexWakeLoop, if_pos Nat.one_pos, entry]
          | some t =>
              by_cases same : address = addr
              · subst same
                refine .inl ⟨i, t, entry, ?_⟩
                rw [futexWakeLoop, if_pos Nat.one_pos, entry]
                dsimp only
                rw [if_pos rfl, futexWakeLoop_done _ _ _ (by decide)]
              · refine skip ?_ fun u equal => ?_
                · rw [futexWakeLoop, if_pos Nat.one_pos, entry]
                  dsimp only
                  rw [if_neg same]
                · rw [entry] at equal
                  cases equal
                  exact same rfl

/-- A thread goes to sleep while the word is 2. -/
theorem Tended.sleep (tended : Tended addr s) (valid : s.Valid) {t : T} (here : s.pc t = .wait) {behind slot : Nat}
    {f : Futexes T} (waits : futexWait s.futexes t addr (s.lock + 2 ^ 32 * behind) 2 = .ok (slot, f)) :
    Tended addr ({ s with futexes := f }.goto t (.sleeping slot)) := by
  obtain ⟨mapped, word, bound, free, rfl⟩ := futexWait_spec waits
  have two : s.lock = 2 := by
    have small := valid.small
    omega
  have fresh {u : T} {slot' : Nat} (entry : s.futexes.futex_table slot' = ⟨addr, some u⟩) : slot' ≠ slot := by
    rintro rfl
    rw [entry] at free
    exact mapped free
  refine ⟨fun u slot' asleep blocked => ?_, fun slot' u entry => ?_, fun u slot' => ?_, fun _ => .inl two⟩
  · by_cases same : u = t
    · subst same
      have slots : Pc.sleeping slot = .sleeping slot' := (Function.update_self u _ s.pc).symm.trans asleep
      cases slots
      exact ⟨mapped, bound, setWaiter_self _ _ _⟩
    · obtain ⟨-, bound', entry⟩ := tended.entry u slot' ((Function.update_of_ne same _ s.pc).symm.trans asleep)
        ((setBlocked_of_ne _ same true).symm.trans blocked)
      exact ⟨mapped, bound', (setWaiter_of_ne s.futexes (fresh entry) _).trans entry⟩
  · by_cases same : slot' = slot
    · subst same
      have entries : (⟨addr, some t⟩ : Waiter T) = ⟨addr, some u⟩ :=
        (setWaiter_self s.futexes slot' _).symm.trans entry
      cases entries
      exact ⟨Function.update_self _ _ _, setBlocked_self _ _ _⟩
    · obtain ⟨asleep, blocked⟩ := tended.sleeper slot' u
        ((setWaiter_of_ne s.futexes same _).symm.trans entry)
      have other : u ≠ t := by
        rintro rfl
        rw [here] at asleep
        cases asleep
      exact ⟨(Function.update_of_ne other _ _).trans asleep, (setBlocked_of_ne _ other true).trans blocked⟩
  · show Function.update s.pc t (.sleeping slot) u ≠ .expired slot'
    by_cases same : u = t
    · rw [same, Function.update_self]
      nofun
    · rw [Function.update_of_ne same]
      exact tended.timely u slot'

theorem futexWake_spec (addr : Nat) (f : Futexes T) :
    (∃ slot t, f.futex_table slot = ⟨addr, some t⟩ ∧
        (futexWake f addr 1).2 = (f.setWaiter slot ⟨0, none⟩).setBlocked t false) ∨
      (futexWake f addr 1).2 = f ∧
        (addr ≠ 0 → ∀ slot t, slot < futexMaxWaiters → f.futex_table slot ≠ ⟨addr, some t⟩) := by
  unfold futexWake
  by_cases mapped : addr = 0
  · rw [if_pos mapped]
    exact .inr ⟨rfl, fun other => absurd mapped other⟩
  · rw [if_neg mapped]
    rcases futexWakeLoop_one addr 0 futexMaxWaiters f with found | ⟨same, absent⟩
    · exact .inl found
    · exact .inr ⟨same, fun _ slot t bound => absent slot t (Nat.zero_le slot) (by omega)⟩

/-- Who is elsewhere than where a thread went was there before. -/
theorem pc_before {t u : T} {pc pc' : Pc} (now : (s.goto t pc).pc u = pc') (ne : pc' ≠ pc) : s.pc u = pc' := by
  have other : u ≠ t := by
    rintro rfl
    exact ne (now.symm.trans (Function.update_self _ _ _))
  exact (Function.update_of_ne other _ _).symm.trans now

/-- The thread that a wake takes off the table can go on. -/
theorem Tended.wakeOne (tended : Tended addr s) {t u : T} {slot : Nat} (here : s.pc t = .waking)
    (woken : s.futexes.futex_table slot = ⟨addr, some u⟩) :
    Tended addr ({ s with futexes := (s.futexes.setWaiter slot ⟨0, none⟩).setBlocked u false }.goto t .outside) := by
  have elsewhere {v : T} {pc : Pc} (before : s.pc v = pc) (ne : pc ≠ .waking) :
      Function.update s.pc t .outside v = pc := by
    have other : v ≠ t := by
      rintro rfl
      exact ne (before.symm.trans here)
    exact (Function.update_of_ne other _ _).trans before
  have asleep := (tended.sleeper slot u woken).1
  refine ⟨fun v slot' asleep' blocked => ?_, fun slot' v entry => ?_, fun v slot' expired => ?_,
    fun _ => .inr ⟨u, .inr ⟨slot, elsewhere asleep nofun, setBlocked_self _ _ _⟩⟩⟩
  · have distinct : v ≠ u := by
      rintro rfl
      have unblocked : false = true := (setBlocked_self _ v false).symm.trans blocked
      cases unblocked
    have wasBlocked := (setBlocked_of_ne _ distinct false).symm.trans blocked
    obtain ⟨mapped, bound, entry⟩ := tended.entry v slot' (pc_before asleep' nofun) wasBlocked
    have slots : slot' ≠ slot := by
      rintro rfl
      rw [woken] at entry
      cases entry
      exact distinct rfl
    exact ⟨mapped, bound, (setWaiter_of_ne s.futexes slots _).trans entry⟩
  · have slots : slot' ≠ slot := by
      rintro rfl
      have cleared : (⟨0, none⟩ : Waiter T) = ⟨addr, some v⟩ := (setWaiter_self s.futexes slot' _).symm.trans entry
      cases cleared
    obtain ⟨asleep', blocked⟩ := tended.sleeper slot' v ((setWaiter_of_ne s.futexes slots _).symm.trans entry)
    have distinct : v ≠ u := by
      rintro rfl
      cases asleep.symm.trans asleep'
      exact slots rfl
    exact ⟨elsewhere asleep' nofun, (setBlocked_of_ne _ distinct false).trans blocked⟩
  · exact tended.timely v slot' (pc_before expired nofun)

/-- Nobody is there to be woken. -/
theorem Tended.wakeNobody (tended : Tended addr s) (t : T) (nobody : ∀ u, ¬ s.Asleep u) :
    Tended addr (s.goto t .outside) := by
  refine ⟨fun u slot asleep blocked => ?_, fun slot u entry => ?_, fun u slot expired => ?_, ?_⟩
  · exact absurd ⟨slot, pc_before asleep nofun, blocked⟩ (nobody u)
  · exact absurd ⟨slot, tended.sleeper slot u entry⟩ (nobody u)
  · exact tended.timely u slot (pc_before expired nofun)
  · rintro ⟨u, slot, asleep, blocked⟩
    exact absurd ⟨slot, pc_before asleep nofun, blocked⟩ (nobody u)

/-- A thread that has freed the word wakes a thread that sleeps, if any does. -/
theorem Tended.wake (tended : Tended addr s) {t : T} (here : s.pc t = .waking) :
    Tended addr ({ s with futexes := (futexWake s.futexes addr 1).2 }.goto t .outside) := by
  rcases futexWake_spec addr s.futexes with ⟨slot, u, woken, futexes⟩ | ⟨futexes, absent⟩
  · rw [futexes]
    exact tended.wakeOne here woken
  · rw [futexes]
    refine tended.wakeNobody t ?_
    rintro u ⟨slot, asleep, blocked⟩
    obtain ⟨mapped, bound, entry⟩ := tended.entry u slot asleep blocked
    exact absent mapped slot u bound entry

/-! ## Runs -/

theorem Tended.proceed (tended : Tended addr s) (valid : s.Valid) (t : T) (behind : Nat) :
    Tended addr (s.proceed addr t behind) := by
  unfold Mutex.proceed
  cases here : s.pc t with
  | outside => exact tended
  | held => exact tended
  | expired slot => exact absurd here (tended.timely t slot)
  | slowTry => exact tended.attempt here trivial trivial trivial (.inr (.inr trivial)) (.inr trivial)
  | again => exact tended.attempt here trivial trivial (plain_loopHead _) (.inr (.inl rfl)) (.inr (inside_loopHead _))
  | exchange =>
      dsimp only
      split
      · exact tended.move rfl rfl (not_asleep here trivial) trivial (fun _ => .inl rfl) fun _ => .inl rfl
      · exact tended.move rfl rfl (not_asleep here trivial) trivial (fun _ => .inl rfl) fun _ => .inl rfl
  | acquired =>
      refine tended.move rfl rfl (not_asleep here trivial) trivial .inl fun awake => ?_
      exact absurd awake (not_awake here trivial id)
  | releasing =>
      exact tended.move rfl rfl (not_asleep here trivial) trivial (fun _ => .inr trivial) fun _ => .inr trivial
  | waking => exact tended.wake here
  | sleeping slot =>
      dsimp only
      split
      · exact tended
      · rename_i woken
        refine tended.move rfl rfl ?_ trivial .inl fun _ => .inr trivial
        rintro ⟨-, -, blocked⟩
        exact woken blocked
  | wait =>
      dsimp only
      split
      · exact tended.move rfl rfl (not_asleep here trivial) trivial .inl fun _ => .inr trivial
      · rename_i waits
        exact tended.sleep valid here waits

theorem Tended.unlock (tended : Tended addr s) (valid : s.Valid) {t : T} (here : s.pc t = .held) :
    Tended addr (pthreadMutexUnlock s t) := by
  have futexes : (pthreadMutexUnlock s t).futexes = s.futexes := by
    unfold pthreadMutexUnlock Mutex.goto
    rfl
  rcases unlock_cases valid ((holds_iff here).mpr trivial) with ⟨one, -, pcs⟩ | ⟨-, -, pcs⟩
  · refine tended.move pcs futexes (not_asleep here trivial) trivial (fun two => ?_)
      fun awake => absurd awake (not_awake here trivial id)
    rw [one] at two
    cases two
  · exact tended.move pcs futexes (not_asleep here trivial) trivial (fun _ => .inr trivial) fun _ => .inr trivial

theorem Tended.step (tended : Tended addr s) (valid : s.Valid) {a : Action T} (untimed : a.Untimed) :
    Tended addr (s.step addr a) := by
  cases a with
  | proceed t behind => exact tended.proceed valid t behind
  | timeout t => exact absurd untimed id
  | lock t =>
      dsimp only [Mutex.step]
      by_cases here : s.pc t = .outside
      · rw [if_pos here]
        exact tended.attempt here trivial trivial (plain_loopHead _) (.inl id) (.inl id)
      · rw [if_neg here]
        exact tended
  | trylock t =>
      dsimp only [Mutex.step]
      by_cases here : s.pc t = .outside
      · rw [if_pos here]
        exact tended.attempt here trivial trivial trivial (.inl id) (.inl id)
      · rw [if_neg here]
        exact tended
  | unlock t =>
      dsimp only [Mutex.step]
      by_cases here : s.pc t = .held
      · rw [if_pos here]
        exact tended.unlock valid here
      · rw [if_neg here]
        exact tended
  | other slot waiter =>
      dsimp only [Mutex.step]
      by_cases ours : (s.futexes.futex_table slot).addr = addr ∨ waiter.addr = addr
      · rw [if_pos ours]
        exact tended
      · rw [if_neg ours]
        exact tended.other (fun here => ours (.inl here)) fun there => ours (.inr there)

/-- In every run no two threads hold the mutex; a word that is not 0 always has a holder if and
only if no thread in the loop of `pthread_mutex_lock` takes it there; and then, when no wait ends
at a deadline, a thread that sleeps is never left with nobody to go on. -/
theorem mutex_iff (fresh : s.Fresh addr) (actions : List (Action T)) :
    Run.Meets (Mutex.step · addr) (fun s a => (s.step addr a).Exclusive) s actions ∧
      (Run.Meets (Mutex.step · addr) (fun s a => (s.step addr a).Owned) s actions ↔
        Run.Meets (Mutex.step · addr) Mutex.FindsLocked s actions) ∧
      (Run.Meets (Mutex.step · addr) Mutex.FindsLocked s actions → (∀ a ∈ actions, a.Untimed) →
        Run.Meets (Mutex.step · addr) (fun s a => (s.step addr a).Live) s actions) := by
  have all : Run.Meets (Mutex.step · addr) (fun _ _ => True) s actions := Run.meets_of_forall (fun _ _ => trivial) s
  have owned : s.Owned := fun taken => absurd fresh.free taken
  refine ⟨?_, ?_, fun finds untimed => ?_⟩
  · exact all.imp (fun s a valid _ => valid.step addr a) (fun s a valid _ => (valid.step addr a).one) fresh.valid
  · refine Run.meets_iff (I := fun s => s.Valid ∧ s.Owned) (fun s a holds _ => owned_step_iff holds.1 holds.2 a)
      (fun s a holds _ finds => ?_) ⟨fresh.valid, owned⟩ all
    exact ⟨holds.1.step addr a, (owned_step_iff holds.1 holds.2 a).mpr finds⟩
  · have keeps (s : Mutex T) (a : Action T) (holds : s.Valid ∧ s.Owned ∧ Tended addr s)
        (meets : s.FindsLocked a ∧ a.Untimed) :
        (s.step addr a).Valid ∧ (s.step addr a).Owned ∧ Tended addr (s.step addr a) :=
      ⟨holds.1.step addr a, (owned_step_iff holds.1 holds.2.1 a).mpr meets.1, holds.2.2.step holds.1 meets.2⟩
    have both := finds.and (Run.meets_of_forall untimed s)
    refine both.imp keeps (fun s a holds meets => ?_) ⟨fresh.valid, owned, fresh.tended⟩
    obtain ⟨-, owned', tended'⟩ := keeps s a holds meets
    exact tended'.live owned'

/-! ## Two threads -/

/-- A new mutex of two threads. -/
def newMutex : Mutex Bool := ⟨0, fun _ => .outside, ⟨fun _ => ⟨0, none⟩, fun _ => false⟩⟩

theorem newMutex_fresh : newMutex.Fresh 0x500000 := ⟨rfl, fun _ => rfl, fun _ named => absurd rfl named⟩

/-- One thread locks the mutex, the other one sleeps until it is unlocked and then takes it. -/
def handOver : List (Action Bool) :=
  [.lock false, .proceed false 0, .lock true, .proceed true 0, .proceed true 0, .proceed true 0,
    .unlock false, .proceed false 0, .proceed false 0, .proceed true 0, .proceed true 0, .proceed true 0]

theorem mutex_iff_handOver :
    Run.Meets (Mutex.step · 0x500000) (fun s a => (s.step 0x500000 a).Exclusive) newMutex handOver ∧
      (Run.Meets (Mutex.step · 0x500000) (fun s a => (s.step 0x500000 a).Owned) newMutex handOver ↔
        Run.Meets (Mutex.step · 0x500000) Mutex.FindsLocked newMutex handOver) ∧
      (Run.Meets (Mutex.step · 0x500000) Mutex.FindsLocked newMutex handOver → (∀ a ∈ handOver, a.Untimed) →
        Run.Meets (Mutex.step · 0x500000) (fun s a => (s.step 0x500000 a).Live) newMutex handOver) :=
  mutex_iff newMutex_fresh handOver

/-- The mutex is unlocked after the other thread has found it locked and before it tries again. -/
def missed : List (Action Bool) :=
  [.lock false, .proceed false 0, .lock true, .unlock false, .proceed true 0, .proceed true 0, .proceed true 0,
    .proceed true 0, .proceed true 0]

/-- The thread takes the mutex in its loop without noticing and sleeps until somebody unlocks it. -/
theorem mutex_lost :
    (Run.final (Mutex.step · 0x500000) newMutex missed).lock = 2 ∧
      (∀ t, ¬ (Run.final (Mutex.step · 0x500000) newMutex missed).Holds t) ∧
      ¬ (Run.final (Mutex.step · 0x500000) newMutex missed).Owned ∧
      (Run.final (Mutex.step · 0x500000) newMutex missed).pc false = .outside ∧
      (Run.final (Mutex.step · 0x500000) newMutex missed).pc true = .sleeping 0 := by
  have nobody : ∀ t, ¬ (Run.final (Mutex.step · 0x500000) newMutex missed).Holds t := by decide
  refine ⟨by decide, nobody, fun owned => ?_, by decide, by decide⟩
  obtain ⟨t, holds⟩ := owned (by decide)
  exact nobody t holds

end Systrix.User
