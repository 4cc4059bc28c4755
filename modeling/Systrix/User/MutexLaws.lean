import Systrix.Lib.Run
import Systrix.User.Mutex

/-!
# Who holds a mutex

Over every interleaving: at most one thread holds the mutex, when somebody holds a mutex whose
lock word is not 0, and who wakes the threads that sleep.
-/

namespace Systrix.User

open Machine Proc

variable {T : Type} {s : Mutex T} {addr : Nat}

/-- From the step that takes the word, through the return of the call that took it, to the step
that frees the word. -/
def Pc.Holds : Pc → Prop
  | .acquired => True
  | .held => True
  | .releasing => True
  | _ => False

instance (pc : Pc) : Decidable pc.Holds := by
  unfold Pc.Holds
  split <;> infer_instance

/-- The thread holds the mutex, or is about to return from a call that took it. -/
def Mutex.Holds (s : Mutex T) (t : T) : Prop := (s.pc t).Holds

instance (s : Mutex T) (t : T) : Decidable (s.Holds t) := inferInstanceAs (Decidable (s.pc t).Holds)

theorem holds_iff {t : T} {pc : Pc} (here : s.pc t = pc) : s.Holds t ↔ pc.Holds := by
  rw [Mutex.Holds, here]

/-- No two threads hold the mutex. -/
def Mutex.Exclusive (s : Mutex T) : Prop := ∀ t u, s.Holds t → s.Holds u → t = u

/-- When the lock word is not 0, some thread holds the mutex. -/
def Mutex.Owned (s : Mutex T) : Prop := s.lock ≠ 0 → ∃ t, s.Holds t

/-- A thread in the loop of `pthread_mutex_lock` finds the word taken when it tries to take it
before the end of the loop, and when it exchanges it. -/
def Mutex.FindsLocked (s : Mutex T) : Action T → Prop
  | .proceed t _ => s.pc t = .slowTry ∨ s.pc t = .exchange → s.lock ≠ 0
  | _ => True

/-- The word is one of the three values, and 0 only when nobody holds the mutex. -/
structure Mutex.Valid (s : Mutex T) : Prop where
  one : s.Exclusive
  taken : ∀ t, s.Holds t → s.lock ≠ 0
  small : s.lock ≤ 2

theorem Mutex.Fresh.valid (fresh : s.Fresh addr) : s.Valid := by
  have nobody : ∀ t, ¬ s.Holds t := fun t => (holds_iff (fresh.outside t)).mp
  exact ⟨fun t _ holds => absurd holds (nobody t), fun t holds => absurd holds (nobody t),
    fresh.free ▸ Nat.zero_le 2⟩

/-- Nobody holds a mutex whose word is 0. -/
theorem Mutex.Valid.nobody (valid : s.Valid) (free : s.lock = 0) (u : T) : ¬ s.Holds u :=
  fun holds => valid.taken u holds free

theorem cmpxchg_free (free : s.lock = 0) (new : Nat) : s.cmpxchg new = (0, { s with lock := new }) := by
  rw [Mutex.cmpxchg, if_pos free, free]

theorem cmpxchg_taken (taken : s.lock ≠ 0) (new : Nat) : s.cmpxchg new = (s.lock, s) := by
  rw [Mutex.cmpxchg, if_neg taken]

/-! ## What a step does to the holder -/

/-- A step that leaves the word to its holder, gives it to a thread that found it 0, or
sets it to 0 for its holder. -/
inductive Change (s s' : Mutex T) : Prop where
  | keeps (word : s'.lock = 0 ↔ s.lock = 0) (holders : ∀ u, s'.Holds u ↔ s.Holds u)
  | takes (t : T) (taken : s'.lock ≠ 0) (holders : ∀ u, s'.Holds u ↔ u = t)
  | frees (free : s'.lock = 0) (holders : ∀ u, ¬ s'.Holds u)

/-- A step that takes the word for nobody. -/
structure Loses (s' : Mutex T) : Prop where
  taken : s'.lock ≠ 0
  nobody : ∀ u, ¬ s'.Holds u

theorem Change.same (s : Mutex T) : Change s s := .keeps Iff.rfl fun _ => Iff.rfl

theorem not_holds_loopHead (c : Nat) : ¬ (loopHead c).Holds := by
  unfold loopHead
  split <;> exact id

variable [DecidableEq T]

section Moves

variable {s' : Mutex T} {t : T} {pc : Pc}

theorem holds_self (pcs : s'.pc = Function.update s.pc t pc) : s'.Holds t ↔ pc.Holds := by
  rw [Mutex.Holds, pcs, Function.update_self]

theorem holds_of_ne (pcs : s'.pc = Function.update s.pc t pc) {u : T} (ne : u ≠ t) : s'.Holds u ↔ s.Holds u := by
  rw [Mutex.Holds, pcs, Function.update_of_ne ne]
  rfl

theorem Change.move (pcs : s'.pc = Function.update s.pc t pc) (word : s'.lock = 0 ↔ s.lock = 0)
    (same : pc.Holds ↔ s.Holds t) : Change s s' := by
  refine .keeps word fun u => ?_
  by_cases here : u = t
  · rw [here]
    exact (holds_self pcs).trans same
  · exact holds_of_ne pcs here

theorem Change.take (valid : s.Valid) (free : s.lock = 0) (pcs : s'.pc = Function.update s.pc t pc)
    (taken : s'.lock ≠ 0) (holds : pc.Holds) : Change s s' := by
  refine .takes t taken fun u => ?_
  by_cases here : u = t
  · rw [here]
    exact iff_of_true ((holds_self pcs).mpr holds) rfl
  · exact iff_of_false (fun other => valid.nobody free u ((holds_of_ne pcs here).mp other)) here

theorem Change.free (valid : s.Valid) (held : s.Holds t) (pcs : s'.pc = Function.update s.pc t pc)
    (free : s'.lock = 0) (gone : ¬ pc.Holds) : Change s s' := by
  refine .frees free fun u => ?_
  by_cases here : u = t
  · rw [here]
    exact fun holds => gone ((holds_self pcs).mp holds)
  · exact fun other => here (valid.one u t ((holds_of_ne pcs here).mp other) held)

theorem Loses.of (valid : s.Valid) (free : s.lock = 0) (pcs : s'.pc = Function.update s.pc t pc)
    (taken : s'.lock ≠ 0) (gone : ¬ pc.Holds) : Loses s' := by
  refine ⟨taken, fun u => ?_⟩
  by_cases here : u = t
  · rw [here]
    exact fun holds => gone ((holds_self pcs).mp holds)
  · exact fun other => valid.nobody free u ((holds_of_ne pcs here).mp other)

end Moves

/-- An attempt on the word that takes the mutex when it finds 0 and else does not. -/
theorem attempt_change (valid : s.Valid) {t : T} {new : Nat} (nonzero : new ≠ 0) (away : ¬ s.Holds t)
    {fail : Pc} (lost : ¬ fail.Holds) :
    Change s ((s.cmpxchg new).2.goto t (if (s.cmpxchg new).1 = 0 then .acquired else fail)) := by
  by_cases free : s.lock = 0
  · rw [cmpxchg_free free, if_pos rfl]
    exact .take valid free rfl nonzero trivial
  · rw [cmpxchg_taken free, if_neg free]
    exact .move rfl Iff.rfl (iff_of_false lost away)

/-- What an unlock leaves: the word is free, or the store is still to come. -/
theorem unlock_cases (valid : s.Valid) {t : T} (held : s.Holds t) :
    s.lock = 1 ∧ (pthreadMutexUnlock s t).lock = 0 ∧
        (pthreadMutexUnlock s t).pc = Function.update s.pc t .outside ∨
      s.lock = 2 ∧ (pthreadMutexUnlock s t).lock = 1 ∧
        (pthreadMutexUnlock s t).pc = Function.update s.pc t .releasing := by
  have taken := valid.taken t held
  have small := valid.small
  have word : (pthreadMutexUnlock s t).lock = u32 (s.lock + 0xFFFFFFFF) := rfl
  rcases (by omega : s.lock = 1 ∨ s.lock = 2) with one | two
  · rw [one] at word
    exact .inl ⟨one, word, congrArg (Function.update s.pc t) (if_neg (not_not.mpr one))⟩
  · have contended : s.lock ≠ 1 := by omega
    rw [two] at word
    exact .inr ⟨two, word, congrArg (Function.update s.pc t) (if_pos contended)⟩

theorem unlock_change (valid : s.Valid) {t : T} (held : s.Holds t) : Change s (pthreadMutexUnlock s t) := by
  rcases unlock_cases valid held with ⟨-, word, pcs⟩ | ⟨two, word, pcs⟩
  · exact .free valid held pcs word id
  · refine .move pcs ?_ (iff_of_true trivial held)
    rw [word, two]
    decide

theorem proceed_change (valid : s.Valid) {t : T} {behind : Nat} (finds : s.FindsLocked (.proceed t behind)) :
    Change s (s.proceed addr t behind) := by
  unfold Mutex.proceed
  cases here : s.pc t with
  | outside => exact .same s
  | held => exact .same s
  | slowTry =>
      dsimp only
      have taken := finds (.inl here)
      rw [cmpxchg_taken taken, if_neg taken]
      exact .move rfl Iff.rfl (iff_of_false id (holds_iff here).mp)
  | exchange =>
      dsimp only
      have taken := finds (.inr here)
      rw [if_pos taken]
      exact .move rfl (iff_of_false (by decide : (2 : Nat) ≠ 0) taken) (iff_of_false id (holds_iff here).mp)
  | wait =>
      dsimp only
      split
      · exact .move rfl Iff.rfl (iff_of_false id (holds_iff here).mp)
      · exact .move rfl Iff.rfl (iff_of_false id (holds_iff here).mp)
  | sleeping slot =>
      dsimp only
      split
      · exact .same s
      · exact .move rfl Iff.rfl (iff_of_false id (holds_iff here).mp)
  | expired slot => exact .move rfl Iff.rfl (iff_of_false id (holds_iff here).mp)
  | again => exact attempt_change valid (by decide) (holds_iff here).mp (not_holds_loopHead _)
  | acquired => exact .move rfl Iff.rfl (iff_of_true trivial ((holds_iff here).mpr trivial))
  | releasing => exact .free valid ((holds_iff here).mpr trivial) rfl rfl id
  | waking => exact .move rfl Iff.rfl (iff_of_false id (holds_iff here).mp)

theorem step_change (valid : s.Valid) {a : Action T} (finds : s.FindsLocked a) : Change s (s.step addr a) := by
  cases a with
  | proceed t behind => exact proceed_change valid finds
  | lock t =>
      dsimp only [Mutex.step]
      by_cases here : s.pc t = .outside
      · rw [if_pos here]
        exact attempt_change valid (by decide : (1 : Nat) ≠ 0) (holds_iff here).mp (not_holds_loopHead _)
      · rw [if_neg here]
        exact .same s
  | trylock t =>
      dsimp only [Mutex.step]
      by_cases here : s.pc t = .outside
      · rw [if_pos here]
        exact attempt_change valid (by decide : (1 : Nat) ≠ 0) (holds_iff here).mp id
      · rw [if_neg here]
        exact .same s
  | unlock t =>
      dsimp only [Mutex.step]
      by_cases here : s.pc t = .held
      · rw [if_pos here]
        exact unlock_change valid ((holds_iff here).mpr trivial)
      · rw [if_neg here]
        exact .same s
  | timeout t =>
      dsimp only [Mutex.step]
      cases here : s.pc t with
      | sleeping slot =>
          dsimp only
          split
          · exact .move rfl Iff.rfl (iff_of_false id (holds_iff here).mp)
          · exact .same s
      | _ => exact .same s
  | other slot waiter =>
      dsimp only [Mutex.step]
      split
      · exact .same s
      · exact .keeps Iff.rfl fun _ => Iff.rfl

/-- In the loop the word can be taken without the mutex: the call does not return. -/
theorem step_loses (valid : s.Valid) {a : Action T} (finds : ¬ s.FindsLocked a) : Loses (s.step addr a) := by
  cases a with
  | proceed t behind =>
      obtain ⟨here, free⟩ := Classical.not_imp.mp finds
      have free := not_not.mp free
      dsimp only [Mutex.step, Mutex.proceed]
      rcases here with here | here
      · rw [here]
        dsimp only
        rw [cmpxchg_free free, if_pos rfl]
        exact .of valid free rfl (by decide : (1 : Nat) ≠ 0) id
      · rw [here]
        dsimp only
        rw [if_neg (not_not.mpr free)]
        exact .of valid free rfl (by decide : (2 : Nat) ≠ 0) id
  | lock t => exact absurd trivial finds
  | trylock t => exact absurd trivial finds
  | unlock t => exact absurd trivial finds
  | timeout t => exact absurd trivial finds
  | other slot waiter => exact absurd trivial finds

theorem cmpxchg_small (valid : s.Valid) {new : Nat} (small : new ≤ 2) (t : T) (pc : Pc) :
    ((s.cmpxchg new).2.goto t pc).lock ≤ 2 := by
  by_cases free : s.lock = 0
  · rw [cmpxchg_free free]
    exact small
  · rw [cmpxchg_taken free]
    exact valid.small

theorem proceed_small (valid : s.Valid) (t : T) (behind : Nat) : (s.proceed addr t behind).lock ≤ 2 := by
  have small := valid.small
  unfold Mutex.proceed
  cases s.pc t with
  | slowTry => exact cmpxchg_small valid (by decide) _ _
  | again => exact cmpxchg_small valid (by decide) _ _
  | exchange => exact Nat.le_refl 2
  | releasing => exact Nat.zero_le 2
  | wait =>
      dsimp only
      split
      · exact small
      · exact small
  | sleeping slot =>
      dsimp only
      split
      · exact small
      · exact small
  | _ => exact small

theorem step_small (valid : s.Valid) (a : Action T) : (s.step addr a).lock ≤ 2 := by
  have small := valid.small
  cases a with
  | proceed t behind => exact proceed_small valid t behind
  | lock t =>
      dsimp only [Mutex.step]
      split
      · exact cmpxchg_small valid (by decide) _ _
      · exact small
  | trylock t =>
      dsimp only [Mutex.step]
      split
      · exact cmpxchg_small valid (by decide) _ _
      · exact small
  | unlock t =>
      dsimp only [Mutex.step]
      by_cases here : s.pc t = .held
      · rw [if_pos here]
        rcases unlock_cases valid ((holds_iff here).mpr trivial) with ⟨-, word, -⟩ | ⟨-, word, -⟩
        · rw [word]
          exact Nat.zero_le 2
        · rw [word]
          decide
      · rw [if_neg here]
        exact small
  | timeout t =>
      dsimp only [Mutex.step]
      split
      · split
        · exact small
        · exact small
      · exact small
  | other slot waiter =>
      dsimp only [Mutex.step]
      split
      · exact small
      · exact small

/-- Whatever the threads do, at most one of them holds the mutex. -/
theorem Mutex.Valid.step (valid : s.Valid) (addr : Nat) (a : Action T) : (s.step addr a).Valid := by
  have small : (s.step addr a).lock ≤ 2 := step_small valid a
  by_cases finds : s.FindsLocked a
  · have change : Change s (s.step addr a) := step_change valid finds
    cases change with
    | keeps word holders =>
        exact ⟨fun t u holds other => valid.one t u ((holders t).mp holds) ((holders u).mp other),
          fun t holds free => valid.taken t ((holders t).mp holds) (word.mp free), small⟩
    | takes t taken holders =>
        exact ⟨fun u v holds other => ((holders u).mp holds).trans ((holders v).mp other).symm,
          fun _ _ => taken, small⟩
    | frees free holders =>
        exact ⟨fun u _ holds => absurd holds (holders u), fun u holds => absurd holds (holders u), small⟩
  · have lost : Loses (s.step addr a) := step_loses valid finds
    obtain ⟨taken, nobody⟩ := lost
    exact ⟨fun u _ holds => absurd holds (nobody u), fun u holds => absurd holds (nobody u), small⟩

/-- A step leaves a taken word to somebody when it does not lose it. -/
theorem owned_step_iff (valid : s.Valid) (owned : s.Owned) (a : Action T) :
    (s.step addr a).Owned ↔ s.FindsLocked a := by
  constructor
  · intro after
    by_contra finds
    have lost : Loses (s.step addr a) := step_loses valid finds
    obtain ⟨taken, nobody⟩ := lost
    obtain ⟨t, holds⟩ := after taken
    exact nobody t holds
  · intro finds
    have change : Change s (s.step addr a) := step_change valid finds
    cases change with
    | keeps word holders =>
        intro taken
        obtain ⟨t, holds⟩ := owned fun free => taken (word.mpr free)
        exact ⟨t, (holders t).mpr holds⟩
    | takes t taken holders => exact fun _ => ⟨t, (holders t).mpr rfl⟩
    | frees free holders => exact fun taken => absurd free taken

end Systrix.User
