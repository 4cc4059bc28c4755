import Systrix.Kernel.Layout
import Systrix.Proc.State

/-!
# Mutexes

The mutex of `user/pthread.h` over the futex calls of `kernel/futex.c`, cut into its atomic
steps: the locked instructions, the store of the unlock and the system calls.
-/

namespace Systrix.User

open Machine Proc

/-! ## Futexes -/

section Futexes

variable {T : Type}

/-- `FutexWaiter`; the process control block of a thread is the thread. -/
structure Waiter (T : Type) where
  addr : Nat
  pcb : Option T

/-- `futex_table`, and which threads are in `PSTATE_BLOCKED`. -/
structure Futexes (T : Type) where
  futex_table : Nat → Waiter T
  blocked : T → Bool

variable (f : Futexes T)

/-- Assign to an entry of the waiter table. -/
def Futexes.setWaiter (i : Nat) (waiter : Waiter T) : Futexes T :=
  { f with futex_table := Function.update f.futex_table i waiter }

@[simp] theorem setWaiter_self (i : Nat) (waiter : Waiter T) : (f.setWaiter i waiter).futex_table i = waiter :=
  Function.update_self _ _ _

theorem setWaiter_of_ne {i j : Nat} (ne : j ≠ i) (waiter : Waiter T) :
    (f.setWaiter i waiter).futex_table j = f.futex_table j := Function.update_of_ne ne _ _

def futexAllocSlot : Option Nat := (List.range futexMaxWaiters).find? fun i => (f.futex_table i).addr = 0

variable [DecidableEq T]

/-- Assign to the state of a thread. -/
def Futexes.setBlocked (t : T) (blocked : Bool) : Futexes T :=
  { f with blocked := Function.update f.blocked t blocked }

@[simp] theorem setBlocked_self (t : T) (blocked : Bool) : (f.setBlocked t blocked).blocked t = blocked :=
  Function.update_self _ _ _

theorem setBlocked_of_ne {t u : T} (ne : u ≠ t) (blocked : Bool) : (f.setBlocked t blocked).blocked u = f.blocked u :=
  Function.update_of_ne ne _ _

/-- `sys_futex` with `FUTEX_WAIT` up to its loop, called by `t`; `word` are the eight bytes
`addr` points to. The error, or the slot of the caller. -/
def futexWait (t : T) (addr word val : Nat) : Except Int (Nat × Futexes T) :=
  if addr = 0 then .error einval
  else if word ≠ val then .error eagain
  else
    match futexAllocSlot f with
    | none => .error enomem
    | some slot => .ok (slot, (f.setWaiter slot ⟨addr, some t⟩).setBlocked t true)

/-- A thread whose wait has timed out takes itself off the table. -/
def futexExpire (t : T) (slot : Nat) : Futexes T := (f.setWaiter slot ⟨0, none⟩).setBlocked t false

/-- The loop of `FUTEX_WAKE` from entry `i` on; the number of threads woken. -/
def futexWakeLoop (addr val : Nat) (i : Nat) : (left woken : Nat) → Futexes T → Nat × Futexes T
  | 0, woken, f => (woken, f)
  | left + 1, woken, f =>
      if woken < val then
        match (f.futex_table i).pcb with
        | some pcb =>
            if (f.futex_table i).addr = addr then
              futexWakeLoop addr val (i + 1) left (woken + 1) ((f.setWaiter i ⟨0, none⟩).setBlocked pcb false)
            else futexWakeLoop addr val (i + 1) left woken f
        | none => futexWakeLoop addr val (i + 1) left woken f
      else (woken, f)

/-- `sys_futex` with `FUTEX_WAKE` -/
def futexWake (addr val : Nat) : Int × Futexes T :=
  if addr = 0 then (einval, f)
  else
    match futexWakeLoop addr val 0 futexMaxWaiters 0 f with
    | (woken, f) => (woken, f)

end Futexes

/-! ## The mutex -/

/-- Where a thread is in the calls on the mutex: the atomic step that comes next. -/
inductive Pc where
  /-- Outside, without the mutex. -/
  | outside
  /-- The `pthread_mutex_trylock` in the loop of `pthread_mutex_lock`. -/
  | slowTry
  /-- The exchange in the loop. -/
  | exchange
  /-- The call of `FUTEX_WAIT`. -/
  | wait
  /-- The test of its loop. -/
  | sleeping (slot : Nat)
  /-- Its exit after the deadline. -/
  | expired (slot : Nat)
  /-- The compare and exchange at the end of the loop of `pthread_mutex_lock`. -/
  | again
  /-- The return of a call that took the mutex. -/
  | acquired
  /-- Outside, with the mutex. -/
  | held
  /-- The store in `pthread_mutex_unlock`. -/
  | releasing
  /-- The call of `FUTEX_WAKE`. -/
  | waking
  deriving DecidableEq

/-- The lock word, where each thread is and what the kernel keeps. -/
structure Mutex (T : Type) where
  lock : Nat
  pc : T → Pc
  futexes : Futexes T

section Steps

variable {T : Type} [DecidableEq T] (s : Mutex T)

def Mutex.goto (t : T) (pc : Pc) : Mutex T := { s with pc := Function.update s.pc t pc }

/-- `lock cmpxchgl` of the lock word from 0: what the word was. -/
def Mutex.cmpxchg (new : Nat) : Nat × Mutex T := (s.lock, if s.lock = 0 then { s with lock := new } else s)

/-- The test at the head of the loop of `pthread_mutex_lock`. -/
def loopHead (c : Nat) : Pc := if c = 2 then .exchange else .slowTry

/-- `pthread_mutex_lock` up to its first atomic step. -/
def pthreadMutexLock (t : T) : Mutex T :=
  match s.cmpxchg 1 with
  | (c, s) => s.goto t (if c = 0 then .acquired else loopHead c)

/-- `pthread_mutex_trylock`, which returns `EBUSY` when it does not take the mutex. -/
def pthreadMutexTrylock (t : T) : Mutex T :=
  match s.cmpxchg 1 with
  | (old, s) => s.goto t (if old = 0 then .acquired else .outside)

/-- `pthread_mutex_unlock` up to its first atomic step. -/
def pthreadMutexUnlock (t : T) : Mutex T :=
  let prev := s.lock
  { s with lock := u32 (prev + 0xFFFFFFFF) }.goto t (if prev ≠ 1 then .releasing else .outside)

/-- The next atomic step of the call of a thread. The mutex is at `addr`; `FUTEX_WAIT` reads
eight bytes there, of which `behind` are the upper four. -/
def Mutex.proceed (addr : Nat) (t : T) (behind : Nat) : Mutex T :=
  match s.pc t with
  | .outside => s
  | .slowTry =>
      match s.cmpxchg 1 with
      | (old, s) => s.goto t (if old = 0 then .again else .exchange)
  | .exchange => { s with lock := 2 }.goto t (if s.lock ≠ 0 then .wait else .again)
  | .wait =>
      match futexWait s.futexes t addr (s.lock + 2 ^ 32 * behind) 2 with
      | .error _ => s.goto t .again
      | .ok (slot, f) => { s with futexes := f }.goto t (.sleeping slot)
  | .sleeping _ => if s.futexes.blocked t then s else s.goto t .again
  | .expired slot => { s with futexes := futexExpire s.futexes t slot }.goto t .again
  | .again =>
      match s.cmpxchg 2 with
      | (c, s) => s.goto t (if c = 0 then .acquired else loopHead c)
  | .acquired => s.goto t .held
  | .held => s
  | .releasing => { s with lock := 0 }.goto t .waking
  | .waking => { s with futexes := (futexWake s.futexes addr 1).2 }.goto t .outside

/-- What happens next: a thread calls one of the functions or goes on, its wait reaches a
deadline, or another futex takes or frees a slot of the table. -/
inductive Action (T : Type) where
  | lock (t : T)
  | trylock (t : T)
  | unlock (t : T)
  | proceed (t : T) (behind : Nat)
  | timeout (t : T)
  | other (slot : Nat) (waiter : Waiter T)

/-- One action. A thread locks the mutex only without it and unlocks it only with it. -/
def Mutex.step (addr : Nat) : Action T → Mutex T
  | .lock t => if s.pc t = .outside then pthreadMutexLock s t else s
  | .trylock t => if s.pc t = .outside then pthreadMutexTrylock s t else s
  | .unlock t => if s.pc t = .held then pthreadMutexUnlock s t else s
  | .proceed t behind => s.proceed addr t behind
  | .timeout t =>
      match s.pc t with
      | .sleeping slot => if s.futexes.blocked t then s.goto t (.expired slot) else s
      | _ => s
  | .other slot waiter =>
      if (s.futexes.futex_table slot).addr = addr ∨ waiter.addr = addr then s
      else { s with futexes := s.futexes.setWaiter slot waiter }

/-- After `pthread_mutex_init`, before any call. -/
structure Mutex.Fresh (addr : Nat) : Prop where
  free : s.lock = 0
  outside : ∀ t, s.pc t = .outside
  quiet : ∀ i, (s.futexes.futex_table i).pcb ≠ none → (s.futexes.futex_table i).addr ≠ addr

end Steps

end Systrix.User
