import Systrix.Lib.ByteMemory

/-!
# Sorting and searching in the C library

`qsort` and `bsearch` of `libc/systrix_libc.c`.  What they do to their array they do by comparing and by
swapping two elements; both fail outside of the array.  A loop without a bound of its own counts down fuel.
-/

namespace Systrix.Libc

open ByteMemory

/-- An array as `qsort` sees it: `cmp(b + i * sz, b + j * sz)` and `_swap_bytes(b + i * sz, b + j * sz, sz)`. -/
structure Elements (σ : Type) where
  cmp : σ → Nat → Nat → Option Int
  swap : σ → Nat → Nat → Option σ

/-- The loop of `_swap_bytes` from byte `i` on. -/
def swapBytes (m : Memory) (a b i : Nat) : (left : Nat) → Memory
  | 0 => m
  | left + 1 =>
      let t := m (a + i)
      let m := Function.update m (a + i) (m (b + i))
      swapBytes (Function.update m (b + i) t) a b (i + 1) left

/-- The `nmemb` elements of `sz` bytes at `base`, with a comparison of their bytes. -/
def elementsAt (base nmemb sz : Nat) (cmp : List UInt8 → List UInt8 → Int) : Elements Memory where
  cmp m i j :=
    if i < nmemb ∧ j < nmemb then some (cmp (slice m (base + i * sz) sz) (slice m (base + j * sz) sz)) else none
  swap m i j :=
    if i < nmemb ∧ j < nmemb then some (swapBytes m (base + i * sz) (base + j * sz) 0 sz) else none

section Qsort

variable {σ : Type} (E : Elements σ)

/-- The inner loop of `_isort` on the elements from `lo` on, with the element at `j` on its way down. -/
def isortDown (lo : Nat) : (j : Nat) → σ → Option σ
  | 0, s => some s
  | j + 1, s => do
      if 0 < (← E.cmp s (lo + j) (lo + (j + 1))) then isortDown lo j (← E.swap s (lo + j) (lo + (j + 1))) else some s

/-- The loop of `_isort` from element `i` on. -/
def isortLoop (lo i : Nat) : (left : Nat) → σ → Option σ
  | 0, s => some s
  | left + 1, s => do isortLoop lo (i + 1) left (← isortDown E lo i s)

def isort (lo nmemb : Nat) (s : σ) : Option σ := isortLoop E lo 1 (nmemb - 1) s

/-- `if (cmp(a, b) > 0) _swap_bytes(a, b, sz)` -/
def orderPair (a b : Nat) (s : σ) : Option σ := do
  if 0 < (← E.cmp s a b) then E.swap s a b else some s

/-- `while (cmp(b + (++i) * sz, pivot) < 0) {}` -/
def scanUp (s : σ) (pivot i : Nat) : (fuel : Nat) → Option Nat
  | 0 => none
  | fuel + 1 => do if (← E.cmp s (i + 1) pivot) < 0 then scanUp s pivot (i + 1) fuel else some (i + 1)

/-- `while (j > lo && cmp(b + (--j) * sz, pivot) > 0) {}` -/
def scanDown (s : σ) (pivot lo : Nat) : (j : Nat) → Option Nat
  | 0 => some 0
  | j + 1 => do
      if lo < j + 1 then if 0 < (← E.cmp s j pivot) then scanDown s pivot lo j else some j
      else some (j + 1)

/-- The loop that partitions; the result is `i` when it ends. -/
def partLoop (pivot lo : Nat) : (fuel : Nat) → (i j : Nat) → σ → Option (σ × Nat)
  | 0, _, _, _ => none
  | fuel + 1, i, j, s => do
      let i ← scanUp E s pivot i (fuel + 1)
      let j ← scanDown E s pivot lo j
      if j ≤ i then some (s, i) else partLoop pivot lo fuel i j (← E.swap s i j)

/-- Choose a pivot by the median of three, and partition; the result is the index of the pivot. -/
def partition (fuel lo hi : Nat) (s : σ) : Option (σ × Nat) := do
  let mid := lo + (hi - lo) / 2
  let s ← orderPair E lo mid s
  let s ← orderPair E lo hi s
  let s ← orderPair E mid hi s
  let s ← E.swap s mid (hi - 1)
  let (s, i) ← partLoop E (hi - 1) lo fuel lo (hi - 1) s
  some (← E.swap s i (hi - 1), i)

def qsortStack : Nat := 64

/-- The loop of `qsort`; the stack has its top first. -/
def qsortLoop (fuel : Nat) : (left : Nat) → List (Nat × Nat) → σ → Option σ
  | _, [], s => some s
  | 0, _ :: _, _ => none
  | left + 1, (lo, hi) :: stack, s =>
      if hi ≤ lo then qsortLoop fuel left stack s
      else if hi - lo < 8 then do qsortLoop fuel left stack (← isort E lo (hi - lo + 1) s)
      else do
        let (s, i) ← partition E fuel lo hi s
        if stack.length + 2 < qsortStack then qsortLoop fuel left ((i + 1, hi) :: (lo, i - 1) :: stack) s
        else qsortLoop fuel left stack s

/-- The elements from `lo` to `hi` are in order. -/
def Ordered (s : σ) (lo hi : Nat) : Prop :=
  ∀ i j, lo ≤ i → i ≤ j → j ≤ hi → ∃ r, E.cmp s i j = some r ∧ r ≤ 0

/-- Whenever the stack has no room for the two parts of a range, these are in order already. -/
def DropsInOrder (fuel : Nat) : (left : Nat) → List (Nat × Nat) → σ → Prop
  | left + 1, (lo, hi) :: stack, s =>
      if hi ≤ lo then DropsInOrder fuel left stack s
      else if hi - lo < 8 then ∀ s', isort E lo (hi - lo + 1) s = some s' → DropsInOrder fuel left stack s'
      else ∀ s' i, partition E fuel lo hi s = some (s', i) →
        if stack.length + 2 < qsortStack then DropsInOrder fuel left ((i + 1, hi) :: (lo, i - 1) :: stack) s'
        else (Ordered E s' lo (i - 1) ∧ Ordered E s' (i + 1) hi) ∧ DropsInOrder fuel left stack s'
  | _, _, _ => True

def qsort (fuel nmemb sz : Nat) (s : σ) : Option σ :=
  if nmemb < 2 ∨ sz = 0 then some s else qsortLoop E fuel fuel [(0, nmemb - 1)] s

end Qsort

/-- The loop of `bsearch`; `probe i` is `cmp(key, b + i * sz)`. -/
def bsearchLoop (probe : Nat → Int) (lo hi : Nat) : Option Nat :=
  if lo < hi then
    let mid := lo + (hi - lo) / 2
    let r := probe mid
    if r = 0 then some mid
    else if r < 0 then bsearchLoop probe lo mid
    else bsearchLoop probe (mid + 1) hi
  else none
termination_by hi - lo

/-- `bsearch`; the result is the address of an element. -/
def bsearch (m : Memory) (key : List UInt8) (base nmemb sz : Nat) (cmp : List UInt8 → List UInt8 → Int) : Option Nat :=
  (bsearchLoop (fun i => cmp key (slice m (base + i * sz) sz)) 0 nmemb).map fun i => base + i * sz

end Systrix.Libc

/-!
## Sorting the same array in two representations

`qsort` does to its array only what the two operations on elements do, so what it does in one representation
it does in every other.
-/

namespace Systrix.Libc

variable {σ τ : Type} {E : Elements σ} {E' : Elements τ} {R : σ → τ → Prop}

/-- Related arrays compare alike, and stay related when elements are swapped. -/
structure Simulates (E : Elements σ) (E' : Elements τ) (R : σ → τ → Prop) : Prop where
  cmp : ∀ {s t}, R s t → ∀ i j, E.cmp s i j = E'.cmp t i j
  swap : ∀ {s t}, R s t → ∀ i j, Option.Rel R (E.swap s i j) (E'.swap t i j)

theorem rel_bind {α β α' β' : Type} {P : α → β → Prop} {Q : α' → β' → Prop} {x : Option α} {y : Option β}
    {f : α → Option α'} {g : β → Option β'} (first : Option.Rel P x y)
    (next : ∀ a b, P a b → Option.Rel Q (f a) (g b)) : Option.Rel Q (x.bind f) (y.bind g) := by
  cases first with
  | none => exact .none
  | some related => exact next _ _ related

namespace Simulates

variable (sim : Simulates E E' R) {s : σ} {t : τ} (related : R s t)

include sim related

theorem isortDown (lo j : Nat) : Option.Rel R (Libc.isortDown E lo j s) (Libc.isortDown E' lo j t) := by
  induction j generalizing s t with
  | zero => exact .some related
  | succ j ih =>
      rw [Libc.isortDown, Libc.isortDown, sim.cmp related]
      cases E'.cmp t (lo + j) (lo + (j + 1)) with
      | none => exact .none
      | some r =>
          simp only [Option.bind_eq_bind, Option.bind_some]
          split_ifs
          · exact rel_bind (sim.swap related _ _) fun _ _ swapped => ih swapped
          · exact .some related

theorem isortLoop (lo i left : Nat) : Option.Rel R (Libc.isortLoop E lo i left s) (Libc.isortLoop E' lo i left t) := by
  induction left generalizing s t i with
  | zero => exact .some related
  | succ left ih =>
      rw [Libc.isortLoop, Libc.isortLoop]
      exact rel_bind (sim.isortDown related lo i) fun _ _ placed => ih placed (i + 1)

theorem orderPair (a b : Nat) : Option.Rel R (Libc.orderPair E a b s) (Libc.orderPair E' a b t) := by
  unfold Libc.orderPair
  rw [sim.cmp related]
  cases E'.cmp t a b with
  | none => exact .none
  | some r =>
      simp only [Option.bind_eq_bind, Option.bind_some]
      split_ifs
      · exact sim.swap related a b
      · exact .some related

theorem scanUp (pivot i fuel : Nat) : Libc.scanUp E s pivot i fuel = Libc.scanUp E' t pivot i fuel := by
  induction fuel generalizing i with
  | zero => rfl
  | succ fuel ih =>
      rw [Libc.scanUp, Libc.scanUp, sim.cmp related, ih]

theorem scanDown (pivot lo j : Nat) : Libc.scanDown E s pivot lo j = Libc.scanDown E' t pivot lo j := by
  induction j with
  | zero => rfl
  | succ j ih =>
      rw [Libc.scanDown, Libc.scanDown, sim.cmp related, ih]

theorem partLoop (pivot lo fuel i j : Nat) : Option.Rel (fun x y => R x.1 y.1 ∧ x.2 = y.2)
    (Libc.partLoop E pivot lo fuel i j s) (Libc.partLoop E' pivot lo fuel i j t) := by
  induction fuel generalizing s t i j with
  | zero => exact .none
  | succ fuel ih =>
      rw [Libc.partLoop, Libc.partLoop, sim.scanUp related]
      cases Libc.scanUp E' t pivot i (fuel + 1) with
      | none => exact .none
      | some i' =>
          simp only [Option.bind_eq_bind, Option.bind_some]
          rw [sim.scanDown related]
          cases Libc.scanDown E' t pivot lo j with
          | none => exact .none
          | some j' =>
              simp only [Option.bind_some]
              split_ifs
              · exact .some ⟨related, rfl⟩
              · exact rel_bind (sim.swap related i' j') fun _ _ swapped => ih swapped i' j'

theorem partition (fuel lo hi : Nat) : Option.Rel (fun x y => R x.1 y.1 ∧ x.2 = y.2)
    (Libc.partition E fuel lo hi s) (Libc.partition E' fuel lo hi t) := by
  unfold Libc.partition
  refine rel_bind (sim.orderPair related _ _) fun _ _ first => ?_
  refine rel_bind (sim.orderPair first _ _) fun _ _ second => ?_
  refine rel_bind (sim.orderPair second _ _) fun _ _ third => ?_
  refine rel_bind (sim.swap third _ _) fun _ _ moved => ?_
  refine rel_bind (sim.partLoop moved _ _ _ _ _) fun x y split => ?_
  obtain ⟨s', i⟩ := x
  obtain ⟨t', i'⟩ := y
  obtain ⟨related', rfl⟩ := split
  exact rel_bind (sim.swap related' _ _) fun _ _ placed => .some ⟨placed, rfl⟩

/-- What follows a partition is related when it is for the two halves of the results. -/
theorem partition_bind (fuel lo hi : Nat) {f : σ × Nat → Option σ} {g : τ × Nat → Option τ}
    (next : ∀ s' t' i, R s' t' → Option.Rel R (f (s', i)) (g (t', i))) :
    Option.Rel R ((Libc.partition E fuel lo hi s).bind f) ((Libc.partition E' fuel lo hi t).bind g) := by
  refine rel_bind (sim.partition related fuel lo hi) fun x y split => ?_
  obtain ⟨s', i⟩ := x
  obtain ⟨t', i'⟩ := y
  obtain ⟨related', rfl⟩ := split
  exact next s' t' i related'

theorem qsortLoop (fuel left : Nat) (stack : List (Nat × Nat)) :
    Option.Rel R (Libc.qsortLoop E fuel left stack s) (Libc.qsortLoop E' fuel left stack t) := by
  induction left generalizing s t stack with
  | zero =>
      cases stack with
      | nil => exact .some related
      | cons r stack => exact .none
  | succ left ih =>
      cases stack with
      | nil => exact .some related
      | cons r stack =>
          obtain ⟨lo, hi⟩ := r
          rw [Libc.qsortLoop, Libc.qsortLoop]
          split_ifs
          · exact ih related stack
          · exact rel_bind (sim.isortLoop related _ _ _) fun _ _ sorted => ih sorted stack
          · exact sim.partition_bind related fuel lo hi fun _ _ i split => ih split _
          · exact sim.partition_bind related fuel lo hi fun _ _ i split => ih split _

theorem qsort (fuel nmemb sz : Nat) : Option.Rel R (Libc.qsort E fuel nmemb sz s) (Libc.qsort E' fuel nmemb sz t) := by
  unfold Libc.qsort
  split_ifs
  · exact .some related
  · exact sim.qsortLoop related _ _ _

theorem ordered (lo hi : Nat) : Ordered E s lo hi ↔ Ordered E' t lo hi := by
  unfold Ordered
  simp only [sim.cmp related]

/-- What holds of every result of insertion sort. -/
theorem isort_forall (lo nmemb : Nat) {Q : σ → Prop} {Q' : τ → Prop} (same : ∀ s' t', R s' t' → (Q s' ↔ Q' t')) :
    (∀ s', isort E lo nmemb s = some s' → Q s') ↔ ∀ t', isort E' lo nmemb t = some t' → Q' t' := by
  have results : Option.Rel R (isort E lo nmemb s) (isort E' lo nmemb t) := sim.isortLoop related lo 1 (nmemb - 1)
  revert results
  generalize isort E lo nmemb s = x
  generalize isort E' lo nmemb t = y
  rintro (both | _)
  · simp only [Option.some.injEq, forall_eq']
    exact same _ _ both
  · exact iff_of_true (fun _ none => by cases none) (fun _ none => by cases none)

/-- What holds of every result of a partition. -/
theorem partition_forall (fuel lo hi : Nat) {Q : σ → Nat → Prop} {Q' : τ → Nat → Prop}
    (same : ∀ s' t' i, R s' t' → (Q s' i ↔ Q' t' i)) :
    (∀ s' i, Libc.partition E fuel lo hi s = some (s', i) → Q s' i) ↔
      ∀ t' i, Libc.partition E' fuel lo hi t = some (t', i) → Q' t' i := by
  have results := sim.partition related fuel lo hi
  revert results
  generalize Libc.partition E fuel lo hi s = x
  generalize Libc.partition E' fuel lo hi t = y
  rintro (both | _)
  · obtain ⟨related', index⟩ := both
    constructor
    · intro all t' i result
      cases result
      exact (same _ _ _ related').mp (all _ _ (congrArg some (Prod.ext rfl index)))
    · intro all s' i result
      cases result
      exact (same _ _ _ related').mpr (all _ _ (congrArg some (Prod.ext rfl index.symm)))
  · exact iff_of_true (fun _ _ none => by cases none) (fun _ _ none => by cases none)

theorem dropsInOrder (fuel left : Nat) (stack : List (Nat × Nat)) :
    DropsInOrder E fuel left stack s ↔ DropsInOrder E' fuel left stack t := by
  induction left generalizing s t stack with
  | zero => exact iff_of_true trivial trivial
  | succ left ih =>
      cases stack with
      | nil => exact iff_of_true trivial trivial
      | cons r stack =>
          obtain ⟨lo, hi⟩ := r
          rw [DropsInOrder, DropsInOrder]
          split_ifs
          · exact ih related stack
          · exact sim.isort_forall related _ _ fun _ _ sorted => ih sorted stack
          · exact sim.partition_forall related fuel lo hi fun _ _ i split => ih split _
          · refine sim.partition_forall related fuel lo hi fun _ _ i split => ?_
            rw [sim.ordered split, sim.ordered split, ih split stack]

end Simulates

end Systrix.Libc
