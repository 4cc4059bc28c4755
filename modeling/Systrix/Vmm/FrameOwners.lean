import Mathlib.Data.List.Count
import Systrix.Lib.Run
import Systrix.Vmm.Space

/-!
# The owners of a frame

Every owner of a frame adds a reference to it with `pmm_ref` and drops it with `pmm_unref`.  The count has eight bits
and stops at its maximum, so a frame with more owners than that is released while some of them still use it.
-/

namespace Systrix.Vmm

open Run

/-! ## References -/

section Reference

variable (vm : Vm) (p q : Word)

@[simp] theorem pmmRef_ram_end : (pmmRef vm q).ram_end = vm.ram_end := by
  unfold pmmRef
  split <;> rfl

@[simp] theorem pmmRef_freed : (pmmRef vm q).freed = vm.freed := by
  unfold pmmRef
  split <;> rfl

theorem pmmRef_refcnt_of_ne (ne : p ≠ q) : (pmmRef vm q).refcnt p = vm.refcnt p := by
  unfold pmmRef
  split
  · exact Function.update_of_ne ne _ _
  · rfl

theorem pmmRef_refcnt (managed : inRam vm p) (room : vm.refcnt p < 255) :
    (pmmRef vm p).refcnt p = vm.refcnt p + 1 := by
  rw [pmmRef, if_pos (by simp [managed, room])]
  exact Function.update_self _ _ _

/-- A full count stays as it is. -/
theorem pmmRef_of_full (full : 255 ≤ vm.refcnt p) : pmmRef vm p = vm := by
  rw [pmmRef, if_neg (by simp [full])]

@[simp] theorem pmmFree_ram_end : (pmmFree vm q).ram_end = vm.ram_end := by
  unfold pmmFree
  split <;> rfl

@[simp] theorem pmmFree_refcnt : (pmmFree vm q).refcnt = vm.refcnt := by
  unfold pmmFree
  split <;> rfl

theorem pmmFree_freed_of_ne (ne : q ≠ p) : (pmmFree vm q).freed.count p = vm.freed.count p := by
  unfold pmmFree
  split
  · exact List.count_cons_of_ne ne
  · rfl

@[simp] theorem pmmUnref_ram_end : (pmmUnref vm q).ram_end = vm.ram_end := by
  unfold pmmUnref
  split
  · rfl
  · dsimp only
    split
    · rw [pmmFree_ram_end]
    · rfl

theorem pmmUnref_refcnt_of_ne (ne : p ≠ q) : (pmmUnref vm q).refcnt p = vm.refcnt p := by
  unfold pmmUnref
  split
  · rfl
  · dsimp only
    split
    · rw [pmmFree_refcnt]
      exact Function.update_of_ne ne _ _
    · exact Function.update_of_ne ne _ _

theorem pmmUnref_freed_of_ne (ne : q ≠ p) : (pmmUnref vm q).freed.count p = vm.freed.count p := by
  unfold pmmUnref
  split
  · rfl
  · dsimp only
    split
    · exact pmmFree_freed_of_ne _ p q ne
    · rfl

variable {vm p} in
/-- A reference that is dropped is counted down, and the last one releases the frame. -/
theorem pmmUnref_spec (managed : inRam vm p) {count : Nat} (counted : vm.refcnt p = count + 1) :
    (pmmUnref vm p).refcnt p = count ∧
      (pmmUnref vm p).freed.count p = vm.freed.count p + if count = 0 then 1 else 0 := by
  have nonzero : pmmRefcount vm p ≠ 0 := by simp [pmmRefcount, managed, counted]
  have dropped : Function.update vm.refcnt p (vm.refcnt p - 1) p = count := by
    rw [Function.update_self, counted, Nat.add_sub_cancel]
  rw [pmmUnref, if_neg nonzero]
  dsimp only
  by_cases last : count = 0
  · rw [if_pos (dropped.trans last), if_pos last, pmmFree_refcnt]
    refine ⟨dropped, ?_⟩
    have released : ∀ {vm : Vm}, inRam vm p → (pmmFree vm p).freed.count p = vm.freed.count p + 1 := by
      intro vm managed
      rw [pmmFree, if_pos managed]
      exact List.count_cons_self
    exact released managed
  · rw [if_neg (fun none => last (dropped.symm.trans none)), if_neg last]
    exact ⟨dropped, rfl⟩

end Reference

/-! ## Histories of a frame -/

/-- A call of `pmm_ref` or of `pmm_unref` for a frame. -/
inductive RefCall where
  | ref (q : Word)
  | unref (q : Word)
  deriving DecidableEq

/-- The frame of a call. -/
def RefCall.frame : RefCall → Word
  | .ref q => q
  | .unref q => q

/-- What a call does. -/
def RefCall.run (vm : Vm) : RefCall → Vm
  | .ref q => pmmRef vm q
  | .unref q => pmmUnref vm q

/-- The memory, and how many owners a frame has. -/
structure Tenancy where
  vm : Vm
  owners : Nat

variable (p : Word)

/-- How many owners the frame has after a call. -/
def ownersAfter (owners : Nat) (call : RefCall) : Nat :=
  if call = .ref p then owners + 1
  else if call = .unref p then owners - 1
  else owners

/-- A call in the history of a frame. -/
def Tenancy.step (t : Tenancy) (call : RefCall) : Tenancy := ⟨call.run t.vm, ownersAfter p t.owners call⟩

/-- A call for the frame is made while it has owners: a new owner gets it from one of them, and an owner drops its
own reference. -/
def Owned (t : Tenancy) (call : RefCall) : Prop := call.frame = p → 0 < t.owners

instance (t : Tenancy) (call : RefCall) : Decidable (Owned p t call) := inferInstanceAs (Decidable (_ → _))

/-- The count has room for a new owner. -/
def Countable (t : Tenancy) (call : RefCall) : Prop := call = .ref p → t.owners < 255

instance (t : Tenancy) (call : RefCall) : Decidable (Countable p t call) := inferInstanceAs (Decidable (_ → _))

/-- The frame has been released, since it had been released `before` times, exactly when it has no owner, and once. -/
def ReleasedRight (before : Nat) (t : Tenancy) : Prop :=
  t.vm.freed.count p = before + if t.owners = 0 then 1 else 0

instance (before : Nat) (t : Tenancy) : Decidable (ReleasedRight p before t) := inferInstanceAs (Decidable (_ = _))

/-- The count of a managed frame is the number of its owners. -/
structure Counted (t : Tenancy) : Prop where
  managed : inRam t.vm p
  count_eq : t.vm.refcnt p = t.owners
  fits : t.owners ≤ 255

variable {p} {t : Tenancy} {before : Nat} {calls : List RefCall}

/-- Calls for other frames do not matter. -/
theorem Tenancy.step_of_ne (t : Tenancy) {call : RefCall} (other : call.frame ≠ p) :
    (t.step p call).owners = t.owners ∧ (t.step p call).vm.refcnt p = t.vm.refcnt p ∧
      (t.step p call).vm.freed.count p = t.vm.freed.count p ∧ (t.step p call).vm.ram_end = t.vm.ram_end := by
  cases call with
  | ref q =>
    have ne : p ≠ q := Ne.symm other
    refine ⟨?_, pmmRef_refcnt_of_ne _ _ _ ne, ?_, pmmRef_ram_end _ _⟩
    · simp [Tenancy.step, ownersAfter, ne.symm]
    · simp [Tenancy.step, RefCall.run]
  | unref q =>
    have ne : p ≠ q := Ne.symm other
    refine ⟨?_, pmmUnref_refcnt_of_ne _ _ _ ne, pmmUnref_freed_of_ne _ _ _ other, pmmUnref_ram_end _ _⟩
    simp [Tenancy.step, ownersAfter, ne.symm]

theorem Tenancy.step_ref (t : Tenancy) : t.step p (.ref p) = ⟨pmmRef t.vm p, t.owners + 1⟩ := by
  simp [Tenancy.step, ownersAfter, RefCall.run]

theorem Tenancy.step_unref (t : Tenancy) : t.step p (.unref p) = ⟨pmmUnref t.vm p, t.owners - 1⟩ := by
  simp [Tenancy.step, ownersAfter, RefCall.run]

/-- While there is room for the owners, the count is their number and the frame is released with the last one. -/
theorem Counted.step (counted : Counted p t) (right : ReleasedRight p before t) {call : RefCall}
    (owned : Owned p t call) (room : Countable p t call) :
    Counted p (t.step p call) ∧ ReleasedRight p before (t.step p call) := by
  by_cases other : call.frame ≠ p
  · obtain ⟨owners, refcnt, freed, ram_end⟩ := t.step_of_ne other
    have managed : inRam (t.step p call).vm p := by
      rw [inRam, ram_end]
      exact counted.managed
    refine ⟨⟨managed, ?_, ?_⟩, ?_⟩
    · rw [refcnt, owners]
      exact counted.count_eq
    · rw [owners]
      exact counted.fits
    · rw [ReleasedRight, owners, freed]
      exact right
  · have some : 0 < t.owners := owned (not_not.mp other)
    unfold ReleasedRight at right ⊢
    rw [if_neg (Nat.ne_of_gt some)] at right
    cases call with
    | ref q =>
      obtain rfl : q = p := not_not.mp other
      have free : t.owners < 255 := room rfl
      rw [t.step_ref]
      refine ⟨⟨?_, ?_, free⟩, ?_⟩
      · rw [inRam, pmmRef_ram_end]
        exact counted.managed
      · rw [pmmRef_refcnt _ _ counted.managed (counted.count_eq.symm ▸ free), counted.count_eq]
      · simpa using right
    | unref q =>
      obtain rfl : q = p := not_not.mp other
      have one_more : t.vm.refcnt q = t.owners - 1 + 1 := by
        rw [counted.count_eq]
        omega
      obtain ⟨refcnt, freed⟩ := pmmUnref_spec counted.managed one_more
      rw [t.step_unref]
      refine ⟨⟨?_, refcnt, ?_⟩, ?_⟩
      · rw [inRam, pmmUnref_ram_end]
        exact counted.managed
      · exact Nat.le_trans (Nat.sub_le _ _) counted.fits
      · rw [freed, right]
        rfl

/-- A frame with more owners than its count is released while it has owners, if all of them drop it. -/
theorem released_early (managed : inRam t.vm p) (some : 0 < t.vm.refcnt p) (fewer : t.vm.refcnt p < t.owners)
    (right : ReleasedRight p before t) (dropped : (final (Tenancy.step p) t calls).owners = 0) :
    ¬ Meets (Tenancy.step p) (fun t call => ReleasedRight p before (t.step p call)) t calls := by
  induction calls generalizing t with
  | nil =>
    have none : t.owners = 0 := dropped
    omega
  | cons call calls ih =>
    rintro ⟨after, later⟩
    by_cases other : call.frame ≠ p
    · obtain ⟨owners, refcnt, -, ram_end⟩ := t.step_of_ne other
      refine ih ?_ (refcnt.symm ▸ some) ?_ after dropped later
      · rw [inRam, ram_end]
        exact managed
      · rw [refcnt, owners]
        exact fewer
    · have ownersSome : t.owners ≠ 0 := by omega
      cases call with
      | ref q =>
        obtain rfl : q = p := not_not.mp other
        rw [t.step_ref] at after later
        refine ih ?_ ?_ ?_ after (by rwa [final_cons, t.step_ref] at dropped) later
        · rw [inRam, pmmRef_ram_end]
          exact managed
        all_goals
          dsimp only
          by_cases room : t.vm.refcnt q < 255
          · rw [pmmRef_refcnt _ _ managed room]
            omega
          · rw [pmmRef_of_full _ _ (Nat.not_lt.mp room)]
            omega
      | unref q =>
        obtain rfl : q = p := not_not.mp other
        obtain ⟨count, one_more⟩ : ∃ count, t.vm.refcnt q = count + 1 := ⟨t.vm.refcnt q - 1, by omega⟩
        obtain ⟨refcnt, freed⟩ := pmmUnref_spec managed one_more
        rw [t.step_unref] at after later
        by_cases last : count = 0
        · -- the count runs out while there are owners left
          unfold ReleasedRight at right after
          dsimp only at after
          rw [freed, if_pos last, right, if_neg ownersSome, if_neg (by omega)] at after
          omega
        · refine ih ?_ ?_ ?_ after (by rwa [final_cons, t.step_unref] at dropped) later
          · rw [inRam, pmmUnref_ram_end]
            exact managed
          all_goals
            dsimp only
            rw [refcnt]
            omega

/-- In the history of a frame up to the moment when its last owner drops it, the frame is released exactly then and
once if and only if it never gets an owner more than its count can tell. -/
theorem frame_released_iff (counted : Counted p t) (some : 0 < t.owners)
    (owned : Meets (Tenancy.step p) (Owned p) t calls) (dropped : (final (Tenancy.step p) t calls).owners = 0) :
    Meets (Tenancy.step p) (fun t' call => ReleasedRight p (t.vm.freed.count p) (t'.step p call)) t calls ↔
      Meets (Tenancy.step p) (Countable p) t calls := by
  have start : ReleasedRight p (t.vm.freed.count p) t := by
    rw [ReleasedRight, if_neg (Nat.ne_of_gt some)]
    rfl
  generalize t.vm.freed.count p = before at start ⊢
  clear some
  induction calls generalizing t with
  | nil => exact Iff.rfl
  | cons call calls ih =>
    have next := counted.step start owned.1
    constructor
    · rintro ⟨right, later⟩
      have room : Countable p t call := by
        rintro rfl
        refine Nat.lt_of_not_le fun full => ?_
        rw [final_cons] at dropped
        rw [t.step_ref] at right later dropped
        have fits := counted.fits
        have count_eq := counted.count_eq
        rw [pmmRef_of_full _ _ (count_eq.symm ▸ full)] at right later dropped
        have fewer : t.vm.refcnt p < t.owners + 1 := by omega
        have counts : 0 < t.vm.refcnt p := by omega
        exact released_early (t := ⟨t.vm, t.owners + 1⟩) counted.managed counts fewer right dropped later
      exact ⟨room, (ih (next room).1 owned.2 dropped (next room).2).mp later⟩
    · rintro ⟨room, later⟩
      exact ⟨(next room).2, (ih (next room).1 owned.2 dropped (next room).2).mpr later⟩

/-- Two owners of a frame. -/
theorem frame_released_iff_twoOwners :
    let vm : Vm := ⟨fun _ _ => 0, [], fun _ => 1, 0x4000000, [], fun _ => 0⟩
    let calls : List RefCall := [.ref 0x400000, .unref 0x400000, .unref 0x400000]
    Meets (Tenancy.step 0x400000)
        (fun t' call => ReleasedRight 0x400000 (vm.freed.count 0x400000) (t'.step 0x400000 call)) ⟨vm, 1⟩ calls ↔
      Meets (Tenancy.step 0x400000) (Countable 0x400000) ⟨vm, 1⟩ calls :=
  let start : Tenancy := ⟨⟨fun _ _ => 0, [], fun _ => 1, 0x4000000, [], fun _ => 0⟩, 1⟩
  let calls : List RefCall := [.ref 0x400000, .unref 0x400000, .unref 0x400000]
  have counted : Counted 0x400000 start := ⟨by decide, rfl, by decide⟩
  have owned : Meets (Tenancy.step 0x400000) (Owned 0x400000) start calls := by decide
  have dropped : (final (Tenancy.step 0x400000) start calls).owners = 0 := by decide
  frame_released_iff counted (Nat.zero_lt_one) owned dropped

/-- A frame that gets 255 owners more after it was allocated, and is dropped by all of them. -/
theorem frame_not_released_manyOwners :
    let vm : Vm := ⟨fun _ _ => 0, [], fun _ => 1, 0x4000000, [], fun _ => 0⟩
    let calls : List RefCall := List.replicate 255 (.ref 0x400000) ++ List.replicate 256 (.unref 0x400000)
    Meets (Tenancy.step 0x400000) (Owned 0x400000) ⟨vm, 1⟩ calls ∧
      (final (Tenancy.step 0x400000) ⟨vm, 1⟩ calls).owners = 0 ∧
      ¬ Meets (Tenancy.step 0x400000) (fun t' call => ReleasedRight 0x400000 0 (t'.step 0x400000 call)) ⟨vm, 1⟩ calls := by
  decide +kernel

end Systrix.Vmm
