import Systrix.Vmm.SortedVmas

/-!
# Insertion into sorted VMA tables

When `vmm_vma_add_enhanced` adds an interval to a sorted table and leaves the rest as it was: the first empty slot may be
in front of smaller VMAs, and VMAs are merged without a look at their files.
-/

namespace Systrix.Vmm

/-- The slots hold intervals in ascending order, with empty slots between them. -/
structure SortedTable (table : Slots) : Prop where
  valid : ∀ k < vmaMax, (table k).start.toNat ≤ (table k).stop.toNat
  sorted : ∀ i j, i < j → j < vmaMax → (table i).Live → (table j).Live →
    (table i).stop.toNat ≤ (table j).start.toNat

/-- What adding an interval has to do: nothing, with a failure, or just that. -/
def Inserts (table : Slots) (start stop : Word) (flags : BitVec 32) (result : Int × Slots) : Prop :=
  result = (-1, table) ∨ result.1 = 0 ∧ SortedTable result.2 ∧ ∀ a attributes, Maps result.2 a attributes ↔
    start.toNat ≤ a.toNat ∧ a.toNat < stop.toNat ∧ attributes = ⟨flags, -1, none⟩ ∨ Maps table a attributes

/-- A VMA shares an address with the interval. -/
def Meets (start stop : Word) (x : VmaEntry) : Prop :=
  x.Live ∧ start.toNat < x.stop.toNat ∧ x.start.toNat < stop.toNat

/-- The first empty slot. -/
def FirstEmpty (table : Slots) (e : Nat) : Prop :=
  e < vmaMax ∧ (table e).start = (table e).stop ∧ ∀ k < e, (table k).start ≠ (table k).stop

/-- The interval meets a VMA, or no slot is empty. -/
def Refused (table : Slots) (start stop : Word) : Prop :=
  (∃ k < vmaMax, Meets start stop (table k)) ∨ ∀ k < vmaMax, (table k).start ≠ (table k).stop

/-- The order of the slots and the files are such that nothing goes wrong. -/
structure InsertionFits (table : Slots) (start stop : Word) (flags : BitVec 32) : Prop where
  /-- A smaller VMA behind the first empty slot is merged into the one in front of it. -/
  order : ∀ e, FirstEmpty table e → ∀ j < vmaMax, e < j → (table j).Live → (table j).start.toNat < start.toNat →
    ∃ i < vmaMax, Adjacent (table i) (table j)
  /-- What is merged goes on with the same file. -/
  files : ∀ i j, i < vmaMax → j < vmaMax → Adjacent (table i) (table j) → Continues (table i) (table j)
  next : ∀ j < vmaMax, (table j).Live → (table j).flags = flags → (table j).start = stop → (table j).fd = -1
  previous : ∀ e, FirstEmpty table e → ∀ i < e, (table i).Live → (table i).flags = flags → (table i).stop = start →
    (table i).fd = -1

/-! ## The place of the new VMA -/

theorem not_live_of_empty {x : VmaEntry} (empty : x.start = x.stop) : ¬x.Live := by
  unfold VmaEntry.Live
  rw [empty]
  exact Nat.lt_irrefl _

theorem live_of_not_empty {x : VmaEntry} (valid : x.start.toNat ≤ x.stop.toNat) (used : x.start ≠ x.stop) : x.Live := by
  have different : x.start.toNat ≠ x.stop.toNat := fun same => used (BitVec.eq_of_toNat_eq same)
  unfold VmaEntry.Live
  omega

section Scan

variable {table : Slots} {start stop : Word} {flags : BitVec 32}

/-- A larger VMA. -/
def isLarger (table : Slots) (start : Word) (k : Nat) : Bool :=
  (table k).start ≠ (table k).stop && start < (table k).start

/-- An empty slot. -/
def isEmpty (table : Slots) (k : Nat) : Bool := (table k).start = (table k).stop

/-- The loop stops at an overlap, or finds the first larger VMA and the first empty slot. -/
theorem scanSlots_spec (valid : ∀ k < vmaMax, (table k).start.toNat ≤ (table k).stop.toNat)
    (flags : BitVec 32) (left i : Nat) (inside : i + left ≤ vmaMax) (insert_pos empty_pos : Option Nat) :
    (∃ k, i ≤ k ∧ k < i + left ∧ Meets start stop (table k)) ∧
        scanSlots table start stop flags left i insert_pos empty_pos = .error none ∨
      (∀ k, i ≤ k → k < i + left → ¬Meets start stop (table k)) ∧
        scanSlots table start stop flags left i insert_pos empty_pos =
          .ok (insert_pos.or ((List.range' i left).find? (isLarger table start)),
            empty_pos.or ((List.range' i left).find? (isEmpty table))) := by
  induction left generalizing i insert_pos empty_pos with
  | zero =>
      refine .inr ⟨fun k from_ small => absurd small (by omega), ?_⟩
      rw [List.range'_zero, List.find?_nil, List.find?_nil, Option.or_none, Option.or_none]
      rfl
  | succ left ih =>
      have valid' := valid i (by omega)
      -- the first slot, and the slots behind it
      have also : ∀ {insert_pos' empty_pos'}, ¬Meets start stop (table i) →
          scanSlots table start stop flags (left + 1) i insert_pos empty_pos =
            scanSlots table start stop flags left (i + 1) insert_pos' empty_pos' →
          insert_pos' = insert_pos.or (if isLarger table start i then some i else none) →
          empty_pos' = empty_pos.or (if isEmpty table i then some i else none) →
          (∃ k, i ≤ k ∧ k < i + (left + 1) ∧ Meets start stop (table k)) ∧
              scanSlots table start stop flags (left + 1) i insert_pos empty_pos = .error none ∨
            (∀ k, i ≤ k → k < i + (left + 1) → ¬Meets start stop (table k)) ∧
              scanSlots table start stop flags (left + 1) i insert_pos empty_pos =
                .ok (insert_pos.or ((List.range' i (left + 1)).find? (isLarger table start)),
                  empty_pos.or ((List.range' i (left + 1)).find? (isEmpty table))) := by
        intro insert_pos' empty_pos' apart step insertEq emptyEq
        have find : ∀ (pos : Option Nat) (p : Nat → Bool), pos.or ((List.range' i (left + 1)).find? p) =
            (pos.or (if p i then some i else none)).or ((List.range' (i + 1) left).find? p) := by
          intro pos p
          rw [List.range'_succ, List.find?_cons, Option.or_assoc]
          cases p i with
          | true => rfl
          | false => rfl
        rw [step, find, find, ← insertEq, ← emptyEq]
        rcases ih (i + 1) (by omega) insert_pos' empty_pos' with ⟨⟨k, from_, small, meets⟩, failed⟩ | ⟨none, found⟩
        · exact .inl ⟨⟨k, by omega, by omega, meets⟩, failed⟩
        · refine .inr ⟨fun k from_ small => ?_, found⟩
          by_cases here : k = i
          · exact here ▸ apart
          · exact none k (by omega) (by omega)
      by_cases empty : (table i).start = (table i).stop
      · have dead : ¬(table i).Live := by
          unfold VmaEntry.Live
          rw [empty]
          exact Nat.lt_irrefl _
        have step : scanSlots table start stop flags (left + 1) i insert_pos empty_pos =
            scanSlots table start stop flags left (i + 1) insert_pos (empty_pos.or (some i)) := by
          rw [scanSlots, if_pos empty]
        exact also (fun meets => dead meets.1) step (by simp [isLarger, empty]) (by simp [isEmpty, empty])
      · have live := live_of_not_empty valid' empty
        by_cases overlap : start < (table i).stop ∧ (table i).start < stop
        · refine .inl ⟨⟨i, Nat.le_refl i, by omega, live, overlap⟩, ?_⟩
          have notLeft : ¬((table i).flags = flags ∧ (table i).stop = start) := fun both =>
            BitVec.lt_irrefl _ (both.2 ▸ overlap.1)
          have notRight : ¬((table i).flags = flags ∧ (table i).start = stop) := fun both =>
            BitVec.lt_irrefl _ (both.2 ▸ overlap.2)
          rw [scanSlots, if_neg empty, if_pos overlap, if_neg notLeft, if_neg notRight]
        · have step : scanSlots table start stop flags (left + 1) i insert_pos empty_pos =
              scanSlots table start stop flags left (i + 1)
                (insert_pos.or (if start < (table i).start then some i else none)) empty_pos := by
            rw [scanSlots, if_neg empty, if_neg overlap]
          exact also (fun meets => overlap meets.2) step (by simp [isLarger, empty]) (by simp [isEmpty, empty])

/-- Where the new VMA goes: slot `p`, while the slots from there up to the first empty one are shifted. -/
structure Place (table : Slots) (start stop : Word) (p e : Nat) : Prop where
  first : FirstEmpty table e
  le : p ≤ e
  before : ∀ k < p, (table k).start.toNat ≤ start.toNat
  behind : p < e → start.toNat < (table p).start.toNat
  apart : ∀ k < vmaMax, ¬Meets start stop (table k)

/-- The table with the new VMA in slot `p`. -/
def placed (table : Slots) (p e : Nat) (entry : VmaEntry) : Slots := fun k =>
  if k < p then table k else if k = p then entry else if k ≤ e then table (k - 1) else table k

theorem shiftSlots_eq (left i : Nat) (table : Slots) (fits : left ≤ i) (k : Nat) :
    shiftSlots left i table k = if i - left < k ∧ k ≤ i then table (k - 1) else table k := by
  induction left generalizing i table with
  | zero => rw [shiftSlots, if_neg (by omega)]
  | succ left ih =>
      rw [shiftSlots, ih (i - 1) _ (by omega)]
      by_cases shifted : i - 1 - left < k ∧ k ≤ i - 1
      · rw [if_pos shifted, if_pos (by omega), Function.update_of_ne (by omega)]
      · rw [if_neg shifted]
        by_cases here : k = i
        · rw [here, Function.update_self, if_pos (by omega)]
        · rw [Function.update_of_ne here, if_neg (by omega)]

/-- `vma_insert_sorted` refuses, or puts the new VMA in its place. -/
theorem vmaInsertSorted_cases (valid : ∀ k < vmaMax, (table k).start.toNat ≤ (table k).stop.toNat)
    (start stop : Word) (flags : BitVec 32) :
    Refused table start stop ∧ vmaInsertSorted table start stop flags = none ∨
      ∃ p e, Place table start stop p e ∧
        vmaInsertSorted table start stop flags = some (placed table p e (newEntry start stop flags)) := by
  -- a VMA in front of the first empty slot that is not larger
  have notLarger : ∀ {e k}, FirstEmpty table e → k < e → isLarger table start k = false →
      (table k).start.toNat ≤ start.toNat := by
    intro e k first before small
    simp only [isLarger, Bool.and_eq_false_iff, decide_eq_false_iff_not, not_not] at small
    rcases small with empty | small
    · exact absurd empty (first.2.2 k before)
    · exact Nat.not_lt.mp small
  rcases scanSlots_spec valid flags vmaMax 0 (by omega) none none with
    ⟨⟨k, -, small, meets⟩, failed⟩ | ⟨apart, found⟩
  · refine .inl ⟨.inl ⟨k, by omega, meets⟩, ?_⟩
    rw [vmaInsertSorted, failed]
  · rw [Option.none_or, Option.none_or] at found
    have apart' : ∀ k < vmaMax, ¬Meets start stop (table k) := fun k small => apart k (Nat.zero_le k) (by omega)
    cases empty : (List.range' 0 vmaMax).find? (isEmpty table) with
    | none =>
        refine .inl ⟨.inr fun k small => ?_, ?_⟩
        · have notEmpty := List.find?_range'_eq_none.mp empty k (Nat.zero_le k) (by omega)
          simpa [isEmpty] using notEmpty
        · rw [vmaInsertSorted, found, empty]
    | some e =>
        obtain ⟨isEmpty', member, earlier⟩ := List.find?_range'_eq_some.mp empty
        have small := (List.mem_range'_1.mp member).2
        have first : FirstEmpty table e := by
          refine ⟨by omega, by simpa [isEmpty] using isEmpty', fun k before => ?_⟩
          simpa [isEmpty] using earlier k (Nat.zero_le k) before
        have last : (∀ k < e, isLarger table start k = false) → Place table start stop e e ∧
            Function.update table e (newEntry start stop flags) = placed table e e (newEntry start stop flags) := by
          intro none
          refine ⟨⟨first, Nat.le_refl e, fun k before => notLarger first before (none k before),
            fun impossible => absurd impossible (Nat.lt_irrefl e), apart'⟩, funext fun k => ?_⟩
          rw [placed, Function.update_apply]
          split_ifs <;> first | rfl | omega
        cases larger : (List.range' 0 vmaMax).find? (isLarger table start) with
        | none =>
            obtain ⟨place, same⟩ := last fun k before => by
              simpa using List.find?_range'_eq_none.mp larger k (Nat.zero_le k) (by omega)
            refine .inr ⟨e, e, place, ?_⟩
            rw [vmaInsertSorted, found, empty, larger, ← same]
        | some q =>
            obtain ⟨isLarger', -, notBefore⟩ := List.find?_range'_eq_some.mp larger
            by_cases order : q < e
            · refine .inr ⟨q, e, ⟨first, Nat.le_of_lt order, fun k before => ?_, fun _ => ?_, apart'⟩, ?_⟩
              · exact notLarger first (Nat.lt_trans before order) (by simpa using notBefore k (Nat.zero_le k) before)
              · simp only [isLarger, Bool.and_eq_true, decide_eq_true_eq] at isLarger'
                exact isLarger'.2
              · rw [vmaInsertSorted, found, empty, larger]
                dsimp only
                rw [if_pos order, Option.some.injEq]
                funext k
                rw [placed, Function.update_apply, shiftSlots_eq _ _ _ (Nat.sub_le e q)]
                split_ifs <;> first | rfl | omega
            · obtain ⟨place, same⟩ := last fun k before => by
                simpa using notBefore k (Nat.zero_le k) (by omega)
              refine .inr ⟨e, e, place, ?_⟩
              rw [vmaInsertSorted, found, empty, larger]
              dsimp only
              rw [if_neg order, same]

end Scan

/-! ## The table with the new VMA -/

section Placed

variable {table : Slots} {start stop : Word} {flags : BitVec 32} {p e : Nat}

/-- Where an old slot is after the shift. -/
def shifted (p e k : Nat) : Nat := if p ≤ k ∧ k < e then k + 1 else k

/-- What ends before another VMA is in front of it. -/
theorem SortedTable.lt_of_stop_le (sorted : SortedTable table) {i j : Nat} (small : i < vmaMax) (live : (table i).Live)
    (live' : (table j).Live) (before : (table i).stop.toNat ≤ (table j).start.toNat) : i < j := by
  unfold VmaEntry.Live at live live'
  rcases Nat.lt_trichotomy i j with order | same | order
  · exact order
  · subst same
    omega
  · have ordered := sorted.sorted j i order small live' live
    omega

theorem placed_new (table : Slots) (p e : Nat) (entry : VmaEntry) : placed table p e entry p = entry := by
  rw [placed, if_neg (Nat.lt_irrefl p), if_pos rfl]

theorem placed_old (table : Slots) (le : p ≤ e) (entry : VmaEntry) {k : Nat} (other : k ≠ e) :
    placed table p e entry (shifted p e k) = table k := by
  rw [placed, shifted]
  split_ifs <;> first | rfl | omega

theorem shifted_lt {k l : Nat} (other : l ≠ e) :
    shifted p e k < shifted p e l ↔ k < l := by
  rw [shifted, shifted]
  split_ifs <;> omega

theorem shifted_inside (small : e < vmaMax) {k : Nat} (inside : k < vmaMax) : shifted p e k < vmaMax := by
  rw [shifted]
  split_ifs <;> omega

theorem shifted_cases (le : p ≤ e) {m : Nat} (inside : m < vmaMax) (other : m ≠ p) :
    ∃ k < vmaMax, k ≠ e ∧ m = shifted p e k := by
  by_cases between : p < m ∧ m ≤ e
  · refine ⟨m - 1, by omega, by omega, ?_⟩
    rw [shifted, if_pos (by omega)]
    omega
  · refine ⟨m, inside, by omega, ?_⟩
    rw [shifted, if_neg (by omega)]

variable (sorted : SortedTable table) (nonempty : start < stop) (place : Place table start stop p e)

include sorted nonempty place

theorem placed_separate : Separate (placed table p e (newEntry start stop flags)) := by
  have new := placed_new table p e (newEntry start stop flags)
  have old := fun {k : Nat} => placed_old (k := k) table place.le (newEntry start stop flags)
  -- the new interval meets no other one
  have between : ∀ k < vmaMax, (table k).Live →
      stop.toNat ≤ (table k).start.toNat ∨ (table k).stop.toNat ≤ start.toNat := by
    intro k small live
    by_contra meets
    exact place.apart k small ⟨live, by omega, by omega⟩
  constructor
  · intro m small
    by_cases here : m = p
    · rw [here, new]
      exact Nat.le_of_lt nonempty
    · obtain ⟨k, smallK, other, rfl⟩ := shifted_cases place.le small here
      rw [old other]
      exact sorted.valid k smallK
  · intro m n smallM smallN different liveM liveN
    by_cases hereM : m = p
    · obtain ⟨l, smallL, otherL, rfl⟩ := shifted_cases place.le smallN fun same => different (hereM.trans same.symm)
      rw [old otherL] at liveN ⊢
      rw [hereM, new]
      exact between l smallL liveN
    · obtain ⟨k, smallK, otherK, rfl⟩ := shifted_cases place.le smallM hereM
      rw [old otherK] at liveM ⊢
      by_cases hereN : n = p
      · rw [hereN, new]
        exact (between k smallK liveM).symm
      · obtain ⟨l, smallL, otherL, rfl⟩ := shifted_cases place.le smallN hereN
        rw [old otherL] at liveN ⊢
        rcases Nat.lt_trichotomy k l with order | same | order
        · exact .inl (sorted.sorted k l order smallL liveM liveN)
        · exact absurd (congrArg (shifted p e) same) different
        · exact .inr (sorted.sorted l k order smallK liveN liveM)

omit sorted nonempty in
theorem placed_maps (a : Word) (attributes : Attributes) :
    Maps (placed table p e (newEntry start stop flags)) a attributes ↔
      start.toNat ≤ a.toNat ∧ a.toNat < stop.toNat ∧ attributes = ⟨flags, -1, none⟩ ∨ Maps table a attributes := by
  have new := placed_new table p e (newEntry start stop flags)
  have old := fun {k : Nat} => placed_old (k := k) table place.le (newEntry start stop flags)
  have small := place.first.1
  constructor
  · rintro ⟨m, inside, from_, below, rfl⟩
    by_cases here : m = p
    · rw [here, new] at from_ below ⊢
      exact .inl ⟨from_, below, rfl⟩
    · obtain ⟨k, smallK, other, rfl⟩ := shifted_cases place.le inside here
      rw [old other] at from_ below ⊢
      exact .inr ⟨k, smallK, from_, below, rfl⟩
  · rintro (⟨from_, below, rfl⟩ | ⟨k, inside, from_, below, rfl⟩)
    · refine ⟨p, Nat.lt_of_le_of_lt place.le small, ?_, ?_, ?_⟩
      · rwa [new]
      · rwa [new]
      · rw [new]
        rfl
    · have other : k ≠ e := fun same =>
        not_live_of_empty place.first.2.1 (same ▸ Nat.lt_of_le_of_lt from_ below)
      exact ⟨shifted p e k, shifted_inside small inside, by rwa [old other], by rwa [old other], by rw [old other]⟩

/-- The pairs that are merged go on with the same file. -/
theorem placed_files_iff :
    (∀ x z, x < z → z < vmaMax →
      Adjacent (placed table p e (newEntry start stop flags) x) (placed table p e (newEntry start stop flags) z) →
      Continues (placed table p e (newEntry start stop flags) x) (placed table p e (newEntry start stop flags) z)) ↔
    (∀ i j, i < vmaMax → j < vmaMax → Adjacent (table i) (table j) → Continues (table i) (table j)) ∧
      (∀ j < vmaMax, (table j).Live → (table j).flags = flags → (table j).start = stop → (table j).fd = -1) ∧
      ∀ i < e, (table i).Live → (table i).flags = flags → (table i).stop = start → (table i).fd = -1 := by
  have new := placed_new table p e (newEntry start stop flags)
  have old := fun {k : Nat} => placed_old (k := k) table place.le (newEntry start stop flags)
  have small := place.first.1
  have le := place.le
  have ne : ∀ {k}, (table k).Live → k ≠ e := fun live same => not_live_of_empty place.first.2.1 (same ▸ live)
  rw [BitVec.lt_def] at nonempty
  constructor
  · intro all
    refine ⟨fun i j smallI smallJ adjacent => ?_, fun j smallJ live sameFlags touch => ?_,
      fun i before live sameFlags touch => ?_⟩
    · have live := adjacent.1
      have live' := adjacent.2.1
      have order : i < j := sorted.lt_of_stop_le smallI live live' (Nat.le_of_eq adjacent.2.2.2)
      have fits := all (shifted p e i) (shifted p e j) ((shifted_lt (ne live')).mpr order) (shifted_inside small smallJ)
      rw [old (ne live), old (ne live')] at fits
      exact fits adjacent
    · -- the new VMA is in front of a larger one
      have order : p < shifted p e j := by
        have other := ne live
        by_contra behind
        rw [shifted] at behind
        have before : j < p := by
          split_ifs at behind <;> omega
        have low := place.before j before
        rw [touch] at low
        omega
      have fits := all p (shifted p e j) order (shifted_inside small smallJ)
      rw [new, old (ne live)] at fits
      exact (fits ⟨nonempty, live, sameFlags.symm, congrArg BitVec.toNat touch.symm⟩).1.symm
    · -- and behind a smaller one
      have other := ne live
      have order : i < p := by
        by_contra behind
        have larger := place.behind (by omega)
        have touch' := congrArg BitVec.toNat touch
        unfold VmaEntry.Live at live
        rcases Nat.lt_or_ge p i with later | here
        · have liveP : (table p).Live :=
            live_of_not_empty (sorted.valid p (by omega)) (place.first.2.2 p (by omega))
          have ordered := sorted.sorted p i later (by omega) liveP live
          unfold VmaEntry.Live at liveP
          omega
        · have same : i = p := by omega
          subst same
          omega
      have fits := all (shifted p e i) p (by rw [shifted]; split_ifs <;> omega) (by omega)
      rw [new, old other] at fits
      exact (fits ⟨live, nonempty, sameFlags, congrArg BitVec.toNat touch⟩).1
  · rintro ⟨files, next, previous⟩ x z order inside adjacent
    by_cases hereX : x = p
    · obtain ⟨l, smallL, other, rfl⟩ := shifted_cases le inside (by omega)
      rw [hereX, new, old other] at adjacent ⊢
      obtain ⟨-, live, sameFlags, touch⟩ := adjacent
      have none := next l smallL live sameFlags.symm (BitVec.eq_of_toNat_eq touch.symm)
      have file : ¬0 ≤ (newEntry start stop flags).fd := by
        have fd : (newEntry start stop flags).fd = -1 := rfl
        rw [fd]
        decide
      exact ⟨none.symm, fun isFile => absurd isFile file⟩
    · obtain ⟨k, smallK, other, rfl⟩ := shifted_cases le (by omega) hereX
      rw [old other] at adjacent ⊢
      by_cases hereZ : z = p
      · rw [hereZ, new] at adjacent ⊢
        obtain ⟨live, -, sameFlags, touch⟩ := adjacent
        have before : k < e := by
          rw [shifted] at order
          split_ifs at order <;> omega
        have none := previous k before live sameFlags (BitVec.eq_of_toNat_eq touch)
        refine ⟨none, fun file => ?_⟩
        rw [none] at file
        exact absurd file (by decide)
      · obtain ⟨l, smallL, otherL, rfl⟩ := shifted_cases le inside hereZ
        rw [old otherL] at adjacent ⊢
        exact files k l smallK smallL adjacent

/-- The merged table is sorted. -/
theorem merged_sorted_iff {table' : Slots} (merged : MergesTo (placed table p e (newEntry start stop flags)) table') :
    SortedTable table' ↔ ∀ j < vmaMax, e < j → (table j).Live → (table j).start.toNat < start.toNat →
      ∃ i < vmaMax, Adjacent (table i) (table j) := by
  have new := placed_new table p e (newEntry start stop flags)
  have old := fun {k : Nat} => placed_old (k := k) table place.le (newEntry start stop flags)
  have small := place.first.1
  have le := place.le
  have ne : ∀ {k}, (table k).Live → k ≠ e := fun live same => not_live_of_empty place.first.2.1 (same ▸ live)
  rw [BitVec.lt_def] at nonempty
  constructor
  · intro done j smallJ behind live less
    by_contra alone
    unfold VmaEntry.Live at live
    -- no larger VMA is in front of the first empty slot
    have last : p = e := by
      by_contra order
      have larger := place.behind (by omega)
      have liveP : (table p).Live := live_of_not_empty (sorted.valid p (by omega)) (place.first.2.2 p (by omega))
      have ordered := sorted.sorted p j (by omega) smallJ liveP live
      unfold VmaEntry.Live at liveP
      omega
    have place' : shifted p e j = j := by
      rw [shifted, if_neg (by omega)]
    have atJ : placed table p e (newEntry start stop flags) j = table j := by
      have same := old (ne live)
      rwa [place'] at same
    have kept : (table' j).Live := by
      rw [merged.live j smallJ, atJ]
      refine ⟨live, ?_⟩
      rintro ⟨x, order, adjacent⟩
      by_cases hereX : x = p
      · rw [hereX, new] at adjacent
        have touch : stop.toNat = (table j).start.toNat := adjacent.2.2.2
        omega
      · obtain ⟨k, smallK, otherK, rfl⟩ := shifted_cases le (by omega) hereX
        rw [old otherK] at adjacent
        exact alone ⟨k, smallK, adjacent⟩
    have keptNew : (table' p).Live := by
      rw [merged.live p (by omega), new]
      refine ⟨nonempty, ?_⟩
      rintro ⟨x, order, adjacent⟩
      obtain ⟨k, smallK, otherK, rfl⟩ := shifted_cases le (by omega) (Nat.ne_of_lt order)
      rw [old otherK] at adjacent
      have before : k < j := by
        rw [shifted] at order
        split_ifs at order <;> omega
      have ordered := sorted.sorted k j before smallJ adjacent.1 live
      have touch : (table k).stop.toNat = start.toNat := adjacent.2.2.2
      omega
    have ordered := done.sorted p j (by omega) smallJ keptNew kept
    have startNew := merged.start p (by omega) keptNew
    have startJ := merged.start j smallJ kept
    rw [new] at startNew
    rw [atJ] at startJ
    unfold VmaEntry.Live at keptNew
    rw [startNew] at keptNew
    rw [startJ] at ordered
    have starts : (newEntry start stop flags).start = start := rfl
    rw [starts] at keptNew
    omega
  · intro order
    refine ⟨merged.separate.valid, fun m n before smallN liveM liveN => ?_⟩
    have smallM : m < vmaMax := Nat.lt_trans before smallN
    rcases merged.separate.apart m n smallM smallN (Nat.ne_of_lt before) liveM liveN with fine | wrong
    · exact fine
    · exfalso
      -- the starts are those before merging
      have startM := merged.start m smallM liveM
      have startN := merged.start n smallN liveN
      obtain ⟨wasLiveM, -⟩ := (merged.live m smallM).mp liveM
      obtain ⟨wasLiveN, notTaken⟩ := (merged.live n smallN).mp liveN
      unfold VmaEntry.Live at liveN
      rw [startM] at wrong
      rw [startN] at liveN
      have inverted : (placed table p e (newEntry start stop flags) n).start.toNat <
          (placed table p e (newEntry start stop flags) m).start.toNat := by omega
      by_cases hereM : m = p
      · obtain ⟨l, smallL, otherL, rfl⟩ := shifted_cases le smallN (by omega)
        rw [hereM, new, old otherL] at inverted
        rw [old otherL] at wasLiveN
        have starts : (newEntry start stop flags).start = start := rfl
        rw [starts] at inverted
        have behind : e < l := by
          by_contra notBehind
          have between : p ≤ l := by
            rw [hereM, shifted] at before
            split_ifs at before <;> omega
          have larger := place.behind (by omega)
          rcases Nat.lt_or_ge p l with later | here
          · have liveP : (table p).Live :=
              live_of_not_empty (sorted.valid p (by omega)) (place.first.2.2 p (by omega))
            have ordered := sorted.sorted p l later smallL liveP wasLiveN
            unfold VmaEntry.Live at liveP
            omega
          · have same : l = p := by omega
            rw [same] at inverted
            omega
        obtain ⟨k, smallK, adjacent⟩ := order l smallL behind wasLiveN inverted
        have earlier : k < l := sorted.lt_of_stop_le smallK adjacent.1 wasLiveN (Nat.le_of_eq adjacent.2.2.2)
        refine notTaken ⟨shifted p e k, (shifted_lt otherL).mpr earlier, ?_⟩
        rwa [old (ne adjacent.1), old otherL]
      · obtain ⟨k, smallK, otherK, rfl⟩ := shifted_cases le smallM hereM
        rw [old otherK] at inverted wasLiveM
        by_cases hereN : n = p
        · rw [hereN, new] at inverted
          have starts : (newEntry start stop flags).start = start := rfl
          rw [starts] at inverted
          have low := place.before k (by rw [hereN, shifted] at before; split_ifs at before <;> omega)
          omega
        · obtain ⟨l, smallL, otherL, rfl⟩ := shifted_cases le smallN hereN
          rw [old otherL] at inverted wasLiveN
          have ordered := sorted.sorted k l ((shifted_lt otherL).mp before) smallL wasLiveM wasLiveN
          unfold VmaEntry.Live at wasLiveM
          omega

end Placed

/-- Adding an interval to a sorted table does just that exactly if it is refused or the order of the slots and the files
are such that nothing goes wrong. -/
theorem vmmVmaAddEnhanced_inserts_iff {table : Slots} {start stop : Word} {flags : BitVec 32}
    (sorted : SortedTable table) (nonempty : start < stop) :
    Inserts table start stop flags (vmmVmaAddEnhanced table start stop flags) ↔
      Refused table start stop ∨ InsertionFits table start stop flags := by
  rw [vmmVmaAddEnhanced, if_neg (BitVec.not_le.mpr nonempty)]
  rcases vmaInsertSorted_cases sorted.valid start stop flags with ⟨refused, failed⟩ | ⟨p, e, place, inserted⟩
  · rw [failed]
    exact iff_of_true (.inl rfl) (.inl refused)
  · have notRefused : ¬Refused table start stop := by
      rintro (⟨k, small, meets⟩ | full)
      · exact place.apart k small meets
      · exact full e place.first.1 place.first.2.1
    have separate : Separate (placed table p e (newEntry start stop flags)) := placed_separate sorted nonempty place
    have merged := vmaMergeAdjacent_mergesTo separate
    have isFirst : ∀ e', FirstEmpty table e' ↔ e' = e := by
      intro e'
      constructor
      · intro first
        rcases Nat.lt_trichotomy e' e with order | same | order
        · exact absurd first.2.1 (place.first.2.2 e' order)
        · exact same
        · exact absurd place.first.2.1 (first.2.2 e order)
      · rintro rfl
        exact place.first
    have sameMaps : (∀ a attributes, Maps (vmaMergeAdjacent (placed table p e (newEntry start stop flags))) a attributes ↔
        start.toNat ≤ a.toNat ∧ a.toNat < stop.toNat ∧ attributes = ⟨flags, -1, none⟩ ∨ Maps table a attributes) ↔
        SameMaps (placed table p e (newEntry start stop flags))
          (vmaMergeAdjacent (placed table p e (newEntry start stop flags))) := by
      refine forall_congr' fun a => forall_congr' fun attributes => ?_
      rw [← placed_maps place]
      exact Iff.comm
    rw [inserted, Inserts, or_iff_right notRefused]
    dsimp only
    rw [sameMaps, merged.maps, merged_sorted_iff sorted nonempty place merged, placed_files_iff sorted nonempty place]
    constructor
    · rintro (failed | ⟨-, order, files, next, previous⟩)
      · cases failed
      · refine ⟨fun e' first => ?_, files, next, fun e' first => ?_⟩
        · rw [(isFirst e').mp first]
          exact order
        · rw [(isFirst e').mp first]
          exact previous
    · intro fits
      exact .inr ⟨rfl, fits.order e place.first, fits.files, fits.next, fits.previous e place.first⟩

/-- A table in which the first slot is empty and the next one holds a VMA. -/
def gapTable : Slots := fun k => if k = 1 then ⟨⟨0x1000, 0x2000, vmaRead, -1⟩, 0⟩ else ⟨⟨0, 0, 0, 0⟩, 0⟩

theorem gapTable_sorted : SortedTable gapTable := by
  have slot : ∀ {k}, (gapTable k).Live → k = 1 := by
    intro k live
    by_contra other
    rw [gapTable, if_neg other] at live
    exact absurd live (Nat.lt_irrefl _)
  constructor
  · intro k _
    rw [gapTable]
    split
    · decide
    · decide
  · intro i j order _ live live'
    have first := slot live
    have second := slot live'
    omega

theorem vmmVmaAddEnhanced_inserts_iff_gap :
    Inserts gapTable 0x500 0x1000 vmaRead (vmmVmaAddEnhanced gapTable 0x500 0x1000 vmaRead) ↔
      Refused gapTable 0x500 0x1000 ∨ InsertionFits gapTable 0x500 0x1000 vmaRead :=
  vmmVmaAddEnhanced_inserts_iff gapTable_sorted (by decide)

/-- A VMA behind the one in the second slot goes to the first slot, so that the table is not sorted any more. -/
theorem vmmVmaAddEnhanced_unsorted :
    SortedTable gapTable ∧
      (vmmVmaAddEnhanced gapTable 0x3000 0x4000 vmaRead).1 = 0 ∧
      ((vmmVmaAddEnhanced gapTable 0x3000 0x4000 vmaRead).2 0).start = 0x3000 ∧
      ((vmmVmaAddEnhanced gapTable 0x3000 0x4000 vmaRead).2 1).start = 0x1000 ∧
      ¬Inserts gapTable 0x3000 0x4000 vmaRead (vmmVmaAddEnhanced gapTable 0x3000 0x4000 vmaRead) := by
  refine ⟨gapTable_sorted, by decide +kernel, by decide +kernel, by decide +kernel, ?_⟩
  have first : ((vmmVmaAddEnhanced gapTable 0x3000 0x4000 vmaRead).2 0).Live := by
    unfold VmaEntry.Live
    decide +kernel
  have second : ((vmmVmaAddEnhanced gapTable 0x3000 0x4000 vmaRead).2 1).Live := by
    unfold VmaEntry.Live
    decide +kernel
  have apart : ¬((vmmVmaAddEnhanced gapTable 0x3000 0x4000 vmaRead).2 0).stop.toNat ≤
      ((vmmVmaAddEnhanced gapTable 0x3000 0x4000 vmaRead).2 1).start.toNat := by decide +kernel
  rintro (failed | ⟨-, sorted, -⟩)
  · have code : (vmmVmaAddEnhanced gapTable 0x3000 0x4000 vmaRead).1 = -1 := by rw [failed]
    exact absurd code (by decide +kernel)
  · exact apart (sorted.sorted 0 1 Nat.one_pos (by decide) first second)

end Systrix.Vmm
