import Mathlib.Data.Nat.Prime.Basic
import Systrix.Pmm.BuddyLists

/-!
# Allocations of several pages

`pmm_alloc_n` of `kernel/pmm.c` and `pmm_alloc_aligned` of `kernel/pmm_enhanced.c`.  Both round a number of pages up to
an order, and stop at the largest one there is.
-/

namespace Systrix.Pmm

open ByteMemory LinkedList Machine

namespace Buddy

/-- `while ((1u<<o) < n && o < MAX_ORDER) o++`, with the orders left to go. -/
def roundUp (n : Nat) : (left o : Nat) → Nat
  | 0, o => o
  | left + 1, o => if 2 ^ o < n then roundUp n left (o + 1) else o

/-- The order that both functions round up to. -/
def orderFor (n : Nat) : Nat := roundUp n maxOrder 0

variable (s : Buddy) (oom_kill : Buddy → Option Buddy)

def pmmAllocN (n : Nat) : Option (Nat × Buddy) := s.pmmAllocOrder oom_kill (orderFor n)

/-- The order that `pmm_alloc_aligned` asks for. -/
def alignedOrder (n align_pages : Nat) : Nat :=
  let order := orderFor n
  let align_order := orderFor align_pages
  if order < align_order then align_order else order

def pmmAllocAligned (n align_pages : Nat) : Option (Nat × Buddy) :=
  if n = 0 ∨ align_pages = 0 then some (0, s)
  else
    let order := alignedOrder n align_pages
    match s.pmmAllocOrder oom_kill order with
    | none => none
    | some (phys, s) =>
        if phys = 0 then some (0, s)
        else if physToIdx phys &&& (align_pages - 1) ≠ 0 then
          let s := s.pmmFreeOrder phys order
          if order + 1 ≤ maxOrder then
            match s.pmmAllocOrder oom_kill (order + 1) with
            | none => none
            | some (phys, s) =>
                if phys = 0 then some (0, s)
                else if physToIdx phys &&& (align_pages - 1) ≠ 0 then some (0, s.pmmFreeOrder phys (order + 1))
                else some (phys, s)
          else some (0, s)
        else some (phys, s)

/-- The state in which a block is looked for: `oom_kill` comes before a second search. -/
def searched (order : Nat) : Buddy :=
  match s.findOrder order with
  | some _ => s
  | none => (oom_kill s).getD s

/-- What a call returns is 0, or the start of `n` pages that were free, and are the caller's alone now. -/
def Grants (n phys : Nat) (s' : Buddy) : Prop :=
  phys = 0 ∨ ∃ idx, phys = idxToPhys idx ∧ ∀ k < n, s.FreePage (idx + k) ∧ ¬ s'.FreePage (idx + k)

/-- `pmm_alloc_n` returns enough pages, or 0. -/
def LargeEnough (n : Nat) : Prop :=
  ∀ phys s', s.pmmAllocN oom_kill n = some (phys, s') → (s.searched oom_kill (orderFor n)).Grants n phys s'

/-- `pmm_alloc_aligned` returns enough pages at a multiple of `align_pages` pages, or 0. -/
def AlignedEnough (n align_pages : Nat) : Prop :=
  ∀ phys s', s.pmmAllocAligned oom_kill n align_pages = some (phys, s') →
    (s.searched oom_kill (alignedOrder n align_pages)).Grants n phys s' ∧ align_pages * pageSize ∣ phys

/-- The lists are in order, and also when a process was killed for its memory. -/
def Steady : Prop := s.Sound ∧ ∀ t, oom_kill s = some t → t.Sound

/-- The first block of the first list that has one, from an order on. -/
def Offers (order idx : Nat) : Prop := ∃ found, s.findOrder order = some found ∧ s.buddy_heads found = idx

/-- No block of the largest order is free, not even when a process was killed. -/
def NoneLargest : Prop :=
  s.buddy_heads maxOrder = buddyNil ∧ ∀ t, oom_kill s = some t → t.buddy_heads maxOrder = buddyNil

end Buddy

/-! ## Orders -/

section Orders

variable {n left o : Nat}

theorem roundUp_spec (n : Nat) (top : o + left = maxOrder) :
    Buddy.roundUp n left o ≤ maxOrder ∧ (n ≤ 2 ^ Buddy.roundUp n left o ∨ Buddy.roundUp n left o = maxOrder) := by
  induction left generalizing o with
  | zero => exact ⟨Nat.le_of_eq top, Or.inr top⟩
  | succ left ih =>
      rw [Buddy.roundUp]
      split_ifs with more
      · exact ih (by omega)
      · exact ⟨by omega, Or.inl (Nat.le_of_not_lt more)⟩

theorem orderFor_le (n : Nat) : Buddy.orderFor n ≤ maxOrder := (roundUp_spec n (Nat.zero_add _)).1

/-- Up to 1024 pages fit the order. -/
theorem le_orderFor (fits : n ≤ 2 ^ maxOrder) : n ≤ 2 ^ Buddy.orderFor n := by
  rcases (roundUp_spec n (Nat.zero_add maxOrder)).2 with enough | top
  · exact enough
  · rw [Buddy.orderFor, top]
    exact fits

theorem orderFor_large (large : 2 ^ maxOrder < n) : Buddy.orderFor n = maxOrder := by
  obtain ⟨le, enough | top⟩ := roundUp_spec n (Nat.zero_add maxOrder)
  · have below : 2 ^ Buddy.roundUp n maxOrder 0 ≤ 2 ^ maxOrder := Nat.pow_le_pow_right (by decide) le
    omega
  · exact top

theorem alignedOrder_spec (n align_pages : Nat) :
    Buddy.alignedOrder n align_pages ≤ maxOrder ∧ Buddy.orderFor n ≤ Buddy.alignedOrder n align_pages ∧
      Buddy.orderFor align_pages ≤ Buddy.alignedOrder n align_pages := by
  have first := orderFor_le n
  have second := orderFor_le align_pages
  simp only [Buddy.alignedOrder]
  split_ifs <;> omega

end Orders

/-! ## One allocation -/

section Allocation

variable {s s' t : Buddy} {oom_kill : Buddy → Option Buddy} {order found phys n : Nat}

theorem findOrder_some (search : s.findOrder order = some found) :
    order ≤ found ∧ found ≤ maxOrder ∧ s.buddy_heads found ≠ buddyNil := by
  have real := List.find?_some search
  have range := List.mem_range'_1.mp (List.mem_of_find?_eq_some search)
  exact ⟨range.1, by omega, by simpa using real⟩

theorem findOrder_none (search : s.findOrder order = none) :
    ∀ o, order ≤ o → o ≤ maxOrder → s.buddy_heads o = buddyNil := by
  intro o low high
  have passed := List.find?_eq_none.mp search o (List.mem_range'_1.mpr (by omega))
  simpa using passed

theorem Buddy.Steady.searched (steady : s.Steady oom_kill) (order : Nat) : (s.searched oom_kill order).Sound := by
  rw [Buddy.searched]
  split
  · exact steady.1
  · cases kill : oom_kill s with
    | none => exact steady.1
    | some t => exact steady.2 t kill

/-- A call gives 0 if the search has no result, else the block that is found. -/
theorem Buddy.Steady.pmmAllocOrder (steady : s.Steady oom_kill) (top : order ≤ maxOrder)
    (run : s.pmmAllocOrder oom_kill order = some (phys, s')) :
    (s.searched oom_kill order).Sound ∧
      ((phys = 0 ∧ (s.searched oom_kill order).findOrder order = none) ∨
        ∃ found, (s.searched oom_kill order).findOrder order = some found ∧
          (s.searched oom_kill order).takeFrom order found = (phys, s')) := by
  refine ⟨steady.searched order, ?_⟩
  rw [Buddy.pmmAllocOrder, if_neg (Nat.not_lt.mpr top)] at run
  rw [Buddy.searched]
  cases search : s.findOrder order with
  | some found =>
      rw [search] at run
      exact Or.inr ⟨found, search, Option.some.inj run⟩
  | none =>
      cases kill : oom_kill s with
      | none => simp [search, kill] at run
      | some t =>
          simp only [search, kill, Option.getD_some] at run ⊢
          cases again : t.findOrder order with
          | some found =>
              rw [again] at run
              exact Or.inr ⟨found, rfl, Option.some.inj run⟩
          | none =>
              rw [again] at run
              exact Or.inl ⟨(Prod.mk.inj (Option.some.inj run)).1.symm, rfl⟩

/-- What a search finds is handed out. -/
theorem pmmAllocOrder_of_search (top : order ≤ maxOrder)
    (search : (s.searched oom_kill order).findOrder order = some found) :
    s.pmmAllocOrder oom_kill order = some ((s.searched oom_kill order).takeFrom order found) := by
  rw [Buddy.pmmAllocOrder, if_neg (Nat.not_lt.mpr top)]
  rw [Buddy.searched] at search ⊢
  cases first : s.findOrder order with
  | some o =>
      rw [first] at search
      obtain rfl : o = found := Option.some.inj (first.symm.trans search)
      rfl
  | none =>
      rw [first] at search
      cases kill : oom_kill s with
      | none =>
          simp only [kill, Option.getD_none, first] at search
          cases search
      | some t =>
          simp only [kill, Option.getD_some] at search ⊢
          rw [search]

/-- A block begins at a multiple of its size, and its pages are the caller's. -/
theorem takeFrom_grants (sound : t.Sound) (search : t.findOrder order = some found)
    (here : t.takeFrom order found = (phys, s')) :
    phys = idxToPhys (t.buddy_heads found) ∧ t.buddy_heads found < 2 ^ 32 ∧ 2 ^ order ∣ t.buddy_heads found ∧
      Takes t order (t.buddy_heads found) s' := by
  obtain ⟨low, high, real⟩ := findOrder_some search
  obtain ⟨start, aligned, takes⟩ := sound.takeFrom low high real
  rw [here] at start takes
  refine ⟨start, ?_, Nat.dvd_trans (Nat.pow_dvd_pow 2 low) aligned, takes⟩
  obtain ⟨blocks, lists⟩ := sound
  have small := lists.small
  have inside := takes.inside
  have positive : 0 < 2 ^ order := Nat.two_pow_pos order
  rw [buddyNil] at small
  omega

theorem Takes.grants {idx : Nat} (takes : Takes t order idx s') (enough : n ≤ 2 ^ order) :
    t.Grants n (idxToPhys idx) s' := by
  refine Or.inr ⟨idx, rfl, fun k below => ⟨(takes.pages _).mpr (Or.inl ?_), takes.gone _ ?_ ?_⟩⟩
  · omega
  · omega
  · omega

theorem idxToPhys_pos (idx : Nat) : idxToPhys idx ≠ 0 := by
  unfold idxToPhys ramStart
  omega

theorem idxToPhys_inj {idx idx' : Nat} (same : idxToPhys idx = idxToPhys idx') : idx = idx' := by
  unfold idxToPhys ramStart pageSize at same
  omega

/-- The page behind a block stays free if it was. -/
theorem Takes.not_grants {idx : Nat} (takes : Takes t order idx s') (large : 2 ^ order < n) :
    ¬ t.Grants n (idxToPhys idx) s' := by
  rintro (zero | ⟨idx', same, pages⟩)
  · exact idxToPhys_pos idx zero
  · obtain rfl := idxToPhys_inj same
    obtain ⟨free, gone⟩ := pages (2 ^ order) large
    rcases (takes.pages _).mp free with inside | kept
    · omega
    · exact gone kept

end Allocation

section Calls

variable {s s' t : Buddy} {oom_kill : Buddy → Option Buddy} {n align_pages : Nat}

theorem findOrder_top : s.findOrder maxOrder = none ↔ s.buddy_heads maxOrder = buddyNil := by
  constructor
  · exact fun search => findOrder_none search maxOrder (Nat.le_refl _) (Nat.le_refl _)
  · intro empty
    cases search : s.findOrder maxOrder with
    | none => rfl
    | some o =>
        obtain ⟨low, high, real⟩ := findOrder_some search
        obtain rfl := Nat.le_antisymm high low
        exact absurd empty real

theorem noneLargest_iff :
    s.NoneLargest oom_kill ↔ (s.searched oom_kill maxOrder).findOrder maxOrder = none := by
  rw [Buddy.NoneLargest, Buddy.searched]
  cases first : s.findOrder maxOrder with
  | some o =>
      have real : s.buddy_heads maxOrder ≠ buddyNil := fun empty => by
        rw [findOrder_top.mpr empty] at first
        cases first
      exact iff_of_false (fun both => real both.1) (by rw [first]; exact Option.some_ne_none o)
  | none =>
      rw [and_iff_right (findOrder_top.mp first)]
      cases kill : oom_kill s with
      | none => exact iff_of_true (fun _ some => by cases some) first
      | some t => simp only [Option.some.injEq, forall_eq', Option.getD_some, findOrder_top]

/-- A block of the largest order is all that a call for more pages can give. -/
theorem Buddy.Steady.largeEnough_iff (steady : s.Steady oom_kill) :
    s.LargeEnough oom_kill n ↔ n ≤ 2 ^ maxOrder ∨ s.NoneLargest oom_kill := by
  by_cases fits : n ≤ 2 ^ maxOrder
  · refine iff_of_true (fun phys s' run => ?_) (Or.inl fits)
    obtain ⟨sound, ⟨rfl, -⟩ | ⟨found, search, here⟩⟩ := steady.pmmAllocOrder (orderFor_le n) run
    · exact Or.inl rfl
    · obtain ⟨rfl, -, -, takes⟩ := takeFrom_grants sound search here
      exact takes.grants (le_orderFor fits)
  · have large : 2 ^ maxOrder < n := Nat.lt_of_not_le fits
    have order := orderFor_large large
    rw [or_iff_right fits, noneLargest_iff]
    simp only [Buddy.LargeEnough, Buddy.pmmAllocN, order]
    constructor
    · intro enough
      cases search : (s.searched oom_kill maxOrder).findOrder maxOrder with
      | none => rfl
      | some found =>
          -- a block of the largest order is handed out, and is too small
          have run := pmmAllocOrder_of_search (Nat.le_refl _) search
          cases here : (s.searched oom_kill maxOrder).takeFrom maxOrder found with
          | mk phys s' =>
              rw [here] at run
              obtain ⟨sound, -⟩ := steady.pmmAllocOrder (Nat.le_refl _) run
              obtain ⟨rfl, -, -, takes⟩ := takeFrom_grants sound search here
              exact absurd (enough _ _ run) (takes.not_grants large)
    · intro none phys s' run
      obtain ⟨-, ⟨rfl, -⟩ | ⟨found, search, -⟩⟩ := steady.pmmAllocOrder (Nat.le_refl _) run
      · exact Or.inl rfl
      · rw [none] at search
        cases search

/-- A number below a power of two has no bit in common with the multiples of it. -/
theorem and_eq_zero {i m k : Nat} (aligned : 2 ^ k ∣ i) (small : m < 2 ^ k) : i &&& m = 0 := by
  obtain ⟨q, rfl⟩ := aligned
  apply Nat.eq_of_testBit_eq
  intro j
  rw [Nat.testBit_and, Nat.testBit_two_pow_mul, Nat.zero_testBit]
  by_cases high : k ≤ j
  · rw [Nat.testBit_lt_two_pow (Nat.lt_of_lt_of_le small (Nat.pow_le_pow_right (by decide) high)), Bool.and_false]
  · simp [high]

theorem physToIdx_idxToPhys {idx : Nat} (below : idx < 2 ^ 32) : physToIdx (idxToPhys idx) = idx := by
  rw [physToIdx, idxToPhys, Nat.add_sub_cancel_left, Nat.mul_div_cancel idx (by decide : 0 < pageSize)]
  exact u32_of_lt below

/-- No pages, or no alignment: 0 is returned. -/
theorem Buddy.alignedEnough_zero (zero : n = 0 ∨ align_pages = 0) : s.AlignedEnough oom_kill n align_pages := by
  intro phys s' run
  rw [Buddy.pmmAllocAligned, if_pos zero] at run
  cases run
  exact ⟨Or.inl rfl, Nat.dvd_zero _⟩

/-- The block that is offered begins at a multiple of the pages, or at an index that the mask refuses. -/
theorem Buddy.Steady.alignedEnough_iff (steady : s.Steady oom_kill) :
    s.AlignedEnough oom_kill n align_pages ↔
      n = 0 ∨ align_pages = 0 ∨
        ∀ idx, (s.searched oom_kill (Buddy.alignedOrder n align_pages)).Offers (Buddy.alignedOrder n align_pages) idx →
          idx &&& (align_pages - 1) ≠ 0 ∨ n ≤ 2 ^ maxOrder ∧ align_pages ∣ ramStart / pageSize + idx := by
  by_cases zero : n = 0 ∨ align_pages = 0
  · refine iff_of_true (Buddy.alignedEnough_zero zero) ?_
    exact zero.imp_right Or.inl
  · obtain ⟨top, least, least'⟩ := alignedOrder_spec n align_pages
    generalize order_eq : Buddy.alignedOrder n align_pages = order at *
    have pages (idx : Nat) : align_pages * pageSize ∣ idxToPhys idx ↔ align_pages ∣ ramStart / pageSize + idx := by
      rw [show idxToPhys idx = (ramStart / pageSize + idx) * pageSize by rw [Nat.add_mul]; rfl]
      exact Nat.mul_dvd_mul_iff_right (by decide)
    have granted {idx : Nat} {t s' : Buddy} (takes : Takes t order idx s') :
        t.Grants n (idxToPhys idx) s' ↔ n ≤ 2 ^ maxOrder := by
      constructor
      · intro grants
        by_contra large
        have below : 2 ^ order ≤ 2 ^ maxOrder := Nat.pow_le_pow_right (by decide) top
        exact takes.not_grants (Nat.lt_of_le_of_lt below (Nat.lt_of_not_le large)) grants
      · exact fun fits => takes.grants (Nat.le_trans (le_orderFor fits) (Nat.pow_le_pow_right (by decide) least))
    rw [← or_assoc, or_iff_right zero]
    constructor
    · rintro enough idx ⟨found, search, rfl⟩
      by_cases mask : (s.searched oom_kill order).buddy_heads found &&& (align_pages - 1) = 0
      · have run := pmmAllocOrder_of_search top search
        cases here : (s.searched oom_kill order).takeFrom order found with
        | mk phys s' =>
            rw [here] at run
            obtain ⟨sound, -⟩ := steady.pmmAllocOrder top run
            obtain ⟨rfl, number, -, takes⟩ := takeFrom_grants sound search here
            have call : s.pmmAllocAligned oom_kill n align_pages =
                some (idxToPhys ((s.searched oom_kill order).buddy_heads found), s') := by
              simp only [Buddy.pmmAllocAligned, if_neg zero, order_eq, run, if_neg (idxToPhys_pos _),
                physToIdx_idxToPhys number, mask, ne_eq, not_true, if_false]
            obtain ⟨grants, multiple⟩ := enough _ _ call
            rw [order_eq] at grants
            exact Or.inr ⟨(granted takes).mp grants, (pages _).mp multiple⟩
      · exact Or.inl mask
    · intro good phys s' run
      rw [order_eq]
      simp only [Buddy.pmmAllocAligned, if_neg zero, order_eq] at run
      cases call : s.pmmAllocOrder oom_kill order with
      | none => simp [call] at run
      | some result =>
          obtain ⟨phys', t⟩ := result
          simp only [call] at run
          obtain ⟨sound, ⟨rfl, -⟩ | ⟨found, search, here⟩⟩ := steady.pmmAllocOrder top call
          · cases run
            exact ⟨Or.inl rfl, Nat.dvd_zero _⟩
          · obtain ⟨rfl, number, multiple, takes⟩ := takeFrom_grants sound search here
            rw [if_neg (idxToPhys_pos _), physToIdx_idxToPhys number] at run
            by_cases mask : (s.searched oom_kill order).buddy_heads found &&& (align_pages - 1) = 0
            · rw [if_neg (not_not.mpr mask)] at run
              cases run
              obtain ⟨fits, divides⟩ := (good _ ⟨found, search, rfl⟩).resolve_left (not_not.mpr mask)
              exact ⟨(granted takes).mpr fits, (pages _).mpr divides⟩
            · -- a block of less than the largest order passes the mask
              have last : ¬ order + 1 ≤ maxOrder := by
                intro less
                have fits : align_pages ≤ 2 ^ order := by
                  rcases (roundUp_spec align_pages (Nat.zero_add maxOrder)).2 with enough | largest
                  · exact Nat.le_trans enough (Nat.pow_le_pow_right (by decide) least')
                  · rw [Buddy.orderFor, largest] at least'
                    omega
                exact mask (and_eq_zero multiple (by omega))
              rw [if_pos mask, if_neg last] at run
              cases run
              exact ⟨Or.inl rfl, Nat.dvd_zero _⟩

/-! ## The smallest memory with a block of each size -/

/-- One block of 1024 pages, the first ones behind the tables of the allocator. -/
def oneBlock : Buddy where
  buddy_heads o := if o = maxOrder then 6144 else buddyNil
  page_node _ := ⟨buddyNil, buddyNil⟩
  buddy_bmp i := decide (6144 ≤ i)
  pmm_refcnt _ := 0
  total_pages := 7168
  ram_end_actual := 0x2000000

theorem oneBlock_lists : FreeLists oneBlock fun o => if o = maxOrder then [6144] else [] := by
  have only {o i : Nat} (member : i ∈ if o = maxOrder then [6144] else []) : o = maxOrder ∧ i = 6144 := by
    split_ifs at member with largest
    · exact ⟨largest, List.mem_singleton.mp member⟩
    · cases member
  refine ⟨by decide, fun o _ => ?_, fun o _ => ?_, fun o _ i member => ?_, fun o _ i member => ?_, fun o _ => ?_,
    fun o _ i member o' _ i' member' ne => ?_⟩
  · simp only [oneBlock]
    split_ifs
    · exact ⟨rfl, by decide, rfl⟩
    · rfl
  · split_ifs
    · exact ⟨rfl, trivial⟩
    · trivial
  · obtain ⟨rfl, rfl⟩ := only member
    decide
  · obtain ⟨rfl, rfl⟩ := only member
    decide
  · split_ifs
    · exact List.nodup_singleton 6144
    · exact List.nodup_nil
  · obtain ⟨rfl, rfl⟩ := only member
    obtain ⟨rfl, rfl⟩ := only member'
    exact absurd ne (by simp)

theorem oneBlock_steady : oneBlock.Steady fun _ => none := ⟨⟨_, oneBlock_lists⟩, fun _ kill => by cases kill⟩

/-- `pmm_alloc_n` returns enough pages exactly up to 1024 of them, or as long as no block of 1024 pages is free.
`pmm_alloc_aligned` does so exactly up to 1024 pages, if the block that is offered begins at a multiple of the pages that
are asked for; or it refuses that block for its index. -/
theorem pmmAllocN_pmmAllocAligned_iff (steady : s.Steady oom_kill) (n align_pages : Nat) :
    (s.LargeEnough oom_kill n ↔ n ≤ 1024 ∨ s.NoneLargest oom_kill) ∧
      (s.AlignedEnough oom_kill n align_pages ↔
        n = 0 ∨ align_pages = 0 ∨
          ∀ idx, (s.searched oom_kill (Buddy.alignedOrder n align_pages)).Offers
              (Buddy.alignedOrder n align_pages) idx →
            idx &&& (align_pages - 1) ≠ 0 ∨ n ≤ 1024 ∧ align_pages ∣ 1024 + idx) :=
  ⟨steady.largeEnough_iff, steady.alignedEnough_iff⟩

theorem pmmAllocN_pmmAllocAligned_iff_oneBlock :
    oneBlock.LargeEnough (fun _ => none) 3 ∧ oneBlock.AlignedEnough (fun _ => none) 0 4 :=
  ⟨(pmmAllocN_pmmAllocAligned_iff oneBlock_steady 3 4).1.mpr (Or.inl (by decide)),
    (pmmAllocN_pmmAllocAligned_iff oneBlock_steady 0 4).2.mpr (Or.inl rfl)⟩

/-- A program of 1025 pages gets 1024; one page gets an address that is no multiple of three pages. -/
theorem oneBlock_too_small :
    ¬ oneBlock.LargeEnough (fun _ => none) 1025 ∧ ¬ oneBlock.AlignedEnough (fun _ => none) 1 3 := by
  constructor
  · intro enough
    rcases oneBlock_steady.largeEnough_iff.mp enough with fits | ⟨none, -⟩
    · exact absurd fits (by decide)
    · exact absurd none (by decide)
  · intro enough
    rcases oneBlock_steady.alignedEnough_iff.mp enough with zero | zero | good
    · exact absurd zero (by decide)
    · exact absurd zero (by decide)
    · have bad := good 6144 ⟨10, by decide +kernel, rfl⟩
      exact absurd bad (by decide +kernel)

end Calls

end Systrix.Pmm
