import Systrix.Kernel.Layout
import Systrix.Pmm.LargeBlocks

/-!
# The pages of the buddy allocator

What `pmm_init` makes of the memory map, and which pages belong to whom as long as blocks are only handed out: each
page that was added is on a list, or in one block that was handed out, and the bitmap has the pages on the lists.
-/

namespace Systrix.Pmm

open ByteMemory LinkedList Machine

/-! ## Boot -/

def maxPages : Nat := ramEndMax / pageSize

def e820Max : Nat := 32

def e820Usable : Nat := 1

/-- `E820Entry` -/
structure E820Entry where
  base : Nat
  len : Nat
  type : Nat

/-- `meta`: the heads of the lists, the counts of the references, and the bitmap. -/
def metaSize : Nat := (maxOrder + 1) * 8 + maxPages + (maxPages + 7) / 8

/-- The first page behind these tables. -/
def reserved : Nat := u32 ((pmmBitmap + metaSize - ramStart + pageSize - 1) / pageSize)

/-- The largest order up to one by which a block begins at a page and ends in the range. -/
def rangeOrder (idx last_excl : Nat) : (order : Nat) → Nat
  | 0 => 0
  | order + 1 =>
      if idx &&& (2 ^ (order + 1) - 1) ≠ 0 ∨ last_excl < idx + 2 ^ (order + 1) then rangeOrder idx last_excl order
      else order + 1

/-- A block is marked free, and put on its list. -/
def Buddy.addBlock (s : Buddy) (idx order : Nat) : Buddy := (s.bfree idx (2 ^ order) true).listPush order idx

/-- `buddy_add_range`; there are at most 2^24 pages, so that nothing wraps around. -/
def Buddy.buddyAddRange (last_excl idx : Nat) (s : Buddy) : Buddy :=
  if idx < last_excl then
    buddyAddRange last_excl (idx + 2 ^ rangeOrder idx last_excl maxOrder)
      (s.addBlock idx (rangeOrder idx last_excl maxOrder))
  else s
termination_by last_excl - idx
decreasing_by
  have positive : 0 < 2 ^ rangeOrder idx last_excl maxOrder := Nat.two_pow_pos _
  omega

/-- The loop of `pmm_init` that looks for the end of the memory. -/
def highestEnd (map : List E820Entry) : Nat :=
  map.foldl (fun highest e =>
    if e.type ≠ e820Usable then highest
    else if highest < u64 (e.base + e.len) then u64 (e.base + e.len) else highest) 0

/-- An address rounded down to a page. -/
def pageDown (a : Nat) : Nat := a / pageSize * pageSize

/-- A round of the loop of `pmm_init` that adds the memory of an entry. -/
def Buddy.addEntry (highest : Nat) (s : Buddy) (e : E820Entry) : Buddy :=
  if e.type ≠ e820Usable then s
  else
    let stop := u64 (e.base + e.len)
    if stop ≤ ramStart then s
    else
      let base := if e.base < ramStart then ramStart else e.base
      let stop := if highest < stop then highest else stop
      let base := pageDown (u64 (base + pageSize - 1))
      let stop := pageDown stop
      if stop ≤ base then s
      else
        let first := if physToIdx base < reserved then reserved else physToIdx base
        if physToIdx stop ≤ first then s else s.buddyAddRange (physToIdx stop) first

/-- The map that `pmm_init` goes through: none if it has no entries or too many. -/
def usedMap (map : List E820Entry) : List E820Entry := if map.length = 0 ∨ e820Max < map.length then [] else map

/-- `ram_end_actual` after `pmm_init` -/
def ramEnd (map : List E820Entry) : Nat := min ramEndMax (max 0x4000000 (highestEnd (usedMap map)))

/-- The number of pages up to there. -/
def totalPages (map : List E820Entry) : Nat := u32 ((ramEnd map - ramStart) / pageSize)

/-- The tables as `pmm_init` clears them; the pages hold what they held. -/
def emptyBuddy (page_node : Nat → BuddyNode) (map : List E820Entry) : Buddy where
  buddy_heads _ := buddyNil
  page_node := page_node
  buddy_bmp _ := false
  pmm_refcnt _ := 0
  total_pages := totalPages map
  ram_end_actual := ramEnd map

def pmmInit (page_node : Nat → BuddyNode) (map : List E820Entry) : Buddy :=
  match usedMap map with
  | [] => (emptyBuddy page_node map).buddyAddRange (totalPages map) reserved
  | _ :: _ => (usedMap map).foldl (Buddy.addEntry (ramEnd map)) (emptyBuddy page_node map)

/-! ## What the lists and the bitmap hold -/

/-- The lists are in order, and their pages are these, in the bitmap too. -/
structure Held (s : Buddy) (free : Nat → Prop) : Prop where
  sound : s.Sound
  pages : ∀ p, s.FreePage p ↔ free p
  bitmap : ∀ p, s.buddy_bmp p = true ↔ free p

/-- Pages of a range that are not in blocks are clear of them. -/
theorem clear_of_not_covered {blocks : Nat → List Nat} {low high : Nat} (below : low < high)
    (out : ∀ p, low ≤ p → p < high → ¬ Covered blocks p) : Clear blocks low high := by
  intro o order i member
  have positive : 0 < 2 ^ o := Nat.two_pow_pos o
  unfold Apart
  by_contra meet
  rw [not_or, Nat.not_le, Nat.not_le] at meet
  exact out (max low i) (by omega) (by omega) ⟨o, order, i, member, by omega, by omega⟩

theorem rangeOrder_spec (idx last_excl : Nat) (below : idx < last_excl) (order : Nat) :
    rangeOrder idx last_excl order ≤ order ∧ 2 ^ rangeOrder idx last_excl order ∣ idx ∧
      idx + 2 ^ rangeOrder idx last_excl order ≤ last_excl := by
  induction order with
  | zero => exact ⟨Nat.le_refl _, Nat.one_dvd _, below⟩
  | succ order ih =>
      rw [rangeOrder]
      split_ifs with smaller
      · exact ⟨Nat.le_succ_of_le ih.1, ih.2⟩
      · rw [not_or, not_not, Nat.and_two_pow_sub_one_eq_mod, Nat.not_lt] at smaller
        exact ⟨Nat.le_refl _, Nat.dvd_of_mod_eq_zero smaller.1, smaller.2⟩

theorem listPush_bmp (s : Buddy) (o idx : Nat) : (s.listPush o idx).buddy_bmp = s.buddy_bmp := by
  simp only [Buddy.listPush]
  split_ifs <;> rfl

namespace Held

variable {s : Buddy} {free : Nat → Prop}

theorem congr (held : Held s free) {free' : Nat → Prop} (same : ∀ p, free p ↔ free' p) : Held s free' :=
  ⟨held.sound, fun p => (held.pages p).trans (same p), fun p => (held.bitmap p).trans (same p)⟩

/-- One block more on its list. -/
theorem push (held : Held s free) {o idx : Nat} (order : o ≤ maxOrder) (aligned : 2 ^ o ∣ idx)
    (inside : idx + 2 ^ o ≤ s.total_pages) (out : ∀ p, idx ≤ p → p < idx + 2 ^ o → ¬ free p) :
    Held (s.addBlock idx o) fun p => (idx ≤ p ∧ p < idx + 2 ^ o) ∨ free p := by
  obtain ⟨blocks, lists⟩ := held.sound
  have marked : FreeLists (s.bfree idx (2 ^ o) true) blocks := lists.congr rfl rfl fun _ _ _ _ => rfl
  have clear : Clear blocks idx (idx + 2 ^ o) :=
    clear_of_not_covered (Nat.lt_add_of_pos_right (Nat.two_pow_pos o)) fun p low high covered =>
      out p low high ((held.pages p).mp ((lists.freePage_iff p).mpr covered))
  have pushed := marked.push order aligned inside clear
  refine ⟨⟨_, pushed⟩, fun p => ?_, fun p => ?_⟩
  · rw [Buddy.addBlock, pushed.freePage_iff, covered_cons order, ← lists.freePage_iff, held.pages]
  · rw [Buddy.addBlock, listPush_bmp, Buddy.bfree]
    dsimp only
    split_ifs with here
    · exact iff_of_true rfl (Or.inl here)
    · rw [held.bitmap, or_iff_right here]

/-- A range that is not free is added. -/
theorem addRange (held : Held s free) {last_excl idx : Nat} (inside : last_excl ≤ s.total_pages)
    (out : ∀ p, idx ≤ p → p < last_excl → ¬ free p) :
    Held (s.buddyAddRange last_excl idx) (fun p => free p ∨ (idx ≤ p ∧ p < last_excl)) ∧
      (s.buddyAddRange last_excl idx).total_pages = s.total_pages := by
  induction idx, s using Buddy.buddyAddRange.induct last_excl generalizing free with
  | case1 idx s more ih =>
      rw [Buddy.buddyAddRange, if_pos more]
      obtain ⟨top, aligned, fits⟩ := rangeOrder_spec idx last_excl more maxOrder
      generalize rangeOrder idx last_excl maxOrder = order at top aligned fits ih ⊢
      have positive : 0 < 2 ^ order := Nat.two_pow_pos order
      have pushed := held.push top aligned (fits.trans inside) fun p low high => out p low (high.trans_le fits)
      have total : (s.addBlock idx order).total_pages = s.total_pages := Buddy.listPush_total _ _ _
      obtain ⟨held', total'⟩ := ih pushed (total ▸ inside) fun p low high => by
        rintro (here | old)
        · omega
        · exact out p (by omega) high old
      refine ⟨held'.congr fun p => ?_, total'.trans total⟩
      by_cases old : free p
      · simp only [old, or_true, true_or]
      · simp only [old, or_false, false_or]
        omega
  | case2 idx s done =>
      rw [Buddy.buddyAddRange, if_neg done]
      exact ⟨held.congr fun p => (or_iff_left (by omega)).symm, rfl⟩

end Held

/-! ## The memory map -/

/-- An address in an entry of the map. -/
def E820Entry.Has (e : E820Entry) (a : Nat) : Prop := e.type = e820Usable ∧ e.base ≤ a ∧ a < e.base + e.len

/-- A page behind the tables with all its bytes in an entry. -/
def E820Entry.HasPage (e : E820Entry) (p : Nat) : Prop :=
  reserved ≤ p ∧ e.type = e820Usable ∧ e.base ≤ idxToPhys p ∧ idxToPhys (p + 1) ≤ e.base + e.len

/-- The pages of an entry, as the loop of `pmm_init` finds the first and the last one. -/
theorem E820Entry.hasPage_iff {e : E820Entry} {highest p : Nat} (usable : e.type = e820Usable)
    (fits : e.base + e.len + pageSize ≤ 2 ^ 64) (limit : highest ≤ ramEndMax) :
    e.HasPage p ∧ p < (highest - ramStart) / pageSize ↔
      ramStart < e.base + e.len ∧
        pageDown (u64 (max e.base ramStart + pageSize - 1)) < pageDown (min highest (e.base + e.len)) ∧
        max reserved (physToIdx (pageDown (u64 (max e.base ramStart + pageSize - 1)))) ≤ p ∧
        p < physToIdx (pageDown (min highest (e.base + e.len))) := by
  have up : u64 (max e.base ramStart + pageSize - 1) = max e.base ramStart + pageSize - 1 :=
    u64_of_lt (by simp only [pageSize, ramStart] at fits ⊢; omega)
  rw [up]
  simp only [E820Entry.HasPage, usable, true_and, idxToPhys, physToIdx, pageDown, u32, pageSize, ramStart, ramEndMax]
    at fits limit ⊢
  generalize reserved = r
  omega

/-- A round of `pmm_init` adds the pages of the entry. -/
theorem Held.addEntry {s : Buddy} {free : Nat → Prop} {e : E820Entry} {highest : Nat} (held : Held s free)
    (fits : e.type = e820Usable → e.base + e.len + pageSize ≤ 2 ^ 64)
    (total : s.total_pages = (highest - ramStart) / pageSize) (limit : highest ≤ ramEndMax)
    (out : ∀ p, e.HasPage p → ¬ free p) :
    Held (s.addEntry highest e) (fun p => free p ∨ e.HasPage p ∧ p < s.total_pages) ∧
      (s.addEntry highest e).total_pages = s.total_pages := by
  have unchanged (none : ∀ p, ¬ (e.HasPage p ∧ p < s.total_pages)) :
      Held s (fun p => free p ∨ e.HasPage p ∧ p < s.total_pages) ∧ s.total_pages = s.total_pages :=
    ⟨held.congr fun p => (or_iff_left (none p)).symm, rfl⟩
  unfold Buddy.addEntry
  by_cases usable : e.type = e820Usable
  · have stop : u64 (e.base + e.len) = e.base + e.len :=
      u64_of_lt (by have fits := fits usable; simp only [pageSize] at fits; omega)
    have low : (if e.base < ramStart then ramStart else e.base) = max e.base ramStart := by split_ifs <;> omega
    have high : (if highest < e.base + e.len then highest else e.base + e.len) = min highest (e.base + e.len) := by
      split_ifs <;> omega
    have first : ∀ i, (if i < reserved then reserved else i) = max reserved i := fun i => by split_ifs <;> omega
    have pages (p : Nat) := E820Entry.hasPage_iff (p := p) usable (fits usable) limit
    rw [if_neg (not_not.mpr usable)]
    dsimp only
    rw [stop, low, high, first]
    rw [← total] at pages
    generalize pageDown (u64 (max e.base ramStart + pageSize - 1)) = lo at pages ⊢
    generalize pageDown (min highest (e.base + e.len)) = hi at pages ⊢
    generalize max reserved (physToIdx lo) = first at pages ⊢
    generalize physToIdx hi = last at pages ⊢
    split_ifs with below empty behind
    · exact unchanged fun p both => Nat.not_lt.mpr below ((pages p).mp both).1
    · exact unchanged fun p both => Nat.not_lt.mpr empty ((pages p).mp both).2.1
    · exact unchanged fun p both => by
        obtain ⟨-, -, from_, until_⟩ := (pages p).mp both
        omega
    · rw [Nat.not_le] at below empty behind
      have range (p : Nat) : e.HasPage p ∧ p < s.total_pages ↔ first ≤ p ∧ p < last := by
        rw [pages, and_iff_right below, and_iff_right empty]
      have inside : last - 1 < s.total_pages := ((range (last - 1)).mpr (by omega)).2
      have added := held.addRange (show last ≤ s.total_pages by omega) fun p from_ until_ =>
        out p ((range p).mpr ⟨from_, until_⟩).1
      exact ⟨added.1.congr fun p => or_congr Iff.rfl (range p).symm, added.2⟩
  · rw [if_pos usable]
    exact unchanged fun p both => usable both.1.2.1

/-- Entries for usable memory that have no address in common, and do not end at the end of the addresses. -/
structure WellFormed (map : List E820Entry) : Prop where
  fits : ∀ e ∈ map, e.type = e820Usable → e.base + e.len + pageSize ≤ 2 ^ 64
  apart : map.Pairwise fun e e' => ∀ a, e.Has a → ¬ e'.Has a

theorem E820Entry.HasPage.has {e : E820Entry} {p : Nat} (page : e.HasPage p) : e.Has (idxToPhys p) := by
  obtain ⟨-, usable, low, high⟩ := page
  refine ⟨usable, low, ?_⟩
  simp only [idxToPhys, pageSize] at high ⊢
  omega

/-- The loop of `pmm_init` adds the pages of all entries. -/
theorem Held.addEntries {map : List E820Entry} {s : Buddy} {free : Nat → Prop} {highest : Nat} (held : Held s free)
    (wellFormed : WellFormed map) (total : s.total_pages = (highest - ramStart) / pageSize) (limit : highest ≤ ramEndMax)
    (out : ∀ e ∈ map, ∀ p, e.HasPage p → ¬ free p) :
    Held (map.foldl (Buddy.addEntry highest) s) fun p => free p ∨ ∃ e ∈ map, e.HasPage p ∧ p < s.total_pages := by
  induction map generalizing s free with
  | nil => exact held.congr fun p => (or_iff_left (by simp)).symm
  | cons e map ih =>
      obtain ⟨added, total'⟩ := held.addEntry (wellFormed.fits e List.mem_cons_self) total limit
        (out e List.mem_cons_self)
      have apart := List.pairwise_cons.mp wellFormed.apart
      have rest := ih added ⟨fun e member => wellFormed.fits e (List.mem_cons_of_mem _ member), apart.2⟩
        (total'.trans total) fun e' member p page => by
          rintro (old | ⟨here, -⟩)
          · exact out e' (List.mem_cons_of_mem _ member) p page old
          · exact apart.1 e' member _ here.has page.has
      rw [List.foldl_cons]
      refine rest.congr fun p => ?_
      rw [total', List.exists_mem_cons_iff, or_assoc]

/-- The pages that `pmm_init` adds. -/
def Managed (map : List E820Entry) (p : Nat) : Prop :=
  p < totalPages map ∧ reserved ≤ p ∧ (usedMap map = [] ∨ ∃ e ∈ usedMap map, e.HasPage p)

theorem totalPages_eq (map : List E820Entry) :
    totalPages map = (ramEnd map - ramStart) / pageSize ∧ ramEnd map ≤ ramEndMax := by
  have limit : ramEnd map ≤ ramEndMax := Nat.min_le_left _ _
  refine ⟨u32_of_lt ?_, limit⟩
  simp only [ramEndMax, pageSize] at limit ⊢
  omega

/-- The cleared tables have no page. -/
theorem emptyBuddy_held (page_node : Nat → BuddyNode) (map : List E820Entry) :
    Held (emptyBuddy page_node map) fun _ => False := by
  obtain ⟨total, limit⟩ := totalPages_eq map
  have lists : FreeLists (emptyBuddy page_node map) fun _ => [] := by
    refine ⟨?_, fun _ _ => rfl, fun _ _ => trivial, ⟨?_, ?_, fun _ _ => List.nodup_nil, ?_⟩⟩
    · show totalPages map < buddyNil
      rw [total]
      simp only [ramEndMax, pageSize, buddyNil] at limit ⊢
      omega
    · exact fun _ _ _ member => absurd member List.not_mem_nil
    · exact fun _ _ _ member => absurd member List.not_mem_nil
    · exact fun _ _ _ member => absurd member List.not_mem_nil
  refine ⟨⟨_, lists⟩, fun p => ?_, fun p => iff_of_false Bool.false_ne_true id⟩
  rw [lists.freePage_iff]
  refine iff_of_false ?_ id
  rintro ⟨_, _, _, member, _⟩
  exact List.not_mem_nil member

/-- After `pmm_init` the lists and the bitmap have these pages. -/
theorem pmmInit_held (page_node : Nat → BuddyNode) {map : List E820Entry} (wellFormed : WellFormed (usedMap map)) :
    Held (pmmInit page_node map) (Managed map) := by
  obtain ⟨total, limit⟩ := totalPages_eq map
  have empty := emptyBuddy_held page_node map
  unfold pmmInit Managed
  cases used : usedMap map with
  | nil =>
      have added := (empty.addRange (Nat.le_refl (totalPages map)) fun p (_ : reserved ≤ p) _ => id).1
      refine added.congr fun p => ?_
      simp only [false_or, true_or, and_true]
      exact and_comm
  | cons e rest =>
      rw [used] at wellFormed
      refine (empty.addEntries wellFormed total limit fun _ _ _ _ => id).congr fun p => ?_
      rw [false_or, or_iff_right (List.cons_ne_nil e rest)]
      constructor
      · rintro ⟨e', member, page, below⟩
        exact ⟨below, page.1, e', member, page⟩
      · rintro ⟨below, -, e', member, page⟩
        exact ⟨e', member, page, below⟩

/-! ## Blocks that are handed out -/

theorem listRemove_bmp (s : Buddy) (o idx : Nat) : (s.listRemove o idx).buddy_bmp = s.buddy_bmp := by
  simp only [Buddy.listRemove]
  split_ifs <;> rfl

/-- A page that is split off is marked already. -/
theorem splitDown_bmp {s : Buddy} {order idx found : Nat} (small : idx + 2 ^ found < 2 ^ 32)
    (marked : ∀ p, idx ≤ p → p < idx + 2 ^ found → s.buddy_bmp p = true) :
    (Buddy.splitDown order idx found s).buddy_bmp = s.buddy_bmp := by
  induction found generalizing s with
  | zero => rfl
  | succ found ih =>
      have double : 2 ^ (found + 1) = 2 ^ found + 2 ^ found := by rw [Nat.pow_succ, Nat.mul_two]
      have positive : 0 < 2 ^ found := Nat.two_pow_pos found
      rw [Buddy.splitDown]
      split_ifs with more
      · dsimp only
        rw [u32_of_lt (by omega)]
        have same : ((s.bfree (idx + 2 ^ found) 1 true).listPush found (idx + 2 ^ found)).buddy_bmp = s.buddy_bmp := by
          rw [listPush_bmp]
          funext p
          rw [Buddy.bfree]
          dsimp only
          split_ifs with here
          · exact (marked p (by omega) (by omega)).symm
          · rfl
        rw [ih (by omega) fun p low high => by rw [same]; exact marked p low (by omega), same]
      · rfl

/-- A block that is found belongs to the caller, and no list. -/
theorem Held.takeFrom {s : Buddy} {free : Nat → Prop} (held : Held s free) {order found : Nat}
    (search : s.findOrder order = some found) :
    ∃ idx, (s.takeFrom order found).1 = idxToPhys idx ∧ 2 ^ order ∣ idx ∧
      (∀ p, idx ≤ p → p < idx + 2 ^ order → free p) ∧
      Held (s.takeFrom order found).2 fun p => free p ∧ ¬ (idx ≤ p ∧ p < idx + 2 ^ order) := by
  have call : s.takeFrom order found = ((s.takeFrom order found).1, (s.takeFrom order found).2) := rfl
  obtain ⟨start, -, aligned, takes⟩ := takeFrom_grants held.sound search call
  obtain ⟨low, top, real⟩ := findOrder_some search
  obtain ⟨blocks, lists⟩ := held.sound
  have member := (lists.linked found top).head_mem real
  have inside := lists.layout.inside found top _ member
  have small := lists.small
  rw [buddyNil] at small
  have bitmap (p : Nat) : (s.takeFrom order found).2.buddy_bmp p =
      if s.buddy_heads found ≤ p ∧ p < s.buddy_heads found + 2 ^ order then false else s.buddy_bmp p := by
    have popped : (s.listPop found).2.buddy_bmp = s.buddy_bmp := by
      rw [Buddy.listPop, if_pos real, listRemove_bmp]
    have split := @splitDown_bmp (s.listPop found).2 order _ found (show s.buddy_heads found + 2 ^ found < 2 ^ 32 by omega)
      fun p from_ until_ => by
        rw [popped, held.bitmap, ← held.pages, lists.freePage_iff]
        exact ⟨found, top, _, member, from_, until_⟩
    rw [popped] at split
    exact congrArg (fun bmp : Nat → Bool => if s.buddy_heads found ≤ p ∧ p < s.buddy_heads found + 2 ^ order then false else bmp p) split
  have pages (p : Nat) : (s.takeFrom order found).2.FreePage p ↔
      free p ∧ ¬ (s.buddy_heads found ≤ p ∧ p < s.buddy_heads found + 2 ^ order) := by
    rw [← held.pages, takes.pages]
    by_cases here : s.buddy_heads found ≤ p ∧ p < s.buddy_heads found + 2 ^ order
    · exact iff_of_false (takes.gone p here.1 here.2) fun both => both.2 here
    · rw [or_iff_right here, and_iff_left here]
  refine ⟨_, start, aligned, fun p from_ until_ => (held.pages p).mp ((takes.pages p).mpr (Or.inl ⟨from_, until_⟩)),
    takes.sound, pages, fun p => ?_⟩
  rw [bitmap]
  split_ifs with here
  · exact iff_of_false id fun both => both.2 here
  · rw [held.bitmap, and_iff_left here]

/-- `oom_kill` without a process to kill: the kernel stops. -/
def noVictim (_ : Buddy) : Option Buddy := none

/-- Calls of `pmm_alloc_order` that return: for each its order and its result. -/
def allocAll : List Nat → Buddy → Option (List (Nat × Nat) × Buddy)
  | [], s => some ([], s)
  | order :: orders, s =>
      match s.pmmAllocOrder noVictim order with
      | none => none
      | some (phys, s) => (allocAll orders s).map fun (calls, s) => ((order, phys) :: calls, s)

theorem allocAll_one {s s' : Buddy} {order phys : Nat} (call : s.pmmAllocOrder noVictim order = some (phys, s')) :
    allocAll [order] s = some ([(order, phys)], s') := by
  rw [allocAll, call]
  rfl

/-- A page of a block that was handed out, of an order, at an address. -/
def InBlock (call : Nat × Nat) (p : Nat) : Prop :=
  call.2 ≠ 0 ∧ call.2 ≤ idxToPhys p ∧ idxToPhys p < call.2 + 2 ^ call.1 * pageSize

/-- What calls give: nothing for an order that is too large, else a block at a multiple of its size. -/
def Gives (call : Nat × Nat) : Prop :=
  (call.2 = 0 ∧ maxOrder < call.1) ∨ ∃ idx, call.2 = idxToPhys idx ∧ call.1 ≤ maxOrder ∧ 2 ^ call.1 ∣ idx

theorem inBlock_idxToPhys (order idx p : Nat) :
    InBlock (order, idxToPhys idx) p ↔ idx ≤ p ∧ p < idx + 2 ^ order := by
  rw [InBlock, and_iff_right (idxToPhys_pos idx)]
  simp only [idxToPhys, pageSize]
  omega

/-- The pages are on lists, or in one block each; the bitmap has those on lists; calls stop only when no list that is
searched has a block. -/
structure Partition (managed : Nat → Prop) (calls : List (Nat × Nat)) (s : Buddy) : Prop where
  sound : s.Sound
  gives : ∀ call ∈ calls, Gives call
  pages : ∀ p, managed p ↔ s.FreePage p ∨ ∃ call ∈ calls, InBlock call p
  notFree : ∀ call ∈ calls, ∀ p, InBlock call p → ¬ s.FreePage p
  apart : calls.Pairwise fun call call' => ∀ p, InBlock call p → ¬ InBlock call' p
  bitmap : ∀ p, s.buddy_bmp p = true ↔ s.FreePage p
  stops : ∀ order, s.pmmAllocOrder noVictim order = none ↔
    order ≤ maxOrder ∧ ∀ o, order ≤ o → o ≤ maxOrder → s.buddy_heads o = buddyNil

/-- A call before the others. -/
theorem Partition.cons {free free' : Nat → Prop} {call : Nat × Nat} {calls : List (Nat × Nat)} {s : Buddy}
    (rest : Partition free' calls s) (gives : Gives call) (pages : ∀ p, free p ↔ InBlock call p ∨ free' p)
    (out : ∀ p, InBlock call p → ¬ free' p) : Partition free (call :: calls) s := by
  refine ⟨rest.sound, List.forall_mem_cons.mpr ⟨gives, rest.gives⟩, fun p => ?_,
    List.forall_mem_cons.mpr ⟨fun p here isFree => ?_, rest.notFree⟩,
    List.pairwise_cons.mpr ⟨fun call' member p here there => ?_, rest.apart⟩, rest.bitmap, rest.stops⟩
  · rw [pages, rest.pages, List.exists_mem_cons_iff]
    exact or_left_comm
  · exact out p here ((rest.pages p).mpr (Or.inl isFree))
  · exact out p here ((rest.pages p).mpr (Or.inr ⟨call', member, there⟩))

theorem allocOrder_cases (s : Buddy) (order : Nat) :
    (maxOrder < order ∧ s.pmmAllocOrder noVictim order = some (0, s)) ∨
      (order ≤ maxOrder ∧ s.findOrder order = none ∧ s.pmmAllocOrder noVictim order = none) ∨
      ∃ found, order ≤ maxOrder ∧ s.findOrder order = some found ∧
        s.pmmAllocOrder noVictim order = some (s.takeFrom order found) := by
  unfold Buddy.pmmAllocOrder
  split_ifs with large
  · exact Or.inl ⟨large, rfl⟩
  · refine Or.inr ?_
    cases search : s.findOrder order with
    | none => exact Or.inl ⟨Nat.le_of_not_lt large, rfl, rfl⟩
    | some found => exact Or.inr ⟨found, Nat.le_of_not_lt large, rfl, rfl⟩

/-- From states whose lists and bitmap are in order, calls hand out what they take off the lists. -/
theorem Held.partition {s s' : Buddy} {free : Nat → Prop} {orders : List Nat} {calls : List (Nat × Nat)}
    (held : Held s free) (run : allocAll orders s = some (calls, s')) : Partition free calls s' := by
  induction orders generalizing s free calls with
  | nil =>
      cases run
      refine ⟨held.sound, by simp, fun p => ?_, by simp, List.Pairwise.nil, fun p => ?_, fun order => ?_⟩
      · rw [held.pages]
        exact (or_iff_left (by simp)).symm
      · rw [held.bitmap, held.pages]
      · rcases allocOrder_cases s' order with ⟨large, call⟩ | ⟨small, search, call⟩ | ⟨found, small, search, call⟩
        · exact iff_of_false (by rw [call]; exact Option.some_ne_none _) fun both => Nat.not_lt.mpr both.1 large
        · exact iff_of_true call ⟨small, findOrder_none search⟩
        · obtain ⟨low, high, real⟩ := findOrder_some search
          exact iff_of_false (by rw [call]; exact Option.some_ne_none _) fun both => real (both.2 found low high)
  | cons order orders ih =>
      rw [allocAll] at run
      rcases allocOrder_cases s order with ⟨large, call⟩ | ⟨small, search, call⟩ | ⟨found, small, search, call⟩
      · simp only [call, Option.map_eq_some_iff] at run
        obtain ⟨⟨calls', last⟩, run', same⟩ := run
        cases same
        refine (ih held run').cons (Or.inl ⟨rfl, large⟩) (fun p => ?_) fun p here => absurd rfl here.1
        exact (or_iff_right fun here => here.1 rfl).symm
      · simp only [call] at run
        cases run
      · simp only [call, Option.map_eq_some_iff] at run
        obtain ⟨⟨calls', last⟩, run', same⟩ := run
        cases same
        obtain ⟨idx, start, aligned, taken, held'⟩ := held.takeFrom search
        refine (ih held' run').cons (Or.inr ⟨idx, start, small, aligned⟩) (fun p => ?_) fun p here isFree => ?_
        · rw [start, inBlock_idxToPhys]
          by_cases here : idx ≤ p ∧ p < idx + 2 ^ order
          · exact iff_of_true (taken p here.1 here.2) (Or.inl here)
          · rw [or_iff_right here, and_iff_left here]
        · rw [start, inBlock_idxToPhys] at here
          exact isFree.2 here

/-- From `pmm_init` on, as long as no block is freed and no process killed, the pages of the memory map are on the lists
or in the blocks that were handed out, each once. -/
theorem allocations_partition (page_node : Nat → BuddyNode) {map : List E820Entry} (wellFormed : WellFormed (usedMap map))
    {orders : List Nat} {calls : List (Nat × Nat)} {s : Buddy}
    (run : allocAll orders (pmmInit page_node map) = some (calls, s)) : Partition (Managed map) calls s :=
  (pmmInit_held page_node wellFormed).partition run

/-- 127 MB behind the first megabyte. -/
def smallMap : List E820Entry := [⟨0x100000, 0x7F00000, e820Usable⟩]

theorem smallMap_wellFormed : WellFormed (usedMap smallMap) :=
  ⟨fun _ member _ => by rw [List.mem_singleton.mp member]; decide, List.pairwise_singleton _ _⟩

/-- Its page 0x7000 is on a list, so that one page can be handed out. -/
theorem allocations_partition_smallMap :
    ∃ phys s, allocAll [0] (pmmInit (fun _ => ⟨0, 0⟩) smallMap) = some ([(0, phys)], s) ∧
      Partition (Managed smallMap) [(0, phys)] s := by
  have page := ((pmmInit_held (fun _ => ⟨0, 0⟩) smallMap_wellFormed).pages 0x7000).mpr
    ⟨by decide, by decide, .inr ⟨_, List.mem_singleton_self _, by decide, by decide, by decide, by decide⟩⟩
  rcases allocOrder_cases (pmmInit (fun _ => ⟨0, 0⟩) smallMap) 0 with ⟨large, -⟩ | ⟨-, search, -⟩ | ⟨found, -, -, call⟩
  · cases large
  · obtain ⟨o, order, i, reaches, -⟩ := page
    rw [findOrder_none search o (Nat.zero_le o) order] at reaches
    cases reaches <;> contradiction
  · have run := allocAll_one call
    exact ⟨_, _, run, allocations_partition (fun _ => ⟨0, 0⟩) smallMap_wellFormed run⟩

end Systrix.Pmm
