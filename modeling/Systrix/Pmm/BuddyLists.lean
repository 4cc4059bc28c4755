import Systrix.Lib.LinkedList
import Systrix.Lib.Machine
import Systrix.Lib.ByteMemory

/-!
# The buddy allocator

The page allocator of `kernel/pmm.c`: free blocks of 1 to 1024 pages on one list for each size, linked through the free
pages themselves.  A block is taken from the first list that has one, and what is not needed of it is split off.
-/

namespace Systrix.Pmm

open ByteMemory LinkedList Machine

def maxOrder : Nat := 10

def buddyNil : Nat := 0xFFFFFFFF

def pageSize : Nat := 4096

def ramStart : Nat := 0x400000

/-- The links at the start of a free page. -/
structure BuddyNode where
  prev : Nat
  next : Nat

/-- The state of the allocator: of the heads of the lists only `next` is used. -/
structure Buddy where
  buddy_heads : Nat → Nat
  page_node : Nat → BuddyNode
  buddy_bmp : Nat → Bool
  pmm_refcnt : Nat → Nat
  total_pages : Nat
  ram_end_actual : Nat

def idxToPhys (i : Nat) : Nat := ramStart + i * pageSize

def physToIdx (p : Nat) : Nat := u32 ((p - ramStart) / pageSize)

namespace Buddy

variable (s : Buddy)

/-- The link of a free page to the next one. -/
def next (i : Nat) : Nat := (s.page_node i).next

/-- The link of a free page to the one before. -/
def prev (i : Nat) : Nat := (s.page_node i).prev

/-- Assign to the links of a page. -/
def setNode (i : Nat) (n : BuddyNode) : Buddy := { s with page_node := Function.update s.page_node i n }

/-- Assign to the link of a head. -/
def setHead (o i : Nat) : Buddy := { s with buddy_heads := Function.update s.buddy_heads o i }

/-- `bfree_set` or `bfree_clr` for a range of pages. -/
def bfree (idx count : Nat) (free : Bool) : Buddy :=
  { s with buddy_bmp := fun i => if idx ≤ i ∧ i < idx + count then free else s.buddy_bmp i }

def listPush (o idx : Nat) : Buddy :=
  let h := s.buddy_heads o
  let s := s.setNode idx ⟨buddyNil, h⟩
  let s := if h ≠ buddyNil then s.setNode h { s.page_node h with prev := idx } else s
  s.setHead o idx

def listRemove (o idx : Nat) : Buddy :=
  let n := s.page_node idx
  let s := if n.prev ≠ buddyNil then s.setNode n.prev { s.page_node n.prev with next := n.next } else s.setHead o n.next
  if n.next ≠ buddyNil then s.setNode n.next { s.page_node n.next with prev := n.prev } else s

def listPop (o : Nat) : Nat × Buddy :=
  let idx := s.buddy_heads o
  (idx, if idx ≠ buddyNil then s.listRemove o idx else s)

/-- The first list from an order on that has a block. -/
def findOrder (order : Nat) : Option Nat :=
  (List.range' order (maxOrder + 1 - order)).find? fun o => s.buddy_heads o ≠ buddyNil

/-- The loop that splits a block of the order `found` until it has the order that is asked for. -/
def splitDown (order idx : Nat) : (found : Nat) → Buddy → Buddy
  | 0, s => s
  | found + 1, s =>
      if order < found + 1 then
        let bud := u32 (idx + 2 ^ found)
        splitDown order idx found ((s.bfree bud 1 true).listPush found bud)
      else s

/-- The end of `pmm_alloc_order`: the block is not free any more, and its pages are cleared. -/
def handOut (idx order : Nat) : Buddy :=
  let s := s.bfree idx (2 ^ order) false
  { s with
    pmm_refcnt := Function.update s.pmm_refcnt idx 1
    page_node := fun i => if idx ≤ i ∧ i < idx + 2 ^ order then ⟨0, 0⟩ else s.page_node i }

/-- The rest of `pmm_alloc_order` when a list has a block. -/
def takeFrom (order found : Nat) : Nat × Buddy :=
  let idx := (s.listPop found).1
  (idxToPhys idx, (splitDown order idx found (s.listPop found).2).handOut idx order)

/-- `pmm_alloc_order`; `oom_kill` leaves another state, or halts the kernel. -/
def pmmAllocOrder (oom_kill : Buddy → Option Buddy) (order : Nat) : Option (Nat × Buddy) :=
  if maxOrder < order then some (0, s)
  else
    match s.findOrder order with
    | some found => some (s.takeFrom order found)
    | none =>
        match oom_kill s with
        | none => none
        | some s =>
            match s.findOrder order with
            | some found => some (s.takeFrom order found)
            | none => some (0, s)

/-- The loop of `pmm_free_order`, with the orders left to go, and what is behind it. -/
def mergeUp : (left order idx : Nat) → Buddy → Buddy
  | 0, order, idx, s => (s.bfree idx (2 ^ order) true).listPush order idx
  | left + 1, order, idx, s =>
      let bud := idx ^^^ 2 ^ order
      if s.total_pages ≤ bud ∨ s.buddy_bmp bud = false then (s.bfree idx (2 ^ order) true).listPush order idx
      else
        let s := (s.listRemove order bud).bfree bud (2 ^ order) false
        mergeUp left (order + 1) (if bud < idx then bud else idx) s

def pmmFreeOrder (phys order : Nat) : Buddy :=
  if phys < ramStart ∨ s.ram_end_actual ≤ phys then s
  else
    let idx := physToIdx phys
    if s.total_pages ≤ idx then s else mergeUp (maxOrder - order) order idx s

end Buddy

/-! ## Lists that are in order -/

/-- A page lies in one of some blocks, which are given by order and first page. -/
def Covered (blocks : Nat → List Nat) (p : Nat) : Prop := ∃ o ≤ maxOrder, ∃ i ∈ blocks o, i ≤ p ∧ p < i + 2 ^ o

/-- A range of pages has none in common with some blocks. -/
def Clear (blocks : Nat → List Nat) (low high : Nat) : Prop :=
  ∀ o ≤ maxOrder, ∀ i ∈ blocks o, Apart low high i (i + 2 ^ o)

/-- The blocks with one more in front of a list. -/
def consBlock (blocks : Nat → List Nat) (o idx : Nat) : Nat → List Nat := Function.update blocks o (idx :: blocks o)

/-- Blocks that are aligned, inside the memory, and apart from each other. -/
structure Layout (total : Nat) (blocks : Nat → List Nat) : Prop where
  aligned : ∀ o ≤ maxOrder, ∀ i ∈ blocks o, 2 ^ o ∣ i
  inside : ∀ o ≤ maxOrder, ∀ i ∈ blocks o, i + 2 ^ o ≤ total
  nodup : ∀ o ≤ maxOrder, (blocks o).Nodup
  apart : ∀ o ≤ maxOrder, ∀ i ∈ blocks o, ∀ o' ≤ maxOrder, ∀ i' ∈ blocks o', o ≠ o' ∨ i ≠ i' →
    Apart i (i + 2 ^ o) i' (i' + 2 ^ o')

/-- The lists hold some blocks. -/
structure FreeLists (s : Buddy) (blocks : Nat → List Nat) : Prop where
  small : s.total_pages < buddyNil
  linked : ∀ o ≤ maxOrder, Chain s.next buddyNil (s.buddy_heads o) (blocks o)
  back : ∀ o ≤ maxOrder, BackLinks id s.prev buddyNil (blocks o)
  layout : Layout s.total_pages blocks

namespace Buddy

/-- The lists of free blocks are in order. -/
def Sound (s : Buddy) : Prop := ∃ blocks, FreeLists s blocks

/-- A page in a block on one of the lists. -/
def FreePage (s : Buddy) (p : Nat) : Prop :=
  ∃ o ≤ maxOrder, ∃ i, Reaches s.next buddyNil (s.buddy_heads o) i ∧ i ≤ p ∧ p < i + 2 ^ o

variable (s : Buddy)

@[simp] theorem setNode_next (i : Nat) (n : BuddyNode) (p : Nat) :
    (s.setNode i n).next p = if p = i then n.next else s.next p := by
  simp only [next, setNode, Function.update_apply, apply_ite BuddyNode.next]

@[simp] theorem setNode_prev (i : Nat) (n : BuddyNode) (p : Nat) :
    (s.setNode i n).prev p = if p = i then n.prev else s.prev p := by
  simp only [prev, setNode, Function.update_apply, apply_ite BuddyNode.prev]

/-- Only the link back of a page is assigned to. -/
theorem setNode_keeps_next (i v : Nat) : (s.setNode i { s.page_node i with prev := v }).next = s.next := by
  funext p
  rw [setNode_next]
  split_ifs with here
  · rw [here]
    rfl
  · rfl

@[simp] theorem setNode_heads (i : Nat) (n : BuddyNode) : (s.setNode i n).buddy_heads = s.buddy_heads := rfl

@[simp] theorem setNode_total (i : Nat) (n : BuddyNode) : (s.setNode i n).total_pages = s.total_pages := rfl

@[simp] theorem setHead_next (o i : Nat) : (s.setHead o i).next = s.next := rfl

@[simp] theorem setHead_prev (o i : Nat) : (s.setHead o i).prev = s.prev := rfl

@[simp] theorem setHead_heads (o i o' : Nat) :
    (s.setHead o i).buddy_heads o' = if o' = o then i else s.buddy_heads o' := by
  simp only [setHead, Function.update_apply]

@[simp] theorem setHead_total (o i : Nat) : (s.setHead o i).total_pages = s.total_pages := rfl

theorem listPush_heads (o idx o' : Nat) :
    (s.listPush o idx).buddy_heads o' = if o' = o then idx else s.buddy_heads o' := by
  simp only [listPush, setHead_heads]
  split_ifs <;> rfl

theorem listPush_next (o idx p : Nat) :
    (s.listPush o idx).next p = if p = idx then s.buddy_heads o else s.next p := by
  simp only [listPush, setHead_next]
  by_cases empty : s.buddy_heads o = buddyNil
  · rw [if_neg (not_not.mpr empty), setNode_next]
  · rw [if_pos empty, setNode_keeps_next, setNode_next]

theorem listPush_prev (o idx p : Nat) :
    (s.listPush o idx).prev p =
      if p = s.buddy_heads o ∧ p ≠ buddyNil then idx else if p = idx then buddyNil else s.prev p := by
  simp only [listPush, setHead_prev]
  split_ifs <;> simp_all

@[simp] theorem listPush_total (o idx : Nat) : (s.listPush o idx).total_pages = s.total_pages := by
  simp only [listPush, setHead_total]
  split_ifs <;> rfl

@[simp] theorem listRemove_total (o idx : Nat) : (s.listRemove o idx).total_pages = s.total_pages := by
  simp only [listRemove]
  split_ifs <;> rfl

variable {s} {idx : Nat}

/-- The first block of a list is taken off by its head. -/
theorem listRemove_first (first : s.prev idx = buddyNil) (o : Nat) :
    s.listRemove o idx =
      if s.next idx ≠ buddyNil then (s.setHead o (s.next idx)).setNode (s.next idx) ⟨buddyNil, s.next (s.next idx)⟩
      else s.setHead o (s.next idx) := by
  rw [prev] at first
  simp only [listRemove, first, ne_eq, not_true, if_false]
  rfl

theorem listRemove_heads (first : s.prev idx = buddyNil) (o o' : Nat) :
    (s.listRemove o idx).buddy_heads o' = if o' = o then s.next idx else s.buddy_heads o' := by
  rw [listRemove_first first]
  split_ifs <;> simp_all

theorem listRemove_next (first : s.prev idx = buddyNil) (o p : Nat) : (s.listRemove o idx).next p = s.next p := by
  rw [listRemove_first first]
  split_ifs
  · by_cases here : p = s.next idx
    · rw [setNode_next, if_pos here, here]
    · rw [setNode_next, if_neg here, setHead_next]
  · rw [setHead_next]

theorem listRemove_prev (first : s.prev idx = buddyNil) (o p : Nat) :
    (s.listRemove o idx).prev p = if p = s.next idx ∧ p ≠ buddyNil then buddyNil else s.prev p := by
  rw [listRemove_first first]
  by_cases here : p = s.next idx
  · subst here
    split_ifs <;> simp_all
  · rw [if_neg (show ¬ (p = s.next idx ∧ p ≠ buddyNil) from fun both => here both.1)]
    split_ifs <;> simp_all

end Buddy

/-! ## Blocks that come and go -/

section Blocks

variable {blocks : Nat → List Nat} {total o idx low high : Nat}

theorem Clear.ne (clear : Clear blocks low high) (below : low < high) {i : Nat} (order : o ≤ maxOrder)
    (member : i ∈ blocks o) : i ≠ low := by
  rintro rfl
  have positive : 0 < 2 ^ o := Nat.two_pow_pos o
  rcases clear o order i member with before | behind
  · omega
  · omega

theorem mem_consBlock {o' i : Nat} : i ∈ consBlock blocks o idx o' ↔ (o' = o ∧ i = idx) ∨ i ∈ blocks o' := by
  rw [consBlock, Function.update_apply]
  split_ifs with same
  · rw [same, List.mem_cons, and_iff_right rfl]
  · exact (or_iff_right fun both => same both.1).symm

theorem covered_cons (order : o ≤ maxOrder) (p : Nat) :
    Covered (consBlock blocks o idx) p ↔ (idx ≤ p ∧ p < idx + 2 ^ o) ∨ Covered blocks p := by
  constructor
  · rintro ⟨o', order', i, member, inside⟩
    rcases mem_consBlock.mp member with ⟨rfl, rfl⟩ | old
    · exact Or.inl inside
    · exact Or.inr ⟨o', order', i, old, inside⟩
  · rintro (inside | ⟨o', order', i, member, inside⟩)
    · exact ⟨o, order, idx, mem_consBlock.mpr (Or.inl ⟨rfl, rfl⟩), inside⟩
    · exact ⟨o', order', i, mem_consBlock.mpr (Or.inr member), inside⟩

theorem Clear.cons (clear : Clear blocks low high) (apart : Apart low high idx (idx + 2 ^ o)) :
    Clear (consBlock blocks o idx) low high := by
  intro o' order' i member
  rcases mem_consBlock.mp member with ⟨rfl, rfl⟩ | old
  · exact apart
  · exact clear o' order' i old

theorem Clear.mono {low' high' : Nat} (clear : Clear blocks low high) (below : low ≤ low') (above : high' ≤ high) :
    Clear blocks low' high' := by
  intro o order i member
  have apart := clear o order i member
  unfold Apart at apart ⊢
  omega

/-- No page of a clear range is covered. -/
theorem Clear.not_covered (clear : Clear blocks low high) {p : Nat} (inside : low ≤ p ∧ p < high) :
    ¬ Covered blocks p := by
  rintro ⟨o, order, i, member, here⟩
  have apart := clear o order i member
  unfold Apart at apart
  omega

namespace Layout

/-- A page begins one block at most. -/
theorem order_unique (layout : Layout total blocks) {o' i : Nat} (order : o ≤ maxOrder) (order' : o' ≤ maxOrder)
    (member : i ∈ blocks o) (member' : i ∈ blocks o') : o = o' := by
  by_contra ne
  have positive : 0 < 2 ^ o := Nat.two_pow_pos o
  have positive' : 0 < 2 ^ o' := Nat.two_pow_pos o'
  rcases layout.apart o order i member o' order' i member' (Or.inl ne) with before | behind
  · omega
  · omega

/-- One block more is in order if it is clear of the others. -/
theorem cons (layout : Layout total blocks) (aligned : 2 ^ o ∣ idx) (inside : idx + 2 ^ o ≤ total)
    (order : o ≤ maxOrder) (clear : Clear blocks idx (idx + 2 ^ o)) : Layout total (consBlock blocks o idx) where
  aligned o' order' i member := by
    rcases mem_consBlock.mp member with ⟨rfl, rfl⟩ | old
    · exact aligned
    · exact layout.aligned o' order' i old
  inside o' order' i member := by
    rcases mem_consBlock.mp member with ⟨rfl, rfl⟩ | old
    · exact inside
    · exact layout.inside o' order' i old
  nodup o' order' := by
    have fresh : idx ∉ blocks o := fun member =>
      clear.ne (Nat.lt_add_of_pos_right (Nat.two_pow_pos o)) order member rfl
    rw [consBlock, Function.update_apply]
    split_ifs with same
    · exact List.nodup_cons.mpr ⟨fresh, layout.nodup o order⟩
    · exact layout.nodup o' order'
  apart o₁ order₁ i₁ member₁ o₂ order₂ i₂ member₂ ne := by
    rcases mem_consBlock.mp member₁ with ⟨rfl, rfl⟩ | old₁
    · rcases mem_consBlock.mp member₂ with ⟨rfl, rfl⟩ | old₂
      · exact absurd rfl (ne.resolve_left (not_not.mpr rfl))
      · exact clear o₂ order₂ i₂ old₂
    · rcases mem_consBlock.mp member₂ with ⟨rfl, rfl⟩ | old₂
      · exact (clear o₁ order₁ i₁ old₁).symm
      · exact layout.apart o₁ order₁ i₁ old₁ o₂ order₂ i₂ old₂ ne

/-- The blocks without the first of a list. -/
theorem of_cons (layout : Layout total (consBlock blocks o idx)) (order : o ≤ maxOrder) :
    2 ^ o ∣ idx ∧ idx + 2 ^ o ≤ total ∧ Clear blocks idx (idx + 2 ^ o) ∧ Layout total blocks := by
  have here : idx ∈ consBlock blocks o idx o := mem_consBlock.mpr (Or.inl ⟨rfl, rfl⟩)
  have old {o' i : Nat} (member : i ∈ blocks o') : i ∈ consBlock blocks o idx o' := mem_consBlock.mpr (Or.inr member)
  have nodup := layout.nodup o order
  rw [consBlock, Function.update_self, List.nodup_cons] at nodup
  refine ⟨layout.aligned o order idx here, layout.inside o order idx here, fun o' order' i member => ?_,
    fun o' order' i member => layout.aligned o' order' i (old member),
    fun o' order' i member => layout.inside o' order' i (old member), fun o' order' => ?_,
    fun o₁ order₁ i₁ member₁ o₂ order₂ i₂ member₂ ne =>
      layout.apart o₁ order₁ i₁ (old member₁) o₂ order₂ i₂ (old member₂) ne⟩
  · refine layout.apart o order idx here o' order' i (old member) ?_
    by_cases same : o = o'
    · subst same
      exact Or.inr fun first => nodup.1 (first ▸ member)
    · exact Or.inl same
  · by_cases same : o' = o
    · subst same
      exact nodup.2
    · have kept := layout.nodup o' order'
      rwa [consBlock, Function.update_of_ne same] at kept

end Layout

end Blocks

namespace FreeLists

variable {s s' : Buddy} {blocks : Nat → List Nat} {o idx : Nat}

/-- The lists do not depend on what else is in the pages. -/
theorem congr (lists : FreeLists s blocks) (total : s'.total_pages = s.total_pages)
    (heads : s'.buddy_heads = s.buddy_heads)
    (nodes : ∀ o ≤ maxOrder, ∀ i ∈ blocks o, s'.page_node i = s.page_node i) : FreeLists s' blocks where
  small := total ▸ lists.small
  linked o order := by
    rw [heads]
    exact (lists.linked o order).congr fun i member => congrArg BuddyNode.next (nodes o order i member)
  back o order := (lists.back o order).congr fun i member => congrArg BuddyNode.prev (nodes o order i member)
  layout := total ▸ lists.layout

/-- The pages on the lists are those of the blocks. -/
theorem freePage_iff (lists : FreeLists s blocks) (p : Nat) : s.FreePage p ↔ Covered blocks p := by
  have members {o i : Nat} (order : o ≤ maxOrder) :
      Reaches s.next buddyNil (s.buddy_heads o) i ↔ i ∈ blocks o := by
    constructor
    · intro reaches
      have chain := lists.linked o order
      generalize s.buddy_heads o = head at reaches chain
      generalize blocks o = list at chain
      induction reaches generalizing list with
      | here nonNil => exact chain.head_mem nonNil
      | next nonNil rest ih =>
          cases list with
          | nil => exact absurd chain nonNil
          | cons first list =>
              obtain ⟨rfl, -, tail⟩ := chain
              exact List.mem_cons_of_mem _ (ih list tail)
    · exact fun member => (lists.linked o order).reaches member
  constructor
  · rintro ⟨o, order, i, reaches, inside⟩
    exact ⟨o, order, i, (members order).mp reaches, inside⟩
  · rintro ⟨o, order, i, member, inside⟩
    exact ⟨o, order, i, (members order).mpr member, inside⟩

/-- A block that is clear of the others goes to the front of its list. -/
theorem push (lists : FreeLists s blocks) (order : o ≤ maxOrder) (aligned : 2 ^ o ∣ idx)
    (inside : idx + 2 ^ o ≤ s.total_pages) (clear : Clear blocks idx (idx + 2 ^ o)) :
    FreeLists (s.listPush o idx) (consBlock blocks o idx) := by
  have below : idx < idx + 2 ^ o := Nat.lt_add_of_pos_right (Nat.two_pow_pos o)
  have fresh {o' i : Nat} (order' : o' ≤ maxOrder) (member : i ∈ blocks o') : i ≠ idx := clear.ne below order' member
  have small := lists.small
  have head {i : Nat} (nonNil : i ≠ buddyNil) (here : i = s.buddy_heads o) : i ∈ blocks o :=
    here ▸ (lists.linked o order).head_mem (here ▸ nonNil)
  refine ⟨?_, fun o' order' => ?_, fun o' order' => ?_, ?_⟩
  · rw [Buddy.listPush_total]
    exact small
  · have rest : Chain (s.listPush o idx).next buddyNil (s.buddy_heads o') (blocks o') :=
      (lists.linked o' order').congr fun i member => by rw [s.listPush_next, if_neg (fresh order' member)]
    rw [s.listPush_heads, consBlock, Function.update_apply]
    split_ifs with same
    · subst same
      refine ⟨rfl, by omega, ?_⟩
      rw [s.listPush_next, if_pos rfl]
      exact rest
    · exact rest
  · rw [consBlock, Function.update_apply]
    split_ifs with same
    · subst same
      refine ⟨?_, ?_⟩
      · rw [s.listPush_prev, if_neg fun both => fresh order (head both.2 both.1) rfl, if_pos rfl]
        rfl
      · -- only the block that was first gets another link back
        have back := lists.back o' order
        have chain := lists.linked o' order
        have nodup := lists.layout.nodup o' order
        cases list : blocks o' with
        | nil => trivial
        | cons h rest =>
            rw [list] at back chain nodup
            refine ⟨?_, back.2.congr fun i member => ?_⟩
            · rw [s.listPush_prev, if_pos ⟨chain.1.symm, chain.1 ▸ chain.2.1⟩]
              rfl
            · have old : i ∈ blocks o' := list ▸ List.mem_cons_of_mem h member
              rw [s.listPush_prev, if_neg, if_neg (fresh order old)]
              rintro ⟨here, -⟩
              exact (List.nodup_cons.mp nodup).1 (chain.1 ▸ here ▸ member)
    · refine (lists.back o' order').congr fun i member => ?_
      rw [s.listPush_prev,
        if_neg fun both => same (lists.layout.order_unique order' order member (head both.2 both.1)),
        if_neg (fresh order' member)]
  · rw [Buddy.listPush_total]
    exact lists.layout.cons aligned inside order clear

/-- The first block of a list is taken off. -/
theorem pop (lists : FreeLists s (consBlock blocks o idx)) (order : o ≤ maxOrder) :
    s.buddy_heads o = idx ∧ FreeLists (s.listRemove o idx) blocks := by
  obtain ⟨aligned, inside, clear, layout⟩ := lists.layout.of_cons order
  have chain := lists.linked o order
  have back := lists.back o order
  have nodup := lists.layout.nodup o order
  rw [consBlock, Function.update_self] at chain back nodup
  have first : s.prev idx = buddyNil := back.1
  have head {i : Nat} (nonNil : i ≠ buddyNil) (here : i = s.next idx) : i ∈ blocks o :=
    here ▸ chain.2.2.head_mem (here ▸ nonNil)
  refine ⟨chain.1, ?_, fun o' order' => ?_, fun o' order' => ?_, ?_⟩
  · rw [Buddy.listRemove_total]
    exact lists.small
  · rw [Buddy.listRemove_heads first]
    split_ifs with same
    · subst same
      exact chain.2.2.congr fun i _ => Buddy.listRemove_next first _ i
    · have kept := lists.linked o' order'
      rw [consBlock, Function.update_of_ne same] at kept
      exact kept.congr fun i _ => Buddy.listRemove_next first _ i
  · by_cases same : o' = o
    · subst same
      have rest := chain.2.2
      cases list : blocks o' with
      | nil => trivial
      | cons h list' =>
          rw [list] at back rest nodup
          refine ⟨?_, back.2.2.congr fun i member => ?_⟩
          · rw [Buddy.listRemove_prev first, if_pos ⟨rest.1.symm, rest.1 ▸ rest.2.1⟩]
            rfl
          · rw [Buddy.listRemove_prev first, if_neg]
            rintro ⟨here, -⟩
            exact (List.nodup_cons.mp (List.nodup_cons.mp nodup).2).1 (rest.1 ▸ here ▸ member)
    · have kept := lists.back o' order'
      rw [consBlock, Function.update_of_ne same] at kept
      refine kept.congr fun i member => ?_
      rw [Buddy.listRemove_prev first,
        if_neg fun both => same (layout.order_unique order' order member (head both.2 both.1))]
  · rw [Buddy.listRemove_total]
    exact layout

/-- What is split off goes to the lists, and the block that is left is clear of them. -/
theorem splitDown (lists : FreeLists s blocks) {order found : Nat} (le : order ≤ found) (top : found ≤ maxOrder)
    (aligned : 2 ^ found ∣ idx) (inside : idx + 2 ^ found ≤ s.total_pages)
    (clear : Clear blocks idx (idx + 2 ^ found)) :
    ∃ blocks', FreeLists (Buddy.splitDown order idx found s) blocks' ∧ Clear blocks' idx (idx + 2 ^ order) ∧
      (Buddy.splitDown order idx found s).total_pages = s.total_pages ∧
      ∀ p, Covered blocks' p ↔ Covered blocks p ∨ (idx + 2 ^ order ≤ p ∧ p < idx + 2 ^ found) := by
  induction found generalizing s blocks with
  | zero =>
      obtain rfl := Nat.le_zero.mp le
      exact ⟨blocks, lists, clear, rfl, fun p => (or_iff_left (by omega)).symm⟩
  | succ found ih =>
      rw [Buddy.splitDown]
      by_cases more : order < found + 1
      · have double : 2 ^ (found + 1) = 2 ^ found + 2 ^ found := by rw [Nat.pow_succ, Nat.mul_two]
        have small := lists.small
        have bud : u32 (idx + 2 ^ found) = idx + 2 ^ found := by
          apply u32_of_lt
          rw [buddyNil] at small
          omega
        have half : 2 ^ found ∣ idx := Nat.dvd_trans (Nat.pow_dvd_pow 2 (Nat.le_succ found)) aligned
        have marked : FreeLists (s.bfree (idx + 2 ^ found) 1 true) blocks := lists.congr rfl rfl fun _ _ _ _ => rfl
        have pushed := marked.push (Nat.le_of_succ_le top) ((Nat.dvd_add_right half).mpr (Nat.dvd_refl _))
          (show idx + 2 ^ found + 2 ^ found ≤ s.total_pages by omega)
          (clear.mono (Nat.le_add_right _ _) (by omega))
        obtain ⟨blocks', lists', clear', total, covered⟩ := ih pushed (Nat.le_of_lt_succ more) (Nat.le_of_succ_le top)
          half (by rw [Buddy.listPush_total]; exact Nat.le_trans (by omega) inside)
          ((clear.mono (Nat.le_refl _) (by omega)).cons (Or.inl (Nat.le_refl _)))
        simp only [if_pos more, bud]
        refine ⟨blocks', lists', clear', ?_, fun p => ?_⟩
        · rw [total, Buddy.listPush_total]
          rfl
        · have least : 2 ^ order ≤ 2 ^ found := Nat.pow_le_pow_right (by decide) (Nat.le_of_lt_succ more)
          rw [covered, covered_cons (Nat.le_of_succ_le top), double]
          by_cases old : Covered blocks p
          · simp only [old, or_true, true_or]
          · simp only [old, or_false, false_or]
            omega
      · obtain rfl : order = found + 1 := by omega
        rw [if_neg more]
        exact ⟨blocks, lists, clear, rfl, fun p => (or_iff_left (by omega)).symm⟩

/-- The pages that are cleared hold no links. -/
theorem handOut (lists : FreeLists s blocks) {order : Nat} (clear : Clear blocks idx (idx + 2 ^ order)) :
    FreeLists (s.handOut idx order) blocks := by
  refine lists.congr rfl rfl fun o top i member => if_neg fun inside => ?_
  have apart := clear o top i member
  have positive : 0 < 2 ^ o := Nat.two_pow_pos o
  unfold Apart at apart
  omega

end FreeLists

/-! ## Blocks that are handed out -/

/-- A block leaves the lists: its pages were free, and are not free any more; no others change. -/
structure Takes (s : Buddy) (order idx : Nat) (s' : Buddy) : Prop where
  sound : s'.Sound
  inside : idx + 2 ^ order ≤ s.total_pages
  gone : ∀ p, idx ≤ p → p < idx + 2 ^ order → ¬ s'.FreePage p
  pages : ∀ p, s.FreePage p ↔ (idx ≤ p ∧ p < idx + 2 ^ order) ∨ s'.FreePage p

theorem consBlock_tail {blocks : Nat → List Nat} {o idx : Nat} {rest : List Nat} (list : blocks o = idx :: rest) :
    consBlock (Function.update blocks o rest) o idx = blocks := by
  rw [consBlock, Function.update_self, Function.update_idem, ← list, Function.update_eq_self]

/-- A list that has a block gives the first one, or the lower end of it. -/
theorem Buddy.Sound.takeFrom {s : Buddy} (sound : s.Sound) {order found : Nat} (le : order ≤ found)
    (top : found ≤ maxOrder) (real : s.buddy_heads found ≠ buddyNil) :
    (s.takeFrom order found).1 = idxToPhys (s.buddy_heads found) ∧ 2 ^ found ∣ s.buddy_heads found ∧
      Takes s order (s.buddy_heads found) (s.takeFrom order found).2 := by
  obtain ⟨blocks, lists⟩ := sound
  obtain ⟨idx, others, rfl⟩ : ∃ idx others, blocks = consBlock others found idx := by
    cases list : blocks found with
    | nil => exact absurd (((lists.linked found top).eq_nil_iff).mpr list) real
    | cons idx rest => exact ⟨idx, _, (consBlock_tail list).symm⟩
  obtain ⟨aligned, inside, clear, -⟩ := lists.layout.of_cons top
  obtain ⟨head, popped⟩ := lists.pop top
  have pop : s.listPop found = (idx, s.listRemove found idx) := by
    rw [Buddy.listPop, head, if_pos (head ▸ real)]
  obtain ⟨blocks', split, clear', total, covered⟩ := popped.splitDown le top aligned
    (by rw [Buddy.listRemove_total]; exact inside) clear
  have least : 2 ^ order ≤ 2 ^ found := Nat.pow_le_pow_right (by decide) le
  simp only [Buddy.takeFrom, pop, head]
  have after := split.handOut clear'
  refine ⟨trivial, aligned, ⟨blocks', after⟩, Nat.le_trans (by omega) inside, fun p low high => ?_, fun p => ?_⟩
  · rw [after.freePage_iff]
    exact clear'.not_covered ⟨low, high⟩
  · rw [after.freePage_iff, lists.freePage_iff, covered, covered_cons top]
    have positive : 0 < 2 ^ order := Nat.two_pow_pos order
    by_cases old : Covered others p
    · simp only [old, or_true, true_or]
    · simp only [old, or_false, false_or]
      omega

end Systrix.Pmm
