import Mathlib.Data.List.Chain
import Mathlib.Tactic.Common

/-!
# Implicit lists of blocks

An arena laid out as consecutive blocks, each a fixed-width header followed by a
payload, is found again only by adding header widths and payload sizes.  This
module describes such layouts as lists, with the address of every block derived
from the blocks before it, and the two edits an allocator makes: splitting a
block and merging neighbours.
-/

namespace ImplicitList

/-- One block: payload bytes and whether the block is free. -/
structure Block where
  size : Nat
  free : Bool
  deriving DecidableEq, Repr

/-- Bytes covered by a run of blocks, headers included. -/
def extent (header : Nat) : List Block → Nat
  | [] => 0
  | block :: blocks => header + block.size + extent header blocks

@[simp] theorem extent_nil (header : Nat) : extent header [] = 0 := rfl

@[simp] theorem extent_cons (header : Nat) (block : Block) (blocks : List Block) :
    extent header (block :: blocks) = header + block.size + extent header blocks := rfl

@[simp] theorem extent_append (header : Nat) (left right : List Block) :
    extent header (left ++ right) = extent header left + extent header right := by
  induction left with
  | nil => simp
  | cons block left ih => simp [ih]; omega

/-- Every block costs at least its header. -/
theorem length_mul_le_extent (header : Nat) (blocks : List Block) :
    blocks.length * header ≤ extent header blocks := by
  induction blocks with
  | nil => simp
  | cons block blocks ih =>
      simp only [List.length_cons, extent_cons, Nat.succ_mul]
      omega

/-- `block` has its header at `start` when `blocks` is laid out from `base`. -/
def At (header base : Nat) : List Block → (start : Nat) → (block : Block) → Prop
  | [], _, _ => False
  | head :: blocks, start, block =>
      (start = base ∧ block = head) ∨ At header (base + header + head.size) blocks start block

@[simp] theorem at_nil {header base start : Nat} {block : Block} :
    ¬At header base [] start block := id

@[simp] theorem at_cons {header base start : Nat} {head block : Block} {blocks : List Block} :
    At header base (head :: blocks) start block ↔
      (start = base ∧ block = head) ∨
        At header (base + header + head.size) blocks start block := Iff.rfl

theorem at_append {header base start : Nat} {left right : List Block} {block : Block} :
    At header base (left ++ right) start block ↔
      At header base left start block ∨
        At header (base + extent header left) right start block := by
  induction left generalizing base with
  | nil => simp
  | cons head left ih =>
      have origin : base + header + head.size + extent header left =
          base + extent header (head :: left) := by simp; omega
      rw [List.cons_append, at_cons, at_cons, ih, or_assoc, origin]

namespace At

variable {header base start start' : Nat} {block block' : Block} {blocks : List Block}

theorem bounds (placed : At header base blocks start block) :
    base ≤ start ∧ start + header + block.size ≤ base + extent header blocks := by
  induction blocks generalizing base with
  | nil => exact placed.elim
  | cons head blocks ih =>
      simp only [extent_cons]
      rcases placed with ⟨rfl, rfl⟩ | later
      · omega
      · have tail := ih later
        omega

/-- The blocks before and after a placed block. -/
theorem split (placed : At header base blocks start block) :
    ∃ before after, blocks = before ++ block :: after ∧
      start = base + extent header before := by
  induction blocks generalizing base with
  | nil => exact placed.elim
  | cons head blocks ih =>
      rcases placed with ⟨rfl, rfl⟩ | later
      · exact ⟨[], blocks, rfl, by simp⟩
      · obtain ⟨before, after, shape, origin⟩ := ih later
        refine ⟨head :: before, after, by simp [shape], ?_⟩
        simp only [extent_cons]
        omega

/-- Two placed blocks are the same one or do not meet. -/
theorem eq_or_apart (left : At header base blocks start block)
    (right : At header base blocks start' block') :
    (start = start' ∧ block = block') ∨ start + header + block.size ≤ start' ∨
      start' + header + block'.size ≤ start := by
  induction blocks generalizing base with
  | nil => exact left.elim
  | cons head blocks ih =>
      rcases left with ⟨rfl, rfl⟩ | left <;> rcases right with ⟨rfl, rfl⟩ | right
      · exact .inl ⟨rfl, rfl⟩
      · exact .inr (.inl right.bounds.1)
      · exact .inr (.inr left.bounds.1)
      · exact ih left right

end At

theorem at_middle (header base : Nat) (before after : List Block) (block : Block) :
    At header base (before ++ block :: after) (base + extent header before) block :=
  at_append.mpr (.inr (.inl ⟨rfl, rfl⟩))

/-- Exchanging a run of blocks for another of the same extent moves no other
block. -/
theorem at_exchange {header base start : Nat} {before old new after : List Block}
    {block : Block} (sameExtent : extent header old = extent header new)
    (placed : At header base (before ++ old ++ after) start block) :
    At header (base + extent header before) old start block ∨
      At header base (before ++ new ++ after) start block := by
  rw [at_append, at_append] at placed
  rw [at_append, at_append]
  rcases placed with (inBefore | inOld) | inAfter
  · exact .inr (.inl (.inl inBefore))
  · exact .inl inOld
  · refine .inr (.inr ?_)
    simpa [sameExtent] using inAfter

/-- No two neighbouring blocks are both free. -/
def NoAdjacentFree (blocks : List Block) : Prop :=
  blocks.IsChain fun left right => ¬(left.free ∧ right.free)

/-- Blocks after an allocation of `wanted` bytes in `block`: the tail is split
off only when it can hold a header and `minimum` payload bytes. -/
def carve (header minimum wanted : Nat) (block : Block) : List Block :=
  if wanted + header + minimum ≤ block.size then
    [⟨wanted, false⟩, ⟨block.size - wanted - header, true⟩]
  else
    [⟨block.size, false⟩]

theorem extent_carve (header minimum wanted : Nat) (block : Block) :
    extent header (carve header minimum wanted block) = header + block.size := by
  unfold carve
  split <;> simp
  omega

/-- The allocated block of a carving, which is its first. -/
theorem carve_head (header minimum : Nat) {wanted : Nat} {block : Block}
    (fits : wanted ≤ block.size) :
    ∃ size rest, carve header minimum wanted block = ⟨size, false⟩ :: rest ∧
      wanted ≤ size ∧ size ≤ block.size := by
  unfold carve
  split
  · exact ⟨wanted, _, rfl, Nat.le_refl _, fits⟩
  · exact ⟨block.size, _, rfl, fits, Nat.le_refl _⟩

/-- The only used block of a carving is its first. -/
theorem at_carve_of_used {header base minimum wanted start : Nat} {block taken : Block}
    (used : taken.free = false)
    (placed : At header base (carve header minimum wanted block) start taken) :
    start = base := by
  unfold carve at placed
  split at placed
  · rcases placed with ⟨first, -⟩ | ⟨-, rfl⟩ | impossible
    · exact first
    · simp at used
    · exact impossible.elim
  · rcases placed with ⟨first, -⟩ | impossible
    · exact first
    · exact impossible.elim

/-- Absorb the free blocks that follow a free block. -/
def absorb (header size : Nat) : List Block → List Block
  | [] => [⟨size, true⟩]
  | block :: blocks =>
      if block.free then absorb header (size + header + block.size) blocks
      else ⟨size, true⟩ :: block :: blocks

theorem absorb_head (header size : Nat) (blocks : List Block) :
    ∃ merged rest, absorb header size blocks = ⟨merged, true⟩ :: rest ∧ size ≤ merged := by
  induction blocks generalizing size with
  | nil => exact ⟨size, [], rfl, Nat.le_refl _⟩
  | cons block blocks ih =>
      unfold absorb
      split
      · obtain ⟨merged, rest, shape, grown⟩ := ih (size + header + block.size)
        exact ⟨merged, rest, shape, by omega⟩
      · exact ⟨size, block :: blocks, rfl, Nat.le_refl _⟩

/-- The used blocks of a merge are those of the blocks merged. -/
theorem at_absorb_of_used {header base size start : Nat} {blocks : List Block} {block : Block}
    (used : block.free = false) :
    At header base (absorb header size blocks) start block ↔
      At header (base + header + size) blocks start block := by
  induction blocks generalizing size with
  | nil =>
      simp only [absorb, at_cons, at_nil, or_false, iff_false, not_and]
      rintro - rfl
      simp at used
  | cons head blocks ih =>
      unfold absorb
      split
      next headFree =>
        have origin : base + header + (size + header + head.size) =
            base + header + size + header + head.size := by omega
        rw [ih, origin, at_cons]
        refine (or_iff_right ?_).symm
        rintro ⟨-, rfl⟩
        simp [used] at headFree
      next =>
        rw [at_cons]
        refine or_iff_right ?_
        rintro ⟨-, rfl⟩
        simp at used

/-- Blocks after a block of payload `size` standing between `before` and `after`
is given back: it joins a free block before it and all free blocks after it. -/
def release (header size : Nat) (before after : List Block) : List Block :=
  match before.getLast? with
  | some last =>
      if last.free then before.dropLast ++ absorb header (last.size + (header + size)) after
      else before ++ absorb header size after
  | none => absorb header size after

@[simp] theorem release_nil (header size : Nat) (after : List Block) :
    release header size [] after = absorb header size after := rfl

theorem release_concat (header size : Nat) (before after : List Block) (last : Block) :
    release header size (before ++ [last]) after =
      if last.free then before ++ absorb header (last.size + (header + size)) after
      else before ++ [last] ++ absorb header size after := by
  simp [release]

/-- The used blocks that remain are those before and after the block given back. -/
theorem at_release_of_used {header base size start : Nat} {before after : List Block}
    {block : Block} (used : block.free = false) :
    At header base (release header size before after) start block ↔
      At header base before start block ∨
        At header (base + extent header before + header + size) after start block := by
  rcases List.eq_nil_or_concat before with rfl | ⟨before, last, rfl⟩
  · simp [at_absorb_of_used used]
  · rw [List.concat_eq_append, release_concat]
    split
    next lastFree =>
      have origin : base + extent header before + header + (last.size + (header + size)) =
          base + extent header (before ++ [last]) + header + size := by
        simp; omega
      rw [at_append, at_absorb_of_used used, origin, at_append]
      refine or_congr (or_iff_left ?_).symm Iff.rfl
      rintro (⟨-, rfl⟩ | impossible)
      · simp [used] at lastFree
      · exact impossible
    next => rw [at_append, at_absorb_of_used used]

/-- The block given back lies inside a free block. -/
theorem release_covers (header base size : Nat) (before after : List Block) :
    ∃ start block, At header base (release header size before after) start block ∧
      block.free = true ∧ start ≤ base + extent header before ∧
      base + extent header before + size ≤ start + block.size := by
  rcases List.eq_nil_or_concat before with rfl | ⟨before, last, rfl⟩
  · obtain ⟨merged, rest, shape, grown⟩ := absorb_head header size after
    exact ⟨base, ⟨merged, true⟩, by simp [shape], rfl, by simp, by simpa using grown⟩
  · rw [List.concat_eq_append, release_concat]
    split
    · obtain ⟨merged, rest, shape, grown⟩ :=
        absorb_head header (last.size + (header + size)) after
      refine ⟨base + extent header before, ⟨merged, true⟩, ?_, rfl, by simp, ?_⟩
      · rw [shape]
        exact at_middle ..
      · simp
        omega
    · obtain ⟨merged, rest, shape, grown⟩ := absorb_head header size after
      refine ⟨base + extent header (before ++ [last]), ⟨merged, true⟩, ?_, rfl,
        Nat.le_refl _, ?_⟩
      · rw [shape]
        exact at_middle ..
      · simpa using grown

namespace NoAdjacentFree

theorem append_iff {before after : List Block} :
    NoAdjacentFree (before ++ after) ↔ NoAdjacentFree before ∧ NoAdjacentFree after ∧
      ∀ x ∈ before.getLast?, ∀ y ∈ after.head?, ¬(x.free ∧ y.free) :=
  List.isChain_append

/-- After merging, the first block that was not absorbed is in use. -/
theorem absorb {header size : Nat} {blocks : List Block} (separated : NoAdjacentFree blocks) :
    NoAdjacentFree (absorb header size blocks) := by
  induction blocks generalizing size with
  | nil => simp [ImplicitList.absorb, NoAdjacentFree]
  | cons block blocks ih =>
      unfold ImplicitList.absorb
      split
      next => exact ih (List.IsChain.tail separated)
      next used =>
        refine List.isChain_cons_cons.mpr ⟨?_, separated⟩
        simpa using used

/-- Giving a block back leaves no free neighbours. -/
theorem release {header size : Nat} {before after : List Block} {block : Block}
    (separated : NoAdjacentFree (before ++ block :: after)) :
    NoAdjacentFree (release header size before after) := by
  obtain ⟨beforeOk, tailOk, -⟩ := append_iff.mp separated
  have afterOk : NoAdjacentFree after := List.IsChain.tail tailOk
  rcases List.eq_nil_or_concat before with rfl | ⟨before, last, rfl⟩
  · exact afterOk.absorb
  · rw [List.concat_eq_append] at beforeOk ⊢
    rw [release_concat]
    obtain ⟨frontOk, -, seam⟩ := append_iff.mp beforeOk
    split
    next lastFree =>
      refine append_iff.mpr ⟨frontOk, afterOk.absorb, ?_⟩
      intro x isLast y isHead
      have used := seam x isLast last (by simp)
      simp only [lastFree, and_true] at used
      exact fun both => used both.1
    next lastUsed =>
      refine append_iff.mpr ⟨beforeOk, afterOk.absorb, ?_⟩
      intro x isLast y isHead
      simp only [List.getLast?_append, List.getLast?_singleton, Option.some_or, Option.mem_def,
        Option.some.injEq] at isLast
      subst isLast
      exact fun both => lastUsed both.1

/-- Allocating in a free block keeps free blocks apart: what is split off stands
between the allocated block and the used block that followed. -/
theorem carve {header minimum wanted : Nat} {before after : List Block} {block : Block}
    (isFree : block.free = true)
    (separated : NoAdjacentFree (before ++ block :: after)) :
    NoAdjacentFree (before ++ (carve header minimum wanted block ++ after)) := by
  obtain ⟨beforeOk, tailOk, -⟩ := append_iff.mp separated
  have afterOk : NoAdjacentFree after := List.IsChain.tail tailOk
  have next : ∀ y ∈ after.head?, y.free = false := by
    intro y isNext
    cases after with
    | nil => simp at isNext
    | cons head after =>
        simp only [List.head?_cons, Option.mem_def, Option.some.injEq] at isNext
        subst isNext
        have pair := (List.isChain_cons_cons.mp tailOk).1
        simpa [isFree] using pair
  unfold ImplicitList.carve
  split
  all_goals
    refine append_iff.mpr ⟨beforeOk, ?_, by simp⟩
    refine append_iff.mpr ⟨by simp [NoAdjacentFree], afterOk, ?_⟩
    simp only [List.getLast?_cons_cons, List.getLast?_singleton, Option.mem_def,
      Option.some.injEq]
    rintro x rfl y isNext
    simp [next y isNext]

end NoAdjacentFree

end ImplicitList
