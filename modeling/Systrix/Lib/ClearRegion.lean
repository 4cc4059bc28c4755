import Systrix.Lib.ImplicitList

/-!
# A region that a layout of blocks leaves alone

A region is clear when no header and no payload in use meets it.  It then lies in the payload of one
free block, stays clear when that block is carved from below, and whenever a block is given back.
-/

namespace ImplicitList

/-- No header and no used payload meets `[low, high)`. -/
structure Clear (header base low high : Nat) (blocks : List Block) : Prop where
  headers : ∀ {start block}, At header base blocks start block → start + header ≤ low ∨ high ≤ start
  payloads : ∀ {start block}, At header base blocks start block → block.free = false →
    start + header + block.size ≤ low ∨ high ≤ start + header

/-- Every address of the layout belongs to one of its blocks. -/
theorem At.cover {header base address : Nat} {blocks : List Block} (lower : base ≤ address)
    (upper : address < base + extent header blocks) :
    ∃ start block, At header base blocks start block ∧ start ≤ address ∧
      address < start + header + block.size := by
  induction blocks generalizing base with
  | nil =>
      rw [extent_nil] at upper
      omega
  | cons head blocks ih =>
      rw [extent_cons] at upper
      by_cases inHead : address < base + header + head.size
      · exact ⟨base, head, .inl ⟨rfl, rfl⟩, lower, inHead⟩
      · obtain ⟨start, block, placed, inside⟩ := ih (Nat.le_of_not_lt inHead) (by omega)
        exact ⟨start, block, .inr placed, inside⟩

/-- A block is followed by another or by the end of the layout. -/
theorem At.next {header base start : Nat} {blocks : List Block} {block : Block}
    (placed : At header base blocks start block) :
    start + header + block.size = base + extent header blocks ∨
      ∃ other, At header base blocks (start + header + block.size) other := by
  obtain ⟨before, after, rfl, rfl⟩ := placed.split
  cases after with
  | nil =>
      left
      rw [extent_append, extent_cons, extent_nil]
      omega
  | cons other after =>
      right
      refine ⟨other, at_append.mpr (.inr (.inr (.inl ⟨rfl, rfl⟩)))⟩

namespace Clear

variable {header base low high : Nat} {blocks before after : List Block} {block : Block}

/-- A block contains a clear region or does not meet it. -/
theorem contains_or_apart {start : Nat} (clear : Clear header base low high blocks)
    (placed : At header base blocks start block) (inside : high ≤ base + extent header blocks) :
    (start + header ≤ low ∧ high ≤ start + header + block.size) ∨ start + header + block.size ≤ low ∨
      high ≤ start := by
  rcases clear.headers placed with above | below
  · rcases placed.next with last | ⟨other, following⟩
    · exact .inl ⟨above, by omega⟩
    · rcases clear.headers following with past | within
      · exact .inr (.inl (by omega))
      · exact .inl ⟨above, within⟩
  · exact .inr (.inr below)

/-- Taking memory from a free block keeps a region clear that lies behind what is taken. -/
theorem carve {minimum wanted : Nat} (clear : Clear header base low high (before ++ block :: after))
    (inside : high ≤ base + extent header (before ++ block :: after)) (wide : low + minimum ≤ high)
    (fits : wanted ≤ block.size)
    (behind : base + extent header before + header ≤ low →
      high ≤ base + extent header before + header + block.size →
        base + extent header before + header + wanted + header ≤ low) :
    Clear header base low high (before ++ (carve header minimum wanted block ++ after)) := by
  have middle := at_middle header base before after block
  have place := clear.contains_or_apart middle inside
  have front := clear.headers middle
  generalize startDef : base + extent header before = start at *
  have others : ∀ {position other}, At header base (before ++ (ImplicitList.carve header minimum wanted block ++ after))
      position other → At header base (before ++ block :: after) position other ∨
        At header start (ImplicitList.carve header minimum wanted block) position other := by
    intro position other placed
    rcases at_append.mp placed with inBefore | inRest
    · exact .inl (at_append.mpr (.inl inBefore))
    · rw [startDef] at inRest
      rcases at_append.mp inRest with inCarve | inAfter
      · exact .inr inCarve
      · rw [extent_carve, ← startDef] at inAfter
        refine .inl (at_append.mpr (.inr (.inr ?_)))
        rwa [Nat.add_assoc]
  refine ⟨fun placed => ?_, fun placed inUse => ?_⟩
  · rcases others placed with old | taken
    · exact clear.headers old
    · unfold ImplicitList.carve at taken
      split at taken
      · rcases taken with ⟨rfl, -⟩ | ⟨rfl, -⟩ | impossible
        · exact front
        · rcases place with ⟨above, within⟩ | apart | apart
          · exact .inl (behind above within)
          · exact .inl (by dsimp only; omega)
          · exact .inr (by omega)
        · exact impossible.elim
      · rcases taken with ⟨rfl, -⟩ | impossible
        · exact front
        · exact impossible.elim
  · rcases others placed with old | taken
    · exact clear.payloads old inUse
    · unfold ImplicitList.carve at taken
      split at taken
      · rcases taken with ⟨rfl, rfl⟩ | ⟨-, rfl⟩ | impossible
        · rcases place with ⟨above, within⟩ | apart | apart
          · have far := behind above within
            exact .inl (by dsimp only; omega)
          · exact .inl (by dsimp only; omega)
          · exact .inr (by omega)
        · cases inUse
        · exact impossible.elim
      next whole =>
        rcases taken with ⟨rfl, rfl⟩ | impossible
        · rcases place with ⟨above, within⟩ | apart | apart
          · have far := behind above within
            exact absurd (by omega) whole
          · exact .inl apart
          · exact .inr (by omega)
        · exact impossible.elim

end Clear

/-- Blocks of a merge start where a block started before. -/
theorem at_absorb_start {header base size start : Nat} {blocks : List Block} {block : Block}
    (placed : At header base (absorb header size blocks) start block) :
    start = base ∨ ∃ old, At header (base + header + size) blocks start old := by
  induction blocks generalizing size with
  | nil =>
      rcases placed with ⟨first, -⟩ | impossible
      · exact .inl first
      · exact impossible.elim
  | cons head blocks ih =>
      unfold absorb at placed
      split at placed
      · rcases ih placed with first | ⟨old, later⟩
        · exact .inl first
        · refine .inr ⟨old, .inr ?_⟩
          have origin : base + header + (size + header + head.size) =
              base + header + size + header + head.size := by omega
          rwa [origin] at later
      · rcases placed with ⟨first, -⟩ | later
        · exact .inl first
        · exact .inr ⟨block, later⟩

/-- Blocks after a release start where a block started before. -/
theorem at_release_start {header base start : Nat} {before after : List Block} {block given : Block}
    (placed : At header base (release header given.size before after) start block) :
    ∃ old, At header base (before ++ given :: after) start old := by
  have absorbed : ∀ {other}, At header (base + extent header before) (absorb header given.size after) start other →
      ∃ old, At header base (before ++ given :: after) start old := by
    intro other merged
    rcases at_absorb_start merged with first | ⟨old, later⟩
    · exact ⟨given, first ▸ at_middle ..⟩
    · exact ⟨old, at_append.mpr (.inr (.inr later))⟩
  rcases List.eq_nil_or_concat before with rfl | ⟨front, last, rfl⟩
  · rw [release_nil] at placed
    exact absorbed placed
  · rw [List.concat_eq_append, release_concat] at placed
    rw [List.concat_eq_append] at absorbed ⊢
    split at placed
    · rcases at_append.mp placed with inFront | merged
      · exact ⟨block, at_append.mpr (.inl (at_append.mpr (.inl inFront)))⟩
      · rcases at_absorb_start merged with first | ⟨old, later⟩
        · refine ⟨last, first ▸ ?_⟩
          rw [List.append_assoc]
          exact at_middle ..
        · refine ⟨old, at_append.mpr (.inr (.inr ?_))⟩
          have origin : base + extent header front + header + (last.size + (header + given.size)) =
              base + extent header (front ++ [last]) + header + given.size := by
            simp only [extent_append, extent_cons, extent_nil]
            omega
          rwa [origin] at later
    · rcases at_append.mp placed with inBefore | merged
      · exact ⟨block, at_append.mpr (.inl inBefore)⟩
      · exact absorbed merged

/-- Giving a block back puts no header and no used payload anywhere new. -/
theorem Clear.release {header base low high : Nat} {before after : List Block} {block : Block}
    (clear : Clear header base low high (before ++ block :: after)) :
    Clear header base low high (release header block.size before after) where
  headers placed := by
    obtain ⟨old, placedOld⟩ := at_release_start placed
    exact clear.headers placedOld
  payloads placed inUse := by
    refine clear.payloads (at_append.mpr ?_) inUse
    exact ((at_release_of_used inUse).mp placed).imp_right .inr

end ImplicitList
