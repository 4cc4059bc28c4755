import Systrix.Heap.BlockTier
import Systrix.Lib.ImplicitList

/-!
# The block arena as an implicit list

`Tiles` reads the headers of the arena as a list of blocks.  Each operation of
the tier is described by what it does to that list, together with the bytes it
may have changed.
-/

namespace Systrix.Heap

open ByteMemory Machine ImplicitList

/-- The headers from `start` on describe `blocks` and end exactly at `limit`. -/
def Tiles (memory : Memory) (limit : Nat) : (start : Nat) → List Block → Prop
  | start, [] => start = limit
  | start, block :: blocks =>
      blockSize memory start = block.size ∧
        load memory (start + 8) 8 = (if block.free then 1 else 0) ∧
        Tiles memory limit (start + blockHdr + block.size) blocks

namespace Tiles

variable {memory memory' : Memory} {limit start : Nat} {blocks before after : List Block}
  {block : Block}

theorem limit_eq (tiles : Tiles memory limit start blocks) :
    limit = start + extent blockHdr blocks := by
  induction blocks generalizing start with
  | nil => exact tiles.symm
  | cons block blocks ih =>
      have tail := ih tiles.2.2
      rw [extent_cons, tail]
      omega

theorem append_iff :
    Tiles memory limit start (before ++ after) ↔
      Tiles memory (start + extent blockHdr before) start before ∧
        Tiles memory limit (start + extent blockHdr before) after := by
  induction before generalizing start with
  | nil => simp [Tiles]
  | cons block before ih =>
      have origin : start + blockHdr + block.size + extent blockHdr before =
          start + extent blockHdr (block :: before) := by simp; omega
      rw [List.cons_append, Tiles, Tiles, ih, origin, and_assoc, and_assoc]

theorem block_of_at {position : Nat} (tiles : Tiles memory limit start blocks)
    (placed : At blockHdr start blocks position block) :
    blockSize memory position = block.size ∧
      load memory (position + 8) 8 = (if block.free then 1 else 0) := by
  induction blocks generalizing start with
  | nil => exact placed.elim
  | cons head blocks ih =>
      rcases placed with ⟨rfl, rfl⟩ | later
      · exact ⟨tiles.1, tiles.2.1⟩
      · exact ih tiles.2.2 later

/-- Only the headers matter. -/
theorem congr (tiles : Tiles memory limit start blocks)
    (headers : ∀ position block, At blockHdr start blocks position block →
      SameOn memory' memory position (position + blockHdr)) :
    Tiles memory' limit start blocks := by
  induction blocks generalizing start with
  | nil => exact tiles
  | cons head blocks ih =>
      have same := headers start head (.inl ⟨rfl, rfl⟩)
      obtain ⟨sizeOk, flagsOk, tail⟩ := tiles
      refine ⟨?_, ?_, ih tail fun position block placed => headers position block (.inr placed)⟩
      · rw [← sizeOk]
        exact load_congr fun address lower upper => same address lower (by simp [blockHdr]; omega)
      · rw [← flagsOk]
        exact load_congr fun address lower upper =>
          same address (by omega) (by simp [blockHdr]; omega)

/-- A change elsewhere in memory is not seen by the tiling. -/
theorem of_sameOutside {low high : Nat} (tiles : Tiles memory limit start blocks)
    (same : SameOutside memory' memory low high)
    (apart : start + extent blockHdr blocks ≤ low ∨ high ≤ start) :
    Tiles memory' limit start blocks := by
  apply tiles.congr
  intro position block placed
  have bounds := placed.bounds
  exact same.sameOn (by omega)

/-- Writing inside one payload keeps every header. -/
theorem of_payload {low high position : Nat} (tiles : Tiles memory limit start blocks)
    (placed : At blockHdr start blocks position block)
    (same : SameOutside memory' memory low high)
    (inside : position + blockHdr ≤ low ∧ high ≤ position + blockHdr + block.size) :
    Tiles memory' limit start blocks := by
  apply tiles.congr
  intro other otherBlock otherPlaced
  refine same.sameOn ?_
  rcases otherPlaced.eq_or_apart placed with ⟨rfl, rfl⟩ | apart | apart
  all_goals omega

theorem blockFree?_eq (tiles : Tiles memory limit start (block :: blocks)) :
    blockFree? memory start = block.free := by
  unfold blockFree?
  rw [tiles.2.1]
  cases block.free <;> rfl

theorem nextBlock_eq (tiles : Tiles memory limit start (block :: blocks))
    (bound : limit < 2 ^ 64) :
    nextBlock memory start = start + blockHdr + block.size := by
  have total := tiles.limit_eq
  simp only [extent_cons] at total
  unfold nextBlock
  rw [tiles.1, u64_of_lt (by omega)]

end Tiles

/-! ## Header writes -/

section HeaderWrites

variable (memory : Memory)

@[simp] theorem blockSize_setBlockSize {b size : Nat} (fits : size < 2 ^ 64) :
    blockSize (setBlockSize memory b size) b = size :=
  load_store_of_lt memory b (by simpa using fits)

@[simp] theorem blockSize_setBlockFlags (b flags : Nat) :
    blockSize (setBlockFlags memory b flags) b = blockSize memory b :=
  load_store_of_apart memory flags (by omega)

theorem flags_setBlockFlags {b flags : Nat} (fits : flags < 2 ^ 64) :
    load (setBlockFlags memory b flags) (b + 8) 8 = flags :=
  load_store_of_lt memory (b + 8) (by simpa using fits)

theorem flags_setBlockSize (b size : Nat) :
    load (setBlockSize memory b size) (b + 8) 8 = load memory (b + 8) 8 :=
  load_store_of_apart memory size (by omega)

theorem setBlockSize_sameOutside (b size : Nat) :
    SameOutside (setBlockSize memory b size) memory b (b + blockHdr) :=
  (store_sameOutside memory b 8 size).mono (Nat.le_refl _) (by simp [blockHdr])

theorem setBlockFlags_sameOutside (b flags : Nat) :
    SameOutside (setBlockFlags memory b flags) memory b (b + blockHdr) :=
  (store_sameOutside memory (b + 8) 8 flags).mono (by omega) (by simp [blockHdr])

end HeaderWrites

/-! ## Header edits on a tiling -/

namespace Tiles

variable {memory : Memory} {limit start : Nat} {after rest : List Block} {block : Block}

/-- Marking the first block. -/
theorem setFlags (tiles : Tiles memory limit start (block :: after)) (free : Bool) :
    Tiles (setBlockFlags memory start (if free then 1 else 0)) limit start
      (⟨block.size, free⟩ :: after) := by
  refine ⟨?_, ?_, ?_⟩
  · rw [blockSize_setBlockFlags, tiles.1]
  · exact flags_setBlockFlags _ (by cases free <;> decide)
  · exact tiles.2.2.of_sameOutside (setBlockFlags_sameOutside memory start _)
      (.inr (Nat.le_add_right _ _))

/-- Giving the first block a new size, so that the list continues with `rest`. -/
theorem resize (tiles : Tiles memory limit start (block :: after)) {size : Nat}
    (fits : size < 2 ^ 64) (continues : Tiles memory limit (start + blockHdr + size) rest) :
    Tiles (setBlockSize memory start size) limit start (⟨size, block.free⟩ :: rest) := by
  refine ⟨blockSize_setBlockSize _ fits, ?_, ?_⟩
  · rw [flags_setBlockSize, tiles.2.1]
  · exact continues.of_sameOutside (setBlockSize_sameOutside memory start size)
      (.inr (Nat.le_add_right _ _))

/-- Writing a free header in front of a tiling. -/
theorem newHeader {size : Nat} (fits : size < 2 ^ 64)
    (continues : Tiles memory limit (start + blockHdr + size) after) :
    Tiles (setBlockFlags (setBlockSize memory start size) start 1) limit start
      (⟨size, true⟩ :: after) := by
  refine ⟨?_, ?_, ?_⟩
  · rw [blockSize_setBlockFlags, blockSize_setBlockSize _ fits]
  · exact flags_setBlockFlags _ (by decide)
  · have outside := (setBlockFlags_sameOutside (setBlockSize memory start size) start 1).trans
      (setBlockSize_sameOutside memory start size)
    exact continues.of_sameOutside outside (.inr (Nat.le_add_right _ _))

end Tiles

/-! ## Initialisation -/

/-- A single free block covering the arena. -/
def freshArena : List Block := [⟨heapSize - blockHdr, true⟩]

theorem heapInit_tiles (memory : Memory) :
    Tiles (heapInit memory) heapLimit heapBase freshArena := by
  have header : Tiles (setBlockFlags (setBlockSize memory heapBase (heapSize - blockHdr))
      heapBase 1) heapLimit heapBase freshArena :=
    Tiles.newHeader (by decide) (by simp [Tiles]; decide)
  exact header.of_payload (.inl ⟨rfl, rfl⟩) (fill_sameOutside _ _ _ _)
    ⟨Nat.le_refl _, Nat.le_refl _⟩

/-! ## Allocation -/

/-- Splitting off the tail of a block that is about to be taken. -/
theorem splitTail_tiles {memory : Memory} {limit n b : Nat} {block : Block} {after : List Block}
    (tiles : Tiles memory limit b (block :: after)) (bound : limit < 2 ^ 64)
    (room : n + blockHdr ≤ block.size) :
    let next := b + blockHdr + n
    let memory' := setBlockFlags (setBlockSize memory next (block.size - n - blockHdr)) next 1
    Tiles (setBlockSize memory' b n) limit b
        (⟨n, block.free⟩ :: ⟨block.size - n - blockHdr, true⟩ :: after) ∧
      SameOutside (setBlockSize memory' b n) memory b (b + blockHdr + block.size) := by
  intro next memory'
  have total := tiles.limit_eq
  simp only [extent_cons] at total
  have origin : next + blockHdr + (block.size - n - blockHdr) = b + blockHdr + block.size := by
    omega
  have inside : SameOutside memory' memory next (next + blockHdr) :=
    (setBlockFlags_sameOutside _ next 1).trans (setBlockSize_sameOutside memory next _)
  have tailTiles : Tiles memory' limit next (⟨block.size - n - blockHdr, true⟩ :: after) := by
    apply Tiles.newHeader (by omega)
    rw [origin]
    exact tiles.2.2
  have whole : Tiles memory' limit b (block :: after) :=
    tiles.of_payload (.inl ⟨rfl, rfl⟩) inside (by omega)
  refine ⟨whole.resize (by omega) tailTiles, ?_⟩
  exact ((setBlockSize_sameOutside memory' b n).mono (Nat.le_refl _) (by omega)).trans
    (inside.mono (by omega) (by omega))

/-- Marking a block used and clearing its payload. -/
theorem claim_tiles {memory : Memory} {limit b : Nat} {block : Block} {after : List Block}
    (tiles : Tiles memory limit b (block :: after)) :
    let memory' := setBlockFlags memory b 0
    Tiles (fill memory' (b + blockHdr) (blockSize memory' b) 0) limit b
        (⟨block.size, false⟩ :: after) ∧
      SameOutside (fill memory' (b + blockHdr) (blockSize memory' b) 0) memory b
        (b + blockHdr + block.size) := by
  intro memory'
  have marked : Tiles memory' limit b (⟨block.size, false⟩ :: after) := tiles.setFlags false
  rw [marked.1]
  have cleared := fill_sameOutside memory' (b + blockHdr) block.size 0
  refine ⟨marked.of_payload (.inl ⟨rfl, rfl⟩) cleared ⟨Nat.le_refl _, Nat.le_refl _⟩, ?_⟩
  exact (cleared.mono (by omega) (Nat.le_refl _)).trans
    ((setBlockFlags_sameOutside memory b 0).mono (Nat.le_refl _) (by omega))

theorem takeBlock_tiles {memory : Memory} {limit n b : Nat} {block : Block} {after : List Block}
    (tiles : Tiles memory limit b (block :: after)) (bound : limit + 64 < 2 ^ 64)
    (fits : n ≤ block.size) :
    Tiles (takeBlock memory n b) limit b (carve blockHdr 16 n block ++ after) ∧
      SameOutside (takeBlock memory n b) memory b (b + blockHdr + block.size) := by
  have total := tiles.limit_eq
  simp only [extent_cons] at total
  have hdr : blockHdr = 16 := rfl
  have roomEq : u64 (n + blockHdr + 16) = n + blockHdr + 16 := u64_of_lt (by omega)
  unfold takeBlock carve
  simp only [roomEq, tiles.1]
  split
  next room =>
    have nextEq : u64 (b + blockHdr + n) = b + blockHdr + n := u64_of_lt (by omega)
    have restEq : sub64 (sub64 block.size n) blockHdr = block.size - n - blockHdr := by
      rw [sub64_of_le fits (by omega), sub64_of_le (by omega) (by omega)]
    rw [nextEq, restEq]
    obtain ⟨splitTiles, splitSame⟩ := splitTail_tiles (n := n) tiles (by omega) (by omega)
    obtain ⟨claimTiles, claimSame⟩ := claim_tiles splitTiles
    exact ⟨claimTiles, (claimSame.mono (Nat.le_refl _) (by simp only; omega)).trans splitSame⟩
  next => exact claim_tiles tiles

/-- Outcome of the first-fit search from `b`. -/
inductive FirstFit (memory : Memory) (n b : Nat) (blocks : List Block) : Memory × Nat → Prop
  | exhausted (noFit : ∀ block ∈ blocks, block.free → block.size < n) :
      FirstFit memory n b blocks (memory, 0)
  | found (before after : List Block) (block : Block)
      (shape : blocks = before ++ block :: after)
      (first : ∀ earlier ∈ before, earlier.free = true → earlier.size < n)
      (isFree : block.free = true) (fits : n ≤ block.size) :
      FirstFit memory n b blocks
        (takeBlock memory n (b + extent blockHdr before),
          b + extent blockHdr before + blockHdr)

theorem blockMallocLoop_spec {memory : Memory} {n b fuel : Nat} {blocks : List Block}
    (tiles : Tiles memory heapLimit b blocks) (enough : blocks.length < fuel) :
    ∃ result, blockMallocLoop n fuel memory b = some result ∧
      FirstFit memory n b blocks result := by
  induction fuel generalizing b blocks with
  | zero => omega
  | succ fuel ih =>
      cases blocks with
      | nil =>
          have done : ¬b < heapLimit := by rw [show b = heapLimit from tiles]; omega
          refine ⟨_, by rw [blockMallocLoop, if_neg done], .exhausted (by simp)⟩
      | cons block blocks =>
          have inside : b < heapLimit := by
            have total := tiles.limit_eq
            simp only [extent_cons, blockHdr] at total
            omega
          simp only [blockMallocLoop, inside, if_true, tiles.blockFree?_eq, tiles.1]
          split
          next fit =>
            exact ⟨_, rfl, .found [] blocks block rfl (by simp) fit.1 fit.2⟩
          next noFit =>
            rw [tiles.nextBlock_eq (by decide)]
            obtain ⟨result, run, outcome⟩ := ih tiles.2.2 (by simpa using enough)
            refine ⟨result, run, ?_⟩
            have small : block.free = true → block.size < n := fun isFree =>
              Nat.lt_of_not_le fun fits => noFit ⟨isFree, fits⟩
            cases outcome with
            | exhausted later => exact .exhausted (List.forall_mem_cons.mpr ⟨small, later⟩)
            | found before after hit shape first isFree fits =>
                have origin : b + blockHdr + block.size + extent blockHdr before =
                    b + extent blockHdr (block :: before) := by simp; omega
                rw [origin]
                exact .found (block :: before) after hit (by simp [shape])
                  (List.forall_mem_cons.mpr ⟨small, first⟩) isFree fits

/-! ## Release -/

theorem findPrev_spec {memory : Memory} {target cur prev fuel : Nat} {before : List Block}
    (tiles : Tiles memory target cur before) (bound : target < 2 ^ 64)
    (enough : before.length < fuel) :
    findPrev memory target fuel prev cur =
      some (if before = [] then prev else cur + extent blockHdr before.dropLast) := by
  induction fuel generalizing cur prev before with
  | zero => omega
  | succ fuel ih =>
      cases before with
      | nil =>
          have done : ¬cur < target := by rw [show cur = target from tiles]; omega
          simp [findPrev, done]
      | cons block before =>
          have inside : cur < target := by
            have total := tiles.limit_eq
            simp only [extent_cons, blockHdr] at total
            omega
          rw [findPrev, if_pos inside, tiles.nextBlock_eq bound,
            ih tiles.2.2 (by simpa using enough)]
          cases before with
          | nil => simp
          | cons next before => simp; omega

theorem coalesceForward_spec {memory : Memory} {b size fuel : Nat} {after : List Block}
    (tiles : Tiles memory heapLimit b (⟨size, true⟩ :: after)) (enough : after.length < fuel) :
    ∃ memory', coalesceForward fuel memory b = some memory' ∧
      Tiles memory' heapLimit b (absorb blockHdr size after) ∧
      SameOutside memory' memory b (b + blockHdr) := by
  induction fuel generalizing memory size after with
  | zero => omega
  | succ fuel ih =>
      have total := tiles.limit_eq
      have small : heapLimit < 2 ^ 32 := by decide
      simp only [coalesceForward, tiles.nextBlock_eq (by decide)]
      cases after with
      | nil =>
          simp only [extent_cons, extent_nil] at total
          rw [if_pos (by omega)]
          exact ⟨memory, rfl, tiles, .refl _ _ _⟩
      | cons next after =>
          simp only [extent_cons, blockHdr] at total
          rw [if_neg (by simp only [blockHdr]; omega)]
          rw [tiles.2.2.blockFree?_eq, tiles.2.2.1, tiles.1]
          unfold absorb
          split
          next nextFree =>
            have sum : u64 (size + (blockHdr + next.size)) = size + blockHdr + next.size := by
              rw [u64_of_lt (by simp only [blockHdr]; omega)]
              omega
            rw [sum]
            have merged : Tiles (setBlockSize memory b (size + blockHdr + next.size)) heapLimit b
                (⟨size + blockHdr + next.size, true⟩ :: after) := by
              apply tiles.resize (by simp only [blockHdr]; omega)
              have origin : b + blockHdr + (size + blockHdr + next.size) =
                  b + blockHdr + size + blockHdr + next.size := by omega
              rw [origin]
              exact tiles.2.2.2.2
            obtain ⟨memory', run, tiles', same⟩ := ih merged (by simpa using enough)
            exact ⟨memory', run, tiles', same.trans (setBlockSize_sameOutside _ _ _)⟩
          next => exact ⟨memory, rfl, tiles, .refl _ _ _⟩

/-- Nothing changed outside the arena and no payload of `blocks` changed. -/
structure PayloadsKept (memory' memory : Memory) (base : Nat) (blocks : List Block) : Prop where
  outside : SameOutside memory' memory base (base + extent blockHdr blocks)
  payload : ∀ {start block}, At blockHdr base blocks start block →
    SameOn memory' memory (start + blockHdr) (start + blockHdr + block.size)

namespace PayloadsKept

variable {first second third memory memory' : Memory} {base start : Nat} {blocks : List Block}
  {block : Block}

theorem trans (left : PayloadsKept first second base blocks)
    (right : PayloadsKept second third base blocks) : PayloadsKept first third base blocks where
  outside := left.outside.trans right.outside
  payload placed address lower upper :=
    (left.payload placed address lower upper).trans (right.payload placed address lower upper)

theorem of_header (placed : At blockHdr base blocks start block)
    (same : SameOutside memory' memory start (start + blockHdr)) :
    PayloadsKept memory' memory base blocks where
  outside := by
    have bounds := placed.bounds
    exact same.mono bounds.1 (by omega)
  payload other := by
    refine same.sameOn ?_
    rcases other.eq_or_apart placed with ⟨rfl, rfl⟩ | apart | apart
    all_goals omega

end PayloadsKept

theorem blockFree_spec {memory : Memory} {before after : List Block} {block : Block}
    (tiles : Tiles memory heapLimit heapBase (before ++ block :: after)) :
    ∃ memory', blockFree memory (heapBase + extent blockHdr before + blockHdr) = some memory' ∧
      Tiles memory' heapLimit heapBase (release blockHdr block.size before after) ∧
      PayloadsKept memory' memory heapBase (before ++ block :: after) := by
  generalize bDef : heapBase + extent blockHdr before = b
  have total := tiles.limit_eq
  have count : (before ++ block :: after).length * 16 ≤ _ := length_mul_le_extent blockHdr _
  have limit : heapLimit = heapBase + heapSize := rfl
  have sizes : heapBase = 0x200000 ∧ heapSize = 0x200000 ∧ blockHdr = 16 := ⟨rfl, rfl, rfl⟩
  simp only [extent_append, extent_cons, List.length_append, List.length_cons] at total count
  have short : before.length < blockFuel ∧ after.length < blockFuel := by
    have fuel : blockFuel = 131073 := rfl
    omega
  have self : sub64 (b + blockHdr) blockHdr = b := by
    rw [sub64_of_le (by omega) (by omega), Nat.add_sub_cancel]
  have placed : At blockHdr heapBase (before ++ block :: after) b block := bDef ▸ at_middle ..
  obtain ⟨beforeTiles, tailTiles⟩ := Tiles.append_iff.mp tiles
  rw [bDef] at beforeTiles tailTiles
  have markedSame := setBlockFlags_sameOutside memory b 1
  have markedTail : Tiles (setBlockFlags memory b 1) heapLimit b (⟨block.size, true⟩ :: after) :=
    tailTiles.setFlags true
  have markedBefore : Tiles (setBlockFlags memory b 1) b heapBase before :=
    beforeTiles.of_sameOutside markedSame (.inl (by omega))
  have markedKept := PayloadsKept.of_header placed markedSame
  unfold blockFree
  rw [if_neg (by omega)]
  simp only [self]
  rw [if_neg (by omega)]
  generalize setBlockFlags memory b 1 = marked at *
  rw [findPrev_spec markedBefore (by omega) short.1]
  rcases List.eq_nil_or_concat before with rfl | ⟨front, last, rfl⟩
  · simp only [if_true, ne_eq, not_true_eq_false, false_and, if_false, release_nil]
    obtain ⟨memory', run, tiles', same⟩ :=
      coalesceForward_spec markedTail short.2
    have origin : b = heapBase := by rw [← bDef]; rfl
    exact ⟨memory', run, origin ▸ tiles', (PayloadsKept.of_header placed same).trans markedKept⟩
  · simp only [List.concat_eq_append] at *
    simp only [List.append_eq_nil_iff, List.cons_ne_self, and_false, if_false,
      List.dropLast_concat]
    obtain ⟨frontTiles, lastTiles⟩ := Tiles.append_iff.mp markedBefore
    generalize prevDef : heapBase + extent blockHdr front = prev at *
    have prevEnd : prev + blockHdr + last.size = b := lastTiles.2.2
    have prevPlaced : At blockHdr heapBase (front ++ [last] ++ block :: after) prev last := by
      rw [← prevDef, List.append_assoc]
      exact at_middle ..
    have joined : Tiles marked heapLimit prev (last :: ⟨block.size, true⟩ :: after) :=
      ⟨lastTiles.1, lastTiles.2.1, prevEnd ▸ markedTail⟩
    rw [joined.blockFree?_eq, release_concat]
    have nonzero : prev ≠ 0 := by omega
    cases lastFree : last.free with
    | true =>
        simp only [ne_eq, nonzero, not_false_eq_true, true_and, if_true]
        rw [joined.1, markedTail.1, u64_of_lt (by dsimp only; omega)]
        have merged : Tiles (setBlockSize marked prev (last.size + (blockHdr + block.size)))
            heapLimit prev (⟨last.size + (blockHdr + block.size), true⟩ :: after) := by
          rw [← lastFree]
          apply joined.resize (by omega)
          have origin : prev + blockHdr + (last.size + (blockHdr + block.size)) =
              b + blockHdr + block.size := by omega
          rw [origin]
          exact markedTail.2.2
        obtain ⟨memory', run, tiles', same⟩ :=
          coalesceForward_spec merged short.2
        have sameFront := same.trans (setBlockSize_sameOutside marked prev _)
        refine ⟨memory', run, Tiles.append_iff.mpr ⟨?_, prevDef ▸ tiles'⟩, ?_⟩
        · rw [prevDef]
          exact frontTiles.of_sameOutside sameFront (.inl (by omega))
        · exact (PayloadsKept.of_header prevPlaced sameFront).trans markedKept
    | false =>
        simp only [Bool.false_eq_true, and_false, if_false]
        obtain ⟨memory', run, tiles', same⟩ :=
          coalesceForward_spec markedTail short.2
        refine ⟨memory', run, Tiles.append_iff.mpr ⟨?_, bDef ▸ tiles'⟩, ?_⟩
        · rw [bDef]
          exact markedBefore.of_sameOutside same (.inl (by omega))
        · exact (PayloadsKept.of_header placed same).trans markedKept

end Systrix.Heap
