import Systrix.Jfs.Accounting

/-!
# Contents of JFS files

What `jfs_write` leaves in a file and `jfs_read` returns.  A byte is kept where
its direct block has a number other than 0: block 0 is the first block that is
handed out, and the slot that gets it still reads as a hole.
-/

namespace Systrix.Jfs

open Machine

/-- Positions with a block index of 32 bits. -/
def positionLimit : Nat := 2 ^ 41

theorem blockIdx_eq {p : Nat} (small : p < positionLimit) : blockIdx p = p / jfsBlockSize := by
  have limit : positionLimit = 2 ^ 32 * jfsBlockSize := rfl
  have size : 0 < jfsBlockSize := by decide
  rw [blockIdx, u64_of_lt (small.trans (by decide)), u32_of_lt]
  exact Nat.div_lt_of_lt_mul (by rw [Nat.mul_comm, ← limit]; exact small)

theorem blockOff_eq {p : Nat} (small : p < positionLimit) : blockOff p = p % jfsBlockSize := by
  rw [blockOff, u64_of_lt (small.trans (by decide))]

/-- The positions of a round are in one block. -/
theorem round_position {p n i : Nat} (inside : p % jfsBlockSize + n ≤ jfsBlockSize) (less : i < n) :
    (p + i) / jfsBlockSize = p / jfsBlockSize ∧ (p + i) % jfsBlockSize = p % jfsBlockSize + i := by
  have split := Nat.div_add_mod p jfsBlockSize
  have sum : p + i = jfsBlockSize * (p / jfsBlockSize) + (p % jfsBlockSize + i) := by omega
  have small : p % jfsBlockSize + i < jfsBlockSize := by omega
  rw [sum, Nat.mul_add_div (by decide), Nat.div_eq_of_lt small, Nat.mul_add_mod, Nat.mod_eq_of_lt small]
  exact ⟨rfl, rfl⟩

/-- A byte of a file by its position. -/
theorem fileByte_small {s : Volume} {ino p : Nat} (small : p < positionLimit) : fileByte s ino p =
    if p / jfsBlockSize < directBlocks then blockByte s ino (p / jfsBlockSize) (p % jfsBlockSize) else 0 := by
  rw [fileByte_eq, blockIdx_eq small, blockOff_eq small]

/-! ## One round -/

/-- A byte of a file has a block that keeps it. -/
def Volume.Keeps (s : Volume) (ino p : Nat) : Prop :=
  p / jfsBlockSize < directBlocks ∧ s.ptr ino (p / jfsBlockSize) ≠ 0

instance (s : Volume) (ino p : Nat) : Decidable (s.Keeps ino p) := inferInstanceAs (Decidable (_ ∧ _))

theorem fileByte_hole {s : Volume} {ino p : Nat} (small : p < positionLimit) (hole : ¬s.Keeps ino p) :
    fileByte s ino p = 0 := by
  rw [fileByte_small small, blockByte]
  rw [Volume.Keeps, not_and, not_not] at hole
  split_ifs with direct nonzero
  · exact absurd (hole direct) nonzero
  · rfl
  · rfl

/-- Between two states the bytes of `byte` went to the positions `lo` to `hi` of a file, as far
as there are blocks that keep them, and nowhere else. -/
structure Wrote (ino : Nat) (byte : Nat → UInt8) (lo hi : Nat) (s s' : Volume) : Prop where
  here : ∀ p < positionLimit, fileByte s' ino p =
    if (lo ≤ p ∧ p < hi) ∧ s'.Keeps ino p then byte p else fileByte s ino p
  elsewhere : ∀ other, other ≠ ino → s'.inodes other = s.inodes other ∧
    ∀ b i, blockByte s' other b i = blockByte s other b i
  slots : ∀ b, s'.ptr ino b = s.ptr ino b ∨ s.ptr ino b = 0 ∧ ∃ p, lo ≤ p ∧ p < hi ∧ p / jfsBlockSize = b
  type : (s'.inodes ino).type = (s.inodes ino).type
  /-- Once block 0 is handed out, all direct blocks keep what is written. -/
  zeroTaken : s.bitmap 0 = true → s'.bitmap 0 = true ∧ ∀ p, lo ≤ p → p < hi →
    p / jfsBlockSize < directBlocks → s'.Keeps ino p

namespace Wrote

variable {ino lo mid hi : Nat} {byte : Nat → UInt8} {s s' s'' : Volume}

/-- Nothing to write, or nothing that a direct block holds. -/
theorem nothing (beyond : ∀ p, lo ≤ p → p < hi → ¬p / jfsBlockSize < directBlocks) :
    Wrote ino byte lo hi s s where
  here p _ := (if_neg fun both => beyond p both.1.1 both.1.2 both.2.1).symm
  elsewhere _ _ := ⟨rfl, fun _ _ => rfl⟩
  slots _ := .inl rfl
  type := rfl
  zeroTaken taken := ⟨taken, fun p low high direct => absurd direct (beyond p low high)⟩

/-- The state behind may differ in what no file shows. -/
theorem congr (wrote : Wrote ino byte lo hi s s') (bytes : ∀ o b i, blockByte s'' o b i = blockByte s' o b i)
    (ptr : ∀ b, s''.ptr ino b = s'.ptr ino b) (others : ∀ other, other ≠ ino → s''.inodes other = s'.inodes other)
    (type : (s''.inodes ino).type = (s'.inodes ino).type) (bitmap : s''.bitmap = s'.bitmap) :
    Wrote ino byte lo hi s s'' := by
  have keeps : s''.Keeps ino = s'.Keeps ino := by
    funext p
    rw [Volume.Keeps, Volume.Keeps, ptr]
  refine ⟨fun p small => ?_, fun other ne => ⟨(others other ne).trans (wrote.elsewhere other ne).1, fun b i => ?_⟩,
    fun b => ?_, type.trans wrote.type, fun taken => ?_⟩
  · rw [fileByte_eq, bytes, ← fileByte_eq, wrote.here p small]
    exact if_congr (by rw [keeps]) rfl rfl
  · rw [bytes]
    exact (wrote.elsewhere other ne).2 b i
  · rw [ptr]
    exact wrote.slots b
  · rw [bitmap, keeps]
    exact wrote.zeroTaken taken

theorem of_same (wrote : Wrote ino byte lo hi s s') (same : SameData s'' s') (inv : Owned s') :
    Wrote ino byte lo hi s s'' :=
  wrote.congr (same.blockByte inv) (fun b => by rw [Volume.ptr, same.inodes]) (fun _ _ => by rw [same.inodes])
    (by rw [same.inodes]) same.bitmap

/-- Two writes make one where the second starts in a block of its own. -/
theorem append (first : Wrote ino byte lo mid s s') (second : Wrote ino byte mid hi s' s'')
    (low : lo ≤ mid) (high : mid ≤ hi)
    (aligned : ∀ p q, p < mid → mid ≤ q → q < hi → q / jfsBlockSize ≠ p / jfsBlockSize) :
    Wrote ino byte lo hi s s'' := by
  have settled : ∀ p, p < mid → (s''.Keeps ino p ↔ s'.Keeps ino p) := by
    intro p before
    rcases second.slots (p / jfsBlockSize) with same | ⟨-, q, after, inside, block⟩
    · rw [Volume.Keeps, Volume.Keeps, same]
    · exact absurd block (aligned p q before after inside)
  refine ⟨fun p small => ?_, fun other ne => ⟨?_, fun b i => ?_⟩, fun b => ?_, second.type.trans first.type,
    fun taken => ?_⟩
  · rw [second.here p small, first.here p small]
    rcases Nat.lt_or_ge p mid with before | after
    · rw [if_neg fun both => Nat.not_lt.mpr both.1.1 before]
      refine if_congr ?_ rfl rfl
      rw [settled p before]
      exact and_congr_left fun _ => and_congr_right fun _ => iff_of_true before (by omega)
    · rw [if_neg fun both : (lo ≤ p ∧ p < mid) ∧ _ => Nat.not_lt.mpr after both.1.2]
      refine if_congr ?_ rfl rfl
      exact and_congr_left fun _ => and_congr_left fun _ => iff_of_true after (by omega)
  · exact (second.elsewhere other ne).1.trans (first.elsewhere other ne).1
  · exact ((second.elsewhere other ne).2 b i).trans ((first.elsewhere other ne).2 b i)
  · rcases first.slots b with same | ⟨empty, p, from_, before, block⟩
    · rcases second.slots b with same' | ⟨empty, p, after, until_, block⟩
      · exact .inl (same'.trans same)
      · exact .inr ⟨same ▸ empty, p, low.trans after, until_, block⟩
    · exact .inr ⟨empty, p, from_, by omega, block⟩
  · obtain ⟨taken', blocks⟩ := first.zeroTaken taken
    obtain ⟨taken'', blocks'⟩ := second.zeroTaken taken'
    refine ⟨taken'', fun p from_ until_ direct => ?_⟩
    rcases Nat.lt_or_ge p mid with before | after
    · exact (settled p before).mpr (blocks p from_ before direct)
    · exact blocks' p after until_ direct

end Wrote

/-- What making sure of a direct block changes: its slot, when that has no block. -/
structure Ensured (ino b : Nat) (s s' : Volume) : Prop where
  bytes : ∀ o b' i, blockByte s' o b' i = blockByte s o b' i
  inodes : ∀ other, other ≠ ino → s'.inodes other = s.inodes other
  slots : ∀ b', s'.ptr ino b' = s.ptr ino b' ∨ s.ptr ino b' = 0 ∧ b' = b
  size : (s'.inodes ino).size = (s.inodes ino).size
  type : (s'.inodes ino).type = (s.inodes ino).type
  zeroTaken : s.bitmap 0 = true → s'.bitmap 0 = true ∧ s'.ptr ino b ≠ 0

theorem ensureBlock_spec {s s' : Volume} {ino b : Nat} (inv : Owned s)
    (ensured : ensureBlock s ino b = some s') : Ensured ino b s s' := by
  unfold ensureBlock at ensured
  split_ifs at ensured with empty
  · obtain ⟨blk, found, rfl⟩ : ∃ blk, firstFree s.bitmap = some blk ∧ s.claimAssign ino b blk = s' := by
      simpa [jfsAllocBlock, Volume.claimAssign] using ensured
    refine ⟨blockByte_claimAssign inv empty found, fun _ => inodes_assign_of_ne, fun b' => ?_, ?_, ?_, fun taken => ?_⟩
    · by_cases same : b' = b
      · exact .inr ⟨same ▸ empty, same⟩
      · exact .inl (ptr_assign_of_ne (.inr same))
    · rw [inodes_assign_self]
    · rw [inodes_assign_self]
    · have unused := firstFree_unused found
      have other : blk ≠ 0 := by
        rintro rfl
        rw [taken] at unused
        cases unused
      rw [ptr_assign_self]
      exact ⟨(Function.update_of_ne other.symm _ _).trans taken, other⟩
  · cases ensured
    exact ⟨fun _ _ _ => rfl, fun _ _ => rfl, fun _ => .inl rfl, rfl, rfl, fun taken => ⟨taken, empty⟩⟩

/-- One round stores its bytes in the block of its position. -/
theorem storeBytes_spec {s s' : Volume} {ino p : Nat} {byte : Nat → UInt8} {bytes : List UInt8}
    (inv : Accounted s) (small : p < positionLimit) (more : 0 < bytes.length)
    (inside : p % jfsBlockSize + bytes.length ≤ jfsBlockSize)
    (agree : ∀ i, i < bytes.length → bytes.getD i 0 = byte (p + i))
    (stored : storeBytes s ino (blockIdx p) (blockOff p) bytes = some s') :
    Wrote ino byte p (p + bytes.length) s s' ∧ (s'.inodes ino).size = (s.inodes ino).size := by
  have split := Nat.div_add_mod p jfsBlockSize
  have block : ∀ q, p ≤ q → q < p + bytes.length → q / jfsBlockSize = p / jfsBlockSize := by
    intro q low high
    obtain ⟨i, rfl⟩ := Nat.exists_eq_add_of_le low
    exact (round_position inside (by omega)).1
  rw [blockIdx_eq small, blockOff_eq small] at stored
  generalize p / jfsBlockSize = b at split stored block
  generalize p % jfsBlockSize = off at split inside stored
  unfold storeBytes at stored
  by_cases direct : b < directBlocks
  · rw [if_pos direct] at stored
    obtain ⟨s₁, ensured, rfl⟩ := Option.map_eq_some_iff.mp stored
    have spec := ensureBlock_spec inv.owned ensured
    have inv₁ := (inv.ensureBlock ensured).owned
    dsimp only
    refine ⟨⟨fun q few => ?_, fun other ne => ⟨spec.inodes other ne, fun b' i => ?_⟩, fun b' => ?_, spec.type,
      fun taken => ⟨(spec.zeroTaken taken).1, fun q low high isDirect => ⟨isDirect, ?_⟩⟩⟩, spec.size⟩
    · have split' := Nat.div_add_mod q jfsBlockSize
      have mod := Nat.mod_lt q (show jfsBlockSize > 0 by decide)
      rw [fileByte_small few, fileByte_small few, blockByte_write inv₁, spec.bytes]
      by_cases here : q / jfsBlockSize = b ∧ s₁.ptr ino b ≠ 0
      · obtain ⟨rfl, nonzero⟩ := here
        rw [if_pos direct, if_pos direct, if_pos ⟨rfl, rfl, nonzero⟩, patch]
        by_cases written : off ≤ q % jfsBlockSize ∧ q % jfsBlockSize < off + bytes.length
        · have position : q = p + (q % jfsBlockSize - off) := by omega
          rw [if_pos written, if_pos ⟨by omega, direct, nonzero⟩, agree _ (by omega), ← position]
        · rw [if_neg written, if_neg (fun both => written (by omega)), if_neg (by omega), ← spec.bytes, blockByte,
            if_pos nonzero]
          rfl
      · rw [if_neg (show ¬(ino = ino ∧ _) from fun same => here same.2)]
        refine (if_neg ?_).symm
        rintro ⟨⟨low, high⟩, -, nonzero⟩
        have same := block q low high
        exact here ⟨same, same ▸ nonzero⟩
    · rw [blockByte_write inv₁, if_neg fun here => ne here.1]
      exact spec.bytes other b' i
    · rcases spec.slots b' with same | ⟨empty, rfl⟩
      · exact .inl same
      · exact .inr ⟨empty, p, Nat.le_refl p, by omega, block p (Nat.le_refl p) (by omega)⟩
    · rw [block q low high]
      exact (spec.zeroTaken taken).2
  · rw [if_neg direct] at stored
    cases stored
    exact ⟨.nothing fun q low high => by rwa [block q low high], rfl⟩

/-! ## Loops -/

theorem roundSize_eq {p : Nat} (small : p < positionLimit) (left : Nat) :
    roundSize p left = min (jfsBlockSize - p % jfsBlockSize) left := by rw [roundSize, blockOff_eq small]

/-- After a round the next one starts in a block of its own, unless everything is done. -/
theorem round_ends {p left : Nat} (small : p < positionLimit) (q r : Nat) (before : q < p + roundSize p left)
    (after : p + roundSize p left ≤ r) (until_ : r < p + left) : r / jfsBlockSize ≠ q / jfsBlockSize := by
  have split := Nat.div_add_mod p jfsBlockSize
  have mod := Nat.mod_lt p (show jfsBlockSize > 0 by decide)
  rw [roundSize_eq small] at before after
  have whole : p + min (jfsBlockSize - p % jfsBlockSize) left = jfsBlockSize * (p / jfsBlockSize + 1) := by
    rw [Nat.mul_add, Nat.mul_one]
    omega
  rw [whole] at before after
  have less : q / jfsBlockSize < p / jfsBlockSize + 1 := Nat.div_lt_of_lt_mul before
  have more : p / jfsBlockSize + 1 ≤ r / jfsBlockSize :=
    (Nat.le_div_iff_mul_le (by decide)).mpr (by rwa [Nat.mul_comm])
  omega

/-- The byte of `data` at a position of a file. -/
def dataByte (data : List UInt8) (offset p : Nat) : UInt8 := data.getD (p - offset) 0

/-- What a run of the loop of `jfs_write` does. -/
structure Looped (ino offset : Nat) (data : List UInt8) (written : Nat) (s : Volume)
    (result : Volume × Nat × Bool) : Prop where
  wrote : Wrote ino (dataByte data offset) (offset + written) (offset + result.2.1) s result.1
  size : (result.1.inodes ino).size = (s.inodes ino).size
  more : written ≤ result.2.1
  inside : result.2.1 ≤ data.length
  full : result.2.2 = true ↔ result.2.1 < data.length
  noBlock : result.2.2 = true → firstFree result.1.bitmap = none

theorem storeBytes_none {s : Volume} {ino block_idx block_off : Nat} {bytes : List UInt8}
    (full : storeBytes s ino block_idx block_off bytes = none) : firstFree s.bitmap = none := by
  unfold storeBytes at full
  by_cases direct : block_idx < directBlocks
  · rw [if_pos direct, Option.map_eq_none_iff] at full
    unfold ensureBlock at full
    split_ifs at full
    rwa [Option.map_eq_none_iff, jfsAllocBlock, Option.map_eq_none_iff] at full
  · rw [if_neg direct] at full
    cases full

theorem jfsWriteLoop_spec {s : Volume} {ino offset written : Nat} {data : List UInt8} (inv : Accounted s)
    (fits : offset + data.length ≤ positionLimit) (started : written ≤ data.length) :
    Looped ino offset data written s (jfsWriteLoop ino offset data written s) := by
  have idle : ∀ (s : Volume) (written : Nat), Wrote ino (dataByte data offset) (offset + written) (offset + written) s s :=
    fun s written => .nothing fun p low high => by omega
  induction written, s using jfsWriteLoop.induct ino offset data with
  | case1 written s more position to_write bytes full =>
      rw [jfsWriteLoop, if_pos more]
      simp only [position, to_write, bytes] at full
      simp only [full]
      exact ⟨idle s written, rfl, Nat.le_refl _, started, iff_of_true rfl more, fun _ => storeBytes_none full⟩
  | case2 written s more position to_write bytes s' stored committed ih =>
      have step : jfsWriteLoop ino offset data written s = jfsWriteLoop ino offset data (written + to_write) committed := by
        rw [jfsWriteLoop, if_pos more]
        simp only [position, to_write, bytes] at stored
        simp only [stored]
        rfl
      have small : offset + written < positionLimit := by omega
      have size : to_write = min _ _ := roundSize_eq small (data.length - written)
      have left : to_write ≤ data.length - written := Nat.min_le_right _ _
      have length : bytes.length = to_write := by
        simp only [bytes, List.length_take, List.length_drop]
        omega
      have positive : 0 < to_write := roundSize_pos _ (by omega)
      have mod := Nat.mod_lt (offset + written) (show jfsBlockSize > 0 by decide)
      have agree : ∀ i, i < bytes.length → bytes.getD i 0 = dataByte data offset (offset + written + i) := by
        intro i less
        have position : offset + written + i - offset = written + i := by omega
        rw [dataByte, position]
        simp only [bytes, List.getD_eq_getElem?_getD, List.getElem?_take, List.getElem?_drop]
        rw [if_pos (by omega)]
      obtain ⟨round, size'⟩ := storeBytes_spec inv small (by omega) (by omega) agree stored
      have owned := (inv.storeBytes stored).owned
      have same : SameData committed s' := jfsJournalCommit_same owned.journalStart _ _ _ _ _
      have logged : Wrote ino _ _ _ s committed := round.of_same same owned
      have rest := ih ((inv.storeBytes stored).commit _ _ _ _ _) (by omega)
      have more' := rest.more
      have inside := rest.inside
      have wrote := rest.wrote
      rw [length] at logged
      rw [← Nat.add_assoc] at wrote
      rw [step]
      refine ⟨logged.append wrote (by omega) (by omega) fun q r before after until_ => ?_,
        rest.size.trans (same.inodes ▸ size'), by omega, inside, rest.full, rest.noBlock⟩
      exact round_ends small q r before after (by omega)
  | case3 written s done =>
      rw [jfsWriteLoop, if_neg done]
      exact ⟨idle s written, rfl, Nat.le_refl _, started, iff_of_false Bool.false_ne_true (by omega),
        fun full => absurd full Bool.false_ne_true⟩

/-- One round of `jfs_read` returns bytes of the file. -/
theorem readRound_eq {s : Volume} {ino p n : Nat} (inside : p % jfsBlockSize + n ≤ jfsBlockSize)
    (small : p + n ≤ positionLimit) :
    readRound s ino p n = (List.range n).map fun i => fileByte s ino (p + i) := by
  have same : ∀ i < n, blockIdx (p + i) = blockIdx p ∧ blockOff (p + i) = blockOff p + i := by
    intro i less
    rw [blockIdx_eq (by omega), blockIdx_eq (by omega), blockOff_eq (by omega), blockOff_eq (by omega)]
    exact round_position inside less
  unfold readRound fileByte
  dsimp only
  split_ifs with block
  · refine List.map_congr_left fun i member => ?_
    obtain ⟨idx, off⟩ := same i (List.mem_range.mp member)
    rw [idx, off, if_pos block]
  · refine (List.eq_replicate_iff.mpr ⟨by simp, fun byte member => ?_⟩).symm
    obtain ⟨i, less, rfl⟩ := List.mem_map.mp member
    rw [(same i (List.mem_range.mp less)).1, if_neg block]

theorem jfsReadLoop_eq (s : Volume) {ino offset count : Nat} (total : Nat) (fits : offset + count ≤ positionLimit) :
    jfsReadLoop s ino offset count total =
      (List.range (count - total)).map fun i => fileByte s ino (offset + total + i) := by
  induction total using jfsReadLoop.induct offset count with
  | case1 total more to_read ih =>
      have size : to_read = min _ _ := roundSize_eq (by omega : offset + total < positionLimit) (count - total)
      have mod := Nat.mod_lt (offset + total) (show jfsBlockSize > 0 by decide)
      have rest : count - total = to_read + (count - (total + to_read)) := by omega
      have step : jfsReadLoop s ino offset count total =
          readRound s ino (offset + total) to_read ++ jfsReadLoop s ino offset count (total + to_read) := by
        rw [jfsReadLoop, if_pos more]
      rw [step, ih, rest, List.range_add, List.map_append, List.map_map, readRound_eq (by omega) (by omega)]
      refine congrArg _ (List.map_congr_left fun i _ => ?_)
      rw [Function.comp_apply]
      congr 1
      omega
  | case2 total done =>
      rw [jfsReadLoop, if_neg done, Nat.sub_eq_zero_of_le (by omega)]
      rfl

/-- `jfs_read` returns the bytes up to the end of the file. -/
theorem jfsRead_eq {s : Volume} {ino count offset : Nat} (inside : ino < jfsMaxInodes)
    (isFile : (s.inodes ino).type = .file) (fits : offset + count ≤ positionLimit) :
    jfsRead s ino count offset = (((min count ((s.inodes ino).size - offset) : Nat) : Int),
      (List.range (min count ((s.inodes ino).size - offset))).map fun i => fileByte s ino (offset + i)) := by
  have limit : positionLimit < 2 ^ 64 := by decide
  rw [jfsRead, if_neg (by simp [isFile, Nat.not_le.mpr inside])]
  dsimp only
  generalize (s.inodes ino).size = size
  by_cases beyond : size ≤ offset
  · rw [if_pos beyond, Nat.sub_eq_zero_of_le beyond, Nat.min_zero]
    rfl
  · have rest : (if size < u64 (offset + count) then size - offset else count) = min count (size - offset) := by
      rw [u64_of_lt (by omega)]
      split_ifs <;> omega
    rw [if_neg beyond, rest, jfsReadLoop_eq s 0 (by omega)]
    rfl

/-! ## Reading what was written -/

/-- A write that took `k` bytes of `data`, and what is read there. -/
structure Stores (ino offset : Nat) (data : List UInt8) (k : Nat) (s s' : Volume) : Prop where
  wrote : Wrote ino (dataByte data offset) offset (offset + k) s s'
  size : (s'.inodes ino).size = if k = data.length then max (s.inodes ino).size (offset + k) else (s.inodes ino).size
  short : k < data.length → firstFree s'.bitmap = none
  read : jfsRead s' ino k offset = (((min k ((s'.inodes ino).size - offset) : Nat) : Int),
    (List.range (min k ((s'.inodes ino).size - offset))).map fun i =>
      if s'.Keeps ino (offset + i) then data.getD i 0 else 0)

/-- `jfs_write` reports the bytes it took, all of them unless the disk is full. -/
def Takes (ino offset : Nat) (data : List UInt8) (s : Volume) : Prop :=
  ∃ k ≤ data.length, (jfsWrite s ino data offset).1 = (if k = 0 ∧ data ≠ [] then enospc else (k : Int)) ∧
    Stores ino offset data k s (jfsWrite s ino data offset).2

/-- What was written is read. -/
theorem Wrote.read {ino offset k : Nat} {data : List UInt8} {s s' : Volume}
    (wrote : Wrote ino (dataByte data offset) offset (offset + k) s s') (inside : ino < jfsMaxInodes)
    (isFile : (s.inodes ino).type = .file) (fits : offset + k ≤ positionLimit) :
    jfsRead s' ino k offset = (((min k ((s'.inodes ino).size - offset) : Nat) : Int),
      (List.range (min k ((s'.inodes ino).size - offset))).map fun i =>
        if s'.Keeps ino (offset + i) then data.getD i 0 else 0) := by
  rw [jfsRead_eq inside (wrote.type.trans isFile) fits]
  refine Prod.ext rfl (List.map_congr_left fun i member => ?_)
  have less := List.mem_range.mp member
  have position : offset + i - offset = i := by omega
  by_cases kept : s'.Keeps ino (offset + i)
  · rw [wrote.here _ (by omega), if_pos ⟨by omega, kept⟩, if_pos kept, dataByte, position]
  · rw [fileByte_hole (by omega) kept, if_neg kept]

/-- Assignment to the size of an inode. -/
def Volume.setSize (s : Volume) (ino size : Nat) : Volume := s.setInode ino { s.inodes ino with size := size }

theorem setSize_self (s : Volume) (ino size : Nat) :
    (s.setSize ino size).inodes ino = { s.inodes ino with size := size } := setInode_inodes_self _ _ _

theorem setSize_ptr (s : Volume) (ino size o b : Nat) : (s.setSize ino size).ptr o b = s.ptr o b := by
  by_cases same : o = ino
  · subst same
    rw [Volume.ptr, setSize_self]
  · rw [Volume.ptr, Volume.setSize, setInode_inodes_of_ne _ _ same]

theorem blockByte_setSize (s : Volume) (ino size o b i : Nat) :
    blockByte (s.setSize ino size) o b i = blockByte s o b i := by
  rw [blockByte, setSize_ptr]
  rfl

theorem Owned.setSize {s : Volume} (inv : Owned s) (ino size : Nat) : Owned (s.setSize ino size) :=
  inv.setInode fun _ _ => rfl

/-- The size only grows. -/
theorem setSize_eq (s : Volume) (ino size : Nat) :
    (if (s.inodes ino).size < size then s.setInode ino { s.inodes ino with size := size } else s) =
      s.setSize ino (max (s.inodes ino).size size) := by
  split_ifs with more
  · rw [Nat.max_eq_right (Nat.le_of_lt more)]
    rfl
  · rw [Nat.max_eq_left (Nat.le_of_not_lt more), Volume.setSize, Volume.setInode, Function.update_eq_self]

theorem jfsWrite_takes {s : Volume} {ino offset : Nat} {data : List UInt8} (inv : Accounted s)
    (inside : ino < jfsMaxInodes) (isFile : (s.inodes ino).type = .file)
    (fits : offset + data.length ≤ positionLimit) : Takes ino offset data s := by
  have looped : Looped ino offset data 0 s _ := jfsWriteLoop_spec inv fits (Nat.zero_le _)
  have inv' := inv.writeLoop ino offset data 0
  unfold Takes jfsWrite
  rw [if_neg (by simp [isFile, Nat.not_le.mpr inside])]
  generalize jfsWriteLoop ino offset data 0 s = result at looped inv' ⊢
  obtain ⟨s', k, full⟩ := result
  obtain ⟨wrote, size, -, some, ends, noBlock⟩ := looped
  dsimp only at wrote size some ends noBlock inv'
  rw [Nat.add_zero] at wrote
  refine ⟨k, some, ?_⟩
  cases full with
  | true =>
      have short : k < data.length := ends.mp rfl
      have nonempty : data ≠ [] := List.ne_nil_of_length_pos (by omega)
      refine ⟨?_, wrote, ?_, fun _ => noBlock rfl, wrote.read inside isFile (by omega)⟩
      · by_cases none : k = 0 <;> simp [none, nonempty]
      · rw [if_neg (by omega)]
        exact size
  | false =>
      have whole : k = data.length := Nat.le_antisymm some (Nat.le_of_not_lt fun short => by cases ends.mpr short)
      have limit : positionLimit < 2 ^ 64 := by decide
      dsimp only
      rw [u64_of_lt (by omega), setSize_eq]
      have owned := inv'.owned.setSize ino (max (s'.inodes ino).size (offset + k))
      have same := jfsJournalFlush_same owned.journalStart
      have sized : Wrote ino _ _ _ s (s'.setSize ino (max (s'.inodes ino).size (offset + k))) :=
        wrote.congr (blockByte_setSize s' ino _) (setSize_ptr s' ino _ ino) (fun _ => setInode_inodes_of_ne _ _)
          (by rw [setSize_self]) rfl
      have flushed := sized.of_same same owned
      refine ⟨?_, flushed, ?_, fun short => absurd whole (by omega), flushed.read inside isFile (by omega)⟩
      · rw [if_neg]
        rintro ⟨rfl, nonempty⟩
        exact nonempty (List.length_eq_zero_iff.mp whole.symm)
      · rw [same.inodes, setSize_self, if_pos whole]
        exact congrArg (max · (offset + k)) size

/-- In every state that JFS reaches from a fresh format, a write stores what it reports, every other
byte stays, and a read gets back what the blocks keep. -/
theorem read_after_write {disk : Disk} (unformatted : (decodeSuper (ataReadSector disk jfsSuperLba)).magic ≠ jfsMagic)
    (ops : List JfsOp) {ino offset : Nat} {data : List UInt8} (inside : ino < jfsMaxInodes)
    (isFile : ((Run.final JfsOp.run (jfsInit disk) ops).inodes ino).type = .file)
    (fits : offset + data.length ≤ positionLimit) : Takes ino offset data (Run.final JfsOp.run (jfsInit disk) ops) :=
  jfsWrite_takes ((Accounted.init unformatted).run ops) inside isFile fits

theorem read_after_write_blank : Takes 1 511 [7, 8] (Run.final JfsOp.run (jfsInit fun _ _ => 0) [.create 0o644]) :=
  read_after_write (by decide) [.create 0o644] (by decide) (by decide) (by decide)

end Systrix.Jfs
