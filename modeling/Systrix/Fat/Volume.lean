import Mathlib.Data.Finset.Card
import Systrix.Kernel.Layout
import Systrix.Lib.TextBuffer

/-!
# The FAT32 volume

The table of clusters and the directories of the FAT32 driver of `kernel/kernel.c`, as far as they are read.  The
buffers of the driver, one of which caches a sector of the table, hold what the disk holds, and are left out.
-/

namespace Systrix.Fat

open ByteMemory Machine TextBuffer

/-- A number from here on ends a chain. -/
def endOfChain : Nat := 0x0FFFFFF8

/-- The disk, and where `fat32_init` has found the parts of the volume. -/
structure Volume where
  disk : Disk
  fat32_spc : Nat
  fat32_fat_start : Nat
  fat32_data_start : Nat

variable (vol : Volume)

/-! ## Clusters -/

def clusterToLba (cluster : Nat) : Nat := u32 (vol.fat32_data_start + sub32 cluster 2 * vol.fat32_spc)

def fat32NextCluster (cluster : Nat) : Nat :=
  let byte_off := u32 (cluster * 4)
  let sector := u32 (byte_off / 512 + vol.fat32_fat_start)
  load (ataReadSector vol.disk sector) (byte_off % 512) 4 &&& 0x0FFFFFFF

/-- The clusters of a chain, from the first one on. -/
inductive Chain : Nat → List Nat → Prop
  | done {clus : Nat} (isEnd : endOfChain ≤ clus) : Chain clus []
  | link {clus : Nat} {clusters : List Nat} (inside : clus < endOfChain)
      (rest : Chain (fat32NextCluster vol clus) clusters) : Chain clus (clus :: clusters)

/-! ## Directories -/

/-- The 32 bytes of a directory entry. -/
abbrev Entry := List UInt8

/-- A byte of an entry. -/
def Entry.byte (de : Entry) (i : Nat) : UInt8 := de.getD i 0

/-- The end of the directory. -/
def Entry.IsEnd (de : Entry) : Prop := de.byte 0 = 0x00

/-- A deleted entry. -/
def Entry.IsDeleted (de : Entry) : Prop := de.byte 0 = 0xE5

/-- A volume label. -/
def Entry.IsLabel (de : Entry) : Prop := de.byte 11 &&& 0x08 ≠ 0

/-- A subdirectory. -/
def Entry.IsDir (de : Entry) : Prop := de.byte 11 &&& 0x10 ≠ 0

instance (de : Entry) : Decidable de.IsEnd := inferInstanceAs (Decidable (_ = _))

instance (de : Entry) : Decidable de.IsDeleted := inferInstanceAs (Decidable (_ = _))

instance (de : Entry) : Decidable de.IsLabel := inferInstanceAs (Decidable (_ ≠ _))

instance (de : Entry) : Decidable de.IsDir := inferInstanceAs (Decidable (_ ≠ _))

/-- The first cluster of the file. -/
def Entry.cluster (de : Entry) : Nat :=
  (de.byte 20).toNat <<< 16 ||| (de.byte 21).toNat <<< 24 ||| (de.byte 26).toNat ||| (de.byte 27).toNat <<< 8

/-- The size of the file. -/
def Entry.size (de : Entry) : Nat := load de.byte 28 4

/-- The entries of a cluster, in the order of the two inner loops of every scan. -/
def clusterEntries (clus : Nat) : List Entry :=
  (List.range vol.fat32_spc).flatMap fun s =>
    (List.range 16).map fun e => slice (ataReadSector vol.disk (u32 (clusterToLba vol clus + s))) (e * 32) 32

/-- An entry in the search of `fat32_find_raw_in`, which ends with a result or with none. -/
def findEntry (name83 : List UInt8) (de : Entry) : Option (Option (Nat × Nat)) :=
  if de.IsEnd then some none
  else if de.IsDeleted then none
  else if de.IsLabel then none
  else if strncmpEq de.byte (fun i => name83.getD i 0) 0 11 then some (some (de.cluster, de.size))
  else none

/-- `fat32_find_raw_in`: the first cluster and the size of the file; the fuel bounds the clusters of the directory. -/
def fat32FindRawIn (name83 : List UInt8) : (fuel dir_clus : Nat) → Option (Option (Nat × Nat))
  | 0, _ => none
  | fuel + 1, clus =>
      if clus < endOfChain then
        match (clusterEntries vol clus).findSome? (findEntry name83) with
        | some result => some result
        | none => fat32FindRawIn name83 fuel (fat32NextCluster vol clus)
      else some none

/-! ## Chains that end -/

variable {vol} {clus : Nat} {clusters clusters' : List Nat}

/-- A cluster has one chain. -/
theorem Chain.unique (chain : Chain vol clus clusters) (chain' : Chain vol clus clusters') : clusters = clusters' := by
  induction chain generalizing clusters' with
  | done isEnd =>
      cases chain' with
      | done _ => rfl
      | link inside _ => exact absurd inside (Nat.not_lt.mpr isEnd)
  | link inside _ ih =>
      cases chain' with
      | done isEnd => exact absurd inside (Nat.not_lt.mpr isEnd)
      | link _ rest => rw [ih rest]

/-- The chain goes on from each of its clusters. -/
theorem Chain.suffix (chain : Chain vol clus clusters) {other : Nat} (member : other ∈ clusters) :
    ∃ rest, Chain vol other rest ∧ rest.length ≤ clusters.length := by
  induction chain with
  | done _ => cases member
  | link inside rest ih =>
      rcases List.mem_cons.mp member with rfl | later
      · exact ⟨_, .link inside rest, Nat.le_refl _⟩
      · obtain ⟨more, chain, shorter⟩ := ih later
        exact ⟨more, chain, Nat.le_succ_of_le shorter⟩

theorem Chain.nodup (chain : Chain vol clus clusters) : clusters.Nodup := by
  induction chain with
  | done _ => exact List.nodup_nil
  | @link clus clusters inside rest ih =>
      refine List.nodup_cons.mpr ⟨fun again => ?_, ih⟩
      obtain ⟨more, chain, shorter⟩ := rest.suffix again
      -- the chain of a cluster would be longer than itself
      rw [chain.unique (.link inside rest)] at shorter
      exact absurd shorter (Nat.not_succ_le_self _)

theorem Chain.inside (chain : Chain vol clus clusters) : ∀ other ∈ clusters, other < endOfChain := by
  induction chain with
  | done _ => intro other none; cases none
  | link inside _ ih => exact List.forall_mem_cons.mpr ⟨inside, ih⟩

/-- A chain that ends has no more clusters than there are numbers for them. -/
theorem Chain.length_le (chain : Chain vol clus clusters) : clusters.length ≤ endOfChain := by
  rw [← List.toFinset_card_of_nodup chain.nodup]
  refine Nat.le_trans (Finset.card_le_card (t := Finset.range endOfChain) fun other member => ?_) ?_
  · exact Finset.mem_range.mpr (chain.inside other (List.mem_toFinset.mp member))
  · exact Nat.le_of_eq (Finset.card_range endOfChain)

end Systrix.Fat
