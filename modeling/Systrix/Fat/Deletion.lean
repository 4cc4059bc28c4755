import Mathlib.Order.Interval.Finset.Nat
import Systrix.Fat.Driver
import Systrix.Lib.ErasingWalk

/-!
# Renaming and deleting files

`fat32_rename_in` and `fat32_delete_file_in` of `kernel/kernel.c`.  A deleted file has its clusters freed in a loop that
follows the links which it erases.
-/

namespace Systrix.Fat

open ByteMemory ErasingWalk Machine TextBuffer

/-- `fc >= 2 && fc < 0x0FFFFFF8` -/
def Live (fc : Nat) : Prop := 2 ≤ fc ∧ fc < endOfChain

instance (fc : Nat) : Decidable (Live fc) := inferInstanceAs (Decidable (_ ∧ _))

/-- The bytes of the name. -/
def nameField (k : Nat) : Prop := k < 11

/-- The byte that marks an entry. -/
def markField (k : Nat) : Prop := k = 0

namespace Driver

variable (d : Driver)

def fat32RenameIn (old83 new83 : List UInt8) (dir_clus : Nat) : Option (Int × Driver) :=
  match d.findSlot new83 dir_clus with
  | none => none
  | some (some _, d) => some (-1, d)
  | some (none, d) =>
      match d.findSlot old83 dir_clus with
      | none => none
      | some (none, d) => some (-1, d)
      | some (some f, d) =>
          let dir_buf := ataReadSector d.vol.disk f.lba
          some (0, d.writeSector f.lba (patch dir_buf (f.e * 32) (slice (fun i => new83.getD i 0) 0 11)))

/-- One round of the loop that frees the clusters, as far as the entry of the table: it is set to 0. -/
def freeCluster (fc : Nat) : Driver :=
  let d := (d.fat32NextCluster fc).2
  let d := d.fatReadCached (fatSector d.vol fc)
  { d with fat_buf := store d.fat_buf (fatIndex fc) 4 0 }.fatWriteCached (fatSector d.vol fc)

/-- The loop that frees the clusters; the fuel bounds them. -/
def freeChain : (fuel fc : Nat) → Driver → Option Driver
  | 0, _, _ => none
  | fuel + 1, fc, d =>
      if 2 ≤ fc ∧ fc < endOfChain then freeChain fuel (d.fat32NextCluster fc).1 (d.freeCluster fc) else some d

def fat32DeleteFileIn (name83 : List UInt8) (dir_clus : Nat) : Option (Int × Driver) :=
  match d.findSlot name83 dir_clus with
  | none => none
  | some (none, d) => some (-1, d)
  | some (some f, d) =>
      let dir_buf := ataReadSector d.vol.disk f.lba
      let start_clus := (f.entry d.vol.disk).cluster
      (freeChain dirFuel start_clus (d.writeSector f.lba (Function.update dir_buf (f.e * 32) 0xE5))).map
        fun d => (0, d)

end Driver

/-! ## The table -/

/-- The word of the table for a cluster, with the four bits that are not part of the link. -/
def fatWord (vol : Volume) (disk : Disk) (clus : Nat) : Nat :=
  load (ataReadSector disk (fatSector vol clus)) (fatIndex clus) 4

/-- The link of a cluster to another one. -/
def fatLink (vol : Volume) (disk : Disk) (clus : Nat) : Option Nat :=
  let next := fatWord vol disk clus &&& 0x0FFFFFFF
  if Live clus ∧ Live next then some next else none

/-- A disk with the word of a cluster set to 0. -/
def wipeWord (vol : Volume) (disk : Disk) (clus : Nat) : Disk :=
  ataWriteSector disk (fatSector vol clus) (store (ataReadSector disk (fatSector vol clus)) (fatIndex clus) 4 0)

/-- The clusters that are reached from the first one of a file. -/
def Reached (vol : Volume) (disk : Disk) (start_clus clus : Nat) : Prop :=
  Live start_clus ∧ Reach (fatLink vol) disk start_clus clus

/-- A byte of the word of a cluster. -/
def WordByte (vol : Volume) (clus lba i : Nat) : Prop :=
  lba = vol.fat32_fat_start + clus / 128 ∧ clus % 128 * 4 ≤ i ∧ i < clus % 128 * 4 + 4

instance (vol : Volume) (clus lba i : Nat) : Decidable (WordByte vol clus lba i) :=
  inferInstanceAs (Decidable (_ ∧ _))

section Table

variable {vol : Volume} {disk disk' : Disk} {a b : Nat}

theorem store_zero (memory : Memory) (address width : Nat) :
    store memory address width 0 = fill memory address width 0 := by
  funext i
  induction width generalizing memory address with
  | zero => exact (if_neg (by omega)).symm
  | succ width ih =>
      rw [store, Nat.zero_div, ih]
      simp only [fill]
      by_cases first : i = address
      · subst first
        rw [if_neg (by omega), if_pos (by omega), Function.update_self]
        rfl
      · rw [Function.update_of_ne first]
        exact if_congr (by omega) rfl rfl

/-- Setting the word of a cluster to 0 clears its four bytes. -/
theorem wipeWord_apply (early : vol.fat32_fat_start ≤ partStart + 0xFFFF) (live : Live a) (lba i : Nat) :
    wipeWord vol disk a lba i = if WordByte vol a lba i then 0 else disk lba i := by
  obtain ⟨sector, -, index⟩ := fatSector_eq early live.2
  rw [wipeWord, sector, index, store_zero]
  by_cases here : lba = vol.fat32_fat_start + a / 128
  · subst here
    rw [ataWriteSector_self, fill]
    exact if_congr (by simp [WordByte]) rfl rfl
  · rw [ataWriteSector_of_ne _ _ here, if_neg fun byte => here byte.1]

theorem foldl_wipeWord_apply (early : vol.fat32_fat_start ≤ partStart + 0xFFFF) {visited : List Nat}
    (live : ∀ clus ∈ visited, Live clus) (lba i : Nat) :
    visited.foldl (wipeWord vol) disk lba i = if ∃ clus ∈ visited, WordByte vol clus lba i then 0 else disk lba i := by
  induction visited generalizing disk with
  | nil => exact (if_neg (by simp)).symm
  | cons a visited ih =>
      rw [List.forall_mem_cons] at live
      rw [List.foldl_cons, ih live.2, wipeWord_apply early live.1]
      simp only [List.exists_mem_cons_iff]
      by_cases later : ∃ clus ∈ visited, WordByte vol clus lba i
      · rw [if_pos later, if_pos (Or.inr later)]
      · rw [if_neg later]
        exact if_congr (or_iff_left later).symm rfl rfl

/-- A word depends on its own bytes. -/
theorem fatWord_congr (early : vol.fat32_fat_start ≤ partStart + 0xFFFF) (inside : a < endOfChain)
    (same : ∀ lba i, WordByte vol a lba i → disk' lba i = disk lba i) : fatWord vol disk' a = fatWord vol disk a := by
  obtain ⟨sector, -, index⟩ := fatSector_eq early inside
  rw [fatWord, fatWord, sector, index]
  exact load_congr fun i low high => same _ i ⟨rfl, low, high⟩

/-- A word is 0 if all its bytes are. -/
theorem fatWord_zero (early : vol.fat32_fat_start ≤ partStart + 0xFFFF) (inside : a < endOfChain) :
    fatWord vol disk a = 0 ↔ ∀ lba i, WordByte vol a lba i → disk lba i = 0 := by
  obtain ⟨sector, -, index⟩ := fatSector_eq early inside
  constructor
  · rintro zero _ i ⟨rfl, low, high⟩
    rw [fatWord, sector, index] at zero
    simp only [load, ataReadSector] at zero
    have byte : (disk (vol.fat32_fat_start + a / 128) i).toNat = 0 := by
      obtain rfl | rfl | rfl | rfl : i = a % 128 * 4 ∨ i = a % 128 * 4 + 1 ∨ i = a % 128 * 4 + 1 + 1 ∨
        i = a % 128 * 4 + 1 + 1 + 1 := by omega
      all_goals omega
    exact UInt8.toNat_inj.mp byte
  · intro zero
    have bytes (k : Nat) (small : k < 4) : disk (vol.fat32_fat_start + a / 128) (a % 128 * 4 + k) = 0 :=
      zero _ _ ⟨rfl, by omega, by omega⟩
    rw [fatWord, sector, index]
    have first : disk (vol.fat32_fat_start + a / 128) (a % 128 * 4) = 0 := bytes 0 (by decide)
    simp [load, ataReadSector, Nat.add_assoc, first, bytes 1, bytes 2, bytes 3]

/-- Two clusters have no byte in common. -/
theorem WordByte.unique {lba i : Nat} (first : WordByte vol a lba i) (second : WordByte vol b lba i) : a = b := by
  obtain ⟨rfl, low, high⟩ := first
  obtain ⟨sector, low', high'⟩ := second
  omega

/-- Freeing is a walk that erases its way. -/
theorem wipeWord_wipes (early : vol.fat32_fat_start ≤ partStart + 0xFFFF) :
    Wipes (fatLink vol) (wipeWord vol) Live where
  target disk a b link := by
    simp only [fatLink] at link
    split_ifs at link with both
    exact Option.some.inj link ▸ both.2
  wiped disk a live := by
    have zero : fatWord vol (wipeWord vol disk a) a = 0 := by
      refine (fatWord_zero early live.2).mpr fun lba i byte => ?_
      rw [wipeWord_apply early live, if_pos byte]
    simp only [fatLink, zero]
    exact if_neg fun both => absurd both.2.1 (by decide)
  kept disk a b live ne := by
    by_cases other : Live b
    · have same : fatWord vol (wipeWord vol disk a) b = fatWord vol disk b := by
        refine fatWord_congr early other.2 fun lba i byte => ?_
        rw [wipeWord_apply early live, if_neg fun wiped => ne (byte.unique wiped)]
      simp only [fatLink, same]
    · simp [fatLink, other]

end Table

/-! ## The loop -/

section Loop

variable {d : Driver}

/-- A round of the loop wipes a word on the disk, through the buffer. -/
theorem Driver.Mounted.freeCluster (mounted : d.Mounted) {fc : Nat} (live : Live fc) :
    (d.freeCluster fc).vol = { d.vol with disk := wipeWord d.vol d.vol.disk fc } ∧ (d.freeCluster fc).Mounted := by
  obtain ⟨-, real, -⟩ := fatSector_eq mounted.early live.2
  obtain ⟨-, vol, -, -, mounted'⟩ := mounted.next live.2
  obtain ⟨vol', buf, lba, -⟩ := mounted'.read real
  have state : (d.freeCluster fc).vol = { d.vol with disk := wipeWord d.vol d.vol.disk fc } := by
    simp only [Driver.freeCluster, Driver.fatWriteCached, Driver.writeSector, vol, vol', buf]
    rfl
  refine ⟨state, ?_, Or.inr ?_⟩
  · rw [state]
    exact mounted.early
  · simp only [Driver.freeCluster, Driver.fatWriteCached, Driver.writeSector, ataWriteSector_self]

/-- The loop is the walk over the table. -/
theorem Driver.Mounted.freeChain (mounted : d.Mounted) {fuel fc : Nat} {disk' : Disk}
    (walked : walk (fatLink d.vol) (wipeWord d.vol) fuel d.vol.disk (if Live fc then some fc else none) = some disk') :
    ∃ d', d.freeChain (fuel + 1) fc = some d' ∧ d'.vol = { d.vol with disk := disk' } ∧ d'.Mounted := by
  induction fuel generalizing d fc with
  | zero =>
      by_cases live : Live fc
      · rw [if_pos live] at walked
        cases walked
      · rw [if_neg live, walk.eq_1] at walked
        cases walked
        exact ⟨d, if_neg live, rfl, mounted⟩
  | succ fuel ih =>
      rw [Driver.freeChain]
      by_cases live : Live fc
      · obtain ⟨state, mounted'⟩ := mounted.freeCluster live
        have next : (d.fat32NextCluster fc).1 = fatWord d.vol d.vol.disk fc &&& 0x0FFFFFFF :=
          (mounted.next live.2).1
        have link : fatLink d.vol d.vol.disk fc =
            if Live (d.fat32NextCluster fc).1 then some (d.fat32NextCluster fc).1 else none := by
          rw [next]
          exact if_congr (and_iff_right live) rfl rfl
        rw [if_pos live, walk, link] at walked
        have rest := @ih (d.freeCluster fc) mounted' (d.fat32NextCluster fc).1
        rw [state] at rest
        rw [if_pos (show 2 ≤ fc ∧ fc < endOfChain from live)]
        exact rest walked
      · rw [if_neg live, walk.eq_1] at walked
        cases walked
        exact ⟨d, if_neg live, rfl, mounted⟩

/-- The loop ends, whatever the table holds: exactly the words of the clusters that were reached are wiped, and the
buffer holds what the disk holds. -/
theorem Driver.Mounted.freeChain_ends (mounted : d.Mounted) (start_clus : Nat) :
    ∃ d', d.freeChain dirFuel start_clus = some d' ∧ d'.Mounted ∧
      (∀ clus lba i, Reached d.vol d.vol.disk start_clus clus → WordByte d.vol clus lba i → d'.vol.disk lba i = 0) ∧
      ∀ lba i, (∀ clus, Reached d.vol d.vol.disk start_clus clus → ¬ WordByte d.vol clus lba i) →
        d'.vol.disk lba i = d.vol.disk lba i := by
  have wipes := wipeWord_wipes mounted.early
  by_cases live : Live start_clus
  · have enough : ((Finset.Ico 2 endOfChain).filter fun a => (fatLink d.vol d.vol.disk a).isSome).card <
        endOfChain := by
      refine Nat.lt_of_le_of_lt (Finset.card_filter_le _ _) ?_
      rw [Nat.card_Ico]
      decide
    obtain ⟨disk', walked⟩ := walk_ends wipes (fun a live => Finset.mem_Ico.mpr live) live enough
    obtain ⟨visited, reached, effect⟩ := walk_wipes wipes live walked
    obtain ⟨d', freed, state, mounted'⟩ :=
      @Driver.Mounted.freeChain d mounted _ start_clus _ ((congrArg _ (if_pos live)).trans walked)
    have alive : ∀ clus ∈ visited, Live clus := by
      intro clus member
      have reach := (reached clus).mp member
      rcases Relation.ReflTransGen.cases_tail reach with rfl | ⟨before, -, link⟩
      · exact live
      · exact wipes.target _ _ _ link
    have disk : d'.vol.disk = visited.foldl (wipeWord d.vol) d.vol.disk := (congrArg Volume.disk state).trans effect
    refine ⟨d', freed, mounted', fun clus lba i reach byte => ?_, fun lba i apart => ?_⟩
    · rw [disk, foldl_wipeWord_apply mounted.early alive]
      exact if_pos ⟨clus, (reached clus).mpr reach.2, byte⟩
    · rw [disk, foldl_wipeWord_apply mounted.early alive]
      exact if_neg fun ⟨clus, member, byte⟩ => apart clus ⟨live, (reached clus).mp member⟩ byte
  · refine ⟨d, ?_, mounted, fun clus lba i reach => absurd reach.1 live, fun lba i _ => rfl⟩
    exact if_neg live

end Loop

/-! ## Directories -/

/-- A directory whose chain of clusters ends, on a volume whose table has `fat_size` sectors: the table has entries for
its clusters, and their sectors are data. -/
structure Directory (vol : Volume) (fat_size dir_clus : Nat) (clusters : List Nat) : Prop where
  below : vol.fat32_fat_start + fat_size ≤ vol.fat32_data_start
  chain : Chain vol dir_clus clusters
  real : ∀ clus ∈ clusters, 2 ≤ clus ∧ clus / 128 < fat_size ∧
    vol.fat32_data_start + (clus - 1) * vol.fat32_spc ≤ 2 ^ 32

/-- The driver, with a sector of the table in its buffer. -/
structure Driver.Settled (d : Driver) : Prop extends d.Mounted where
  table : d.fat_buf_lba = noSector ∨ d.fat_buf_lba < d.vol.fat32_data_start

namespace Driver

variable (d : Driver) (fat_size : Nat) (name83 old83 new83 : List UInt8) (dir_clus : Nat)

/-- `fat32_find_raw_in` returns 0. -/
def Finds : Prop := ∃ f d', d.findSlot name83 dir_clus = some (some f, d')

/-- `fat32_rename_in` gives 0 exactly if it finds the old name and not the new one, and then has changed the name of the
entry it found; else nothing. -/
def Renames : Prop :=
  ∃ rc d', d.fat32RenameIn old83 new83 dir_clus = some (rc, d') ∧
    (rc = 0 ↔ d.Finds old83 dir_clus ∧ ¬ d.Finds new83 dir_clus) ∧
    (rc ≠ 0 → rc = -1 ∧ d'.vol.disk = d.vol.disk) ∧
    (rc = 0 → ∀ f d₁, d.findSlot old83 dir_clus = some (some f, d₁) →
      SameBut d.vol.disk d'.vol.disk f nameField ∧ ∀ k < 11, (f.entry d'.vol.disk).byte k = new83.getD k 0)

/-- The disk with an entry marked as deleted. -/
def marked (f : Slot) : Disk :=
  ataWriteSector d.vol.disk f.lba (Function.update (ataReadSector d.vol.disk f.lba) (f.e * 32) 0xE5)

/-- The clusters with an entry in the table that are reached from the first one of the file. -/
def Frees (f : Slot) (clus : Nat) : Prop :=
  Reached d.vol d.vol.disk (f.entry d.vol.disk).cluster clus ∧ clus / 128 < fat_size

/-- `fat32_delete_file_in` ends.  If it finds the name, it has marked the entry and set the words of the clusters of the
file to 0, all else is unchanged, and the buffer holds what the disk holds. -/
def Deletes : Prop :=
  ∃ rc d', d.fat32DeleteFileIn name83 dir_clus = some (rc, d') ∧ d'.Mounted ∧
    (rc = 0 ↔ d.Finds name83 dir_clus) ∧
    (rc ≠ 0 → rc = -1 ∧ d'.vol.disk = d.vol.disk) ∧
    ∀ f d₁, d.findSlot name83 dir_clus = some (some f, d₁) →
      (f.entry d'.vol.disk).IsDeleted ∧
      (∀ clus, d.Frees fat_size f clus → fatWord d.vol d'.vol.disk clus = 0) ∧
      ∀ lba i, ¬ f.At markField lba i → (∀ clus, d.Frees fat_size f clus → ¬ WordByte d.vol clus lba i) →
        d'.vol.disk lba i = d.vol.disk lba i

/-- Where a cluster that is reached from the first one of the file has no entry in the table, the disk has four bytes
of 0 in the place of one. -/
def FreesInside : Prop :=
  ∀ f d₁, d.findSlot name83 dir_clus = some (some f, d₁) →
    ∀ clus, Reached d.vol d.vol.disk (f.entry d.vol.disk).cluster clus →
      clus / 128 < fat_size ∨ fatWord d.vol d.vol.disk clus = 0

end Driver

section Directories

variable {d : Driver} {fat_size dir_clus : Nat} {clusters : List Nat} {name83 old83 new83 : List UInt8}

/-- A search of a chain that ends has a result, which the buffer makes no difference to. -/
theorem Chain.findSlot (chain : Chain d.vol dir_clus clusters) (mounted : d.Mounted) (name83 : List UInt8) :
    ∃ result d₁, d.Scanned d₁ clusters ∧ scan d.vol (findVerdict name83) dirFuel dir_clus = some result ∧
      d.findSlot name83 dir_clus = some (result, d₁) := by
  obtain ⟨result, ends⟩ := chain.scan_ends (findVerdict name83) chain.fits
  obtain ⟨d₁, scanned, same⟩ := mounted.scanDir (findVerdict name83) dirFuel dir_clus
  rw [chain.dirClusters chain.fits] at scanned
  exact ⟨result, d₁, scanned, ends, by rw [Driver.findSlot, same, ends]; rfl⟩

theorem Driver.finds_iff {result : Option Slot} {d₁ : Driver} (found : d.findSlot name83 dir_clus = some (result, d₁)) :
    d.Finds name83 dir_clus ↔ result ≠ none := by
  rw [Driver.Finds, found]
  cases result with
  | none => simp
  | some f => simp

/-- An entry that is found is in a sector of the data. -/
theorem Directory.data_le (dir : Directory d.vol fat_size dir_clus clusters) {f : Slot}
    (found : scan d.vol (findVerdict name83) dirFuel dir_clus = some (some f)) :
    d.vol.fat32_data_start ≤ f.lba := by
  obtain ⟨before, after, slots, -, -⟩ := hit_of_scan findVerdict_stays found
  rw [dir.chain.dirClusters dir.chain.fits] at slots
  have member : f ∈ dirSlots d.vol clusters := slots ▸ List.mem_append_right before List.mem_cons_self
  simp only [dirSlots, clusterSlots, List.mem_flatMap, List.mem_map, List.mem_range] at member
  obtain ⟨clus, inside, s, small, e, -, rfl⟩ := member
  obtain ⟨two, -, fits⟩ := dir.real clus inside
  have number : clus < 2 ^ 32 := Nat.lt_trans (dir.chain.inside clus inside) (by decide)
  have sectors : (clus - 1) * d.vol.fat32_spc = (clus - 2) * d.vol.fat32_spc + d.vol.fat32_spc := by
    rw [← Nat.succ_mul, show (clus - 2).succ = clus - 1 by omega]
  have first : u32 (d.vol.fat32_data_start + (clus - 2) * d.vol.fat32_spc) =
      d.vol.fat32_data_start + (clus - 2) * d.vol.fat32_spc := u32_of_lt (by omega)
  simp only [clusterToLba, sub32_of_le two number, first]
  rw [u32_of_lt (by omega)]
  omega

/-- Renaming does what it says. -/
theorem Chain.renames (chain : Chain d.vol dir_clus clusters) (mounted : d.Mounted) :
    d.Renames old83 new83 dir_clus := by
  obtain ⟨found, d₁, scanned, -, new⟩ := chain.findSlot mounted new83
  obtain ⟨place, d₂, -, searched, old⟩ := chain.findSlot mounted old83
  obtain ⟨place', d₃, scanned', searched', old'⟩ := (scanned.vol ▸ chain).findSlot scanned.mounted old83
  obtain rfl : place = place' := Option.some.inj (searched.symm.trans (scanned.vol ▸ searched'))
  simp only [Driver.Renames, Driver.fat32RenameIn, new, Driver.finds_iff new, Driver.finds_iff old]
  cases found with
  | some f => exact ⟨-1, d₁, rfl, by simp, fun _ => ⟨rfl, by rw [scanned.vol]⟩, fun zero => by cases zero⟩
  | none =>
      simp only [old']
      cases place with
      | none =>
          exact ⟨-1, d₃, rfl, by simp, fun _ => ⟨rfl, by rw [scanned'.vol, scanned.vol]⟩, fun zero => by cases zero⟩
      | some f =>
          refine ⟨0, _, rfl, by simp, fun nonzero => absurd rfl nonzero, fun _ g d₄ here => ?_⟩
          obtain ⟨same, -⟩ := Prod.mk.inj (Option.some.inj (old.symm.trans here))
          obtain rfl := Option.some.inj same
          simp only [Driver.writeSector, scanned'.vol, scanned.vol]
          refine ⟨sameBut_write _ f fun i apart => ?_, fun k small => ?_⟩
          · refine if_neg fun inside => ?_
            rw [length_slice] at inside
            exact apart (i - f.e * 32) (by omega) (show i - f.e * 32 < 11 by omega) (by omega)
          · have inside : k < (slice (fun i => new83.getD i 0) 0 11).length := by rwa [length_slice]
            rw [f.byte_entry _ (by omega), ataWriteSector_self, patch_inside _ inside]
            simp only [slice, List.getElem_map, List.getElem_range, Nat.zero_add]

/-- Deleting marks the entry and then wipes the words that are reached on the disk with the mark. -/
theorem Directory.deletes (dir : Directory d.vol fat_size dir_clus clusters) (settled : d.Settled) {f : Slot}
    {d₁ : Driver} (found : d.findSlot name83 dir_clus = some (some f, d₁)) :
    ∃ d', d.fat32DeleteFileIn name83 dir_clus = some (0, d') ∧ d'.Mounted ∧
      (∀ clus lba i, Reached d.vol (d.marked f) (f.entry d.vol.disk).cluster clus → WordByte d.vol clus lba i →
        d'.vol.disk lba i = 0) ∧
      ∀ lba i, (∀ clus, Reached d.vol (d.marked f) (f.entry d.vol.disk).cluster clus → ¬ WordByte d.vol clus lba i) →
        d'.vol.disk lba i = d.marked f lba i := by
  obtain ⟨place, d₂, scanned, searched, found'⟩ := dir.chain.findSlot settled.toMounted name83
  obtain ⟨rfl, rfl⟩ := Prod.mk.inj (Option.some.inj (found'.symm.trans found))
  have data := dir.data_le searched
  -- the buffer does not hold the sector that is written
  have apart : d₂.fat_buf_lba = noSector ∨ d₂.fat_buf_lba ≠ f.lba := by
    rcases scanned.lba with kept | ⟨clus, member, moved⟩
    · rw [kept]
      exact settled.table.imp_right fun below => by omega
    · obtain ⟨sector, -, -⟩ := fatSector_eq settled.early (dir.chain.inside clus member)
      have inside := (dir.real clus member).2.1
      have below := dir.below
      exact Or.inr (by omega)
  have mounted : (d₂.writeSector f.lba (Function.update (ataReadSector d₂.vol.disk f.lba) (f.e * 32) 0xE5)).Mounted := by
    refine ⟨scanned.mounted.early, ?_⟩
    rcases apart with empty | ne
    · exact Or.inl empty
    · refine scanned.mounted.cached.imp_right fun cached => ?_
      simp only [Driver.writeSector]
      rw [ataWriteSector_of_ne _ _ ne]
      exact cached
  obtain ⟨d', freed, mounted', wiped, kept⟩ := mounted.freeChain_ends (f.entry d₂.vol.disk).cluster
  simp only [Driver.writeSector, scanned.vol] at wiped kept
  refine ⟨d', ?_, mounted', wiped, kept⟩
  simp only [Driver.fat32DeleteFileIn, found]
  rw [freed]
  rfl

/-! ## The words outside the table -/

variable {f : Slot}

theorem markField_at {lba i : Nat} : f.At markField lba i ↔ lba = f.lba ∧ i = f.e * 32 := by
  constructor
  · rintro ⟨sector, k, -, first, place⟩
    exact ⟨sector, by rw [place, show k = 0 from first, Nat.add_zero]⟩
  · rintro ⟨sector, place⟩
    exact ⟨sector, 0, by decide, rfl, place⟩

theorem Driver.marked_apply (d : Driver) (f : Slot) (lba i : Nat) :
    d.marked f lba i = if lba = f.lba ∧ i = f.e * 32 then 0xE5 else d.vol.disk lba i := by
  rw [Driver.marked]
  by_cases sector : lba = f.lba
  · subst sector
    rw [ataWriteSector_self]
    by_cases place : i = f.e * 32
    · subst place
      rw [Function.update_self, if_pos ⟨rfl, rfl⟩]
    · rw [Function.update_of_ne place, if_neg fun both => place both.2]
      rfl
  · rw [ataWriteSector_of_ne _ _ sector, if_neg fun both => sector both.1]

/-- An entry in a sector of the data, that is not the end of its directory. -/
structure Driver.InUse (d : Driver) (fat_size : Nat) (f : Slot) : Prop where
  early : d.vol.fat32_fat_start ≤ partStart + 0xFFFF
  below : d.vol.fat32_fat_start + fat_size ≤ d.vol.fat32_data_start
  data : d.vol.fat32_data_start ≤ f.lba
  real : d.vol.disk f.lba (f.e * 32) ≠ 0

/-- A word that lies in the table, or is 0. -/
def Driver.Harmless (d : Driver) (fat_size clus : Nat) : Prop :=
  clus / 128 < fat_size ∨ fatWord d.vol d.vol.disk clus = 0

namespace Driver.InUse

/-- The mark of the entry is not in such a word. -/
theorem apart (inUse : d.InUse fat_size f) {clus lba i : Nat} (inside : clus < endOfChain)
    (harmless : d.Harmless fat_size clus) (byte : WordByte d.vol clus lba i) : ¬ (lba = f.lba ∧ i = f.e * 32) := by
  rintro ⟨rfl, rfl⟩
  rcases harmless with table | zero
  · have sector := byte.1
    have below := inUse.below
    have data := inUse.data
    omega
  · exact inUse.real ((fatWord_zero inUse.early inside).mp zero _ _ byte)

theorem fatLink_marked (inUse : d.InUse fat_size f) {clus : Nat} (harmless : d.Harmless fat_size clus) :
    fatLink d.vol (d.marked f) clus = fatLink d.vol d.vol.disk clus := by
  by_cases live : Live clus
  · have same : fatWord d.vol (d.marked f) clus = fatWord d.vol d.vol.disk clus := by
      refine fatWord_congr inUse.early live.2 fun lba i byte => ?_
      rw [d.marked_apply, if_neg (inUse.apart live.2 harmless byte)]
    simp only [fatLink, same]
  · simp [fatLink, live]

/-- What is reached on the disk is reached with the mark too, unless a word behind the table comes before. -/
theorem reach_marked (inUse : d.InUse fat_size f) {start_clus clus : Nat}
    (reach : Reach (fatLink d.vol) d.vol.disk start_clus clus) :
    Reach (fatLink d.vol) (d.marked f) start_clus clus ∨
      ∃ b, Reach (fatLink d.vol) d.vol.disk start_clus b ∧ Reach (fatLink d.vol) (d.marked f) start_clus b ∧
        ¬ d.Harmless fat_size b := by
  induction reach with
  | refl => exact Or.inl .refl
  | @tail b c before link ih =>
      rcases ih with reached | outside
      · by_cases harmless : d.Harmless fat_size b
        · exact Or.inl (reached.tail ((inUse.fatLink_marked harmless).trans link))
        · exact Or.inr ⟨b, before, reached, harmless⟩
      · exact Or.inr outside

end Driver.InUse

theorem Directory.inUse (dir : Directory d.vol fat_size dir_clus clusters) (mounted : d.Mounted)
    (found : scan d.vol (findVerdict name83) dirFuel dir_clus = some (some f)) : d.InUse fat_size f := by
  refine ⟨mounted.early, dir.below, dir.data_le found, fun zero => ?_⟩
  obtain ⟨-, -, -, -, hit⟩ := hit_of_scan findVerdict_stays found
  refine (findVerdict_hit.mp hit).1 ?_
  rw [Entry.IsEnd, f.byte_entry d.vol.disk (by decide)]
  exact zero

/-- The clusters that are reached are numbers of clusters. -/
theorem Reached.live {vol : Volume} {disk : Disk} {start_clus clus : Nat} (reached : Reached vol disk start_clus clus) :
    Live clus := by
  rcases Relation.ReflTransGen.cases_tail reached.2 with rfl | ⟨before, -, link⟩
  · exact reached.1
  · simp only [Link, fatLink] at link
    split_ifs at link with both
    exact Option.some.inj link ▸ both.2

/-- A file is deleted as it should be exactly if no word is wiped behind the table. -/
theorem Directory.deletes_iff (dir : Directory d.vol fat_size dir_clus clusters) (settled : d.Settled) :
    d.Deletes fat_size name83 dir_clus ↔ d.FreesInside fat_size name83 dir_clus := by
  obtain ⟨place, d₁, scanned, searched, found⟩ := dir.chain.findSlot settled.toMounted name83
  cases place with
  | none =>
      have nothing (f : Slot) (d₂ : Driver) : d.findSlot name83 dir_clus ≠ some (some f, d₂) := by
        rw [found]
        simp
      refine iff_of_true ?_ fun f d₂ here => absurd here (nothing f d₂)
      refine ⟨-1, d₁, by rw [Driver.fat32DeleteFileIn, found], scanned.mounted, ?_, ?_, ?_⟩
      · rw [Driver.finds_iff found]
        simp
      · exact fun _ => ⟨rfl, by rw [scanned.vol]⟩
      · exact fun f d₂ here => absurd here (nothing f d₂)
  | some f =>
      have inUse := dir.inUse settled.toMounted searched
      obtain ⟨d', ran, mounted, wiped, kept⟩ := dir.deletes settled found
      have only {g : Slot} {d₂ : Driver} (here : d.findSlot name83 dir_clus = some (some g, d₂)) : g = f := by
        obtain ⟨same, -⟩ := Prod.mk.inj (Option.some.inj (here.symm.trans found))
        exact Option.some.inj same
      constructor
      · rintro ⟨rc, d₂, ran', -, -, -, effect⟩ g d₃ here clus reached
        obtain rfl := only here
        obtain ⟨-, rfl⟩ := Prod.mk.inj (Option.some.inj (ran'.symm.trans ran))
        obtain ⟨isDeleted, -, frame⟩ := effect g d₁ found
        by_contra outside
        -- the first word behind the table that is not 0 is wiped too
        obtain ⟨b, before, after, harm⟩ : ∃ b, Reach (fatLink d.vol) d.vol.disk (g.entry d.vol.disk).cluster b ∧
            Reach (fatLink d.vol) (d.marked g) (g.entry d.vol.disk).cluster b ∧ ¬ d.Harmless fat_size b := by
          rcases inUse.reach_marked reached.2 with same | other
          · exact ⟨clus, reached.2, same, outside⟩
          · exact other
        have live : Live b := Reached.live ⟨reached.1, before⟩
        rw [Driver.Harmless, not_or] at harm
        refine harm.2 ((fatWord_zero inUse.early live.2).mpr fun lba i byte => ?_)
        have zero := wiped b lba i ⟨reached.1, after⟩ byte
        by_cases mark : g.At markField lba i
        · obtain ⟨rfl, rfl⟩ := markField_at.mp mark
          rw [Entry.IsDeleted, g.byte_entry _ (by decide)] at isDeleted
          exact absurd (zero.symm.trans isDeleted) (by decide)
        · rw [← frame lba i mark fun c frees other => harm.1 (byte.unique other ▸ frees.2)]
          exact zero
      · intro inside
        have same (clus : Nat) : Reached d.vol (d.marked f) (f.entry d.vol.disk).cluster clus ↔
            Reached d.vol d.vol.disk (f.entry d.vol.disk).cluster clus :=
          and_congr_right fun live => reach_congr fun c reach => inUse.fatLink_marked (inside f d₁ found c ⟨live, reach⟩)
        refine ⟨0, d', ran, mounted, ?_, fun nonzero => absurd rfl nonzero, fun g d₂ here => ?_⟩
        · rw [Driver.finds_iff found]
          simp
        · obtain rfl := only here
          have apart {clus lba i : Nat} (reached : Reached d.vol (d.marked g) (g.entry d.vol.disk).cluster clus)
              (byte : WordByte d.vol clus lba i) : ¬ (lba = g.lba ∧ i = g.e * 32) :=
            inUse.apart reached.live.2 (inside g d₁ found clus ((same clus).mp reached)) byte
          refine ⟨?_, fun clus frees => ?_, fun lba i mark frame => ?_⟩
          · rw [Entry.IsDeleted, g.byte_entry _ (by decide), Nat.add_zero,
              kept _ _ fun clus reached byte => apart reached byte ⟨rfl, rfl⟩, d.marked_apply, if_pos ⟨rfl, rfl⟩]
          · refine (fatWord_zero inUse.early frees.1.live.2).mpr fun lba i byte => ?_
            exact wiped clus lba i ((same clus).mpr frees.1) byte
          · by_cases outside : ∃ clus, Reached d.vol (d.marked g) (g.entry d.vol.disk).cluster clus ∧
              WordByte d.vol clus lba i
            · obtain ⟨clus, reached, byte⟩ := outside
              have before := (same clus).mp reached
              have zero : fatWord d.vol d.vol.disk clus = 0 :=
                (inside g d₁ found clus before).resolve_left fun table => frame clus ⟨before, table⟩ byte
              rw [wiped clus lba i reached byte, (fatWord_zero inUse.early before.live.2).mp zero lba i byte]
            · rw [not_exists] at outside
              rw [kept lba i fun clus reached byte => outside clus ⟨reached, byte⟩, d.marked_apply,
                if_neg fun both => mark (markField_at.mpr both)]

/-- A file whose first cluster is in the last two bytes of the field. -/
def fileAt (name83 : List UInt8) (low high : UInt8) : Entry :=
  name83 ++ 0x20 :: List.replicate 14 0 ++ [low, high, 0, 0, 0, 0]

theorem rootOnly_settled (entries : List Entry) : (rootOnly entries).Settled :=
  ⟨rootOnly_mounted entries, Or.inl rfl⟩

theorem rootOnly_next (entries : List Entry) : fat32NextCluster (rootOnly entries).vol 2 = 0x0FFFFFFF := by
  have sector : u32 (u32 (2 * 4) / 512 + 544) = 544 := by decide
  simp only [fat32NextCluster, rootOnly, ataReadSector, sector, if_pos]
  decide +kernel

/-- The table of one sector has entries for 128 clusters. -/
theorem rootOnly_directory (entries : List Entry) : Directory (rootOnly entries).vol 1 2 [2] where
  below := show 544 + 1 ≤ 1000 by decide
  chain := .link (by decide) (.done (by rw [rootOnly_next]; decide))
  real clus member := by
    obtain rfl := List.mem_singleton.mp member
    exact ⟨by decide, by decide, show 1000 + (2 - 1) * 1 ≤ 2 ^ 32 by decide⟩

/-- Renaming changes the name of the entry it finds.  Deleting ends, whatever the table holds, marks the entry and
sets the words of the clusters of the file to 0, exactly if none of them lies behind the table. -/
theorem fat32RenameIn_fat32DeleteFileIn_iff (dir : Directory d.vol fat_size dir_clus clusters)
    (settled : d.Settled) (old83 new83 name83 : List UInt8) :
    d.Renames old83 new83 dir_clus ∧ d.Deletes fat_size name83 dir_clus ↔ d.FreesInside fat_size name83 dir_clus := by
  constructor
  · rintro ⟨-, deletes⟩
    exact (dir.deletes_iff settled).mp deletes
  · intro inside
    exact ⟨dir.chain.renames settled.toMounted, (dir.deletes_iff settled).mpr inside⟩

theorem fat32RenameIn_fat32DeleteFileIn_iff_file :
    (rootOnly [fileAt systrixName 3 0]).Renames systrixName (65 :: systrixName.tail) 2 ∧
        (rootOnly [fileAt systrixName 3 0]).Deletes 1 systrixName 2 ↔
      (rootOnly [fileAt systrixName 3 0]).FreesInside 1 systrixName 2 :=
  fat32RenameIn_fat32DeleteFileIn_iff (rootOnly_directory _) (rootOnly_settled _) systrixName _ systrixName

/-- The first cluster of the second file has its word where the directory is: the name of the first file goes. -/
theorem fat32DeleteFileIn_wipes_directory :
    let d := rootOnly [fileAt (65 :: systrixName.tail) 3 0, fileAt systrixName 0x00 0xE4]
    Directory d.vol 1 2 [2] ∧ d.Settled ∧ ¬ d.Deletes 1 systrixName 2 := by
  intro d
  refine ⟨rootOnly_directory _, rootOnly_settled _, ?_⟩
  rintro ⟨rc, d', ran, -, -, -, effect⟩
  have found : d.findSlot systrixName 2 = some (some ⟨1000, 1⟩, d) :=
    Driver.scanDir_first (by decide) (by decide +kernel)
  have byte : (d.fat32DeleteFileIn systrixName 2).map (fun r => r.2.vol.disk 1000 0) = some 0 := by decide +kernel
  obtain ⟨-, -, frame⟩ := effect _ _ found
  have kept := frame 1000 0 (fun mark => absurd (markField_at.mp mark).2 (by decide))
    fun clus frees inside => by
      have sector : 1000 = 544 + clus / 128 := inside.1
      have table := frees.2
      omega
  rw [ran] at byte
  have name : d'.vol.disk 1000 0 = 65 := kept
  exact absurd (name.symm.trans (Option.some.inj byte)) (by decide)

end Directories

end Systrix.Fat
