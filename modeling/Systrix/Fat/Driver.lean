import Systrix.Fat.Volume

/-!
# The FAT32 driver

The functions of `kernel/kernel.c` that look an entry of a directory up to change it.  Each has a loop of its own over
the directory; they differ in what they do at an entry.  The links between the clusters are read through a buffer that
caches one sector of the table.
-/

namespace Systrix.Fat

open ByteMemory Machine TextBuffer

def partStart : Nat := 512

/-- `(u32)-1`, in `fat_buf_lba` while nothing is cached. -/
def noSector : Nat := 2 ^ 32 - 1

/-- The volume, its root directory and the buffer for its table. -/
structure Driver where
  vol : Volume
  fat32_root_clus : Nat
  fat_buf : Sector
  fat_buf_lba : Nat

/-- The sector of the table with the entry of a cluster. -/
def fatSector (vol : Volume) (clus : Nat) : Nat := u32 (u32 (clus * 4) / 512 + vol.fat32_fat_start)

/-- Where the entry lies in that sector. -/
def fatIndex (clus : Nat) : Nat := u32 (clus * 4) % 512

namespace Driver

def fat32Init (disk : Disk) (fat_buf : Sector) : Driver :=
  let sector_buf := ataReadSector disk partStart
  let fat_start := u32 (partStart + load sector_buf 14 2)
  { vol :=
      { disk
        fat32_spc := (sector_buf 13).toNat
        fat32_fat_start := fat_start
        fat32_data_start := u32 (fat_start + u32 ((sector_buf 16).toNat * load sector_buf 36 4)) }
    fat32_root_clus := load sector_buf 44 4
    fat_buf
    fat_buf_lba := noSector }

variable (d : Driver)

def fatReadCached (lba : Nat) : Driver :=
  if lba = d.fat_buf_lba then d else { d with fat_buf := ataReadSector d.vol.disk lba, fat_buf_lba := lba }

/-- Write a sector of the volume. -/
def writeSector (lba : Nat) (buf : Sector) : Driver :=
  { d with vol := { d.vol with disk := ataWriteSector d.vol.disk lba buf } }

def fatWriteCached (lba : Nat) : Driver := { d.writeSector lba d.fat_buf with fat_buf_lba := lba }

def fat32NextCluster (clus : Nat) : Nat × Driver :=
  let d := d.fatReadCached (fatSector d.vol clus)
  (load d.fat_buf (fatIndex clus) 4 &&& 0x0FFFFFFF, d)

end Driver

/-! ## The loops over a directory -/

/-- The place of an entry: the `e`-th of a sector. -/
structure Slot where
  lba : Nat
  e : Nat
  deriving DecidableEq

/-- The entry at a place. -/
def Slot.entry (f : Slot) (disk : Disk) : Entry := slice (ataReadSector disk f.lba) (f.e * 32) 32

/-- The places of a cluster, in the order of the two inner loops of every scan. -/
def clusterSlots (vol : Volume) (clus : Nat) : List Slot :=
  (List.range vol.fat32_spc).flatMap fun s => (List.range 16).map fun e => ⟨u32 (clusterToLba vol clus + s), e⟩

/-- What a loop does at an entry. -/
inductive Verdict
  /-- `continue` -/
  | pass
  /-- The search is over, without the entry. -/
  | stop
  /-- Go on with the next cluster. -/
  | leave
  /-- This is the entry. -/
  | hit
  deriving DecidableEq

/-- The inner loops over the entries of a cluster; the search goes on behind them if there is no result. -/
def searchSlots (judge : Entry → Verdict) (disk : Disk) : List Slot → Option (Option Slot)
  | [] => none
  | f :: rest =>
      match judge (f.entry disk) with
      | .pass => searchSlots judge disk rest
      | .stop => some none
      | .leave => none
      | .hit => some (some f)

/-- The loop over the clusters of a directory; the fuel bounds them. -/
def Driver.scanDir (judge : Entry → Verdict) : (fuel clus : Nat) → Driver → Option (Option Slot × Driver)
  | 0, _, _ => none
  | fuel + 1, clus, d =>
      if clus < endOfChain then
        match searchSlots judge d.vol.disk (clusterSlots d.vol clus) with
        | some result => some (result, d)
        | none => scanDir judge fuel (d.fat32NextCluster clus).1 (d.fat32NextCluster clus).2
      else some (none, d)

/-- No chain has more clusters than this without one that comes again. -/
def dirFuel : Nat := endOfChain + 1

/-- An entry that is in use and has the name. -/
def Entry.Carries (name83 : List UInt8) (de : Entry) : Prop :=
  ¬ de.IsDeleted ∧ strncmpEq de.byte (fun i => name83.getD i 0) 0 11 = true

instance (name83 : List UInt8) (de : Entry) : Decidable (de.Carries name83) := inferInstanceAs (Decidable (_ ∧ _))

/-- An entry in the loops that look a file up. -/
def findVerdict (name83 : List UInt8) (de : Entry) : Verdict :=
  if de.IsEnd then .stop
  else if de.IsDeleted then .pass
  else if de.IsLabel then .pass
  else if strncmpEq de.byte (fun i => name83.getD i 0) 0 11 then .hit
  else .pass

/-- `fat32_find_raw_in`, as far as the place of the entry. -/
def Driver.findSlot (d : Driver) (name83 : List UInt8) (dir_clus : Nat) : Option (Option Slot × Driver) :=
  d.scanDir (findVerdict name83) dirFuel dir_clus

/-- `fat32_find_raw_in`: the first cluster and the size of the file. -/
def Driver.fat32FindRawIn (d : Driver) (name83 : List UInt8) (dir_clus : Nat) :
    Option (Option (Nat × Nat) × Driver) :=
  (d.findSlot name83 dir_clus).map fun (slot, d) =>
    (slot.map fun f => ((f.entry d.vol.disk).cluster, (f.entry d.vol.disk).size), d)

/-! ## A buffer that holds what the disk holds -/

/-- The driver after `fat32_init`, as long as the buffer agrees with the disk. -/
structure Driver.Mounted (d : Driver) : Prop where
  early : d.vol.fat32_fat_start ≤ partStart + 0xFFFF
  cached : d.fat_buf_lba = noSector ∨ d.fat_buf = d.vol.disk d.fat_buf_lba

theorem Driver.fat32Init_mounted (disk : Disk) (fat_buf : Sector) : (fat32Init disk fat_buf).Mounted := by
  refine ⟨?_, Or.inl rfl⟩
  have reserved : load (ataReadSector disk partStart) 14 2 < 256 ^ 2 := load_lt _ 14 2
  refine Nat.le_trans (Nat.mod_le _ _) (Nat.add_le_add_left ?_ _)
  exact Nat.le_of_lt_succ reserved

/-- The sectors of the table have numbers that are not the mark of an empty buffer. -/
theorem fatSector_eq {vol : Volume} (early : vol.fat32_fat_start ≤ partStart + 0xFFFF) {clus : Nat}
    (inside : clus < endOfChain) :
    fatSector vol clus = vol.fat32_fat_start + clus / 128 ∧ fatSector vol clus ≠ noSector ∧
      fatIndex clus = clus % 128 * 4 := by
  unfold fatSector fatIndex u32 noSector partStart endOfChain at *
  omega

namespace Driver.Mounted

variable {d : Driver}

/-- A sector of the table is in the buffer after it is read. -/
theorem read (mounted : d.Mounted) {lba : Nat} (real : lba ≠ noSector) :
    (d.fatReadCached lba).vol = d.vol ∧ (d.fatReadCached lba).fat_buf = d.vol.disk lba ∧
      (d.fatReadCached lba).fat_buf_lba = lba ∧ (d.fatReadCached lba).fat32_root_clus = d.fat32_root_clus := by
  unfold fatReadCached
  split_ifs with here
  · subst here
    exact ⟨rfl, mounted.cached.resolve_left real, rfl, rfl⟩
  · exact ⟨rfl, rfl, rfl, rfl⟩

/-- The driver finds the next cluster as the volume has it. -/
theorem next (mounted : d.Mounted) {clus : Nat} (inside : clus < endOfChain) :
    (d.fat32NextCluster clus).1 = Fat.fat32NextCluster d.vol clus ∧ (d.fat32NextCluster clus).2.vol = d.vol ∧
      (d.fat32NextCluster clus).2.fat_buf_lba = fatSector d.vol clus ∧
      (d.fat32NextCluster clus).2.fat32_root_clus = d.fat32_root_clus ∧ (d.fat32NextCluster clus).2.Mounted := by
  obtain ⟨-, real, -⟩ := fatSector_eq mounted.early inside
  obtain ⟨vol, buf, lba, root⟩ := mounted.read real
  refine ⟨?_, vol, lba, root, ?_, Or.inr ?_⟩
  · simp only [fat32NextCluster, buf]
    rfl
  · exact vol ▸ mounted.early
  · simp only [fat32NextCluster, buf, lba, vol]

end Driver.Mounted

/-! ## The search on the volume alone -/

/-- The clusters that a scan may visit, as far as the fuel goes. -/
def dirClusters (vol : Volume) : (fuel clus : Nat) → List Nat
  | 0, _ => []
  | fuel + 1, clus =>
      if clus < endOfChain then clus :: dirClusters vol fuel (fat32NextCluster vol clus) else []

/-- The entries of a directory, in the order of every scan. -/
def dirSlots (vol : Volume) (clusters : List Nat) : List Slot := clusters.flatMap (clusterSlots vol)

/-- A scan of the volume itself. -/
def scan (vol : Volume) (judge : Entry → Verdict) : (fuel clus : Nat) → Option (Option Slot)
  | 0, _ => none
  | fuel + 1, clus =>
      if clus < endOfChain then
        match searchSlots judge vol.disk (clusterSlots vol clus) with
        | some result => some result
        | none => scan vol judge fuel (fat32NextCluster vol clus)
      else some none

/-- What a scan changes: which sector of the table is in the buffer. -/
structure Driver.Scanned (d d' : Driver) (clusters : List Nat) : Prop where
  vol : d'.vol = d.vol
  root : d'.fat32_root_clus = d.fat32_root_clus
  mounted : d'.Mounted
  lba : d'.fat_buf_lba = d.fat_buf_lba ∨ ∃ clus ∈ clusters, d'.fat_buf_lba = fatSector d.vol clus

/-- The buffer makes no difference to a scan. -/
theorem Driver.Mounted.scanDir {d : Driver} (mounted : d.Mounted) (judge : Entry → Verdict) (fuel clus : Nat) :
    ∃ d', d.Scanned d' (dirClusters d.vol fuel clus) ∧
      d.scanDir judge fuel clus = (scan d.vol judge fuel clus).map fun result => (result, d') := by
  induction fuel generalizing d clus with
  | zero => exact ⟨d, ⟨rfl, rfl, mounted, Or.inl rfl⟩, rfl⟩
  | succ fuel ih =>
      by_cases inside : clus < endOfChain
      · obtain ⟨next, vol, lba, root, mounted'⟩ := mounted.next inside
        obtain ⟨d', scanned, same⟩ := ih mounted' (d.fat32NextCluster clus).1
        rw [vol, next] at scanned same
        rw [Driver.scanDir, scan, dirClusters, if_pos inside, if_pos inside, if_pos inside]
        cases search : searchSlots judge d.vol.disk (clusterSlots d.vol clus) with
        | some result => exact ⟨d, ⟨rfl, rfl, mounted, Or.inl rfl⟩, rfl⟩
        | none =>
            refine ⟨d', ⟨scanned.vol.trans vol, scanned.root.trans root, scanned.mounted, Or.inr ?_⟩, ?_⟩
            · rcases scanned.lba with kept | ⟨other, member, moved⟩
              · exact ⟨clus, List.mem_cons_self, kept.trans lba⟩
              · exact ⟨other, List.mem_cons_of_mem _ member, moved.trans (by rw [vol])⟩
            · simp only [next]
              exact same
      · refine ⟨d, ⟨rfl, rfl, mounted, Or.inl rfl⟩, ?_⟩
        rw [Driver.scanDir, scan, if_neg inside, if_neg inside]
        rfl

section Search

variable {judge : Entry → Verdict} {disk : Disk} {f : Slot} {slots before after : List Slot}

theorem searchSlots_append (passed : ∀ p ∈ before, judge (p.entry disk) = .pass) (rest : List Slot) :
    searchSlots judge disk (before ++ rest) = searchSlots judge disk rest := by
  induction before with
  | nil => rfl
  | cons p before ih =>
      rw [List.cons_append, searchSlots, passed p List.mem_cons_self]
      exact ih fun q member => passed q (List.mem_cons_of_mem p member)

theorem searchSlots_found (search : searchSlots judge disk slots = some (some f)) :
    ∃ before after, slots = before ++ f :: after ∧ (∀ p ∈ before, judge (p.entry disk) = .pass) ∧
      judge (f.entry disk) = .hit := by
  induction slots with
  | nil => cases search
  | cons p slots ih =>
      rw [searchSlots] at search
      cases verdict : judge (p.entry disk) with
      | pass =>
          rw [verdict] at search
          obtain ⟨before, after, rfl, passed, hit⟩ := ih search
          exact ⟨p :: before, after, rfl, List.forall_mem_cons.mpr ⟨verdict, passed⟩, hit⟩
      | stop => simp [verdict] at search
      | leave => simp [verdict] at search
      | hit =>
          simp only [verdict, Option.some.injEq] at search
          exact ⟨[], slots, by rw [search]; rfl, List.forall_mem_nil _, search ▸ verdict⟩

/-- A loop that never leaves a cluster early goes on behind it only when it has passed all of it. -/
theorem searchSlots_passed (stays : ∀ de, judge de ≠ .leave) (search : searchSlots judge disk slots = none) :
    ∀ p ∈ slots, judge (p.entry disk) = .pass := by
  induction slots with
  | nil => exact List.forall_mem_nil _
  | cons p slots ih =>
      rw [searchSlots] at search
      cases verdict : judge (p.entry disk) with
      | pass =>
          rw [verdict] at search
          exact List.forall_mem_cons.mpr ⟨verdict, ih search⟩
      | stop => simp [verdict] at search
      | leave => exact absurd verdict (stays _)
      | hit => simp [verdict] at search

end Search

section Scan

variable {vol : Volume} {judge : Entry → Verdict} {fuel clus : Nat} {f : Slot} {before after : List Slot}

/-- A scan that passes all entries before one that it hits ends there. -/
theorem scan_of_hit (slots : dirSlots vol (dirClusters vol fuel clus) = before ++ f :: after)
    (passed : ∀ p ∈ before, judge (p.entry vol.disk) = .pass) (hit : judge (f.entry vol.disk) = .hit) :
    scan vol judge fuel clus = some (some f) := by
  induction fuel generalizing clus before with
  | zero => simp [dirClusters, dirSlots] at slots
  | succ fuel ih =>
      by_cases inside : clus < endOfChain
      · rw [dirClusters, if_pos inside, dirSlots, List.flatMap_cons] at slots
        rw [scan, if_pos inside]
        rcases List.append_eq_append_iff.mp slots with ⟨more, rfl, rest⟩ | ⟨part, cluster, rest⟩
        · rw [List.forall_mem_append] at passed
          rw [← List.append_nil (clusterSlots vol clus), searchSlots_append passed.1]
          exact ih rest passed.2
        · rw [cluster, searchSlots_append passed]
          cases part with
          | nil => exact @ih _ [] rest.symm (List.forall_mem_nil _)
          | cons p part =>
              rw [(List.cons.inj rest).1.symm, searchSlots, hit]
      · simp [dirClusters, dirSlots, inside] at slots

/-- The entries before one that is found were passed. -/
theorem hit_of_scan (stays : ∀ de, judge de ≠ .leave) (found : scan vol judge fuel clus = some (some f)) :
    ∃ before after, dirSlots vol (dirClusters vol fuel clus) = before ++ f :: after ∧
      (∀ p ∈ before, judge (p.entry vol.disk) = .pass) ∧ judge (f.entry vol.disk) = .hit := by
  induction fuel generalizing clus with
  | zero => cases found
  | succ fuel ih =>
      rw [scan] at found
      split_ifs at found with inside
      · rw [dirClusters, if_pos inside, dirSlots, List.flatMap_cons]
        cases search : searchSlots judge vol.disk (clusterSlots vol clus) with
        | some result =>
            rw [search] at found
            obtain rfl : result = some f := Option.some.inj found
            obtain ⟨before, after, cluster, passed, hit⟩ := searchSlots_found search
            refine ⟨before, after ++ dirSlots vol (dirClusters vol fuel (fat32NextCluster vol clus)), ?_,
              passed, hit⟩
            rw [cluster, List.append_assoc, List.cons_append]
            rfl
        | none =>
            rw [search] at found
            obtain ⟨before, after, rest, passed, hit⟩ := ih found
            refine ⟨clusterSlots vol clus ++ before, after, ?_, ?_, hit⟩
            · rw [List.append_assoc, ← rest]
              rfl
            · exact List.forall_mem_append.mpr ⟨searchSlots_passed stays search, passed⟩
      · cases found

/-- A chain that ends is all that a scan may visit. -/
theorem Chain.dirClusters {clusters : List Nat} (chain : Chain vol clus clusters) (enough : clusters.length < fuel) :
    dirClusters vol fuel clus = clusters := by
  induction chain generalizing fuel with
  | done isEnd =>
      cases fuel with
      | zero => exact absurd enough (Nat.not_lt_zero _)
      | succ fuel => exact if_neg (Nat.not_lt.mpr isEnd)
  | link inside _ ih =>
      cases fuel with
      | zero => exact absurd enough (Nat.not_lt_zero _)
      | succ fuel =>
          rw [Fat.dirClusters, if_pos inside, ih (Nat.lt_of_succ_lt_succ enough)]

/-- A scan of a chain that ends ends too. -/
theorem Chain.scan_ends {clusters : List Nat} (chain : Chain vol clus clusters) (judge : Entry → Verdict)
    (enough : clusters.length < fuel) : ∃ result, scan vol judge fuel clus = some result := by
  induction chain generalizing fuel with
  | done isEnd =>
      cases fuel with
      | zero => exact absurd enough (Nat.not_lt_zero _)
      | succ fuel => exact ⟨none, if_neg (Nat.not_lt.mpr isEnd)⟩
  | @link clus _ inside _ ih =>
      cases fuel with
      | zero => exact absurd enough (Nat.not_lt_zero _)
      | succ fuel =>
          rw [scan, if_pos inside]
          cases searchSlots judge vol.disk (clusterSlots vol clus) with
          | some result => exact ⟨result, rfl⟩
          | none => exact ih (Nat.lt_of_succ_lt_succ enough)

/-- The chains that end fit the fuel of the driver. -/
theorem Chain.fits {clusters : List Nat} (chain : Chain vol clus clusters) : clusters.length < dirFuel :=
  Nat.lt_succ_of_le chain.length_le

end Scan

/-! ## What the search finds -/

section Find

variable {name83 : List UInt8} {de : Entry}

theorem findVerdict_hit :
    findVerdict name83 de = .hit ↔ ¬ de.IsEnd ∧ ¬ de.IsLabel ∧ de.Carries name83 := by
  unfold findVerdict Entry.Carries
  split_ifs <;> simp_all

theorem findVerdict_stays (de : Entry) : findVerdict name83 de ≠ .leave := by
  unfold findVerdict
  split_ifs <;> exact Verdict.noConfusion

/-- The entries that the search passes are not the end, and carry the name only as labels. -/
theorem findVerdict_pass :
    findVerdict name83 de = .pass ↔ ¬ de.IsEnd ∧ (de.Carries name83 → de.IsLabel) := by
  unfold findVerdict Entry.Carries
  split_ifs <;> simp_all

/-- The place that is found has the cluster and the size that the search of the volume gives. -/
theorem fat32FindRawIn_eq (vol : Volume) (fuel clus : Nat) :
    fat32FindRawIn vol name83 fuel clus =
      (scan vol (findVerdict name83) fuel clus).map
        (Option.map fun f => ((f.entry vol.disk).cluster, (f.entry vol.disk).size)) := by
  have cluster (slots : List Slot) :
      (slots.map (Slot.entry · vol.disk)).findSome? (findEntry name83) =
        (searchSlots (findVerdict name83) vol.disk slots).map
          (Option.map fun f => ((f.entry vol.disk).cluster, (f.entry vol.disk).size)) := by
    induction slots with
    | nil => rfl
    | cons f slots ih =>
        rw [List.map_cons, List.findSome?_cons, searchSlots, ih]
        unfold findEntry findVerdict
        split_ifs <;> rfl
  have entries (clus : Nat) : clusterEntries vol clus = (clusterSlots vol clus).map (Slot.entry · vol.disk) := by
    simp only [clusterEntries, clusterSlots, List.map_flatMap, List.map_map, Slot.entry, Function.comp_def]
  induction fuel generalizing clus with
  | zero => rfl
  | succ fuel ih =>
      rw [fat32FindRawIn, scan]
      split_ifs with inside
      · rw [entries, cluster]
        cases searchSlots (findVerdict name83) vol.disk (clusterSlots vol clus) with
        | some result => rfl
        | none => exact ih _
      · rfl

end Find

/-! ## Changes to one entry -/

/-- A byte of an entry on the disk. -/
def Slot.At (f : Slot) (field : Nat → Prop) (lba i : Nat) : Prop :=
  lba = f.lba ∧ ∃ k < 32, field k ∧ i = f.e * 32 + k

/-- Two disks differ at most in some bytes of an entry. -/
def SameBut (disk disk' : Disk) (f : Slot) (field : Nat → Prop) : Prop :=
  ∀ lba i, ¬ f.At field lba i → disk' lba i = disk lba i

section Entries

variable {disk disk' : Disk} {f p : Slot} {field : Nat → Prop}

theorem Slot.byte_entry (f : Slot) (disk : Disk) {k : Nat} (inside : k < 32) :
    (f.entry disk).byte k = disk f.lba (f.e * 32 + k) := by
  rw [Entry.byte, Slot.entry, List.getD_eq_getElem _ _ (by rw [length_slice]; exact inside)]
  simp only [slice, List.getElem_map, List.getElem_range]
  rfl

/-- Another entry is as it was. -/
theorem SameBut.other (same : SameBut disk disk' f field) (ne : p ≠ f) : p.entry disk' = p.entry disk := by
  apply slice_congr
  intro i low high
  refine same p.lba i fun ⟨sector, k, small, _, place⟩ => ne ?_
  obtain ⟨lba, e⟩ := p
  obtain ⟨lba', e'⟩ := f
  simp only [Slot.mk.injEq]
  dsimp only at sector place low high
  omega

/-- A sector that is written back changed in some bytes of an entry. -/
theorem sameBut_write (disk : Disk) (f : Slot) {buf : Sector} {field : Nat → Prop}
    (kept : ∀ i, (∀ k < 32, field k → i ≠ f.e * 32 + k) → buf i = disk f.lba i) :
    SameBut disk (ataWriteSector disk f.lba buf) f field := by
  intro lba i apart
  by_cases here : lba = f.lba
  · subst here
    rw [ataWriteSector_self]
    exact kept i fun k small inside place => apart ⟨rfl, k, small, inside, place⟩
  · rw [ataWriteSector_of_ne disk buf here]

end Entries

/-! ## A volume with a small root directory -/

/-- The result of a search is in the first cluster. -/
theorem Driver.scanDir_first {d : Driver} {judge : Entry → Verdict} {clus : Nat} {result : Option Slot}
    (inside : clus < endOfChain)
    (search : searchSlots judge d.vol.disk (clusterSlots d.vol clus) = some result) :
    d.scanDir judge dirFuel clus = some (result, d) := by
  rw [dirFuel, Driver.scanDir, if_pos inside, search]

/-- The name `SYSTRIX`, padded with spaces. -/
def systrixName : List UInt8 := [83, 89, 83, 84, 82, 73, 88, 32, 32, 32, 32]

/-- A volume with a root directory of one sector that holds some entries; the first bytes of its table end the chain of
the root. -/
def rootOnly (entries : List Entry) : Driver where
  vol :=
    { disk := fun lba i =>
        if lba = 544 then [0, 0, 0, 0, 0, 0, 0, 0, 0xFF, 0xFF, 0xFF, 0x0F].getD i 0
        else if lba = 1000 then entries.flatten.getD i 0
        else 0
      fat32_spc := 1
      fat32_fat_start := 544
      fat32_data_start := 1000 }
  fat32_root_clus := 2
  fat_buf := fun _ => 0
  fat_buf_lba := noSector

/-- An entry with a name and attributes, all else of it zero. -/
def entryOf (name83 : List UInt8) (attr : UInt8) : Entry := name83 ++ attr :: List.replicate 20 0

theorem rootOnly_mounted (entries : List Entry) : (rootOnly entries).Mounted :=
  ⟨show 544 ≤ partStart + 0xFFFF by decide, Or.inl rfl⟩

end Systrix.Fat
