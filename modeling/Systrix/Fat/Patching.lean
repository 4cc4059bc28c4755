import Systrix.Fat.Driver

/-!
# Patching the entry of an open file

`patch_dir_size` and `patch_dir_cluster` of `kernel/kernel.c`.  They look the entry up again by its name, in loops that
do not skip what the search of the file skips: labels, and the parts of long names.
-/

namespace Systrix.Fat

open ByteMemory Machine TextBuffer

/-- An open file, as far as its entry is looked up. -/
structure FD where
  dir_clus : Nat
  name83 : List UInt8

/-- An entry in the loops of the patches. -/
def patchVerdict (name83 : List UInt8) (de : Entry) : Verdict :=
  if de.IsEnd then .leave
  else if de.IsDeleted then .pass
  else if strncmpEq de.byte (fun i => name83.getD i 0) 0 11 then .hit
  else .pass

/-- The bytes of the size. -/
def sizeField (k : Nat) : Prop := 28 ≤ k

/-- The bytes of the first cluster. -/
def clusterField (k : Nat) : Prop := k = 20 ∨ k = 21 ∨ k = 26 ∨ k = 27

/-- `*(u32 *)(de + 28) = new_size` -/
def setSize (new_size : Nat) (dir_buf : Sector) (de : Nat) : Sector := store dir_buf (de + 28) 4 new_size

/-- The four assignments of `patch_dir_cluster`. -/
def setCluster (start_clus : Nat) (dir_buf : Sector) (de : Nat) : Sector :=
  let dir_buf := Function.update dir_buf (de + 26) (UInt8.ofNat start_clus)
  let dir_buf := Function.update dir_buf (de + 27) (UInt8.ofNat (start_clus >>> 8))
  let dir_buf := Function.update dir_buf (de + 20) (UInt8.ofNat (start_clus >>> 16))
  Function.update dir_buf (de + 21) (UInt8.ofNat (start_clus >>> 24))

namespace Driver

variable (d : Driver) (fd : FD)

/-- The directory of an open file, where 0 stands for the root. -/
def dirOf : Nat := if fd.dir_clus ≠ 0 then fd.dir_clus else d.fat32_root_clus

/-- The body of both patches, which differ in what they change. -/
def patchDir (change : Sector → Nat → Sector) : Option Driver :=
  match d.scanDir (patchVerdict fd.name83) dirFuel (d.dirOf fd) with
  | none => none
  | some (none, d) => some d
  | some (some f, d) => some (d.writeSector f.lba (change (ataReadSector d.vol.disk f.lba) (f.e * 32)))

def patchDirSize (new_size : Nat) : Option Driver := d.patchDir fd (setSize new_size)

def patchDirCluster (start_clus : Nat) : Option Driver := d.patchDir fd (setCluster start_clus)

/-- Both patches set their field of an entry, and change nothing else on the disk. -/
def PatchesOnly (f : Slot) : Prop :=
  (∀ new_size < 2 ^ 32, ∃ d', d.patchDirSize fd new_size = some d' ∧
    SameBut d.vol.disk d'.vol.disk f sizeField ∧ (f.entry d'.vol.disk).size = new_size) ∧
  ∀ start_clus < 2 ^ 32, ∃ d', d.patchDirCluster fd start_clus = some d' ∧
    SameBut d.vol.disk d'.vol.disk f clusterField ∧ (f.entry d'.vol.disk).cluster = start_clus

/-- The first entry of the directory that carries the name of the file is not a label. -/
def Unshadowed : Prop :=
  ∀ p, (dirSlots d.vol (dirClusters d.vol dirFuel (d.dirOf fd))).find?
      (fun p => (p.entry d.vol.disk).Carries fd.name83) = some p →
    ¬ (p.entry d.vol.disk).IsLabel

end Driver

/-! ## The entry that is patched -/

section Hits

variable {name83 : List UInt8} {de : Entry}

theorem patchVerdict_pass : patchVerdict name83 de = .pass ↔ ¬ de.IsEnd ∧ ¬ de.Carries name83 := by
  unfold patchVerdict Entry.Carries
  split_ifs <;> simp_all

theorem patchVerdict_hit : patchVerdict name83 de = .hit ↔ ¬ de.IsEnd ∧ de.Carries name83 := by
  unfold patchVerdict Entry.Carries
  split_ifs <;> simp_all

/-- The patches change the first entry that carries the name, when the end is not before it. -/
theorem Driver.Mounted.patchDir {d : Driver} (mounted : d.Mounted) {fd : FD} {p : Slot} {before after : List Slot}
    (slots : dirSlots d.vol (dirClusters d.vol dirFuel (d.dirOf fd)) = before ++ p :: after)
    (passed : ∀ q ∈ before, ¬ (q.entry d.vol.disk).IsEnd ∧ ¬ (q.entry d.vol.disk).Carries fd.name83)
    (hit : ¬ (p.entry d.vol.disk).IsEnd ∧ (p.entry d.vol.disk).Carries fd.name83)
    (change : Sector → Nat → Sector) :
    ∃ d', d.patchDir fd change = some d' ∧
      d'.vol.disk = ataWriteSector d.vol.disk p.lba (change (ataReadSector d.vol.disk p.lba) (p.e * 32)) := by
  obtain ⟨d', scanned, same⟩ := mounted.scanDir (patchVerdict fd.name83) dirFuel (d.dirOf fd)
  have found := scan_of_hit slots (fun q member => patchVerdict_pass.mpr (passed q member)) (patchVerdict_hit.mpr hit)
  rw [found] at same
  refine ⟨_, by rw [Driver.patchDir, same]; rfl, ?_⟩
  simp only [Driver.writeSector, scanned.vol]

end Hits

/-! ## What the patches change -/

section Fields

variable (disk : Disk) (f : Slot)

theorem setSize_sameBut (new_size : Nat) :
    SameBut disk (ataWriteSector disk f.lba (setSize new_size (ataReadSector disk f.lba) (f.e * 32))) f sizeField := by
  refine sameBut_write disk f fun i apart => store_apply_outside _ new_size ?_
  by_contra inside
  exact apart (i - f.e * 32) (by omega) (show 28 ≤ i - f.e * 32 by omega) (by omega)

theorem setCluster_sameBut (start_clus : Nat) :
    SameBut disk (ataWriteSector disk f.lba (setCluster start_clus (ataReadSector disk f.lba) (f.e * 32))) f
      clusterField := by
  refine sameBut_write disk f fun i apart => ?_
  have ne (k : Nat) (small : k < 32) (inside : clusterField k) : i ≠ f.e * 32 + k := apart k small inside
  unfold setCluster
  rw [Function.update_of_ne (ne 21 (by decide) (Or.inr (Or.inl rfl))),
    Function.update_of_ne (ne 20 (by decide) (Or.inl rfl)),
    Function.update_of_ne (ne 27 (by decide) (Or.inr (Or.inr (Or.inr rfl)))),
    Function.update_of_ne (ne 26 (by decide) (Or.inr (Or.inr (Or.inl rfl))))]
  rfl

theorem setSize_size {new_size : Nat} (fits : new_size < 2 ^ 32) :
    (f.entry (ataWriteSector disk f.lba (setSize new_size (ataReadSector disk f.lba) (f.e * 32)))).size = new_size := by
  have bytes (disk : Disk) : (f.entry disk).size = load (disk f.lba) (f.e * 32 + 28) 4 := by
    simp only [Entry.size, load, f.byte_entry disk (show 28 < 32 by decide),
      f.byte_entry disk (show 29 < 32 by decide), f.byte_entry disk (show 30 < 32 by decide),
      f.byte_entry disk (show 31 < 32 by decide), Nat.add_assoc, Nat.reduceAdd]
  rw [bytes, ataWriteSector_self]
  exact load_store_of_lt _ _ fits

/-- The fields of the first cluster put together: their bytes do not overlap. -/
theorem or_bytes {a b c e : Nat} (a_lt : a < 2 ^ 8) (c_lt : c < 2 ^ 8) (e_lt : e < 2 ^ 8) :
    a <<< 16 ||| b <<< 24 ||| c ||| e <<< 8 = b * 2 ^ 24 + (a * 2 ^ 16 + (e * 2 ^ 8 + c)) := by
  have first : e <<< 8 ||| c = e * 2 ^ 8 + c := by
    rw [← Nat.shiftLeft_add_eq_or_of_lt c_lt, Nat.shiftLeft_eq]
  have second : a <<< 16 ||| (e * 2 ^ 8 + c) = a * 2 ^ 16 + (e * 2 ^ 8 + c) := by
    have inside : e * 2 ^ 8 + c < 2 ^ 16 := by omega
    rw [← Nat.shiftLeft_add_eq_or_of_lt inside, Nat.shiftLeft_eq]
  have third : a * 2 ^ 16 + (e * 2 ^ 8 + c) < 2 ^ 24 := by omega
  calc a <<< 16 ||| b <<< 24 ||| c ||| e <<< 8
      = b <<< 24 ||| (a <<< 16 ||| (e <<< 8 ||| c)) := by
        rw [Nat.or_assoc (_ ||| _), Nat.or_comm c, Nat.or_comm (a <<< 16), Nat.or_assoc]
    _ = b * 2 ^ 24 + (a * 2 ^ 16 + (e * 2 ^ 8 + c)) := by
        rw [first, second, ← Nat.shiftLeft_add_eq_or_of_lt third, Nat.shiftLeft_eq]

theorem setCluster_cluster {start_clus : Nat} (fits : start_clus < 2 ^ 32) :
    (f.entry (ataWriteSector disk f.lba (setCluster start_clus (ataReadSector disk f.lba) (f.e * 32)))).cluster =
      start_clus := by
  simp only [Entry.cluster, f.byte_entry _ (show 20 < 32 by decide), f.byte_entry _ (show 21 < 32 by decide),
    f.byte_entry _ (show 26 < 32 by decide), f.byte_entry _ (show 27 < 32 by decide), ataWriteSector_self, setCluster]
  have ne {m n : Nat} (ne : m ≠ n) : f.e * 32 + m ≠ f.e * 32 + n := fun same => ne (Nat.add_left_cancel same)
  simp only [Function.update_self, Function.update_of_ne (ne (show 20 ≠ 21 by decide)),
    Function.update_of_ne (ne (show 27 ≠ 21 by decide)), Function.update_of_ne (ne (show 27 ≠ 20 by decide)),
    Function.update_of_ne (ne (show 26 ≠ 21 by decide)), Function.update_of_ne (ne (show 26 ≠ 20 by decide)),
    Function.update_of_ne (ne (show 26 ≠ 27 by decide))]
  rw [or_bytes (UInt8.toNat_lt _) (UInt8.toNat_lt _) (UInt8.toNat_lt _)]
  simp only [UInt8.toNat_ofNat', Nat.shiftRight_eq_div_pow]
  omega

end Fields

/-! ## The entry that was opened -/

section Opened

variable {d d' : Driver} {fd : FD} {f : Slot}

/-- The patches of an open file hit its entry exactly if no label or part of a long name before it has the same
eleven bytes. -/
theorem patchDir_hits_iff (mounted : d.Mounted)
    (found : d.findSlot fd.name83 (d.dirOf fd) = some (some f, d')) : d.PatchesOnly fd f ↔ d.Unshadowed fd := by
  obtain ⟨d₁, -, same⟩ := mounted.scanDir (findVerdict fd.name83) dirFuel (d.dirOf fd)
  have scanned : scan d.vol (findVerdict fd.name83) dirFuel (d.dirOf fd) = some (some f) := by
    obtain ⟨result, scanned, pair⟩ := Option.map_eq_some_iff.mp (same.symm.trans found)
    rw [scanned, (Prod.mk.inj pair).1]
  obtain ⟨before, after, slots, passed, hit⟩ := hit_of_scan findVerdict_stays scanned
  simp only [findVerdict_pass] at passed
  obtain ⟨real, noLabel, carries⟩ := findVerdict_hit.mp hit
  cases first : before.find? (fun p => (p.entry d.vol.disk).Carries fd.name83) with
  | none =>
      have clear : ∀ q ∈ before, ¬ (q.entry d.vol.disk).IsEnd ∧ ¬ (q.entry d.vol.disk).Carries fd.name83 :=
        fun q member => ⟨(passed q member).1, by simpa using List.find?_eq_none.mp first q member⟩
      refine iff_of_true ⟨fun new_size fits => ?_, fun start_clus fits => ?_⟩ fun p shown => ?_
      · obtain ⟨d', patched, disk⟩ := mounted.patchDir slots clear ⟨real, carries⟩ (setSize new_size)
        exact ⟨d', patched, disk ▸ setSize_sameBut _ f new_size, disk ▸ setSize_size _ f fits⟩
      · obtain ⟨d', patched, disk⟩ := mounted.patchDir slots clear ⟨real, carries⟩ (setCluster start_clus)
        exact ⟨d', patched, disk ▸ setCluster_sameBut _ f start_clus, disk ▸ setCluster_cluster _ f fits⟩
      · rw [slots, List.find?_append, first, Option.none_or, List.find?_cons_of_pos (by simpa using carries)] at shown
        exact Option.some.inj shown ▸ noLabel
  | some p =>
      obtain ⟨carriesToo, left, right, split, clear⟩ := List.find?_eq_some_iff_append.mp first
      have member : p ∈ before := split ▸ List.mem_append_right left List.mem_cons_self
      have label : (p.entry d.vol.disk).IsLabel := (passed p member).2 (by simpa using carriesToo)
      have ne : f ≠ p := fun same => noLabel (same ▸ label)
      refine iff_of_false (fun ⟨sizes, _⟩ => ?_) fun unshadowed => ?_
      · -- the size of the other entry is set, and that of the file stays
        have other : ∃ new_size < 2 ^ 32, new_size ≠ (f.entry d.vol.disk).size := by
          by_cases zero : (f.entry d.vol.disk).size = 0
          · exact ⟨1, by decide, by omega⟩
          · exact ⟨0, by decide, Ne.symm zero⟩
        obtain ⟨new_size, fits, changed⟩ := other
        obtain ⟨d', patched, -, size⟩ := sizes new_size fits
        obtain ⟨d₂, patched', disk⟩ := @Driver.Mounted.patchDir d mounted fd p left (right ++ f :: after)
          (by rw [slots, split, List.append_assoc, List.cons_append])
          (fun q member => ⟨(passed q (split ▸ List.mem_append_left _ member)).1, by simpa using clear q member⟩)
          ⟨(passed p member).1, by simpa using carriesToo⟩ (setSize new_size)
        obtain rfl : d₂ = d' := Option.some.inj (patched'.symm.trans patched)
        rw [disk, (setSize_sameBut d.vol.disk p new_size).other ne] at size
        exact changed size.symm
      · refine unshadowed p ?_ label
        rw [slots, List.find?_append, first]
        rfl

theorem patchDir_hits_iff_alone :
    (rootOnly [entryOf systrixName 0x20]).PatchesOnly ⟨0, systrixName⟩ ⟨1000, 0⟩ ↔
      (rootOnly [entryOf systrixName 0x20]).Unshadowed ⟨0, systrixName⟩ :=
  patchDir_hits_iff (rootOnly_mounted _) (@Driver.scanDir_first _ _ 2 _ (by decide) (by decide +kernel))

/-- A volume label with the name of the file: the size goes there. -/
theorem patchDir_hits_label :
    let d := rootOnly [entryOf systrixName 0x08, entryOf systrixName 0x20]
    d.Mounted ∧ d.findSlot systrixName (d.dirOf ⟨0, systrixName⟩) = some (some ⟨1000, 1⟩, d) ∧
      ¬ d.PatchesOnly ⟨0, systrixName⟩ ⟨1000, 1⟩ := by
  intro d
  refine ⟨rootOnly_mounted _, Driver.scanDir_first (by decide) (by decide +kernel), fun ⟨sizes, _⟩ => ?_⟩
  obtain ⟨d', patched, -, size⟩ := sizes 7 (by decide)
  have scanned : d.scanDir (patchVerdict systrixName) dirFuel 2 = some (some ⟨1000, 0⟩, d) :=
    Driver.scanDir_first (by decide) (by decide +kernel)
  rw [Driver.patchDirSize, Driver.patchDir, show d.dirOf ⟨0, systrixName⟩ = 2 from rfl, scanned] at patched
  obtain rfl := Option.some.inj patched
  exact absurd size (by decide +kernel)

end Opened

end Systrix.Fat
