import Systrix.Lib.Longest
import Systrix.Vfs.Core

/-!
# Which mount a path belongs to

`find_mount` against what it is for: the longest mount path that is the path or a part of it up to a slash.
-/

namespace Systrix.Vfs

open Longest

/-! ## What the lookup is for -/

/-- The path is the mount's, or below it; every absolute path is below the root. -/
def Covers (m path : Chars) : Prop :=
  m = path ∨ (m <+: path ∧ path[m.length]? = some slash) ∨ (m = [slash] ∧ path.head? = some slash)

/-- The rest of the path behind the mount's, without the slash in front of it. -/
def relative (m path : Chars) : Chars :=
  let rest := path.drop m.length
  if rest.head? = some slash then rest.drop 1 else rest

variable {Disk : Type}

/-- The mounts of the table. -/
def State.Mounted (v : State Disk) (mount : Mount) : Prop :=
  ∃ i < maxMount, v.mount_table i = mount ∧ mount.valid = true

/-- The lookup gives the longest mount that covers the path, and the rest of the path; and nothing if there is none. -/
def LookupRight (v : State Disk) (path : Chars) : Prop :=
  match findMount v path with
  | none => ∀ mount, v.Mounted mount → ¬Covers mount.path path
  | some (mount, rel) =>
      (v.Mounted mount ∧ Covers mount.path path ∧
        ∀ other, v.Mounted other → Covers other.path path → other.path.length ≤ mount.path.length) ∧
        rel = relative mount.path path

/-! ## What the lookup does -/

/-- The tests of a round of `find_mount`, apart from the comparison with the best mount so far. -/
def Accepts (m path : Chars) : Prop :=
  m <+: path ∧ (m.length ≤ 1 ∨ path[m.length]? = some slash)

instance (m path : Chars) : Decidable (Accepts m path) := inferInstanceAs (Decidable (_ ∧ _))

theorem getD_slash (path : Chars) (i : Nat) : path.getD i 0 = slash ↔ path[i]? = some slash := by
  rw [List.getD_eq_getElem?_getD]
  cases path[i]? with
  | none => exact ⟨fun zero => absurd zero (by decide), fun none => by cases none⟩
  | some c => exact Option.some_inj.symm

/-- A round keeps the better one of two mounts. -/
theorem betterMount_eq (v : State Disk) (path : Chars) :
    betterMount v path = keep (fun i => (v.mount_table i).valid = true ∧ Accepts (v.mount_table i).path path)
      (fun i => (v.mount_table i).path.length) v.mount_table := by
  funext best i
  rw [betterMount, keep]
  cases valid : (v.mount_table i).valid with
  | false => exact (if_neg fun accepted => Bool.false_ne_true accepted.1.1).symm
  | true =>
      rw [Bool.not_true, if_neg Bool.false_ne_true]
      by_cases long : (v.mount_table i).path.length > path.length
      · rw [if_pos long, if_neg fun accepted => ?_]
        exact absurd accepted.1.2.1.length_le (Nat.not_le.mpr long)
      · rw [if_neg long]
        by_cases inside : (v.mount_table i).path.length > 1 ∧ path[(v.mount_table i).path.length]? ≠ some slash
        · have skip : (decide ((v.mount_table i).path.length > 1) &&
              path.getD (v.mount_table i).path.length 0 != slash) = true := by
            rw [Bool.and_eq_true, decide_eq_true_iff, bne_iff_ne, Ne, getD_slash]
            exact inside
          rw [if_pos skip, if_neg fun accepted => ?_]
          exact accepted.1.2.2.elim (fun short => absurd inside.1 (Nat.not_lt.mpr short)) inside.2
        · have noSkip : ¬(decide ((v.mount_table i).path.length > 1) &&
              path.getD (v.mount_table i).path.length 0 != slash) = true := by
            rw [Bool.and_eq_true, decide_eq_true_iff, bne_iff_ne, Ne, getD_slash]
            exact inside
          rw [if_neg noSkip]
          refine if_congr ?_ rfl rfl
          rw [Bool.and_eq_true, beq_iff_eq, decide_eq_true_iff]
          refine and_congr_left fun _ => ?_
          rw [Accepts, List.prefix_iff_eq_take, eq_comm]
          refine ⟨fun isPrefix => ⟨rfl, isPrefix, ?_⟩, fun accepted => accepted.2.1⟩
          by_contra other
          exact inside ⟨Nat.not_le.mp fun short => other (.inl short), fun isSlash => other (.inr isSlash)⟩

/-- The mount that `find_mount` takes, if any. -/
theorem findMount_kept (v : State Disk) (path : Chars) :
    Kept (fun i => (v.mount_table i).valid = true ∧ Accepts (v.mount_table i).path path)
      (fun i => (v.mount_table i).path.length) v.mount_table (List.range maxMount)
      ((List.range maxMount).foldl (betterMount v path) (none, 0)) := by
  rw [betterMount_eq]
  exact kept_foldl _

variable {v : State Disk} {path : Chars}

/-- The rest of the path is as it should be for every mount that is taken. -/
theorem rel_eq (m path : Chars) :
    (let rel := if m.length < path.length then path.drop m.length else [slash]
      if rel.head? = some slash then rel.drop 1 else rel) = relative m path := by
  rw [relative]
  by_cases shorter : m.length < path.length
  · rw [if_pos shorter]
  · rw [if_neg shorter, List.drop_eq_nil_of_le (Nat.not_lt.mp shorter)]
    rfl

/-- The result of `find_mount`: an accepted mount that no other one outdoes. -/
theorem findMount_cases (v : State Disk) (path : Chars) :
    (findMount v path = none ∧ ∀ mount, v.Mounted mount → Accepts mount.path path → mount.path = []) ∨
      ∃ mount, findMount v path = some (mount, relative mount.path path) ∧ v.Mounted mount ∧
        Accepts mount.path path ∧ 0 < mount.path.length ∧
        ∀ other, v.Mounted other → Accepts other.path path → other.path.length ≤ mount.path.length := by
  have kept := findMount_kept v path
  rw [findMount]
  generalize (List.range maxMount).foldl (betterMount v path) (none, 0) = best at kept ⊢
  cases kept with
  | none empty =>
      refine .inl ⟨rfl, ?_⟩
      rintro mount ⟨i, inside, rfl, valid⟩ accepted
      exact List.eq_nil_of_length_eq_zero (empty i (List.mem_range.mpr inside) ⟨valid, accepted⟩)
  | @some i member accepted positive longest =>
      refine .inr ⟨v.mount_table i, ?_, ⟨i, List.mem_range.mp member, rfl, accepted.1⟩, accepted.2, positive, ?_⟩
      · exact congrArg (fun rel => some (v.mount_table i, rel)) (rel_eq _ path)
      · rintro other ⟨j, inside, rfl, valid⟩ accepted
        exact longest j (List.mem_range.mpr inside) ⟨valid, accepted⟩

/-! ## When the lookup is right -/

/-- What the lookup needs: the path is not that of a mount of two characters or more; a mount of one letter that goes
on with another letter in the path is outdone by a longer one; and a mount with an empty path is so, too. -/
structure Regular (v : State Disk) (path : Chars) : Prop where
  apart : ∀ mount, v.Mounted mount → mount.path = path → path.length = 1
  letter : ∀ mount, v.Mounted mount → mount.path.length = 1 → mount.path ≠ [slash] → mount.path <+: path →
    2 ≤ path.length → path[1]? ≠ some slash →
    ∃ other, v.Mounted other ∧ 2 ≤ other.path.length ∧ other.path <+: path ∧ path[other.path.length]? = some slash
  empty : ∀ mount, v.Mounted mount → mount.path = [] → path.head? = some slash →
    ∃ other, v.Mounted other ∧ other.path ≠ [] ∧ Accepts other.path path

/-- Two prefixes of the same length are the same. -/
theorem prefix_eq {m m' : Chars} (isPrefix : m <+: path) (isPrefix' : m' <+: path) (same : m.length = m'.length) :
    m = m' := by
  rw [List.prefix_iff_eq_take.mp isPrefix, List.prefix_iff_eq_take.mp isPrefix', same]

theorem root_covers (absolute : path.head? = some slash) : [slash] <+: path := by
  cases path with
  | nil => cases absolute
  | cons c rest =>
      cases absolute
      exact ⟨rest, rfl⟩

/-- A mount that covers the path, and is not the path, is accepted. -/
theorem accepts_of_covers {m : Chars} (covers : Covers m path) (other : m = path → path.length = 1) : Accepts m path := by
  rcases covers with same | ⟨isPrefix, isSlash⟩ | ⟨rfl, absolute⟩
  · exact ⟨same ▸ List.prefix_refl m, .inl (same ▸ Nat.le_of_eq (other same))⟩
  · exact ⟨isPrefix, .inr isSlash⟩
  · exact ⟨root_covers absolute, .inl (Nat.le_refl 1)⟩

theorem lookupRight_of_regular (regular : Regular v path) : LookupRight v path := by
  rw [LookupRight]
  obtain ⟨nothing, empty⟩ | ⟨mount, found, mounted, accepted, positive, longest⟩ := findMount_cases v path
  · rw [nothing]
    intro mount mounted covers
    have isEmpty := empty mount mounted (accepts_of_covers covers (regular.apart mount mounted))
    rw [isEmpty] at covers
    rcases covers with same | ⟨-, isSlash⟩ | ⟨isRoot, -⟩
    · have one := regular.apart mount mounted (isEmpty.trans same)
      rw [← same] at one
      cases one
    · rw [List.length_nil, ← List.head?_eq_getElem?] at isSlash
      obtain ⟨other, mounted', some, accepted⟩ := regular.empty mount mounted isEmpty isSlash
      exact some (empty other mounted' accepted)
    · cases isRoot
  · rw [found]
    refine ⟨⟨mounted, ?_, fun other mounted' covers => ?_⟩, rfl⟩
    · obtain ⟨isPrefix, short | isSlash⟩ := accepted
      · have one : mount.path.length = 1 := Nat.le_antisymm short positive
        by_cases isRoot : mount.path = [slash]
        · refine .inr (.inr ⟨isRoot, ?_⟩)
          rw [isRoot] at isPrefix
          obtain ⟨rest, rfl⟩ := isPrefix
          rfl
        · by_cases isSlash : path[1]? = some slash
          · exact .inr (.inl ⟨isPrefix, one.symm ▸ isSlash⟩)
          · by_cases longer : 2 ≤ path.length
            · obtain ⟨other, mounted', two, isPrefix', isSlash'⟩ :=
                regular.letter mount mounted one isRoot isPrefix longer isSlash
              have outdone := longest other mounted' ⟨isPrefix', .inr isSlash'⟩
              omega
            · have whole := isPrefix.length_le
              exact .inl (isPrefix.eq_of_length (by omega))
      · exact .inr (.inl ⟨isPrefix, isSlash⟩)
    · exact longest other mounted' (accepts_of_covers covers (regular.apart other mounted'))

theorem regular_of_lookupRight (right : LookupRight v path) : Regular v path := by
  rw [LookupRight] at right
  obtain ⟨nothing, empty⟩ | ⟨mount, found, mounted, accepted, positive, longest⟩ := findMount_cases v path
  · rw [nothing] at right
    refine ⟨fun mount mounted same => ?_, fun mount mounted one _ isPrefix _ _ => ?_,
      fun mount mounted isEmpty absolute => ?_⟩
    · exact absurd (.inl same) (right mount mounted)
    · have isEmpty := empty mount mounted ⟨isPrefix, .inl (Nat.le_of_eq one)⟩
      rw [isEmpty] at one
      cases one
    · refine absurd (.inr (.inl ⟨?_, ?_⟩)) (right mount mounted)
      · rw [isEmpty]
        exact List.nil_prefix
      · rw [isEmpty, List.length_nil, ← List.head?_eq_getElem?]
        exact absolute
  · rw [found] at right
    obtain ⟨⟨-, covers, best⟩, -⟩ := right
    refine ⟨fun other mounted' same => ?_, fun other mounted' one noRoot isPrefix longer noSlash => ?_,
      fun _ _ _ _ => ⟨mount, mounted, List.ne_nil_of_length_pos positive, accepted⟩⟩
    · have atLeast := best other mounted' (.inl same)
      rw [same] at atLeast
      have whole := accepted.1.eq_of_length (Nat.le_antisymm accepted.1.length_le atLeast)
      rw [whole] at accepted positive
      obtain ⟨-, short | isSlash⟩ := accepted
      · exact Nat.le_antisymm short positive
      · rw [List.getElem?_eq_none (Nat.le_refl _)] at isSlash
        cases isSlash
    · obtain ⟨isPrefix', short | isSlash⟩ := accepted
      · have same := prefix_eq isPrefix' isPrefix (by omega)
        rw [same] at covers
        rcases covers with whole | ⟨-, isSlash⟩ | ⟨isRoot, -⟩
        · rw [whole] at one
          omega
        · rw [one] at isSlash
          exact absurd isSlash noSlash
        · exact absurd isRoot noRoot
      · by_cases two : 2 ≤ mount.path.length
        · exact ⟨mount, mounted, two, isPrefix', isSlash⟩
        · have same : mount.path.length = 1 := by omega
          rw [same] at isSlash
          exact absurd isSlash noSlash

/-- `find_mount` finds the longest mount that covers the path just where the path is not itself that of a mount of two
characters or more, apart from paths of mounts that no system has. -/
theorem findMount_iff (v : State Disk) (path : Chars) : LookupRight v path ↔ Regular v path :=
  ⟨regular_of_lookupRight, lookupRight_of_regular⟩

/-- The mounts of a system that has booted: `/` and `/jfs`. -/
def booted : State Unit := vfsRegisterJfs (vfsRegisterFat32 { vfsCoreInit () with supply := [4096] } 2)

/-- `/jfs` -/
def jfsPath : Chars := [slash, 106, 102, 115]

/-- The path of the mount itself is looked up in the root. -/
theorem findMount_jfs : ¬LookupRight booted jfsPath := by
  intro right
  have regular := regular_of_lookupRight right
  have mounted : booted.Mounted (booted.mount_table 1) := ⟨1, by decide, rfl, rfl⟩
  exact absurd (regular.apart (booted.mount_table 1) mounted rfl) (by decide)

end Systrix.Vfs
