import Systrix.Vmm.PageTree

/-!
# Mapping and unmapping a page

What `vmm_map` and `vmm_unmap` change in the walks of a space, and what they leave.
-/

namespace Systrix.Vmm

open TableTree

/-- What a last entry maps under the tables above it. -/
def leafMapping (above : Perms) (e : Word) : Option Mapping :=
  if present e then some ⟨frame e, above.and (.ofEntry e)⟩ else none

theorem path_eq_of_suffix {v virt : Word} (below : path virt <:+ path v) : path v = path virt :=
  (below.eq_of_length rfl).symm

section Leaf

variable {vm : Vm} {cr3 virt pt : Word} (tree : Tree vm cr3)
  (found : tableAt vm.mem cr3 [i2 virt, i3 virt, i4 virt] = some pt)

include found

/-- An address with a last table is mapped as its last entry says. -/
theorem walk_found :
    walk vm.mem cr3 virt = leafMapping (above vm.mem cr3 virt) (vm.mem pt (i1 virt)) := by
  have last : entryAt vm.mem cr3 (path virt) = some (vm.mem pt (i1 virt)) := entry_cons _ found
  obtain ⟨pd, found3, child2⟩ := table_parent found
  obtain ⟨pdpt, found4, child3⟩ := table_parent found3
  obtain ⟨pml4, root, child4⟩ := table_parent found4
  have entry4 : entryAt vm.mem cr3 [i4 virt] = some (vm.mem pml4 (i4 virt)) := entry_cons _ root
  have entry3 : entryAt vm.mem cr3 [i3 virt, i4 virt] = some (vm.mem pdpt (i3 virt)) :=
    entry_cons _ found4
  have entry2 : entryAt vm.mem cr3 [i2 virt, i3 virt, i4 virt] = some (vm.mem pd (i2 virt)) :=
    entry_cons _ found3
  have isTable : ∀ {depth : Nat} {e t : Word}, child depth e = some t →
      present e = true ∧ huge e = false := fun some => by
    unfold child at some
    split at some
    · rename_i table
      exact table.2
    · cases some
  obtain ⟨present4, huge4⟩ := isTable child4
  obtain ⟨present3, huge3⟩ := isTable child3
  obtain ⟨present2, huge2⟩ := isTable child2
  rw [walk_eq, last, above, entry4, entry3, entry2]
  simp [resolve, leafMapping, limit, present4, huge4, present3, huge3, present2, huge2, Perms.and_assoc]

include tree

/-- Writing a last entry moves no table. -/
theorem table_setLeaf (e : Word) (q : List Index) :
    tableAt (vm.setEntry pt (i1 virt) e).mem cr3 q = tableAt vm.mem cr3 q :=
  table_setEntry_leaf tree.distinct found (child_three _) (child_three _) q

theorem entry_setLeaf (e : Word) {q : List Index} (apart : ¬ path virt <:+ q) :
    entryAt (vm.setEntry pt (i1 virt) e).mem cr3 q = entryAt vm.mem cr3 q :=
  entry_setEntry tree.distinct found e apart

theorem above_setLeaf (e v : Word) :
    above (vm.setEntry pt (i1 virt) e).mem cr3 v = above vm.mem cr3 v := by
  have same := fun (q : List Index) (short : q.length < 4) =>
    entry_setLeaf tree found e (show ¬ path virt <:+ q from not_suffix short)
  rw [above, above, same _ (by simp), same _ (by simp), same _ (by simp)]

/-- Writing a last entry keeps what every other page is mapped to. -/
theorem walk_setLeaf_of_ne (e : Word) {v : Word} (other : path v ≠ path virt) :
    walk (vm.setEntry pt (i1 virt) e).mem cr3 v = walk vm.mem cr3 v := by
  have same := fun (q : List Index) (upper : q <:+ path v) =>
    entry_setLeaf tree found e fun below => other (path_eq_of_suffix (below.trans upper))
  rw [walk_eq, walk_eq, same _ ⟨[i1 v, i2 v, i3 v], rfl⟩, same _ ⟨[i1 v, i2 v], rfl⟩,
    same _ ⟨[i1 v], rfl⟩, same _ List.suffix_rfl]

theorem walk_setLeaf (e : Word) :
    walk (vm.setEntry pt (i1 virt) e).mem cr3 virt = leafMapping (above vm.mem cr3 virt) e := by
  have found' := (table_setLeaf tree found e [i2 virt, i3 virt, i4 virt]).trans found
  rw [walk_found found', above_setLeaf tree found]
  exact congrArg _ (setEntry_self pt (i1 virt) e)

theorem Tree.setLeaf (e : Word) : Tree (vm.setEntry pt (i1 virt) e) cr3 where
  distinct := tree.distinct.setEntry_leaf found (child_three _) (child_three _)
  small place t i short foundT isPresent := by
    rw [table_setLeaf tree found] at foundT
    have notLast : t ≠ pt := fun same => by
      have deep := tree.distinct place _ t foundT (found.trans (congrArg some same.symm))
      rw [deep] at short
      exact absurd short (by simp)
    have cell : (vm.setEntry pt (i1 virt) e).mem t i = vm.mem t i :=
      setEntry_of_ne e fun same => absurd same notLast
    rw [cell] at isPresent ⊢
    exact tree.small place t i short foundT isPresent
  fresh p member place := by
    rw [table_setLeaf tree found]
    exact tree.fresh p member place
  nodup := tree.nodup
  aligned := tree.aligned

end Leaf

/-! ## The entry of a mapping -/

/-- The entry `vmm_map` stores. -/
def mapEntry (phys flags : Word) : Word := phys &&& ptePhysMask ||| flags ||| ptePresent

section MapEntry

variable (phys flags : Word)

@[simp] theorem present_mapEntry : present (mapEntry phys flags) = true := by
  simp [present, mapEntry, ptePresent]

theorem frame_mapEntry : frame (mapEntry phys flags) = frame (phys ||| flags) := by
  have bit : ptePresent &&& ptePhysMask = 0 := by decide
  have nothing : frame (phys ||| flags) ||| 0 = frame (phys ||| flags) := BitVec.or_zero
  rw [frame, mapEntry, BitVec.and_or_distrib_right, BitVec.and_or_distrib_right, bit, BitVec.and_assoc,
    BitVec.and_self, ← BitVec.and_or_distrib_right]
  exact nothing

/-- A bit that is neither in the address nor the present bit is that of the flags. -/
theorem mapEntry_bit {i : Nat} (outside : (ptePhysMask ||| ptePresent).getLsbD i = false) :
    (mapEntry phys flags).getLsbD i = flags.getLsbD i := by
  rw [BitVec.getLsbD_or, Bool.or_eq_false_iff] at outside
  rw [mapEntry, BitVec.getLsbD_or, BitVec.getLsbD_or, BitVec.getLsbD_and, outside.1, outside.2,
    Bool.and_false, Bool.false_or, Bool.or_false]

theorem perms_mapEntry : Perms.ofEntry (mapEntry phys flags) = .ofEntry flags := by
  rw [Perms.ofEntry, Perms.ofEntry, writable, user, noExecute, mapEntry_bit _ _ (by decide),
    mapEntry_bit _ _ (by decide), mapEntry_bit _ _ (by decide)]
  rfl

end MapEntry

/-! ## Offsets in a page -/

section Offset

theorem offset_masked (k : BitVec 12) : k.setWidth 64 &&& (0xfff : Word) = k.setWidth 64 := by
  have ones : ∀ i < 12, (0xfff : Word).getLsbD i = true := by decide
  refine BitVec.eq_of_getLsbD_eq fun i _ => ?_
  rw [BitVec.getLsbD_and]
  by_cases low : i < 12
  · rw [ones i low, Bool.and_true]
  · rw [BitVec.getLsbD_setWidth, BitVec.getLsbD_of_ge k i (Nat.le_of_not_lt low), Bool.and_false,
      Bool.false_and]

variable {virt : Word} (page : virt &&& 0xfff = 0) (k : BitVec 12)

include page

/-- An address without low bits and an offset have no bit in common. -/
theorem add_offset : virt + k.setWidth 64 = virt ||| k.setWidth 64 := by
  apply BitVec.add_eq_or_of_and_eq_zero
  rw [← offset_masked k, BitVec.and_comm (k.setWidth 64), ← BitVec.and_assoc, page]
  exact BitVec.zero_and

theorem path_add_offset : path (virt + k.setWidth 64) = path virt := by
  rw [add_offset page]
  have high : ∀ {start}, 12 ≤ start →
      (virt ||| k.setWidth 64).extractLsb' start 9 = virt.extractLsb' start 9 := by
    intro start low
    ext i
    simp [BitVec.getLsbD_of_ge k (start + i) (by omega)]
  simp only [path, i1, i2, i3, i4, high (by decide : 12 ≤ 12), high (by decide : 12 ≤ 21),
    high (by decide : 12 ≤ 30), high (by decide : 12 ≤ 39)]

theorem add_offset_low : (virt + k.setWidth 64) &&& 0xfff = k.setWidth 64 := by
  rw [add_offset page, BitVec.and_or_distrib_right, page, offset_masked]
  exact BitVec.zero_or

end Offset

/-! ## The frame law -/

section Law

variable {vm : Vm} {cr3 : Word} (tree : Tree vm cr3) (virt phys flags : Word)

include tree

/-- `vmm_map` extends the space and writes the last entry, when there is memory. -/
theorem vmmMap_cases :
    (pteGet vm cr3 virt true).1 = none ∧ Extends cr3 vm (vmmMap vm cr3 virt phys flags) ∨
    ∃ vm₁ pt, (pteGet vm cr3 virt true).1 ≠ none ∧ Extends cr3 vm vm₁ ∧
      tableAt vm₁.mem cr3 [i2 virt, i3 virt, i4 virt] = some pt ∧
      vmmMap vm cr3 virt phys flags = vm₁.setEntry pt (i1 virt) (mapEntry phys flags) := by
  obtain ⟨extend, found, -⟩ := pteGet_spec tree virt
  unfold vmmMap
  cases get : pteGet vm cr3 virt true with | mk result vm₁ =>
  rw [get] at extend found
  cases result with
  | none => exact .inl ⟨rfl, extend⟩
  | some cell =>
    obtain ⟨pt, i⟩ := cell
    obtain ⟨rfl, table⟩ := found pt i rfl
    exact .inr ⟨vm₁, pt, Option.some_ne_none _, extend, table, rfl⟩

/-- `vmm_unmap` clears the last entry when there is one. -/
theorem vmmUnmap_eq :
    vmmUnmap vm cr3 virt =
      match tableAt vm.mem cr3 [i2 virt, i3 virt, i4 virt] with
      | none => vm
      | some pt => vm.setEntry pt (i1 virt) 0 := by
  rw [vmmUnmap, pteGet_look tree]
  cases tableAt vm.mem cr3 [i2 virt, i3 virt, i4 virt] with
  | none => rfl
  | some pt => rfl

theorem vmmVirtToPhys_eq {pt : Word}
    (found : tableAt vm.mem cr3 [i2 virt, i3 virt, i4 virt] = some pt)
    (isPresent : present (vm.mem pt (i1 virt)) = true) :
    vmmVirtToPhys vm cr3 virt = frame (vm.mem pt (i1 virt)) ||| virt &&& 0xfff := by
  rw [vmmVirtToPhys, pteGet_look tree, found]
  exact if_pos isPresent

end Law

/-- The address of a page has no low bits. -/
theorem frame_page (e : Word) : frame e &&& 0xfff = 0 := by
  have apart : ptePhysMask &&& 0xfff = 0 := by decide
  rw [frame, BitVec.and_assoc, apart]
  exact BitVec.and_zero

/-- A page that is mapped is mapped to the frame, with what the flags and the tables there
were allow; unmapped it is absent; every other page stays as it was. -/
theorem vmmMap_frame_law {vm : Vm} {cr3 virt : Word} (tree : Tree vm cr3) (page : virt &&& 0xfff = 0)
    (phys flags : Word) (memory : (pteGet vm cr3 virt true).1 ≠ none) :
    let mapped := vmmMap vm cr3 virt phys flags
    let unmapped := vmmUnmap mapped cr3 virt
    walk mapped.mem cr3 virt =
        some ⟨frame (phys ||| flags), (above vm.mem cr3 virt).and (.ofEntry flags)⟩ ∧
      (frame phys = phys → flags &&& ptePhysMask = 0 → frame (phys ||| flags) = phys) ∧
      walk unmapped.mem cr3 virt = none ∧
      (∀ v, path v ≠ path virt →
        walk mapped.mem cr3 v = walk vm.mem cr3 v ∧ walk unmapped.mem cr3 v = walk vm.mem cr3 v) ∧
      ∀ k : BitVec 12,
        vmmVirtToPhys mapped cr3 (virt + k.setWidth 64) = frame (phys ||| flags) + k.setWidth 64 := by
  obtain ⟨none, -⟩ | ⟨vm₁, pt, -, extend, found, isMap⟩ := vmmMap_cases tree virt phys flags
  · exact absurd none memory
  intro mapped unmapped
  have tree' : Tree mapped cr3 := by
    rw [show mapped = _ from isMap]
    exact extend.tree.setLeaf found _
  have found' : tableAt mapped.mem cr3 [i2 virt, i3 virt, i4 virt] = some pt := by
    rw [show mapped = _ from isMap, table_setLeaf extend.tree found, found]
  have isUnmap : unmapped = mapped.setEntry pt (i1 virt) 0 := by
    rw [show unmapped = _ from vmmUnmap_eq tree' virt, found']
  have cell : mapped.mem pt (i1 virt) = mapEntry phys flags := by
    rw [show mapped = _ from isMap]
    exact setEntry_self pt (i1 virt) _
  have others : ∀ v, path v ≠ path virt → walk mapped.mem cr3 v = walk vm.mem cr3 v :=
    fun v other => by
      rw [show mapped = _ from isMap, walk_setLeaf_of_ne extend.tree found _ other, extend.walks]
  refine ⟨?_, fun physPage noAddress => ?_, ?_, fun v other => ⟨others v other, ?_⟩, fun k => ?_⟩
  · rw [show mapped = _ from isMap, walk_setLeaf extend.tree found, extend.above, leafMapping,
      present_mapEntry, if_pos rfl, frame_mapEntry, perms_mapEntry]
  · have same : frame (phys ||| flags) = phys ||| 0 := by
      rw [frame, BitVec.and_or_distrib_right, noAddress]
      exact congrArg (· ||| 0) physPage
    exact same.trans BitVec.or_zero
  · rw [isUnmap, walk_setLeaf tree' found']
    rfl
  · rw [isUnmap, walk_setLeaf_of_ne tree' found' _ other, others v other]
  · have same := path_add_offset page k
    simp only [path, List.cons.injEq, and_true] at same
    obtain ⟨same1, same2, same3, same4⟩ := same
    rw [vmmVirtToPhys_eq tree' (virt + k.setWidth 64) (by rw [same2, same3, same4, found']), same1, cell,
      frame_mapEntry, add_offset_low page, add_offset (frame_page _)]
    rw [same1, cell, present_mapEntry]

/-! ### An empty space -/

theorem tableAt_empty {mem : Pages} {cr3 : Word} (empty : ∀ i, present (mem cr3 i) = false)
    {place : List Index} {t : Word} (found : tableAt mem cr3 place = some t) :
    place = [] ∧ t = cr3 := by
  induction place generalizing t with
  | nil => exact ⟨rfl, (Option.some.inj found).symm⟩
  | cons i place ih =>
    obtain ⟨above, foundAbove, isChild⟩ := table_parent found
    obtain ⟨rfl, rfl⟩ := ih foundAbove
    rw [child_absent (empty i)] at isChild
    cases isChild

/-- A space without mappings is a tree. -/
theorem tree_empty {vm : Vm} {cr3 : Word} (empty : ∀ i, present (vm.mem cr3 i) = false)
    (fresh : cr3 ∉ vm.supply) (nodup : vm.supply.Nodup) (aligned : ∀ p ∈ vm.supply, frame p = p) :
    Tree vm cr3 where
  distinct p q t foundP foundQ := (tableAt_empty empty foundP).1.trans (tableAt_empty empty foundQ).1.symm
  small place t i _ found isPresent := by
    rw [(tableAt_empty empty found).2, empty i] at isPresent
    cases isPresent
  fresh p member place found := fresh ((tableAt_empty empty found).2 ▸ member)
  nodup := nodup
  aligned := aligned

/-- Three free pages. -/
def freePages : List Word := [0x400000, 0x401000, 0x402000]

theorem mem_freePages {p : Word} (member : p ∈ freePages) :
    p = 0x400000 ∨ p = 0x401000 ∨ p = 0x402000 := by
  simpa [freePages] using member

theorem aligned_freePages {p : Word} (member : p ∈ freePages) : frame p = p := by
  rcases mem_freePages member with rfl | rfl | rfl <;> decide

/-- Memory of zero bytes. -/
def clearVm : Vm := ⟨fun _ _ => 0, freePages, fun _ => 0, 0x4000000, [], fun _ => 0⟩

theorem tree_clearVm : Tree clearVm 0x403000 :=
  tree_empty (fun _ => (by decide : present 0 = false)) (by decide) (by decide)
    fun _ => aligned_freePages

theorem vmmMap_frame_law_clear :
    walk (vmmMap clearVm 0x403000 0x500000 0x600000 pteUser).mem 0x403000 0x500000 =
      some ⟨0x600000, ⟨false, true, false⟩⟩ := by
  have law := vmmMap_frame_law tree_clearVm (by decide : (0x500000 : Word) &&& 0xfff = 0) 0x600000
    pteUser (by decide +kernel)
  exact law.1

/-! ### The space of the kernel -/

/-- The tables `entry.S` fills in: one table of each level above pages of 2 MB. -/
def bootMem : Pages := fun p i =>
  if p = 0x1000 then if i = 0 then 0x2003 else 0
  else if p = 0x2000 then if i = 0 then 0x3003 else 0
  else if p = 0x3000 then i.setWidth 64 * 0x200000 + 0x83
  else 0

def bootVm : Vm := ⟨bootMem, freePages, fun _ => 0, 0x4000000, [], fun _ => 0⟩

theorem tableAt_boot {place : List Index} {t : Word} (found : tableAt bootMem 0x1000 place = some t) :
    place = [] ∧ t = 0x1000 ∨ place = [0] ∧ t = 0x2000 ∨ place = [0, 0] ∧ t = 0x3000 := by
  have root : ∀ i, child 0 (bootMem 0x1000 i) = if i = 0 then some 0x2000 else none := by
    decide +kernel
  have second : ∀ i, child 1 (bootMem 0x2000 i) = if i = 0 then some 0x3000 else none := by
    decide +kernel
  have third : ∀ i, child 2 (bootMem 0x3000 i) = none := by decide +kernel
  induction place generalizing t with
  | nil => exact .inl ⟨rfl, (Option.some.inj found).symm⟩
  | cons i place ih =>
    obtain ⟨above, foundAbove, isChild⟩ := table_parent found
    rcases ih foundAbove with ⟨rfl, rfl⟩ | ⟨rfl, rfl⟩ | ⟨rfl, rfl⟩
    · rw [List.length_nil, root] at isChild
      split at isChild
      · rename_i zero
        exact .inr (.inl ⟨by rw [zero], (Option.some.inj isChild).symm⟩)
      · cases isChild
    · rw [List.length_singleton, second] at isChild
      split at isChild
      · rename_i zero
        exact .inr (.inr ⟨by rw [zero], (Option.some.inj isChild).symm⟩)
      · cases isChild
    · rw [show [(0 : Index), 0].length = 2 from rfl, third] at isChild
      cases isChild

theorem tree_bootVm : Tree bootVm 0x1000 where
  distinct p q t foundP foundQ := by
    rcases tableAt_boot foundP with ⟨rfl, rfl⟩ | ⟨rfl, rfl⟩ | ⟨rfl, rfl⟩ <;>
      rcases tableAt_boot foundQ with ⟨rfl, same⟩ | ⟨rfl, same⟩ | ⟨rfl, same⟩ <;>
      first | rfl | exact absurd same (by decide)
  small place t i short found isPresent := by
    have low : ∀ i, huge (bootMem 0x1000 i) = false ∧ huge (bootMem 0x2000 i) = false := by
      decide +kernel
    rcases tableAt_boot found with ⟨rfl, rfl⟩ | ⟨rfl, rfl⟩ | ⟨rfl, rfl⟩
    · exact (low i).1
    · exact (low i).2
    · exact absurd short (by simp)
  fresh p member place found := by
    rcases mem_freePages member with rfl | rfl | rfl <;>
      rcases tableAt_boot found with ⟨-, same⟩ | ⟨-, same⟩ | ⟨-, same⟩ <;>
      exact absurd same (by decide)
  nodup := by decide
  aligned _ := aligned_freePages

/-- The tables of the kernel forbid ring 3 what the flags of a page allow. -/
theorem vmmMap_boot_not_user :
    Tree bootVm 0x1000 ∧ (pteGet bootVm 0x1000 0x500000 true).1 ≠ none ∧
      walk (vmmMap bootVm 0x1000 0x500000 0x600000 (ptePresent ||| pteWrite ||| pteUser)).mem 0x1000
          0x500000 =
        some ⟨0x600000, ⟨true, false, false⟩⟩ :=
  ⟨tree_bootVm, by decide +kernel, by decide +kernel⟩

end Systrix.Vmm
