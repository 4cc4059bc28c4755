import Systrix.Lib.Run
import Systrix.Vmm.PageFault

/-!
# Who may write after a fault

When the handlers of page faults make a page writable for ring 3 that no writable VMA
covers.
-/

namespace Systrix.Vmm

open TableTree

/-! ## Steps that map nothing -/

/-- What every address is mapped to stays, as do the tables. -/
structure Keeps (cr3 : Word) (vm vm' : Vm) : Prop where
  tree : Tree vm' cr3
  walks : ∀ virt, walk vm'.mem cr3 virt = walk vm.mem cr3 virt
  above : ∀ virt, above vm'.mem cr3 virt = above vm.mem cr3 virt
  tables : ∀ place t, tableAt vm.mem cr3 place = some t → tableAt vm'.mem cr3 place = some t

theorem Extends.keeps {cr3 : Word} {vm vm' : Vm} (extend : Extends cr3 vm vm') : Keeps cr3 vm vm' :=
  ⟨extend.tree, extend.walks, extend.above, extend.tables⟩

theorem Keeps.trans {cr3 : Word} {vm vm' vm'' : Vm} (first : Keeps cr3 vm vm')
    (second : Keeps cr3 vm' vm'') : Keeps cr3 vm vm'' where
  tree := second.tree
  walks virt := (second.walks virt).trans (first.walks virt)
  above virt := (second.above virt).trans (first.above virt)
  tables place t found := second.tables place t (first.tables place t found)

/-- What leaves the tables alone keeps the space. -/
theorem Tree.keeps {vm vm' : Vm} {cr3 : Word} (tree : Tree vm cr3)
    (same : ∀ place t, tableAt vm.mem cr3 place = some t → vm'.mem t = vm.mem t)
    (supply : vm'.supply.Sublist vm.supply) : Keeps cr3 vm vm' where
  tree := by
    refine ⟨tree.distinct.congr same, fun place t i short found isPresent => ?_,
      fun p member place => ?_, tree.nodup.sublist supply, fun p member => ?_⟩
    · rw [tableAt, table_congr same] at found
      rw [same place t found] at isPresent ⊢
      exact tree.small place t i short found isPresent
    · rw [tableAt, table_congr same]
      exact tree.fresh p (supply.subset member) place
    · exact tree.aligned p (supply.subset member)
  walks virt := (walk_congr same virt).1
  above virt := (walk_congr same virt).2
  tables place t found := (table_congr same place).trans found

/-- The memory after a page of the supply was filled. -/
def Vm.take (vm : Vm) (p : Word) (rest : List Word) (contents : Index → Word) : Vm :=
  { vm with
    mem := Function.update vm.mem p contents
    supply := rest
    refcnt := Function.update vm.refcnt p 1 }

theorem Tree.take {vm : Vm} {cr3 p : Word} {rest : List Word} (tree : Tree vm cr3)
    (supply : vm.supply = p :: rest) (contents : Index → Word) :
    Keeps cr3 vm (vm.take p rest contents) := by
  refine tree.keeps (filled_same (tree.fresh_head supply)) ?_
  rw [supply]
  exact List.sublist_cons_self p rest

theorem mapNew_eq {vm : Vm} {p : Word} {rest : List Word} (supply : vm.supply = p :: rest)
    (cr3 page : Word) (contents : Index → Word) (flags : Word) :
    mapNew vm cr3 page contents flags = some (vmmMap (vm.take p rest contents) cr3 page p flags) := by
  unfold mapNew pmmAlloc
  rw [supply]
  dsimp only [Vm.setPage, Vm.take]
  rw [Function.update_idem]

section Unref

variable (vm : Vm) (q : Word)

@[simp] theorem pmmFree_supply : (pmmFree vm q).supply = vm.supply := by
  unfold pmmFree
  split <;> rfl

@[simp] theorem pmmUnref_supply : (pmmUnref vm q).supply = vm.supply := by
  unfold pmmUnref
  split
  · rfl
  · dsimp only
    split
    · rw [pmmFree_supply]
    · rfl

/-- Dropping a reference writes to the page alone. -/
theorem pmmUnref_mem_of_ne {t : Word} (other : t ≠ q) : (pmmUnref vm q).mem t = vm.mem t := by
  unfold pmmUnref pmmFree
  split
  · rfl
  · dsimp only
    split
    · split
      · exact funext fun i => setEntry_of_ne _ fun same => absurd same other
      · rfl
    · rfl

/-- A page with another reference is not freed. -/
theorem pmmUnref_mem_of_shared (shared : 1 < vm.refcnt q) : (pmmUnref vm q).mem = vm.mem := by
  unfold pmmUnref
  split
  · rfl
  · have left : Function.update vm.refcnt q (vm.refcnt q - 1) q ≠ 0 := by
      rw [Function.update_self]
      omega
    dsimp only
    rw [if_neg left]

end Unref

/-! ## Permissions -/

/-- Ring 3 may write. -/
def Perms.userWrite (a : Perms) : Bool := a.write && a.ring3

theorem Perms.userWrite_and (a b : Perms) : (a.and b).userWrite = (a.userWrite && b.userWrite) := by
  simp [Perms.userWrite, Perms.and, Bool.and_assoc, Bool.and_left_comm]

theorem userWrite_or_write (e : Word) : (Perms.ofEntry (e ||| pteWrite)).userWrite = user e := by
  simp [Perms.userWrite, Perms.ofEntry, writable, user, pteWrite]

theorem userWrite_copyEntry (p : Word) :
    (Perms.ofEntry (p &&& ptePhysMask ||| ptePresent ||| pteWrite ||| pteUser)).userWrite = true := by
  simp [Perms.userWrite, Perms.ofEntry, writable, user, ptePresent, pteWrite, pteUser]

theorem present_copyEntry (p : Word) :
    present (p &&& ptePhysMask ||| ptePresent ||| pteWrite ||| pteUser) = true := by
  simp [present, ptePresent]

theorem userWrite_demandFlags (vma : Vma) :
    (Perms.ofEntry (demandFlags vma)).userWrite = vma.write := by
  unfold demandFlags
  cases vma.write with
  | true => decide
  | false => decide

theorem userWrite_enhancedFlags (vma : Vma) :
    (Perms.ofEntry (if vma.exec then demandFlags vma else demandFlags vma ||| pteNx)).userWrite =
      vma.write := by
  unfold demandFlags
  cases vma.write with
  | true => cases vma.exec <;> decide
  | false => cases vma.exec <;> decide

theorem userWrite_stackFlags :
    (Perms.ofEntry (ptePresent ||| pteWrite ||| pteUser)).userWrite = true := by decide

@[simp] theorem present_or_write (e : Word) : present (e ||| pteWrite) = present e := by
  simp [present, pteWrite]

/-- Ring 3 may write to the page of an address. -/
def userWritable (mem : Pages) (cr3 virt : Word) : Bool :=
  match walk mem cr3 virt with
  | some m => m.perms.userWrite
  | none => false

/-- A VMA that may be written covers a part of the page of an address. -/
def Covered (vmas : List Vma) (virt : Word) : Prop :=
  ∃ vma ∈ vmas, vma.write = true ∧ ∃ a, vma.start ≤ a ∧ a < vma.stop ∧ path a = path virt

/-- Every page ring 3 may write to could be written to before, or is covered. -/
def NoEscalation (cr3 : Word) (vmas : List Vma) (vm vm' : Vm) : Prop :=
  ∀ virt, userWritable vm'.mem cr3 virt = true →
    userWritable vm.mem cr3 virt = true ∨ Covered vmas virt

theorem Covered.congr {vmas : List Vma} {v virt : Word} (same : path v = path virt)
    (covered : Covered vmas virt) : Covered vmas v := by
  obtain ⟨vma, member, write, a, low, high, isPath⟩ := covered
  exact ⟨vma, member, write, a, low, high, isPath.trans same.symm⟩

/-- The permissions of an address are those of its page. -/
theorem userWritable_congr {v virt : Word} (same : path v = path virt) (mem : Pages) (cr3 : Word) :
    userWritable mem cr3 v = userWritable mem cr3 virt := by
  simp only [path, List.cons.injEq, and_true] at same
  obtain ⟨same1, same2, same3, same4⟩ := same
  unfold userWritable walk
  rw [same1, same2, same3, same4]
  dsimp only
  by_cases first : (present (mem cr3 (i4 virt)) && !huge (mem cr3 (i4 virt))) = true
  · rw [if_pos first, if_pos first]
    generalize mem (frame (mem cr3 (i4 virt))) (i3 virt) = e3
    by_cases giant : huge e3 = true
    · rw [if_pos giant, if_pos giant]
      cases present e3 <;> rfl
    · rw [if_neg giant, if_neg giant]
      generalize mem (frame e3) (i2 virt) = e2
      rw [hugeFrame, hugeFrame, same1]
  · rw [if_neg first, if_neg first]

theorem NoEscalation.refl (cr3 : Word) (vmas : List Vma) (vm : Vm) : NoEscalation cr3 vmas vm vm :=
  fun _ is => .inl is

theorem Keeps.noEscalation {cr3 : Word} {vm vm' : Vm} (keeps : Keeps cr3 vm vm') (vmas : List Vma) :
    NoEscalation cr3 vmas vm vm' := fun virt is => .inl (by
  unfold userWritable at is ⊢
  rwa [keeps.walks] at is)

section Leaf

variable {vm vm₁ : Vm} {cr3 virt pt : Word} (keeps : Keeps cr3 vm vm₁)
  (found : tableAt vm₁.mem cr3 [i2 virt, i3 virt, i4 virt] = some pt)

include keeps found

theorem userWritable_setLeaf (e : Word) :
    userWritable (vm₁.setEntry pt (i1 virt) e).mem cr3 virt =
      (present e && ((above vm.mem cr3 virt).and (.ofEntry e)).userWrite) := by
  rw [userWritable, walk_setLeaf keeps.tree found, keeps.above, leafMapping]
  cases present e with
  | true => rfl
  | false => rfl

/-- Storing a last entry escalates nothing when the page could be written to, is covered, or
the entry does not let ring 3 write. -/
theorem setLeaf_noEscalation_iff (vmas : List Vma) (e : Word) :
    NoEscalation cr3 vmas vm (vm₁.setEntry pt (i1 virt) e) ↔
      (present e = true → ((above vm.mem cr3 virt).and (.ofEntry e)).userWrite = true →
        userWritable vm.mem cr3 virt = true ∨ Covered vmas virt) := by
  constructor
  · intro safe isPresent write
    refine safe virt ?_
    rw [userWritable_setLeaf keeps found, isPresent, write]
    rfl
  · intro safe v is
    by_cases same : path v = path virt
    · rw [userWritable_congr same, userWritable_setLeaf keeps found, Bool.and_eq_true] at is
      rcases safe is.1 is.2 with before | covered
      · exact .inl ((userWritable_congr same vm.mem cr3).trans before)
      · exact .inr (covered.congr same)
    · refine .inl ?_
      unfold userWritable at is ⊢
      rwa [walk_setLeaf_of_ne keeps.tree found e same, keeps.walks] at is

end Leaf

/-- Mapping a page escalates nothing, when there is no memory for its tables, or the page
could be written to or is covered, or the tables and the flags do not let ring 3 write. -/
theorem vmmMap_noEscalation_iff {vm vm₁ : Vm} {cr3 : Word} (keeps : Keeps cr3 vm vm₁)
    (vmas : List Vma) (virt phys flags : Word) :
    NoEscalation cr3 vmas vm (vmmMap vm₁ cr3 virt phys flags) ↔
      ((pteGet vm₁ cr3 virt true).1 ≠ none →
        ((above vm.mem cr3 virt).and (.ofEntry flags)).userWrite = true →
        userWritable vm.mem cr3 virt = true ∨ Covered vmas virt) := by
  rcases vmmMap_cases keeps.tree virt phys flags with
    ⟨none, extend⟩ | ⟨vm₂, pt, memory, extend, found, isMap⟩
  · exact iff_of_true ((keeps.trans extend.keeps).noEscalation vmas) fun memory => absurd none memory
  · rw [isMap, setLeaf_noEscalation_iff (keeps.trans extend.keeps) found, present_mapEntry, perms_mapEntry]
    exact ⟨fun safe _ => safe rfl, fun safe _ => safe memory⟩

theorem vmmMap_tree {vm : Vm} {cr3 : Word} (tree : Tree vm cr3) (virt phys flags : Word) :
    Tree (vmmMap vm cr3 virt phys flags) cr3 := by
  rcases vmmMap_cases tree virt phys flags with ⟨-, extend⟩ | ⟨vm₁, pt, -, extend, found, isMap⟩
  · exact extend.tree
  · rw [isMap]
    exact extend.tree.setLeaf found _

/-! ## Extending the stack -/

theorem page_le (a : Word) : a &&& ~~~(0xfff : Word) ≤ a := by
  rw [BitVec.le_def, BitVec.toNat_and]
  exact Nat.and_le_left

theorem path_page (a : Word) : path (a &&& ~~~(0xfff : Word)) = path a := by
  have ones : ∀ j < 64, 12 ≤ j → (~~~(0xfff : Word)).getLsbD j = true := by decide
  have high : ∀ {start}, 12 ≤ start → start ≤ 39 →
      (a &&& ~~~(0xfff : Word)).extractLsb' start 9 = a.extractLsb' start 9 := by
    intro start low top
    refine BitVec.eq_of_getLsbD_eq fun i inside => ?_
    rw [BitVec.getLsbD_extractLsb', BitVec.getLsbD_extractLsb', BitVec.getLsbD_and,
      ones (start + i) (by omega) (by omega), Bool.and_true]
  simp only [path, i1, i2, i3, i4, high (by decide : 12 ≤ 12) (by decide),
    high (by decide : 12 ≤ 21) (by decide), high (by decide : 12 ≤ 30) (by decide),
    high (by decide : 12 ≤ 39) (by decide)]

section Modify

variable {vmas : List Vma} {i : Nat} {stack : Vma} {fault : Fault} {virt : Word}
  (entry : vmas[i]? = some stack)

include entry

/-- The VMAs after the one of the stack was extended. -/
theorem mem_modify_start {start : Word} {vma : Vma} :
    vma ∈ vmas.modify i (fun vma => { vma with start := start }) ↔
      vma = { stack with start := start } ∨ ∃ j ≠ i, vmas[j]? = some vma := by
  rw [List.mem_iff_getElem?]
  constructor
  · rintro ⟨j, isEntry⟩
    rw [List.getElem?_modify] at isEntry
    by_cases same : i = j
    · subst same
      rw [entry] at isEntry
      simp only [if_true, Option.map_eq_map, Option.map_some, Option.some.injEq] at isEntry
      exact .inl isEntry.symm
    · simp only [if_neg same, Option.map_eq_map, Option.map_id'] at isEntry
      exact .inr ⟨j, Ne.symm same, isEntry⟩
  · rintro (rfl | ⟨j, other, isEntry⟩)
    · refine ⟨i, ?_⟩
      rw [List.getElem?_modify, entry]
      simp
    · refine ⟨j, ?_⟩
      rw [List.getElem?_modify, isEntry]
      simp [other.symm]

variable (high : fault.addr < stack.start)

include high

omit entry in
theorem page_lt : fault.page < stack.start := by
  have low := page_le fault.addr
  rw [BitVec.lt_def] at high ⊢
  exact Nat.lt_of_le_of_lt low high

/-- Extending the VMA of the stack downwards uncovers nothing. -/
theorem Covered.modify (covered : Covered vmas virt) :
    Covered (vmas.modify i fun vma => { vma with start := fault.page }) virt := by
  obtain ⟨vma, member, write, a, low, isBelow, isPath⟩ := covered
  obtain ⟨j, isEntry⟩ := List.mem_iff_getElem?.mp member
  by_cases same : j = i
  · subst same
    cases entry.symm.trans isEntry
    have pageLow : fault.page ≤ a := BitVec.le_trans (BitVec.le_of_lt (page_lt high)) low
    exact ⟨_, (mem_modify_start entry).mpr (.inl rfl), write, a, pageLow, isBelow, isPath⟩
  · exact ⟨vma, (mem_modify_start entry).mpr (.inr ⟨j, same, isEntry⟩), write, a, low, isBelow, isPath⟩

/-- What covers the page by which the stack grows. -/
theorem covered_modify_iff (live : stack.start < stack.stop) :
    Covered (vmas.modify i fun vma => { vma with start := fault.page }) fault.page ↔
      stack.write = true ∨ Covered vmas fault.page := by
  constructor
  · rintro ⟨vma, member, write, a, low, isBelow, isPath⟩
    rcases (mem_modify_start entry).mp member with rfl | ⟨j, -, isEntry⟩
    · exact .inl write
    · exact .inr ⟨vma, List.mem_iff_getElem?.mpr ⟨j, isEntry⟩, write, a, low, isBelow, isPath⟩
  · rintro (write | covered)
    · exact ⟨_, (mem_modify_start entry).mpr (.inl rfl), write, fault.page, BitVec.le_refl _,
        BitVec.lt_trans (page_lt high) live, rfl⟩
    · exact covered.modify entry high

end Modify

/-! ## The handlers -/

section Handlers

/-- Of a page that is present and that the copy-on-write part makes writable for ring 3: it
was before, or it is covered. -/
def WriteCovered (vm : Vm) (cr3 : Word) (vmas : List Vma) (page : Word) : Prop :=
  ∀ pt, tableAt vm.mem cr3 [i2 page, i3 page, i4 page] = some pt →
    let e := vm.mem pt (i1 page)
    let shared := 1 < pmmRefcount vm (frame e)
    present e = true → (shared → vm.supply ≠ []) → (user e = true ∨ shared) →
      (above vm.mem cr3 page).userWrite = true →
      userWritable vm.mem cr3 page = true ∨ Covered vmas page

/-- Of a page by which the stack grows: ring 3 could write to it, or the stack may be
written, or the page is covered. -/
def StackCovered (vm : Vm) (cr3 : Word) (vmas : List Vma) (fault : Fault) : Prop :=
  ∀ i stack p rest, stackVma vmas = some i → vmas[i]? = some stack →
    stack.start - 0x1000 ≤ fault.addr → fault.addr < stack.start → vm.supply = p :: rest →
    (pteGet (vm.take p rest fun _ => 0) cr3 fault.page true).1 ≠ none →
    (above vm.mem cr3 fault.page).userWrite = true →
      userWritable vm.mem cr3 fault.page = true ∨ stack.write = true ∨ Covered vmas fault.page

theorem stackVma_some {vmas : List Vma} {i : Nat} (isStack : stackVma vmas = some i) :
    ∃ stack, vmas[i]? = some stack ∧ stack.start < stack.stop := by
  obtain ⟨inside, live, -⟩ := List.findIdx?_eq_some_iff_getElem.mp isStack
  refine ⟨vmas[i], List.getElem?_eq_getElem inside, ?_⟩
  rw [Bool.and_eq_true, decide_eq_true_eq] at live
  exact live.1

/-- The page that expands the stack is writable, and the VMA of the stack covers it then. -/
theorem handleStackExpansion_cases (vm : Vm) (cr3 : Word) (vmas : List Vma) (fault : Fault) :
    handleStackExpansion vm cr3 vmas fault = none ∧ StackCovered vm cr3 vmas fault ∨
    ∃ i stack p rest, vmas[i]? = some stack ∧ vm.supply = p :: rest ∧ fault.addr < stack.start ∧
      stack.start < stack.stop ∧
      handleStackExpansion vm cr3 vmas fault =
        some (vmmMap (vm.take p rest fun _ => 0) cr3 fault.page p (ptePresent ||| pteWrite ||| pteUser),
          vmas.modify i fun vma => { vma with start := fault.page }) ∧
      (StackCovered vm cr3 vmas fault ↔
        ((pteGet (vm.take p rest fun _ => 0) cr3 fault.page true).1 ≠ none →
          (above vm.mem cr3 fault.page).userWrite = true →
          userWritable vm.mem cr3 fault.page = true ∨ stack.write = true ∨
            Covered vmas fault.page)) := by
  unfold handleStackExpansion StackCovered
  cases isStack : stackVma vmas with
  | none => exact .inl ⟨rfl, fun _ _ _ _ none => by cases none⟩
  | some i =>
    obtain ⟨stack, entry, live⟩ := stackVma_some isStack
    simp only [entry, Option.map_some, Option.getD_some]
    by_cases below : fault.addr < stack.start - 0x1000
    · refine .inl ⟨if_pos below, fun j stack' p rest same entry' low => ?_⟩
      cases same
      cases entry.symm.trans entry'
      exact absurd below (BitVec.not_lt.mpr low)
    · rw [if_neg below]
      by_cases inside : stack.start ≤ fault.addr
      · refine .inl ⟨if_pos inside, fun j stack' p rest same entry' _ high => ?_⟩
        cases same
        cases entry.symm.trans entry'
        exact absurd high (BitVec.not_lt.mpr inside)
      · rw [if_neg inside]
        have low := BitVec.not_lt.mp below
        have high := BitVec.not_le.mp inside
        cases supply : vm.supply with
        | nil =>
          refine .inl ⟨?_, fun j stack' p rest _ _ _ _ none => by cases none⟩
          unfold mapNew pmmAlloc
          rw [supply]
        | cons p rest =>
          refine .inr ⟨i, stack, p, rest, entry, rfl, high, live, ?_, fun covered => ?_, fun covered => ?_⟩
          · rw [mapNew_eq supply]
          · exact covered i stack p rest rfl entry low high rfl
          · intro j stack' p' rest' same entry' _ _ same'
            cases same
            cases same'
            cases entry.symm.trans entry'
            exact covered

variable {vm : Vm} {cr3 : Word} (tree : Tree vm cr3) (vmas : List Vma) (fault : Fault)

include tree

/-- A shared page is copied to a page of the supply, and nothing is mapped elsewhere. -/
theorem Tree.copy {p old : Word} {rest : List Word} (supply : vm.supply = p :: rest)
    (shared : 1 < pmmRefcount vm old) (contents : Index → Word) :
    Keeps cr3 vm (pmmUnref (vm.take p rest contents) old) := by
  refine tree.keeps (fun place t found => ?_) ?_
  · have taken : (vm.take p rest contents).mem t = vm.mem t :=
      filled_same (tree.fresh_head supply) place t found
    by_cases fresh : old = p
    · have other : t ≠ old := fun same =>
        tree.fresh_head supply place (found.trans (congrArg some (same.trans fresh)))
      rw [pmmUnref_mem_of_ne _ _ other, taken]
    · have counted : 1 < vm.refcnt old := by
        unfold pmmRefcount at shared
        split at shared
        · exact shared
        · omega
      rw [pmmUnref_mem_of_shared, taken]
      show 1 < Function.update vm.refcnt p 1 old
      rw [Function.update_of_ne fresh]
      exact counted
  · rw [pmmUnref_supply, supply]
    exact List.sublist_cons_self p rest

/-- The copy-on-write part maps nothing, or stores a last entry. -/
theorem cowFault_cases (page : Word) :
    (cowFault vm cr3 page).2 = vm ∧ WriteCovered vm cr3 vmas page ∨
    ∃ vm₁ pt e, Keeps cr3 vm vm₁ ∧ tableAt vm₁.mem cr3 [i2 page, i3 page, i4 page] = some pt ∧
      (cowFault vm cr3 page).2 = vm₁.setEntry pt (i1 page) e ∧
      (WriteCovered vm cr3 vmas page ↔
        (present e = true → ((above vm.mem cr3 page).and (.ofEntry e)).userWrite = true →
          userWritable vm.mem cr3 page = true ∨ Covered vmas page)) := by
  unfold cowFault WriteCovered
  rw [pteGet_look tree]
  cases found : tableAt vm.mem cr3 [i2 page, i3 page, i4 page] with
  | none => exact .inl ⟨rfl, fun pt none => by cases none⟩
  | some pt =>
    dsimp only [Option.map_some]
    by_cases isPresent : present (vm.mem pt (i1 page)) = true
    · rw [if_pos isPresent]
      by_cases sole : pmmRefcount vm (frame (vm.mem pt (i1 page))) ≤ 1
      · rw [if_pos sole]
        refine .inr ⟨vm, pt, _, (Extends.refl tree).keeps, found, rfl, ?_⟩
        rw [present_or_write, Perms.userWrite_and, userWrite_or_write, Bool.and_eq_true]
        constructor
        · intro safe _ allowed
          exact safe pt rfl isPresent (fun shared => absurd sole (Nat.not_le.mpr shared))
            (.inl allowed.2) allowed.1
        · intro safe pt' same _ _ reached write
          cases same
          exact safe isPresent ⟨write, reached.resolve_right (Nat.not_lt.mpr sole)⟩
      · rw [if_neg sole]
        have shared := Nat.lt_of_not_le sole
        unfold pmmAlloc
        cases supply : vm.supply with
        | nil =>
          refine .inl ⟨rfl, fun pt' same _ memory => ?_⟩
          cases same
          exact absurd rfl (memory shared)
        | cons p rest =>
          have copied := tree.copy supply shared (Function.update vm.mem p (fun _ => 0)
            (frame (vm.mem pt (i1 page))))
          dsimp only [Vm.setPage]
          rw [Function.update_idem]
          refine .inr ⟨_, pt, _, copied, copied.tables _ _ found, rfl, ?_⟩
          rw [present_copyEntry, Perms.userWrite_and, userWrite_copyEntry, Bool.and_true]
          constructor
          · intro safe _ write
            exact safe pt rfl isPresent (fun _ => List.cons_ne_nil p rest) (.inr shared) write
          · intro safe pt' same _ _ _ write
            cases same
            exact safe rfl write
    · rw [if_neg isPresent]
      refine .inl ⟨rfl, fun pt' same isPresent' => ?_⟩
      cases same
      exact absurd isPresent' isPresent

theorem cowFault_noEscalation_iff (page : Word) :
    NoEscalation cr3 vmas vm (cowFault vm cr3 page).2 ↔ WriteCovered vm cr3 vmas page := by
  rcases cowFault_cases tree vmas page with ⟨isSame, covered⟩ | ⟨vm₁, pt, e, keeps, found, isSet, covered⟩
  · rw [isSame]
    exact iff_of_true (.refl cr3 vmas vm) covered
  · rw [isSet, covered]
    exact setLeaf_noEscalation_iff keeps found vmas e

theorem cowFault_tree (page : Word) : Tree (cowFault vm cr3 page).2 cr3 := by
  rcases cowFault_cases tree [] page with ⟨isSame, -⟩ | ⟨vm₁, pt, e, keeps, found, isSet, -⟩
  · rw [isSame]
    exact tree
  · rw [isSet]
    exact keeps.tree.setLeaf found e

/-- A new page is mapped with what the VMA that covers it allows. -/
theorem mapNew_noEscalation {vma : Vma} (isVma : vmmFindVma vmas fault.addr = some vma)
    {contents : Index → Word} {flags : Word} (write : (Perms.ofEntry flags).userWrite = vma.write)
    {vm' : Vm} (mapped : mapNew vm cr3 fault.page contents flags = some vm') :
    NoEscalation cr3 vmas vm vm' ∧ Tree vm' cr3 := by
  cases supply : vm.supply with
  | nil =>
    unfold mapNew pmmAlloc at mapped
    rw [supply] at mapped
    cases mapped
  | cons p rest =>
    have taken := tree.take supply contents
    rw [mapNew_eq supply] at mapped
    cases mapped
    refine ⟨(vmmMap_noEscalation_iff taken vmas _ _ _).mpr fun _ allowed => .inr ?_, vmmMap_tree taken.tree _ _ _⟩
    rw [Perms.userWrite_and, write, Bool.and_eq_true] at allowed
    have covers := List.find?_some isVma
    simp only [Bool.and_eq_true, decide_eq_true_eq] at covers
    exact ⟨vma, List.mem_of_find?_eq_some isVma, allowed.2, fault.addr, covers.1.2, covers.2,
      (path_page fault.addr).symm⟩

theorem vmmPageFault_noEscalation_iff :
    NoEscalation cr3 vmas vm (vmmPageFault vm (some ⟨cr3, some vmas⟩) fault).2 ↔
      (fault.isProt = true → fault.isWrite = true → WriteCovered vm cr3 vmas fault.page) := by
  unfold vmmPageFault
  dsimp only
  cases isProt : fault.isProt with
  | true =>
    cases isWrite : fault.isWrite with
    | true =>
      rw [Bool.and_self, if_pos rfl, cowFault_noEscalation_iff tree]
      exact ⟨fun safe _ _ => safe, fun safe => safe rfl rfl⟩
    | false => exact iff_of_true (.refl cr3 vmas vm) fun _ write => by cases write
  | false =>
    refine iff_of_true ?_ fun prot => by cases prot
    rw [Bool.false_and, if_neg Bool.false_ne_true, if_neg Bool.false_ne_true]
    cases isVma : vmmFindVma vmas fault.addr with
    | none => exact .refl cr3 vmas vm
    | some vma =>
      dsimp only
      cases mapped : mapNew vm cr3 fault.page _ (demandFlags vma) with
      | none => exact .refl cr3 vmas vm
      | some vm' => exact (mapNew_noEscalation tree vmas fault isVma (userWrite_demandFlags vma) mapped).1

theorem vmmPageFault_tree : Tree (vmmPageFault vm (some ⟨cr3, some vmas⟩) fault).2 cr3 := by
  unfold vmmPageFault
  dsimp only
  split
  · exact cowFault_tree tree _
  · split
    · exact tree
    · split
      · exact tree
      · rename_i vma isVma
        split
        · exact tree
        · rename_i vm' mapped
          exact (mapNew_noEscalation tree vmas fault isVma (userWrite_demandFlags vma) mapped).2

/-- What the enhanced handler does to the space, and to the VMAs. -/
theorem vmmPageFaultEnhanced_spec :
    let r := vmmPageFaultEnhanced vm (some ⟨cr3, some vmas⟩) fault
    ∃ vmas', r.2.2 = some ⟨cr3, some vmas'⟩ ∧ Tree r.2.1 cr3 ∧
      (∀ virt, Covered vmas virt → Covered vmas' virt) ∧
      (NoEscalation cr3 vmas' vm r.2.1 ↔
        (fault.isProt = true → fault.isWrite = true → WriteCovered vm cr3 vmas fault.page) ∧
          (fault.isProt = false → StackCovered vm cr3 vmas fault)) := by
  intro r
  cases isProt : fault.isProt with
  | true =>
    cases isWrite : fault.isWrite with
    | true =>
      have isCow : r = ((cowFault vm cr3 fault.page).1, (cowFault vm cr3 fault.page).2,
          some ⟨cr3, some vmas⟩) := by
        simp [r, vmmPageFaultEnhanced, isProt, isWrite]
      rw [isCow]
      refine ⟨vmas, rfl, cowFault_tree tree _, fun _ => id, ?_⟩
      rw [cowFault_noEscalation_iff tree]
      exact ⟨fun safe => ⟨fun _ _ => safe, fun not => by cases not⟩, fun safe => safe.1 rfl rfl⟩
    | false =>
      have isSame : r = (false, vm, some ⟨cr3, some vmas⟩) := by
        simp [r, vmmPageFaultEnhanced, isProt, isWrite]
      rw [isSame]
      refine ⟨vmas, rfl, tree, fun _ => id, iff_of_true (.refl cr3 vmas vm) ⟨?_, ?_⟩⟩
      · exact fun _ write => by cases write
      · exact fun not => by cases not
  | false =>
    rcases handleStackExpansion_cases vm cr3 vmas fault with
      ⟨isNone, covered⟩ | ⟨i, stack, p, rest, entry, supply, high, live, isSome, covered⟩
    · have noStack : (false = true → fault.isWrite = true → WriteCovered vm cr3 vmas fault.page) ∧
          (false = false → StackCovered vm cr3 vmas fault) :=
        ⟨fun not => (by cases not), fun _ => covered⟩
      cases isVma : vmmFindVma vmas fault.addr with
      | none =>
        have isSame : r = (false, vm, some ⟨cr3, some vmas⟩) := by
          simp [r, vmmPageFaultEnhanced, isProt, isNone, isVma]
        rw [isSame]
        exact ⟨vmas, rfl, tree, fun _ => id, iff_of_true (.refl cr3 vmas vm) noStack⟩
      | some vma =>
        cases mapped : mapNew vm cr3 fault.page (fun _ => 0)
            (if vma.exec then demandFlags vma else demandFlags vma ||| pteNx) with
        | none =>
          have isSame : r = (false, vm, some ⟨cr3, some vmas⟩) := by
            simp only [r, vmmPageFaultEnhanced, isProt, isNone, isVma, mapped, Bool.false_and]
            rfl
          rw [isSame]
          exact ⟨vmas, rfl, tree, fun _ => id, iff_of_true (.refl cr3 vmas vm) noStack⟩
        | some vm' =>
          have isMapped : r = (true, vm', some ⟨cr3, some vmas⟩) := by
            simp only [r, vmmPageFaultEnhanced, isProt, isNone, isVma, mapped, Bool.false_and]
            rfl
          obtain ⟨safe, tree'⟩ :=
            mapNew_noEscalation tree vmas fault isVma (userWrite_enhancedFlags vma) mapped
          rw [isMapped]
          exact ⟨vmas, rfl, tree', fun _ => id, iff_of_true safe noStack⟩
    · have isStack : r = (true, vmmMap (vm.take p rest fun _ => 0) cr3 fault.page p
          (ptePresent ||| pteWrite ||| pteUser),
          some ⟨cr3, some (vmas.modify i fun vma => { vma with start := fault.page })⟩) := by
        simp [r, vmmPageFaultEnhanced, isProt, isSome]
      have taken := tree.take supply fun _ => 0
      rw [isStack]
      refine ⟨_, rfl, vmmMap_tree taken.tree _ _ _, fun virt => ?_, ?_⟩
      · exact Covered.modify entry high
      · rw [vmmMap_noEscalation_iff taken, Perms.userWrite_and, userWrite_stackFlags, Bool.and_true,
          covered_modify_iff entry high live, ← covered]
        exact ⟨fun safe => ⟨fun not => (by cases not), fun _ => safe⟩, fun safe => safe.2 rfl⟩

end Handlers

/-! ## Runs of faults -/

/-- The memory and the process whose accesses fault. -/
structure Pager where
  vm : Vm
  task : Task

/-- The VMAs of a process; there are none when there was no memory for the table. -/
def Task.vmas (task : Task) : List Vma := task.vma_table.getD []

inductive Handler where
  | vmmPageFault
  | vmmPageFaultEnhanced

/-- One fault and its handler. -/
def Pager.fault (s : Pager) : Handler × Fault → Pager
  | (.vmmPageFault, fault) => { s with vm := (Vmm.vmmPageFault s.vm (some s.task) fault).2 }
  | (.vmmPageFaultEnhanced, fault) =>
      let r := Vmm.vmmPageFaultEnhanced s.vm (some s.task) fault
      ⟨r.2.1, r.2.2.getD s.task⟩

/-- The page a fault makes writable for ring 3 was so before, or may be written. -/
def FaultSafe (s : Pager) : Handler × Fault → Prop
  | (handler, fault) => ∀ vmas, s.task.vma_table = some vmas →
      (fault.isProt = true → fault.isWrite = true →
        WriteCovered s.vm s.task.cr3 vmas fault.page) ∧
      match handler with
      | .vmmPageFault => True
      | .vmmPageFaultEnhanced =>
          fault.isProt = false → StackCovered s.vm s.task.cr3 vmas fault

/-- Ring 3 may write to no page it could not write to before, but to covered ones. -/
def Guarded (s s' : Pager) : Prop := NoEscalation s.task.cr3 s'.task.vmas s.vm s'.vm

/-- What a fault leaves of a process: its tables are a tree, and no page is uncovered. -/
structure Follows (s s' : Pager) : Prop where
  cr3 : s'.task.cr3 = s.task.cr3
  tree : Tree s'.vm s.task.cr3
  covered : ∀ virt, Covered s.task.vmas virt → Covered s'.task.vmas virt

theorem Guarded.trans {s s' s'' : Pager} (follows : Follows s s') (follows' : Follows s' s'')
    (first : Guarded s s') (second : Guarded s' s'') : Guarded s s'' := by
  intro virt is
  have before := second virt (by rwa [follows.cr3])
  rw [follows.cr3] at before
  rcases before with before | covered
  · exact (first virt before).imp_right (follows'.covered virt)
  · exact .inr covered

theorem fault_spec {s : Pager} (tree : Tree s.vm s.task.cr3) (op : Handler × Fault) :
    Follows s (s.fault op) ∧ (Guarded s (s.fault op) ↔ FaultSafe s op) := by
  obtain ⟨handler, fault⟩ := op
  obtain ⟨vm, cr3, vma_table⟩ := s
  unfold Guarded FaultSafe
  cases vma_table with
  | none =>
    cases handler with
    | vmmPageFault => exact ⟨⟨rfl, tree, fun _ => id⟩, iff_of_true (.refl _ _ _) fun _ none => by cases none⟩
    | vmmPageFaultEnhanced =>
      exact ⟨⟨rfl, tree, fun _ => id⟩, iff_of_true (.refl _ _ _) fun _ none => by cases none⟩
  | some vmas =>
    cases handler with
    | vmmPageFault =>
      refine ⟨⟨rfl, vmmPageFault_tree tree vmas fault, fun _ => id⟩, ?_⟩
      refine (vmmPageFault_noEscalation_iff tree vmas fault).trans ⟨fun safe vmas' same => ?_, fun safe => ?_⟩
      · cases same
        exact ⟨safe, trivial⟩
      · exact (safe vmas rfl).1
    | vmmPageFaultEnhanced =>
      obtain ⟨vmas', isTask, tree', covered, safe⟩ := vmmPageFaultEnhanced_spec tree vmas fault
      have isAfter : (Pager.fault ⟨vm, cr3, some vmas⟩ (.vmmPageFaultEnhanced, fault)) =
          ⟨(Vmm.vmmPageFaultEnhanced vm (some ⟨cr3, some vmas⟩) fault).2.1, cr3, some vmas'⟩ := by
        show Pager.mk _ _ = _
        rw [isTask]
        rfl
      rw [isAfter]
      refine ⟨⟨rfl, tree', covered⟩, safe.trans ⟨fun safe vmas'' same => ?_, fun safe => safe vmas rfl⟩⟩
      cases same
      exact safe

/-- A fault gives ring 3 no page to write to that no VMA with `VMA_WRITE` covers exactly when
it is safe, and a run of safe faults gives none. -/
theorem faults_guarded {s : Pager} (tree : Tree s.vm s.task.cr3) :
    (∀ op, Guarded s (s.fault op) ↔ FaultSafe s op) ∧
      ∀ ops, Run.Meets Pager.fault FaultSafe s ops → Guarded s (Run.final Pager.fault s ops) := by
  refine ⟨fun op => (fault_spec tree op).2, fun ops safe => ?_⟩
  refine (Run.Meets.invariant (I := fun s' => Follows s s' ∧ Guarded s s') ?_ safe
    ⟨⟨rfl, tree, fun _ => id⟩, .refl _ _ _⟩).2
  intro s' op ⟨follows, guarded⟩ safe
  have tree' : Tree s'.vm s'.task.cr3 := by
    rw [follows.cr3]
    exact follows.tree
  obtain ⟨follows', iff⟩ := fault_spec tree' op
  refine ⟨⟨follows'.cr3.trans follows.cr3, ?_, fun virt => ?_⟩,
    .trans follows follows' guarded (iff.mpr safe)⟩
  · rw [← follows.cr3]
    exact follows'.tree
  · exact fun covered => follows'.covered virt (follows.covered virt covered)

/-- A process whose memory is not mapped yet. -/
def demandPager : Pager := ⟨clearVm, 0x403000, some [⟨0x500000, 0x502000, 3, -1⟩]⟩

/-- The faults of its writes. -/
def demandFaults : List (Handler × Fault) :=
  [(.vmmPageFault, ⟨0x500010, 6, fun _ => 0⟩), (.vmmPageFaultEnhanced, ⟨0x900000, 6, fun _ => 0⟩)]

theorem faults_guarded_demand :
    Guarded demandPager (Run.final Pager.fault demandPager demandFaults) := by
  refine (faults_guarded tree_clearVm).2 _ ⟨fun vmas _ => ⟨fun prot => ?_, trivial⟩,
    fun vmas same => ⟨fun prot => ?_, fun _ i stack p rest isStack => ?_⟩, trivial⟩
  · cases prot
  · cases prot
  · cases same
    cases isStack

/-- The page `elf_load` maps for a segment that may not be written; the process has the
VMAs of `vmm_vma_create`. -/
def readOnlyPager : Pager :=
  ⟨vmmMap { clearVm with refcnt := fun _ => 1 } 0x403000 0x500000 0x600000 (ptePresent ||| pteUser),
    0x403000, some (List.replicate 32 ⟨0, 0, 0, 0⟩)⟩

theorem readOnly_made_writable :
    let fault : Fault := ⟨0x500000, 7, fun _ => 0⟩
    let after := vmmPageFault readOnlyPager.vm (some readOnlyPager.task) fault
    Tree readOnlyPager.vm 0x403000 ∧
      userWritable readOnlyPager.vm.mem 0x403000 0x500000 = false ∧ after.1 = true ∧
      userWritable after.2.mem 0x403000 0x500000 = true ∧
      ¬ ∃ vma ∈ readOnlyPager.task.vmas, vma.write = true := by
  have counted : Tree { clearVm with refcnt := fun _ => 1 } 0x403000 :=
    tree_empty (fun _ => (by decide : present 0 = false)) (by decide) (by decide)
      fun _ => aligned_freePages
  exact ⟨vmmMap_tree counted 0x500000 0x600000 (ptePresent ||| pteUser), by decide +kernel,
    by decide +kernel, by decide +kernel, by decide⟩

end Systrix.Vmm
