import Mathlib.Algebra.Order.BigOperators.Group.List
import Mathlib.Algebra.Order.Group.Nat
import Systrix.Lib.Counting
import Systrix.Vmm.Mapping
import Systrix.Vmm.Spaces

/-!
# Spaces stay apart

Each call keeps the spaces isolated, and the teardown of one changes nothing of the others.
-/

namespace Systrix.Vmm

open TableTree

/-! ## Calls that take pages -/

/-- Spaces stay isolated when one gets new tables, of pages nobody used, and user pages that
are no tables and have their references. -/
theorem Isolated.grow {s s' : Spaces} (isolated : Isolated s) (roots : s'.roots = s.roots)
    (supply : s'.vm.supply = []) (cr3 : Word) (newTable newPage : Word → Prop)
    (shape : ∀ r ∈ s.roots, Shape s'.vm.mem r)
    (tables : ∀ r ∈ s.roots, ∀ p, IsTable s'.vm.mem r p → IsTable s.vm.mem r p ∨ r = cr3 ∧ newTable p)
    (pages : ∀ r ∈ s.roots, ∀ p, IsUserPage s'.vm.mem r p → IsUserPage s.vm.mem r p ∨ newPage p)
    (unused : ∀ p, newTable p → ∀ r ∈ s.roots, ¬ Uses s.vm.mem r p)
    (noTable : ∀ p, newPage p → ¬ newTable p ∧ ∀ r ∈ s.roots, ¬ IsTable s.vm.mem r p)
    (counted : ∀ p, inRam s'.vm p = true → s'.vm.refcnt p ≠ 0 → s'.mapped p ≤ s'.vm.refcnt p)
    (freed : s'.vm.freed.Sublist s.vm.freed)
    (taken : ∀ p ∈ s'.vm.freed, ¬ newTable p ∧ ¬ newPage p) : Isolated s' where
  supply := supply
  roots := by rw [roots]; exact isolated.roots
  shape r isRoot := shape r (roots ▸ isRoot)
  tables r isRoot r' isRoot' other p table table' := by
    rw [roots] at isRoot isRoot'
    rcases tables r isRoot p table with old | ⟨rfl, new⟩
    · rcases tables r' isRoot' p table' with old' | ⟨-, new'⟩
      · exact isolated.tables r isRoot r' isRoot' other p old old'
      · exact unused p new' r isRoot (.inl old)
    · rcases tables r' isRoot' p table' with old' | ⟨same, -⟩
      · exact unused p new r' isRoot' (.inl old')
      · exact other same.symm
  pages r isRoot r' isRoot' p page table := by
    rw [roots] at isRoot isRoot'
    rcases pages r isRoot p page with old | new
    · rcases tables r' isRoot' p table with old' | ⟨-, new'⟩
      · exact isolated.pages r isRoot r' isRoot' p old old'
      · exact unused p new' r isRoot (.inr old)
    · rcases tables r' isRoot' p table with old' | ⟨-, new'⟩
      · exact (noTable p new).2 r' isRoot' old'
      · exact (noTable p new).1 new'
  counted := counted
  free p member r isRoot uses := by
    rw [roots] at isRoot
    have old := isolated.free p (freed.subset member) r isRoot
    rcases uses with table | page
    · rcases tables r isRoot p table with old' | ⟨-, new⟩
      · exact old (.inl old')
      · exact (taken p member).1 new
    · rcases pages r isRoot p page with old' | new
      · exact old (.inr old')
      · exact (taken p member).2 new
  once := isolated.once.sublist freed

/-- Spaces whose tables do not change stay isolated. -/
theorem Isolated.agree {s s' : Spaces} (isolated : Isolated s) (roots : s'.roots = s.roots)
    (supply : s'.vm.supply = []) (agree : ∀ r ∈ s.roots, Agree s.vm.mem s'.vm.mem r)
    (counted : ∀ p, inRam s'.vm p = true → s'.vm.refcnt p ≠ 0 → s.mapped p ≤ s'.vm.refcnt p)
    (freed : s'.vm.freed.Sublist s.vm.freed) : Isolated s' := by
  have mapped : ∀ p, s'.mapped p = s.mapped p := fun p => by
    rw [Spaces.mapped, Spaces.mapped, roots]
    exact congrArg List.sum (List.map_congr_left fun r isRoot => (agree r isRoot).mappings p)
  refine isolated.grow roots supply 0 (fun _ => False) (fun _ => False)
    (fun r isRoot => (agree r isRoot).shape (isolated.shape r isRoot))
    (fun r isRoot p table => .inl ((agree r isRoot).isTable.mp table))
    (fun r isRoot p page => .inl ((agree r isRoot).isUserPage.mp page)) ?_ ?_ ?_ freed ?_
  · exact fun _ none => none.elim
  · exact fun _ none => none.elim
  · intro p managed references
    rw [mapped]
    exact counted p managed references
  · exact fun _ _ => ⟨id, id⟩

section Calls

variable {s : Spaces} (isolated : Isolated s)

include isolated

theorem ref_isolated {p : Word} (clean : SpaceOp.Clean s (.ref p)) : Isolated (s.step (.ref p)) := by
  refine isolated.agree rfl ?_ ?_ (fun q managed references => ?_) ?_
  · show (pmmRef s.vm p).supply = []
    unfold pmmRef
    split <;> exact isolated.supply
  · intro r isRoot place t found
    show (pmmRef s.vm p).mem t = s.vm.mem t
    unfold pmmRef
    split <;> rfl
  · have isRef : (s.step (.ref p)).vm = pmmRef s.vm p := rfl
    rw [isRef] at managed references ⊢
    unfold pmmRef at managed references ⊢
    split
    · rename_i may
      rw [if_pos may] at managed references
      by_cases same : q = p
      · subst same
        dsimp only
        rw [Function.update_self]
        by_cases none : s.vm.refcnt q = 0
        · exact (clean none).trans (by omega)
        · exact (isolated.counted q managed none).trans (by omega)
      · dsimp only at references ⊢
        rw [Function.update_of_ne same] at references ⊢
        exact isolated.counted q managed references
    · rename_i mayNot
      rw [if_neg mayNot] at managed references
      exact isolated.counted q managed references
  · show (pmmRef s.vm p).freed.Sublist s.vm.freed
    unfold pmmRef
    split <;> exact List.Sublist.refl _

theorem alloc_isolated {pages : List Word} (clean : SpaceOp.Clean s (.alloc pages)) :
    Isolated (s.step (.alloc pages)) := by
  cases pages with
  | nil => exact isolated
  | cons p rest =>
    have unused := clean.unused p List.mem_cons_self
    refine isolated.agree rfl rfl (fun r isRoot place t found => ?_) (fun q managed references => ?_)
      List.filter_sublist
    · have other : t ≠ p := by
        rintro rfl
        exact unused r isRoot (.inl ⟨place, found⟩)
      exact Function.update_of_ne other _ _
    · show s.mapped q ≤ Function.update s.vm.refcnt p 1 q
      by_cases same : q = p
      · subst same
        rw [Spaces.mapped_eq_zero unused]
        exact Nat.zero_le _
      · rw [Function.update_of_ne same]
        refine isolated.counted q managed fun none => references ?_
        show Function.update s.vm.refcnt p 1 q = 0
        rw [Function.update_of_ne same, none]

theorem Isolated.treeSupplied {pages : List Word} (spare : Spare s pages) {r : Word}
    (isRoot : r ∈ s.roots) : Tree (s.vm.supplied pages) r where
  distinct := (isolated.shape r isRoot).distinct
  small := (isolated.shape r isRoot).small
  fresh p member place found := spare.unused p member r isRoot (.inl ⟨place, found⟩)
  nodup := spare.nodup
  aligned := spare.aligned

theorem Isolated.tree {r : Word} (isRoot : r ∈ s.roots) : Tree s.vm r := by
  have spare : Spare s [] := ⟨List.nodup_nil, fun _ none => (by cases none), fun _ none => by cases none⟩
  have tree := isolated.treeSupplied spare isRoot
  rwa [Vm.supplied, ← isolated.supply] at tree

end Calls

section Extend

variable {s : Spaces} (isolated : Isolated s) {pages : List Word} (spare : Spare s pages)
  {cr3 : Word} (isRoot : cr3 ∈ s.roots) {vm₁ : Vm}
  (extend : Extends cr3 (s.vm.supplied pages) vm₁)

include isolated spare isRoot extend

theorem extend_agree {r : Word} (isRoot' : r ∈ s.roots) (other : r ≠ cr3) :
    Agree s.vm.mem vm₁.mem r := fun place t found =>
  extend.pages t (fun member => spare.unused t member r isRoot' (.inl ⟨place, found⟩))
    fun place' found' => isolated.tables r isRoot' cr3 isRoot other t ⟨place, found⟩ ⟨place', found'⟩

omit isolated spare isRoot in
theorem extend_isTable {p : Word} (table : IsTable vm₁.mem cr3 p) :
    IsTable s.vm.mem cr3 p ∨ p ∈ pages ∧ p ∉ vm₁.supply := by
  obtain ⟨place, found⟩ := table
  rcases extend.added place p found with old | new
  · exact .inl ⟨place, old⟩
  · exact .inr ⟨new, fun member => extend.tree.fresh p member place found⟩

theorem extend_userPage {r : Word} (isRoot' : r ∈ s.roots) {q : List Index} (last : q.length = 4) :
    userPage vm₁.mem r q = userPage s.vm.mem r q := by
  by_cases same : r = cr3
  · subst same
    exact (extend.userPages (isolated.shape r isRoot').supervisor).2 q last
  · exact (extend_agree isolated spare isRoot extend isRoot' same).userPage q

theorem extend_mapped (p : Word) : Spaces.mapped { s with vm := vm₁.settle pages } p = s.mapped p := by
  refine congrArg List.sum (List.map_congr_left fun r isRoot' => ?_)
  have pages := fun q : Slot =>
    extend_userPage isolated spare isRoot extend isRoot' (q := q.place) rfl
  show mappings vm₁.mem r p = _
  unfold mappings
  simp only [pages]

omit isRoot in
theorem extend_counted {p : Word} (managed : inRam vm₁ p = true) (references : vm₁.refcnt p ≠ 0) :
    s.mapped p ≤ vm₁.refcnt p := by
  by_cases member : p ∈ pages
  · rw [Spaces.mapped_eq_zero (spare.unused p member)]
    exact Nat.zero_le _
  · rw [extend.refcnt p member] at references ⊢
    rw [inRam_congr extend.ram_end] at managed
    exact isolated.counted p managed references

/-- New tables keep the spaces isolated. -/
theorem extend_isolated : Isolated { s with vm := vm₁.settle pages } := by
  have agree := fun {r} => extend_agree isolated spare isRoot extend (r := r)
  refine isolated.grow rfl rfl cr3 (fun p => p ∈ pages ∧ p ∉ vm₁.supply) (fun _ => False)
    (fun r isRoot' => ?_) (fun r isRoot' p table => ?_) (fun r isRoot' p page => ?_)
    (fun p new => spare.unused p new.1) (fun p new => new.elim) (fun p managed references => ?_) ?_
    fun p member => ⟨fun new => ?_, id⟩
  · by_cases same : r = cr3
    · subst same
      exact ⟨extend.tree.distinct, extend.tree.small,
        (extend.userPages (isolated.shape r isRoot').supervisor).1⟩
    · exact (agree isRoot' same).shape (isolated.shape r isRoot')
  · by_cases same : r = cr3
    · subst same
      exact (extend_isTable extend table).imp_right fun new => ⟨rfl, new⟩
    · exact .inl ((agree isRoot' same).isTable.mp table)
  · obtain ⟨q, isPage⟩ := page
    exact .inl ⟨q, (extend_userPage isolated spare isRoot extend isRoot' rfl).symm.trans isPage⟩
  · rw [extend_mapped isolated spare isRoot extend]
    exact extend_counted isolated spare extend managed references
  · show (vm₁.freed.filter _).Sublist s.vm.freed
    rw [extend.freed]
    exact List.filter_sublist
  · have kept := (List.mem_filter.mp member).2
    simp only [Bool.or_eq_true, Bool.not_eq_true', List.contains_eq_mem, decide_eq_false_iff_not,
      decide_eq_true_eq] at kept
    exact kept.elim (fun not => not new.1) new.2

end Extend

/-! ## Last entries -/

/-- The slot of an address. -/
def slot (virt : Word) : Slot := (i4 virt, i3 virt, i2 virt, i1 virt)

theorem place_eq_path {q : Slot} {virt : Word} : q.place = path virt ↔ q = slot virt := by
  constructor
  · intro same
    simp only [Slot.place, path, List.cons.injEq, and_true] at same
    obtain ⟨same1, same2, same3, same4⟩ := same
    exact Prod.ext same4 (Prod.ext same3 (Prod.ext same2 same1))
  · rintro rfl
    rfl

/-- The page a last entry maps for ring 3. -/
def leafPage (e : Word) : Option Word := if present e && user e then some (frame e) else none

theorem mappings_update (mem mem' : Pages) (cr3 : Word) {virt : Word}
    (same : ∀ q : Slot, q.place ≠ path virt → userPage mem' cr3 q.place = userPage mem cr3 q.place)
    (p : Word) :
    mappings mem' cr3 p + (if userPage mem cr3 (path virt) = some p then 1 else 0) =
      mappings mem cr3 p + if userPage mem' cr3 (path virt) = some p then 1 else 0 :=
  Counting.card_update Finset.univ (f := fun q : Slot => userPage mem cr3 q.place)
    (g := fun q : Slot => userPage mem' cr3 q.place) (Finset.mem_univ (slot virt))
    (fun q other => same q fun isPath => other (place_eq_path.mp isPath)) (some p)

section Leaf

variable {s : Spaces} (isolated : Isolated s) {cr3 virt pt : Word} (isRoot : cr3 ∈ s.roots)
  (found : tableAt s.vm.mem cr3 [i2 virt, i3 virt, i4 virt] = some pt) (e : Word)

include isolated isRoot found

theorem userPage_setLeaf {q : List Index} (last : q.length = 4) :
    userPage (s.vm.setEntry pt (i1 virt) e).mem cr3 q =
      if q = path virt then leafPage e else userPage s.vm.mem cr3 q := by
  have tree := isolated.tree isRoot
  unfold userPage
  by_cases same : q = path virt
  · rw [if_pos same, same]
    have entry : entryAt (s.vm.setEntry pt (i1 virt) e).mem cr3 (path virt) = some e :=
      entry_setEntry_self tree.distinct found e
    rw [entry]
    rfl
  · rw [if_neg same, entry_setLeaf tree found e fun below => same (below.eq_of_length last.symm).symm]

theorem setLeaf_agree {r : Word} (isRoot' : r ∈ s.roots) (other : r ≠ cr3) :
    Agree s.vm.mem (s.vm.setEntry pt (i1 virt) e).mem r := fun place t foundT =>
  funext fun _ => setEntry_of_ne e fun same =>
    (isolated.tables r isRoot' cr3 isRoot other t ⟨place, foundT⟩ ⟨_, same ▸ found⟩).elim

theorem setLeaf_mapped (p : Word) :
    Spaces.mapped { s with vm := s.vm.setEntry pt (i1 virt) e } p +
        (if userPage s.vm.mem cr3 (path virt) = some p then 1 else 0) =
      s.mapped p + if leafPage e = some p then 1 else 0 := by
  have sum := fun f : Word → Nat => List.sum_map_erase f isRoot
  have others : ((s.roots.erase cr3).map fun r => mappings (s.vm.setEntry pt (i1 virt) e).mem r p) =
      (s.roots.erase cr3).map fun r => mappings s.vm.mem r p := by
    refine List.map_congr_left fun r member => ?_
    obtain ⟨other, isRoot'⟩ := (isolated.roots.mem_erase_iff).mp member
    exact (setLeaf_agree isolated isRoot found e isRoot' other).mappings p
  have update := mappings_update s.vm.mem (s.vm.setEntry pt (i1 virt) e).mem cr3
    (fun q other => (userPage_setLeaf isolated isRoot found e rfl).trans (if_neg other)) p
  rw [userPage_setLeaf isolated isRoot found e rfl, if_pos rfl] at update
  show (s.roots.map fun r => mappings (s.vm.setEntry pt (i1 virt) e).mem r p).sum + _ = _
  rw [Spaces.mapped, ← sum, ← sum fun r => mappings s.vm.mem r p, others]
  omega

/-- Storing a last entry keeps the spaces isolated when the page it maps for ring 3 is no
table, not free, and has its reference. -/
theorem setLeaf_isolated
    (mappable : ∀ p, leafPage e = some p → (∀ r ∈ s.roots, ¬ IsTable s.vm.mem r p) ∧ p ∉ s.vm.freed ∧
      (inRam s.vm p = true → s.vm.refcnt p ≠ 0 → s.mapped p < s.vm.refcnt p +
        if userPage s.vm.mem cr3 (path virt) = some p then 1 else 0)) :
    Isolated { s with vm := s.vm.setEntry pt (i1 virt) e } := by
  have tree := isolated.tree isRoot
  have agree := fun {r} => setLeaf_agree isolated isRoot found e (r := r)
  have tables := table_setLeaf tree found e
  refine isolated.grow rfl isolated.supply cr3 (fun _ => False) (fun p => leafPage e = some p)
    (fun r isRoot' => ?_) (fun r isRoot' p table => .inl ?_) (fun r isRoot' p page => ?_)
    (fun p none => none.elim) (fun p new => ⟨id, (mappable p new).1⟩) (fun p managed references => ?_)
    (List.Sublist.refl _) fun p member => ⟨id, fun new => (mappable p new).2.1 member⟩
  · by_cases same : r = cr3
    · subst same
      refine ⟨(tree.setLeaf found e).distinct, (tree.setLeaf found e).small, ?_⟩
      intro t i j k foundT
      have foundT' := (tables [j, k]).symm.trans foundT
      have other : t ≠ pt := fun same => by
        have deep := tree.distinct _ _ t foundT' (found.trans (congrArg some same.symm))
        cases deep
      have cell : (s.vm.setEntry pt (i1 virt) e).mem t i = s.vm.mem t i :=
        setEntry_of_ne e fun same => absurd same other
      show present ((s.vm.setEntry pt (i1 virt) e).mem t i) = true → _
      rw [cell]
      exact (isolated.shape r isRoot').supervisor t i j k foundT'
    · exact (agree isRoot' same).shape (isolated.shape r isRoot')
  · by_cases same : r = cr3
    · subst same
      obtain ⟨place, foundP⟩ := table
      exact ⟨place, (tables place).symm.trans foundP⟩
    · exact (agree isRoot' same).isTable.mp table
  · by_cases same : r = cr3
    · subst same
      obtain ⟨q, isPage⟩ := page
      have eq := userPage_setLeaf isolated isRoot found e (q := q.place) rfl
      rw [show userPage _ r q.place = _ from eq] at isPage
      split at isPage
      · exact .inr isPage
      · exact .inl ⟨q, isPage⟩
    · exact .inl ((agree isRoot' same).isUserPage.mp page)
  · have total := setLeaf_mapped isolated isRoot found e p
    have before := isolated.counted p managed references
    by_cases new : leafPage e = some p
    · have room := (mappable p new).2.2 managed references
      rw [if_pos new] at total
      show _ ≤ s.vm.refcnt p
      omega
    · rw [if_neg new] at total
      show _ ≤ s.vm.refcnt p
      omega

end Leaf

section Calls

variable {s : Spaces} (isolated : Isolated s)

include isolated

theorem unmap_isolated {cr3 virt : Word} (clean : SpaceOp.Clean s (.unmap cr3 virt)) :
    Isolated (s.step (.unmap cr3 virt)) := by
  have isUnmap := vmmUnmap_eq (isolated.tree clean) virt
  show Isolated { s with vm := vmmUnmap s.vm cr3 virt }
  rw [isUnmap]
  cases found : tableAt s.vm.mem cr3 [i2 virt, i3 virt, i4 virt] with
  | none => exact isolated
  | some pt => exact setLeaf_isolated isolated clean found 0 fun p none => by cases none

theorem map_isolated {pages : List Word} {cr3 virt phys flags : Word}
    (clean : SpaceOp.Clean s (.map pages cr3 virt phys flags)) :
    Isolated (s.step (.map pages cr3 virt phys flags)) := by
  obtain ⟨spare, isRoot, mappable⟩ := clean
  show Isolated { s with vm := (vmmMap (s.vm.supplied pages) cr3 virt phys flags).settle pages }
  rcases vmmMap_cases (isolated.treeSupplied spare isRoot) virt phys flags with
    ⟨-, extend⟩ | ⟨vm₁, pt, -, extend, found, isMap⟩
  · exact extend_isolated isolated spare isRoot extend
  · rw [isMap]
    have isolated' := extend_isolated isolated spare isRoot extend
    refine setLeaf_isolated (s := { s with vm := vm₁.settle pages }) isolated' isRoot found
      (mapEntry phys flags) fun p isPage => ?_
    have isUser : user flags = true ∧ frame (phys ||| flags) = p := by
      have isUser : user (mapEntry phys flags) = user flags := congrArg Perms.ring3 (perms_mapEntry phys flags)
      unfold leafPage at isPage
      rw [present_mapEntry, isUser, frame_mapEntry, Bool.true_and] at isPage
      split at isPage
      · exact ⟨‹_›, Option.some.inj isPage⟩
      · cases isPage
    have may := mappable isUser.1
    rw [isUser.2] at may
    refine ⟨fun r isRoot' table => ?_, fun member => may.taken.2 ?_, fun managed references => ?_⟩
    · by_cases same : r = cr3
      · subst same
        rcases extend_isTable extend table with old | new
        · exact may.noTable r isRoot' old
        · exact may.taken.1 new.1
      · exact may.noTable r isRoot'
          ((extend_agree isolated spare isRoot extend isRoot' same).isTable.mp table)
    · have kept := (List.mem_filter.mp member).1
      rwa [extend.freed] at kept
    · have same : vm₁.refcnt p = s.vm.refcnt p := extend.refcnt p may.taken.1
      have page : userPage vm₁.mem cr3 (path virt) = userPage s.vm.mem cr3 (path virt) :=
        extend_userPage isolated spare isRoot extend isRoot rfl
      rw [extend_mapped isolated spare isRoot extend]
      show s.mapped p < vm₁.refcnt p + if userPage vm₁.mem cr3 (path virt) = some p then 1 else 0
      rw [same, page]
      refine may.counted ?_ ?_
      · exact (inRam_congr extend.ram_end p).symm.trans managed
      · exact fun none => references (same.trans none)

/-- A mapping for the kernel alone adds no use but that of the pages for its tables. -/
theorem map_uses {pages : List Word} {cr3 virt phys flags : Word}
    (clean : SpaceOp.Clean s (.map pages cr3 virt phys flags)) (supervisor : user flags = false)
    {r p : Word} (isRoot : r ∈ s.roots)
    (uses : Uses (s.step (.map pages cr3 virt phys flags)).vm.mem r p) :
    Uses s.vm.mem r p ∨ p ∈ pages := by
  obtain ⟨spare, isRoot', -⟩ := clean
  have extended : ∀ {vm₁ : Vm}, Extends cr3 (s.vm.supplied pages) vm₁ → Uses vm₁.mem r p →
      Uses s.vm.mem r p ∨ p ∈ pages := by
    rintro vm₁ extend (table | ⟨q, isPage⟩)
    · by_cases same : r = cr3
      · subst same
        exact (extend_isTable extend table).imp .inl And.left
      · exact .inl (.inl ((extend_agree isolated spare isRoot' extend isRoot same).isTable.mp table))
    · rw [extend_userPage isolated spare isRoot' extend isRoot rfl] at isPage
      exact .inl (.inr ⟨q, isPage⟩)
  have isStep : (s.step (.map pages cr3 virt phys flags)).vm.mem =
      (vmmMap (s.vm.supplied pages) cr3 virt phys flags).mem := rfl
  rw [isStep] at uses
  rcases vmmMap_cases (isolated.treeSupplied spare isRoot') virt phys flags with
    ⟨-, extend⟩ | ⟨vm₁, pt, -, extend, found, isMap⟩
  · exact extended extend uses
  · rw [isMap] at uses
    have isolated' := extend_isolated isolated spare isRoot' extend
    refine extended extend ?_
    by_cases same : r = cr3
    · subst same
      rcases uses with ⟨place, table⟩ | ⟨q, isPage⟩
      · have tree := isolated'.tree isRoot
        exact .inl ⟨place, (table_setLeaf tree found _ place).symm.trans table⟩
      · have page := (userPage_setLeaf isolated' isRoot found (mapEntry phys flags)
          (q := q.place) rfl).symm.trans isPage
        have isUser : user (mapEntry phys flags) = user flags :=
          congrArg Perms.ring3 (perms_mapEntry phys flags)
        have notLeaf : leafPage (mapEntry phys flags) = none := by
          rw [leafPage, isUser, supervisor, Bool.and_false]
          rfl
        split at page
        · rw [notLeaf] at page
          cases page
        · exact .inr ⟨q, page⟩
    · exact (setLeaf_agree isolated' isRoot' found _ isRoot same).uses.mp uses

end Calls

/-! ## Teardown -/

section Destroy

variable {s : Spaces} (isolated : Isolated s) {cr3 : Word} (isLive : cr3 ∈ s.live)

/-- The releases of a whole space. -/
def spaceReleases (mem : Pages) (cr3 : Word) : List Release :=
  releases mem cr3 3 [] ++ [.free cr3]

theorem slot_of_length {q : List Index} (last : q.length = 4) : ∃ a : Slot, q = a.place := by
  match q, last with
  | [i1, i2, i3, i4], _ => exact ⟨(i4, i3, i2, i1), rfl⟩

theorem unref_mem_spaceReleases {mem : Pages} {p : Word}
    (member : .unref p ∈ spaceReleases mem cr3) : IsUserPage mem cr3 p := by
  rw [spaceReleases, List.mem_append, List.mem_singleton] at member
  rcases member with below | not
  · rcases mem_releases below with ⟨q, f, last, page, same⟩ | ⟨_, _, _, _, _, not⟩
    · cases same
      obtain ⟨a, rfl⟩ := slot_of_length last
      exact ⟨a, page⟩
    · cases not
  · cases not

theorem free_mem_spaceReleases {mem : Pages} {p : Word}
    (member : .free p ∈ spaceReleases mem cr3) : IsTable mem cr3 p := by
  rw [spaceReleases, List.mem_append, List.mem_singleton] at member
  rcases member with below | same
  · obtain ⟨q, -, -, found⟩ := free_mem_releases below
    exact ⟨q, found⟩
  · cases same
    exact ⟨[], rfl⟩

theorem count_spaceReleases {mem : Pages} {p : Word} :
    (spaceReleases mem cr3).count (.unref p) = mappings mem cr3 p := by
  rw [spaceReleases, List.count_append, count_releases]
  simp

include isLive in
theorem isRoot_of_live : cr3 ∈ s.roots := List.mem_cons_of_mem _ isLive

include isolated isLive

theorem proper_spaceReleases : Proper (spaceReleases s.vm.mem cr3) where
  once := by
    have distinct := (isolated.shape cr3 (isRoot_of_live isLive)).distinct
    rw [spaceReleases, frees_append, List.nodup_append]
    refine ⟨nodup_frees_releases distinct 3 [], List.nodup_singleton cr3, ?_⟩
    rintro p below q self rfl
    cases List.mem_singleton.mp (mem_frees.mp self)
    obtain ⟨q, -, longer, found⟩ := free_mem_releases (mem_frees.mp below)
    rw [distinct q [] cr3 found rfl] at longer
    exact absurd longer (lt_irrefl _)
  apart p isFree isUnref :=
    isolated.pages cr3 (isRoot_of_live isLive) cr3 (isRoot_of_live isLive) p
      (unref_mem_spaceReleases isUnref) (free_mem_spaceReleases isFree)

theorem vmmDestroy_eq_releases :
    vmmDestroy s.vm cr3 = (spaceReleases s.vm.mem cr3).foldl Release.run s.vm := by
  have isRoot := isRoot_of_live isLive
  have shape := isolated.shape cr3 isRoot
  refine vmmDestroy_eq shape.distinct (fun q f p last page found => ?_)
    fun i => shape.small [] cr3 i (by decide) rfl
  obtain ⟨a, rfl⟩ := slot_of_length last
  exact isolated.pages cr3 isRoot cr3 isRoot f ⟨a, page⟩ ⟨p, found⟩

omit isolated in
theorem mapped_erase (p : Word) :
    mappings s.vm.mem cr3 p + ((s.roots.erase cr3).map fun r => mappings s.vm.mem r p).sum =
      s.mapped p :=
  List.sum_map_erase (fun r => mappings s.vm.mem r p) (isRoot_of_live isLive)

variable {new : List Word} {vm' : Vm} (released : Released (spaceReleases s.vm.mem cr3) new s.vm vm')

include released

/-- What is freed, no other space uses. -/
theorem released_unused {p : Word} (member : p ∈ new) {r : Word} (isRoot : r ∈ s.roots)
    (other : r ≠ cr3) : ¬ Uses s.vm.mem r p := by
  have own := isRoot_of_live isLive
  obtain ⟨managed, isFree | ⟨isUnref, references, enough⟩⟩ := released.cause p member
  · have table := free_mem_spaceReleases isFree
    rintro (table' | page)
    · exact isolated.tables r isRoot cr3 own other p table' table
    · exact isolated.pages r isRoot cr3 own p page table
  · have page := unref_mem_spaceReleases isUnref
    rintro (table | page')
    · exact isolated.pages cr3 own r isRoot p page table
    -- each of the two spaces has a reference of its own
    · have counted := isolated.counted p managed references
      have total := mapped_erase isLive p
      have isOther : r ∈ s.roots.erase cr3 := (isolated.roots.mem_erase_iff).mpr ⟨other, isRoot⟩
      have positive : mappings s.vm.mem r p ≠ 0 := fun none => mappings_eq_zero.mp none page'
      have part := List.single_le_sum (fun _ _ => Nat.zero_le _) _
        (List.mem_map_of_mem (f := fun r => mappings s.vm.mem r p) isOther)
      rw [count_spaceReleases] at enough
      omega

theorem released_agree {r : Word} (isRoot : r ∈ s.roots) (other : r ≠ cr3) :
    Agree s.vm.mem vm'.mem r := fun place t found =>
  released.mem t fun member =>
    released_unused isolated isLive released member isRoot other (.inl ⟨place, found⟩)

/-- Without the space the others are isolated. -/
theorem released_isolated :
    Isolated { s with vm := vm', live := s.live.erase cr3 } := by
  have roots : Spaces.roots { s with vm := vm', live := s.live.erase cr3 } = s.roots.erase cr3 := by
    have notKernel : s.kernel_cr3 ≠ cr3 := fun same =>
      (List.nodup_cons.mp isolated.roots).1 (same ▸ isLive)
    exact (List.erase_cons_tail (by simpa using notKernel)).symm
  have stays : ∀ {r}, r ∈ s.roots.erase cr3 → r ∈ s.roots ∧ r ≠ cr3 := fun member =>
    ((isolated.roots.mem_erase_iff).mp member).symm
  have agree : ∀ {r}, r ∈ s.roots.erase cr3 → Agree s.vm.mem vm'.mem r := fun member =>
    released_agree isolated isLive released (stays member).1 (stays member).2
  have mapped : ∀ p, Spaces.mapped { s with vm := vm', live := s.live.erase cr3 } p =
      ((s.roots.erase cr3).map fun r => mappings s.vm.mem r p).sum := fun p => by
    rw [Spaces.mapped, roots]
    exact congrArg List.sum (List.map_congr_left fun r member => (agree member).mappings p)
  have unused := fun {p} => released_unused isolated isLive released (p := p)
  refine ⟨released.supply.trans isolated.supply, ?_, fun r isRoot => ?_, fun r isRoot r' isRoot' other p => ?_,
    fun r isRoot r' isRoot' p => ?_, fun p managed references => ?_, fun p member r isRoot => ?_, ?_⟩
  · rw [roots]
    exact isolated.roots.erase cr3
  · rw [roots] at isRoot
    exact (agree isRoot).shape (isolated.shape r (stays isRoot).1)
  · rw [roots] at isRoot isRoot'
    rw [(agree isRoot).isTable, (agree isRoot').isTable]
    exact isolated.tables r (stays isRoot).1 r' (stays isRoot').1 other p
  · rw [roots] at isRoot isRoot'
    rw [(agree isRoot).isUserPage, (agree isRoot').isTable]
    exact isolated.pages r (stays isRoot).1 r' (stays isRoot').1 p
  · have managed' := (inRam_congr released.ram_end p).symm.trans managed
    have left := released.refcnt p
    rw [if_pos managed', count_spaceReleases] at left
    have total := mapped_erase isLive p
    have before : s.vm.refcnt p ≠ 0 := fun none => references (by rw [left, none, Nat.zero_sub])
    have counted := isolated.counted p managed' before
    rw [mapped]
    show _ ≤ vm'.refcnt p
    omega
  · rw [roots] at isRoot
    rw [(agree isRoot).uses]
    rcases List.mem_append.mp (released.freed ▸ member : p ∈ new ++ s.vm.freed) with now | before
    · exact unused now (stays isRoot).1 (stays isRoot).2
    · exact isolated.free p before r (stays isRoot).1
  · show vm'.freed.Nodup
    rw [released.freed, List.nodup_append]
    refine ⟨released.nodup (proper_spaceReleases isolated isLive), isolated.once, ?_⟩
    rintro p now q before rfl
    have own := isRoot_of_live isLive
    refine isolated.free p before cr3 own ?_
    obtain ⟨-, isFree | ⟨isUnref, -⟩⟩ := released.cause p now
    · exact .inl (free_mem_spaceReleases isFree)
    · exact .inr (unref_mem_spaceReleases isUnref)

end Destroy

theorem destroy_isolated {s : Spaces} (isolated : Isolated s) {cr3 : Word}
    (clean : SpaceOp.Clean s (.destroy cr3)) : Isolated (s.step (.destroy cr3)) := by
  obtain ⟨new, released⟩ := released_all (spaceReleases s.vm.mem cr3) s.vm
  rw [← vmmDestroy_eq_releases isolated clean] at released
  exact released_isolated isolated clean released

end Systrix.Vmm
