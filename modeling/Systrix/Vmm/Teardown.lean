import Mathlib.Algebra.BigOperators.Fin
import Mathlib.Data.Fintype.BigOperators
import Mathlib.Data.FinEnum
import Systrix.Vmm.Space

/-!
# Teardown of a space

`vmm_destroy` drops one reference for each user page of the space and frees each of its
tables once.
-/

namespace Systrix.Vmm

open TableTree

/-! ## Releases -/

/-- What is done to a page that is not needed any more. -/
inductive Release where
  | unref (p : Word)
  | free (p : Word)
  deriving DecidableEq

def Release.run (vm : Vm) : Release → Vm
  | .unref p => pmmUnref vm p
  | .free p => pmmFree vm p

def Release.page : Release → Word
  | .unref p => p
  | .free p => p

/-- The pages a list of releases frees for sure. -/
def frees (rs : List Release) : List Word :=
  rs.filterMap fun
    | .unref _ => none
    | .free p => some p

theorem mem_frees {rs : List Release} {p : Word} : p ∈ frees rs ↔ .free p ∈ rs := by
  unfold frees
  rw [List.mem_filterMap]
  constructor
  · rintro ⟨r, member, isFree⟩
    cases r with
    | unref q => cases isFree
    | free q =>
      cases isFree
      exact member
  · exact fun member => ⟨_, member, rfl⟩

theorem frees_append (rs rs' : List Release) : frees (rs ++ rs') = frees rs ++ frees rs' :=
  List.filterMap_append

/-- No page is freed twice, and no page is both freed and referred to. -/
structure Proper (rs : List Release) : Prop where
  once : (frees rs).Nodup
  apart : ∀ p, .free p ∈ rs → .unref p ∉ rs

/-- What releases do to memory; `new` are the pages they free. -/
structure Released (rs : List Release) (new : List Word) (vm vm' : Vm) : Prop where
  supply : vm'.supply = vm.supply
  ram_end : vm'.ram_end = vm.ram_end
  refcnt : ∀ p, vm'.refcnt p = vm.refcnt p - if inRam vm p then rs.count (.unref p) else 0
  freed : vm'.freed = new ++ vm.freed
  mem : ∀ t, t ∉ new → vm'.mem t = vm.mem t
  cause : ∀ p ∈ new, inRam vm p = true ∧
    (.free p ∈ rs ∨ .unref p ∈ rs ∧ vm.refcnt p ≠ 0 ∧ vm.refcnt p ≤ rs.count (.unref p))
  nodup : Proper rs → new.Nodup
  frees : ∀ p, .free p ∈ rs → inRam vm p = true → p ∈ new

theorem Released.nil (vm : Vm) : Released [] [] vm vm where
  supply := rfl
  ram_end := rfl
  refcnt p := by simp
  freed := rfl
  mem _ _ := rfl
  cause p member := by cases member
  nodup _ := List.nodup_nil
  frees p none := by cases none

theorem inRam_congr {vm vm' : Vm} (same : vm'.ram_end = vm.ram_end) (p : Word) :
    inRam vm' p = inRam vm p := by
  rw [inRam, inRam, same]

theorem Released.append {rs rs' : List Release} {new new' : List Word} {vm vm' vm'' : Vm}
    (first : Released rs new vm vm') (second : Released rs' new' vm' vm'') :
    Released (rs ++ rs') (new' ++ new) vm vm'' where
  supply := second.supply.trans first.supply
  ram_end := second.ram_end.trans first.ram_end
  refcnt p := by
    rw [second.refcnt, first.refcnt, inRam_congr first.ram_end, List.count_append]
    split <;> omega
  freed := by rw [second.freed, first.freed, List.append_assoc]
  mem t unused := by
    rw [List.mem_append, not_or] at unused
    rw [second.mem t unused.1, first.mem t unused.2]
  cause p member := by
    rw [List.mem_append] at member
    simp only [List.mem_append, List.count_append]
    rcases member with later | earlier
    · obtain ⟨managed, cause⟩ := second.cause p later
      rw [inRam_congr first.ram_end] at managed
      refine ⟨managed, cause.imp .inr fun ⟨isUnref, left, enough⟩ => ⟨.inr isUnref, ?_⟩⟩
      rw [first.refcnt, if_pos managed] at left enough
      omega
    · obtain ⟨managed, cause⟩ := first.cause p earlier
      refine ⟨managed, cause.imp .inl fun ⟨isUnref, left, enough⟩ => ⟨.inl isUnref, left, ?_⟩⟩
      omega
  nodup proper := by
    have once := proper.once
    rw [frees_append, List.nodup_append] at once
    have firstProper : Proper rs := ⟨once.1, fun p isFree isUnref =>
      proper.apart p (List.mem_append_left _ isFree) (List.mem_append_left _ isUnref)⟩
    have secondProper : Proper rs' := ⟨once.2.1, fun p isFree isUnref =>
      proper.apart p (List.mem_append_right _ isFree) (List.mem_append_right _ isUnref)⟩
    rw [List.nodup_append]
    refine ⟨second.nodup secondProper, first.nodup firstProper, ?_⟩
    rintro p later q earlier rfl
    obtain ⟨-, isFree' | ⟨isUnref', left, -⟩⟩ := second.cause p later
    · obtain ⟨-, isFree | ⟨isUnref, -⟩⟩ := first.cause p earlier
      · exact once.2.2 p (mem_frees.mpr isFree) p (mem_frees.mpr isFree') rfl
      · exact proper.apart p (List.mem_append_right _ isFree') (List.mem_append_left _ isUnref)
    · obtain ⟨managed, isFree | ⟨-, -, enough⟩⟩ := first.cause p earlier
      · exact proper.apart p (List.mem_append_left _ isFree) (List.mem_append_right _ isUnref')
      -- the references of the page were all dropped before
      · rw [first.refcnt, if_pos managed] at left
        omega
  frees p isFree managed := by
    rw [List.mem_append] at isFree ⊢
    rcases isFree with earlier | later
    · exact .inr (first.frees p earlier managed)
    · exact .inl (second.frees p later ((inRam_congr first.ram_end p).trans managed))

theorem released_free (vm : Vm) (p : Word) :
    ∃ new, Released [.free p] new vm (pmmFree vm p) := by
  unfold pmmFree
  by_cases managed : inRam vm p = true
  · rw [if_pos managed]
    refine ⟨[p], rfl, rfl, fun q => by simp, rfl, fun t unused => funext fun i => ?_, fun q member => ?_,
      fun _ => List.nodup_singleton p, fun q isFree _ => by simpa using isFree⟩
    · exact setEntry_of_ne _ fun same => absurd (List.mem_singleton.mpr same) unused
    · obtain rfl := List.mem_singleton.mp member
      exact ⟨managed, .inl (List.mem_singleton.mpr rfl)⟩
  · rw [if_neg managed]
    refine ⟨[], rfl, rfl, fun q => by simp, rfl, fun _ _ => rfl, fun q member => (by cases member),
      fun _ => List.nodup_nil, fun q isFree managed' => absurd ?_ managed⟩
    have same : q = p := by simpa using isFree
    rwa [same] at managed'

theorem released_unref (vm : Vm) (p : Word) :
    ∃ new, Released [.unref p] new vm (pmmUnref vm p) := by
  have others : ∀ q, q ≠ p → [Release.unref p].count (.unref q) = 0 := fun q other =>
    List.count_eq_zero.mpr fun member => other (by simpa using member)
  have own : [Release.unref p].count (.unref p) = 1 := List.count_singleton_self
  have noFree : ∀ {q}, .free q ∉ [Release.unref p] := fun member => by cases List.mem_singleton.mp member
  unfold pmmUnref
  by_cases none : pmmRefcount vm p = 0
  · rw [if_pos none]
    refine ⟨[], rfl, rfl, fun q => ?_, rfl, fun _ _ => rfl, fun q member => (by cases member),
      fun _ => List.nodup_nil, fun _ isFree => absurd isFree noFree⟩
    by_cases same : q = p
    · subst same
      unfold pmmRefcount at none
      split <;> simp_all
    · rw [others q same, ite_self]
      rfl
  · rw [if_neg none]
    have managed : inRam vm p = true := by
      by_contra outside
      exact none (if_neg outside)
    have counted : vm.refcnt p ≠ 0 := by
      unfold pmmRefcount at none
      rwa [if_pos managed] at none
    have dropped : ∀ q, Function.update vm.refcnt p (vm.refcnt p - 1) q =
        vm.refcnt q - if inRam vm q then [Release.unref p].count (.unref q) else 0 := fun q => by
      by_cases same : q = p
      · subst same
        rw [Function.update_self, if_pos managed, own]
      · rw [Function.update_of_ne same, others q same, ite_self]
        rfl
    dsimp only
    by_cases last : Function.update vm.refcnt p (vm.refcnt p - 1) p = 0
    · rw [if_pos last]
      unfold pmmFree
      rw [if_pos (show inRam { vm with refcnt := Function.update vm.refcnt p (vm.refcnt p - 1) } p = true
        from managed)]
      refine ⟨[p], rfl, rfl, dropped, rfl, fun t unused => funext fun i => ?_, fun q member => ?_,
        fun _ => List.nodup_singleton p, fun _ isFree => absurd isFree noFree⟩
      · exact setEntry_of_ne _ fun same => absurd (List.mem_singleton.mpr same) unused
      · obtain rfl := List.mem_singleton.mp member
        rw [Function.update_self] at last
        refine ⟨managed, .inr ⟨List.mem_singleton.mpr rfl, counted, ?_⟩⟩
        rw [own]
        omega
    · rw [if_neg last]
      exact ⟨[], rfl, rfl, dropped, rfl, fun _ _ => rfl, fun q member => (by cases member),
        fun _ => List.nodup_nil, fun _ isFree => absurd isFree noFree⟩

/-- Every list of releases is one. -/
theorem released_all (rs : List Release) (vm : Vm) :
    ∃ new, Released rs new vm (rs.foldl Release.run vm) := by
  induction rs generalizing vm with
  | nil => exact ⟨[], .nil vm⟩
  | cons r rs ih =>
    have first : ∃ new, Released [r] new vm (r.run vm) := by
      cases r with
      | unref p => exact released_unref vm p
      | free p => exact released_free vm p
    obtain ⟨new, first⟩ := first
    obtain ⟨new', second⟩ := ih (r.run vm)
    exact ⟨_, first.append second⟩

/-- Releases write to the pages they release alone. -/
theorem release_mem_of_ne (rs : List Release) {t : Word} (other : ∀ r ∈ rs, r.page ≠ t) (vm : Vm) :
    (rs.foldl Release.run vm).mem t = vm.mem t := by
  obtain ⟨new, released⟩ := released_all rs vm
  refine released.mem t fun member => ?_
  obtain ⟨-, isFree | ⟨isUnref, -⟩⟩ := released.cause t member
  · exact other _ isFree rfl
  · exact other _ isUnref rfl

/-! ## The releases of a space -/

/-- The indices that lead to an entry of a last table, the first one first. -/
abbrev Slot := Index × Index × Index × Index

def Slot.place (q : Slot) : List Index := [q.2.2.2, q.2.2.1, q.2.1, q.1]

section Space

variable (mem : Pages) (cr3 : Word)

/-- How often a space maps a page for ring 3. -/
def mappings (f : Word) : Nat :=
  (Finset.univ.filter fun q : Slot => userPage mem cr3 q.place = some f).card

/-- What `vmm_destroy` releases below a place, with so many levels of tables below. -/
def releases : Nat → List Index → List Release
  | 0, place => indices.flatMap fun i => ((userPage mem cr3 (i :: place)).map Release.unref).toList
  | levels + 1, place => indices.flatMap fun i =>
      ((tableAt mem cr3 (i :: place)).map fun t => releases levels (i :: place) ++ [.free t]).getD []

variable {mem cr3}

theorem userPage_none {place : List Index} (none : tableAt mem cr3 place = none) (i : Index) :
    userPage mem cr3 (i :: place) = .none := by
  rw [tableAt] at none
  rw [userPage, entryAt, entry, none]
  rfl

theorem releases_none {place : List Index} (none : tableAt mem cr3 place = none) (levels : Nat) :
    releases mem cr3 levels place = [] := by
  cases levels with
  | zero =>
    refine List.flatMap_eq_nil_iff.mpr fun i _ => ?_
    rw [userPage_none none]
    rfl
  | succ levels =>
    refine List.flatMap_eq_nil_iff.mpr fun i _ => ?_
    rw [tableAt] at none
    rw [tableAt, table, none]
    rfl

/-- A release is one of a user page, or of a table below. -/
theorem mem_releases {levels : Nat} {place : List Index} {r : Release}
    (member : r ∈ releases mem cr3 levels place) :
    (∃ q f, q.length = place.length + levels + 1 ∧ userPage mem cr3 q = some f ∧ r = .unref f) ∨
      ∃ q t, place <:+ q ∧ place.length < q.length ∧ tableAt mem cr3 q = some t ∧ r = .free t := by
  induction levels generalizing place with
  | zero =>
    obtain ⟨i, -, member⟩ := List.mem_flatMap.mp member
    rw [Option.mem_toList, Option.map_eq_some_iff] at member
    obtain ⟨f, isPage, rfl⟩ := member
    exact .inl ⟨_, f, by simp, isPage, rfl⟩
  | succ levels ih =>
    obtain ⟨i, -, member⟩ := List.mem_flatMap.mp member
    cases found : tableAt mem cr3 (i :: place) with
    | none =>
      rw [found] at member
      cases member
    | some t =>
      rw [found, Option.map_some, Option.getD_some, List.mem_append, List.mem_singleton] at member
      rcases member with below | rfl
      · rcases ih below with ⟨q, f, length, isPage, rfl⟩ | ⟨q, t', isBelow, longer, found', rfl⟩
        · rw [List.length_cons] at length
          exact .inl ⟨q, f, by omega, isPage, rfl⟩
        · rw [List.length_cons] at longer
          exact .inr ⟨q, t', (List.suffix_cons i place).trans isBelow, by omega, found', rfl⟩
      · exact .inr ⟨_, t, List.suffix_cons i place, by simp, found, rfl⟩

theorem free_mem_releases {levels : Nat} {place : List Index} {p : Word}
    (member : .free p ∈ releases mem cr3 levels place) :
    ∃ q, place <:+ q ∧ place.length < q.length ∧ tableAt mem cr3 q = some p := by
  rcases mem_releases member with ⟨_, _, _, _, not⟩ | ⟨q, t, below, longer, found, same⟩
  · cases not
  · cases same
    exact ⟨q, below, longer, found⟩

/-- Every table below a place is freed. -/
theorem free_mem_of_table {levels : Nat} {place q : List Index} {p : Word} (below : place <:+ q)
    (longer : place.length < q.length) (depth : q.length ≤ place.length + levels)
    (found : tableAt mem cr3 q = some p) : .free p ∈ releases mem cr3 levels place := by
  induction levels generalizing place with
  | zero => omega
  | succ levels ih =>
    obtain ⟨front, rfl⟩ := below
    have nonempty : front ≠ [] := by
      rintro rfl
      exact absurd longer (lt_irrefl _)
    obtain ⟨front, i, rfl⟩ := List.eq_nil_or_concat front |>.resolve_left nonempty
    have isBelow : i :: place <:+ front.concat i ++ place := by
      rw [List.concat_append]
      exact List.suffix_append front _
    refine List.mem_flatMap.mpr ⟨i, mem_indices i, ?_⟩
    cases foundI : tableAt mem cr3 (i :: place) with
    | none =>
      rw [tableAt, table_suffix isBelow foundI] at found
      cases found
    | some t =>
      rw [Option.map_some, Option.getD_some, List.mem_append, List.mem_singleton]
      cases isFront : front with
      | nil =>
        rw [isFront, List.concat_append, List.nil_append, foundI] at found
        exact .inr (congrArg Release.free (Option.some.inj found).symm)
      | cons j front' =>
        refine .inl (ih isBelow ?_ ?_)
        · rw [isFront, List.concat_append, List.length_append, List.length_cons, List.length_cons]
          omega
        · rw [List.length_append] at depth ⊢
          simp only [List.length_cons] at depth ⊢
          omega

/-- The tables of a tree are released once. -/
theorem nodup_frees_releases (distinct : Distinct child mem cr3) (levels : Nat) (place : List Index) :
    (frees (releases mem cr3 levels place)).Nodup := by
  induction levels generalizing place with
  | zero =>
    have nothing : frees (releases mem cr3 0 place) = [] := by
      refine List.eq_nil_iff_forall_not_mem.mpr fun p member => ?_
      obtain ⟨i, -, isFree⟩ := List.mem_flatMap.mp (mem_frees.mp member)
      rw [Option.mem_toList, Option.map_eq_some_iff] at isFree
      obtain ⟨_, _, not⟩ := isFree
      cases not
    rw [nothing]
    exact List.nodup_nil
  | succ levels ih =>
    have under : ∀ i p, p ∈ frees (((tableAt mem cr3 (i :: place)).map fun t =>
        releases mem cr3 levels (i :: place) ++ [.free t]).getD []) →
        ∃ q, i :: place <:+ q ∧ tableAt mem cr3 q = some p := by
      intro i p member
      cases found : tableAt mem cr3 (i :: place) with
      | none =>
        rw [found] at member
        cases member
      | some t =>
        rw [found, Option.map_some, Option.getD_some, frees_append, List.mem_append] at member
        rcases member with below | self
        · obtain ⟨q, isBelow, -, foundQ⟩ := free_mem_releases (mem_frees.mp below)
          exact ⟨q, isBelow, foundQ⟩
        · cases List.mem_singleton.mp (mem_frees.mp self)
          exact ⟨_, List.suffix_rfl, found⟩
    rw [releases, frees, List.filterMap_flatMap, List.nodup_flatMap]
    constructor
    · intro i _
      cases found : tableAt mem cr3 (i :: place) with
      | none => exact List.nodup_nil
      | some t =>
        show (frees (releases mem cr3 levels (i :: place) ++ [.free t])).Nodup
        rw [frees_append, List.nodup_append]
        refine ⟨ih (i :: place), List.nodup_singleton t, ?_⟩
        rintro p below q self rfl
        cases List.mem_singleton.mp (mem_frees.mp self)
        obtain ⟨q, -, longer, foundQ⟩ := free_mem_releases (mem_frees.mp below)
        rw [distinct _ _ _ foundQ found] at longer
        exact absurd longer (lt_irrefl _)
    · refine nodup_indices.imp fun {i j} other p memberI memberJ => ?_
      obtain ⟨q, isBelow, found⟩ := under i p memberI
      obtain ⟨q', isBelow', found'⟩ := under j p memberJ
      cases distinct _ _ _ found found'
      have same := List.suffix_of_suffix_length_le isBelow isBelow' (by simp)
      exact other (List.cons.inj (same.eq_of_length (by simp))).1

theorem sum_indices (g : Index → Nat) : (indices.map g).sum = ∑ i, g i := by
  have all : indices.toFinset = Finset.univ :=
    Finset.eq_univ_of_forall fun i => List.mem_toFinset.mpr (mem_indices i)
  rw [← List.sum_toFinset g nodup_indices, all]

theorem count_releases_zero (place : List Index) (f : Word) :
    (releases mem cr3 0 place).count (.unref f) =
      ∑ i, if userPage mem cr3 (i :: place) = some f then 1 else 0 := by
  rw [releases, List.count_flatMap, sum_indices]
  refine Finset.sum_congr rfl fun i _ => ?_
  rw [Function.comp_apply]
  cases userPage mem cr3 (i :: place) with
  | none => simp
  | some f' =>
    rw [Option.map_some, Option.toList_some, List.count_singleton]
    simp

theorem count_releases_succ (levels : Nat) (place : List Index) (f : Word) :
    (releases mem cr3 (levels + 1) place).count (.unref f) =
      ∑ i, (releases mem cr3 levels (i :: place)).count (.unref f) := by
  rw [releases, List.count_flatMap, sum_indices]
  refine Finset.sum_congr rfl fun i _ => ?_
  rw [Function.comp_apply]
  cases found : tableAt mem cr3 (i :: place) with
  | none => rw [releases_none found, Option.map_none, Option.getD_none]
  | some t =>
    rw [Option.map_some, Option.getD_some, List.count_append]
    simp

/-- Each mapping of a user page is released. -/
theorem count_releases (f : Word) :
    (releases mem cr3 3 []).count (.unref f) = mappings mem cr3 f := by
  rw [mappings, Finset.card_filter, Fintype.sum_prod_type, count_releases_succ]
  refine Finset.sum_congr rfl fun i4 _ => ?_
  rw [Fintype.sum_prod_type, count_releases_succ]
  refine Finset.sum_congr rfl fun i3 _ => ?_
  rw [Fintype.sum_prod_type, count_releases_succ]
  refine Finset.sum_congr rfl fun i2 _ => ?_
  rw [count_releases_zero]
  rfl

end Space

/-! ## `vmm_destroy` -/

/-- The tables at a place and below are what they were. -/
def Intact (vm vm' : Vm) (cr3 : Word) (place : List Index) : Prop :=
  ∀ q t, place <:+ q → tableAt vm.mem cr3 q = some t → vm'.mem t = vm.mem t

/-- No table of a space is one of its user pages. -/
def Unmapped (mem : Pages) (cr3 : Word) : Prop :=
  ∀ q f p, q.length = 4 → userPage mem cr3 q = some f → tableAt mem cr3 p ≠ some f

section Destroy

variable {vm vm' : Vm} {cr3 t : Word} {place : List Index} (distinct : Distinct child vm.mem cr3)
  (unmapped : Unmapped vm.mem cr3) (found : tableAt vm.mem cr3 place = some t)

include unmapped found

theorem unrefPages_eq (last : place.length = 3) (same : vm'.mem t = vm.mem t) :
    unrefPages vm' t = (releases vm.mem cr3 0 place).foldl Release.run vm' := by
  unfold unrefPages releases
  generalize indices = is
  induction is generalizing vm' with
  | nil => rfl
  | cons i is ih =>
    have entry : entryAt vm.mem cr3 (i :: place) = some (vm.mem t i) := entry_cons i found
    rw [List.foldl_cons, List.flatMap_cons, List.foldl_append, unrefPage, same]
    by_cases isPage : (present (vm.mem t i) && user (vm.mem t i)) = true
    · have page : userPage vm.mem cr3 (i :: place) = some (frame (vm.mem t i)) := by
        rw [userPage, entry, Option.bind_some, if_pos isPage]
      have other : frame (vm.mem t i) ≠ t := fun eq =>
        unmapped _ _ place (by simp [last]) page (found.trans (congrArg some eq.symm))
      have same' : (pmmUnref vm' (frame (vm.mem t i))).mem t = vm'.mem t :=
        release_mem_of_ne [.unref (frame (vm.mem t i))] (by simpa [Release.page] using other) vm'
      rw [if_pos isPage, page]
      exact ih (same'.trans same)
    · have page : userPage vm.mem cr3 (i :: place) = none := by
        rw [userPage, entry, Option.bind_some, if_neg isPage]
      rw [if_neg isPage, page]
      exact ih same

omit found in
include distinct in
/-- What is released at an index touches no table that is not below it. -/
theorem release_page_ne {levels : Nat} (depth : place.length + levels = 2) {i : Index} {t' : Word}
    (found' : tableAt vm.mem cr3 (i :: place) = some t') {r : Release}
    (member : r ∈ releases vm.mem cr3 levels (i :: place) ++ [.free t']) {q : List Index} {s : Word}
    (foundQ : tableAt vm.mem cr3 q = some s) (other : ¬ i :: place <:+ q) : r.page ≠ s := by
  rintro rfl
  rw [List.mem_append, List.mem_singleton] at member
  rcases member with below | rfl
  · rcases mem_releases below with ⟨q', f, length, page, rfl⟩ | ⟨q', t'', isBelow, -, found'', rfl⟩
    · rw [List.length_cons] at length
      exact unmapped q' f q (by omega) page foundQ
    · exact other (distinct _ _ _ found'' foundQ ▸ isBelow)
  · exact other (distinct _ _ _ found' foundQ ▸ List.suffix_rfl)

include distinct

theorem freeTables_eq {levels : Nat} (depth : place.length + levels = 2)
    {inner : Vm → Word → Vm} {skip : Word → Bool}
    (isTable : ∀ i, (present (vm.mem t i) && !skip (vm.mem t i)) = true ↔
      child place.length (vm.mem t i) = some (frame (vm.mem t i)))
    (isInner : ∀ {i t' vm'}, tableAt vm.mem cr3 (i :: place) = some t' →
      Intact vm vm' cr3 (i :: place) →
      inner vm' t' = (releases vm.mem cr3 levels (i :: place)).foldl Release.run vm')
    (intact : Intact vm vm' cr3 place) :
    freeTables inner skip vm' t = (releases vm.mem cr3 (levels + 1) place).foldl Release.run vm' := by
  have same : vm'.mem t = vm.mem t := intact place t List.suffix_rfl found
  have below : ∀ i ∈ indices, Intact vm vm' cr3 (i :: place) := fun i _ q s isBelow =>
    intact q s ((List.suffix_cons i place).trans isBelow)
  have nodup := nodup_indices
  unfold freeTables releases
  generalize indices = is at below nodup
  clear intact
  induction is generalizing vm' with
  | nil => rfl
  | cons i is ih =>
    rw [List.nodup_cons] at nodup
    have later : ∀ j ∈ is, Intact vm vm' cr3 (j :: place) := fun j member =>
      below j (List.mem_cons_of_mem i member)
    rw [List.foldl_cons, List.flatMap_cons, List.foldl_append, freeTable]
    by_cases isChild : (present (vm.mem t i) && !skip (vm.mem t i)) = true
    · have found' : tableAt vm.mem cr3 (i :: place) = some (frame (vm.mem t i)) :=
        (table_cons i found).trans ((isTable i).mp isChild)
      have others := fun {r} member {q s} =>
        release_page_ne distinct unmapped depth found' (r := r) member (q := q) (s := s)
      have upper : ¬ i :: place <:+ place := not_suffix (by simp)
      have inner_eq := isInner found' (below i List.mem_cons_self)
      have inner_same : (inner vm' (frame (vm.mem t i))).mem t = vm'.mem t := by
        rw [inner_eq]
        exact release_mem_of_ne _ (fun r member =>
          others (List.mem_append_left _ member) found upper) vm'
      have freed : pmmFree (inner vm' (frame (vm.mem t i))) (frame (vm.mem t i)) =
          (releases vm.mem cr3 levels (i :: place) ++ [Release.free (frame (vm.mem t i))]).foldl Release.run
            vm' := by
        rw [List.foldl_append, inner_eq]
        rfl
      dsimp only
      rw [same, if_pos isChild, inner_same, same, freed, found', Option.map_some, Option.getD_some]
      refine ih ?_ (fun j member q s isBelow foundQ => ?_) nodup.2
      · rw [release_mem_of_ne _ fun r member => others member found upper, same]
      · -- an index of its own leads to tables of its own
        have other : ¬ i :: place <:+ q := fun isBelow' => by
          have eq := (List.suffix_of_suffix_length_le isBelow isBelow' (by simp)).eq_of_length (by simp)
          exact nodup.1 ((List.cons.inj eq).1 ▸ member)
        rw [release_mem_of_ne _ fun r released => others released foundQ other,
          later j member q s isBelow foundQ]
    · have none : tableAt vm.mem cr3 (i :: place) = none := by
        refine (table_cons i found).trans ?_
        unfold child
        refine if_neg fun table => isChild ((isTable i).mpr (if_pos table))
      dsimp only
      rw [same, if_neg isChild, none, Option.map_none, Option.getD_none]
      exact ih same later nodup.2

end Destroy

/-- `vmm_destroy` of a space releases its user pages and its tables. -/
theorem vmmDestroy_eq {vm : Vm} {cr3 : Word} (distinct : Distinct child vm.mem cr3)
    (unmapped : Unmapped vm.mem cr3)
    (small : ∀ i, present (vm.mem cr3 i) = true → huge (vm.mem cr3 i) = false) :
    vmmDestroy vm cr3 = (releases vm.mem cr3 3 [] ++ [Release.free cr3]).foldl Release.run vm := by
  have isTable : ∀ depth < 3, ∀ e, (present e && !huge e) = true ↔ child depth e = some (frame e) := by
    intro depth low e
    rw [Bool.and_eq_true, Bool.not_eq_true']
    constructor
    · exact fun table => if_pos ⟨low, table⟩
    · intro isChild
      unfold child at isChild
      split at isChild
      · rename_i table
        exact table.2
      · cases isChild
  have root : tableAt vm.mem cr3 [] = some cr3 := rfl
  rw [List.foldl_append, vmmDestroy]
  refine congrArg (pmmFree · cr3) ?_
  refine freeTables_eq distinct unmapped root rfl (fun i => ?_) (fun found4 intact4 => ?_)
    fun _ _ _ _ => rfl
  · rw [← isTable _ (by decide)]
    cases isPresent : present (vm.mem cr3 i) with
    | false => simp
    | true => simp [small i isPresent]
  · refine freeTables_eq distinct unmapped found4 rfl (fun i => isTable _ (by decide : 1 < 3) _)
      (fun found3 intact3 => ?_) intact4
    refine freeTables_eq distinct unmapped found3 rfl (fun i => isTable _ (by decide : 2 < 3) _)
      (fun found2 intact2 => ?_) intact3
    exact unrefPages_eq unmapped found2 rfl (intact2 _ _ List.suffix_rfl found2)

end Systrix.Vmm
