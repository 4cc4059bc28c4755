import Mathlib.Data.List.Nodup
import Mathlib.Logic.Function.Basic

/-!
# Trees of nodes with pointers

A heap of nodes that know their children and their parent.  Nodes are numbered
in the order in which they were allocated.
-/

namespace PointerTree

variable {Node : Type}

/-- The nodes in use. -/
abbrev Heap (Node : Type) := Nat → Option Node

variable (children : Node → List Nat) (parent : Node → Option Nat)

/-! ## Reachable nodes -/

/-- A node is reached through lists of children. -/
inductive Reach (heap : Heap Node) : Nat → Nat → Prop where
  | refl {n : Nat} {node : Node} : heap n = some node → Reach heap n n
  | step {n c m : Nat} {node : Node} : heap n = some node → c ∈ children node → Reach heap c m → Reach heap n m

section Reach

variable {children} {heap heap' : Heap Node}

theorem Reach.trans {n m l : Nat} (first : Reach children heap n m) (second : Reach children heap m l) :
    Reach children heap n l := by
  induction first with
  | refl => exact second
  | step found member _ ih => exact .step found member (ih second)

/-- With fewer nodes less is reached. -/
theorem Reach.mono (fewer : ∀ n node, heap' n = some node → heap n = some node) {n m : Nat}
    (reach : Reach children heap' n m) : Reach children heap n m := by
  induction reach with
  | refl found => exact .refl (fewer _ _ found)
  | step found member _ ih => exact .step (fewer _ _ found) member ih

/-- Some nodes are gone, the others are what they were. -/
def Removed (heap heap' : Heap Node) (gone : Nat → Prop) : Prop :=
  ∀ n, (gone n → heap' n = none) ∧ (¬ gone n → heap' n = heap n)

theorem Removed.fewer {gone : Nat → Prop} (removed : Removed heap heap' gone) (n : Nat) (node : Node)
    (found : heap' n = some node) : heap n = some node := by
  by_cases isGone : gone n
  · rw [(removed n).1 isGone] at found
    cases found
  · rw [← (removed n).2 isGone]
    exact found

/-- What is not reached any more without the nodes below `c` was below `c`. -/
theorem Reach.removed {c : Nat} (removed : Removed heap heap' (Reach children heap c)) {n m : Nat}
    (reach : Reach children heap n m) : Reach children heap' n m ∨ Reach children heap c m := by
  induction reach with
  | @refl n node found =>
      by_cases below : Reach children heap c n
      · exact .inr below
      · exact .inl (.refl (((removed n).2 below).trans found))
  | @step n d m node found member reach ih =>
      by_cases below : Reach children heap c n
      · exact .inr (below.trans (.step found member reach))
      · exact ih.imp_left (.step (((removed n).2 below).trans found) member)

end Reach

/-! ## Freeing a tree -/

/-- Free the nodes below a node, then the node. -/
def freeTree : Nat → Heap Node → Nat → Option (Heap Node)
  | 0, _, _ => none
  | fuel + 1, heap, n =>
      match heap n with
      | none => some heap
      | some node =>
          match (children node).foldlM (fun heap c => freeTree fuel heap c) heap with
          | none => none
          | some heap => some (Function.update heap n none)

section Free

variable {children}

/-- Children are younger than their parents, and older than `hi`. -/
def Ordered (children : Node → List Nat) (heap : Heap Node) (lo hi : Nat) : Prop :=
  ∀ n node, lo ≤ n → n < hi → heap n = some node → ∀ c ∈ children node, n < c ∧ c < hi

theorem Ordered.fewer {heap heap' : Heap Node} {lo hi : Nat} (ordered : Ordered children heap lo hi)
    (fewer : ∀ n node, heap' n = some node → heap n = some node) : Ordered children heap' lo hi :=
  fun n node low high found => ordered n node low high (fewer n node found)

/-- Freeing the nodes of a list one after the other frees what is below them. -/
theorem foldlM_freeTree {fuel lo hi : Nat}
    (free : ∀ heap n, Ordered children heap lo hi → lo ≤ n → n < hi → hi ≤ n + fuel →
      ∃ heap', freeTree children fuel heap n = some heap' ∧ Removed heap heap' (Reach children heap n))
    (cs : List Nat) (heap : Heap Node) (ordered : Ordered children heap lo hi)
    (young : ∀ c ∈ cs, lo ≤ c ∧ c < hi ∧ hi ≤ c + fuel) :
    ∃ heap', cs.foldlM (fun heap c => freeTree children fuel heap c) heap = some heap' ∧
      Removed heap heap' fun m => ∃ c ∈ cs, Reach children heap c m := by
  induction cs generalizing heap with
  | nil => exact ⟨heap, rfl, fun n => ⟨fun ⟨c, member, _⟩ => absurd member List.not_mem_nil, fun _ => rfl⟩⟩
  | cons c cs ih =>
      obtain ⟨low, less, enough⟩ := young c List.mem_cons_self
      obtain ⟨first, isFirst, removed⟩ := free heap c ordered low less enough
      obtain ⟨last, isLast, removed'⟩ := ih first (ordered.fewer removed.fewer) fun d member =>
        young d (List.mem_cons_of_mem c member)
      refine ⟨last, ?_, fun m => ⟨?_, fun others => ?_⟩⟩
      · rw [List.foldlM_cons, isFirst]
        exact isLast
      · rintro ⟨d, member, reach⟩
        have below : Reach children heap c m → last m = none := fun reach => by
          by_cases later : ∃ d ∈ cs, Reach children first d m
          · exact (removed' m).1 later
          · exact ((removed' m).2 later).trans ((removed m).1 reach)
        rcases List.mem_cons.mp member with rfl | later
        · exact below reach
        · rcases reach.removed removed with still | before
          · exact (removed' m).1 ⟨d, later, still⟩
          · exact below before
      · have notFirst : ¬ Reach children heap c m := fun reach => others ⟨c, List.mem_cons_self, reach⟩
        have notLater : ¬ ∃ d ∈ cs, Reach children first d m := fun ⟨d, member, reach⟩ =>
          others ⟨d, List.mem_cons_of_mem c member, reach.mono removed.fewer⟩
        exact ((removed' m).2 notLater).trans ((removed m).2 notFirst)

/-- Freeing a node frees what is below it, and nothing else. -/
theorem freeTree_removed {lo hi : Nat} (fuel : Nat) (heap : Heap Node) (n : Nat)
    (ordered : Ordered children heap lo hi) (low : lo ≤ n) (less : n < hi) (enough : hi ≤ n + fuel) :
    ∃ heap', freeTree children fuel heap n = some heap' ∧ Removed heap heap' (Reach children heap n) := by
  induction fuel generalizing heap n with
  | zero => omega
  | succ fuel ih =>
      rw [freeTree]
      cases found : heap n with
      | none =>
          refine ⟨heap, rfl, fun m => ⟨fun reach => ?_, fun _ => rfl⟩⟩
          cases reach with
          | refl found' => exact absurd (found.symm.trans found') (Option.some_ne_none _).symm
          | step found' _ _ => exact absurd (found.symm.trans found') (Option.some_ne_none _).symm
      | some node =>
          have below : ∀ c ∈ children node, lo ≤ c ∧ c < hi ∧ hi ≤ c + fuel := fun c member => by
            obtain ⟨later, inside⟩ := ordered n node low less found c member
            exact ⟨by omega, inside, by omega⟩
          obtain ⟨heap', freed, removed⟩ := foldlM_freeTree ih (children node) heap ordered below
          refine ⟨Function.update heap' n none, by dsimp only; rw [freed], fun m => ?_⟩
          by_cases same : m = n
          · subst same
            rw [Function.update_self]
            exact ⟨fun _ => rfl, fun away => absurd (.refl found) away⟩
          · rw [Function.update_of_ne same]
            refine ⟨fun reach => (removed m).1 ?_, fun away => (removed m).2 fun ⟨c, member, reach⟩ =>
              away (.step found member reach)⟩
            cases reach with
            | refl _ => exact absurd rfl same
            | step found' member reach =>
                obtain rfl := Option.some.inj (found.symm.trans found')
                exact ⟨_, member, reach⟩

end Free

/-! ## Trees -/

/-- The nodes from `lo` to `hi` are a tree: every node but the root is in the list of its parent, once,
and in no other list. -/
structure IsTree (heap : Heap Node) (lo hi root : Nat) : Prop where
  inside : lo ≤ root ∧ root < hi
  top : ∃ node, heap root = some node ∧ parent node = none
  up : ∀ n node, lo ≤ n → n < hi → heap n = some node → n ≠ root →
    ∃ p pnode, parent node = some p ∧ lo ≤ p ∧ p < hi ∧ heap p = some pnode ∧ n ∈ children pnode
  once : ∀ n node, lo ≤ n → n < hi → heap n = some node → (children node).Nodup
  down : ∀ n node, lo ≤ n → n < hi → heap n = some node → ∀ c ∈ children node,
    n < c ∧ c < hi ∧ ∃ cnode, heap c = some cnode ∧ parent cnode = some n

/-- No node from `lo` to `hi` is in use. -/
def Unused (heap : Heap Node) (lo hi : Nat) : Prop := ∀ n, lo ≤ n → n < hi → heap n = none

section Tree

variable {children} {parent} {heap heap' : Heap Node} {lo mid hi root : Nat}

/-- A tree depends on its own nodes only. -/
theorem IsTree.congr (tree : IsTree children parent heap lo hi root)
    (same : ∀ n, lo ≤ n → n < hi → heap' n = heap n) : IsTree children parent heap' lo hi root where
  inside := tree.inside
  top := by
    rw [same root tree.inside.1 tree.inside.2]
    exact tree.top
  up n node low high found other := by
    rw [same n low high] at found
    obtain ⟨p, pnode, isParent, lowP, highP, foundP, member⟩ := tree.up n node low high found other
    exact ⟨p, pnode, isParent, lowP, highP, (same p lowP highP).trans foundP, member⟩
  once n node low high found := tree.once n node low high ((same n low high).symm.trans found)
  down n node low high found c member := by
    obtain ⟨later, below, cnode, foundC, isParent⟩ :=
      tree.down n node low high ((same n low high).symm.trans found) c member
    exact ⟨later, below, cnode, (same c (by omega) below).trans foundC, isParent⟩

/-- Every node of a tree is reached from the root. -/
theorem IsTree.reach (tree : IsTree children parent heap lo hi root) (n : Nat) {node : Node} (low : lo ≤ n)
    (high : n < hi) (found : heap n = some node) : Reach children heap root n := by
  induction n using Nat.strongRecOn generalizing node with
  | ind n ih =>
      by_cases same : n = root
      · subst same
        exact .refl found
      · obtain ⟨p, pnode, isParent, lowP, highP, foundP, member⟩ := tree.up n node low high found same
        obtain ⟨later, -, -⟩ := tree.down p pnode lowP highP foundP n member
        exact (ih p later lowP highP foundP).trans (.step foundP member (.refl found))

/-- Nothing else is reached. -/
theorem IsTree.reach_inside (tree : IsTree children parent heap lo hi root) {n m : Nat}
    (reach : Reach children heap n m) (low : lo ≤ n) (high : n < hi) : lo ≤ m ∧ m < hi ∧ heap m ≠ none := by
  induction reach with
  | refl found => exact ⟨low, high, by rw [found]; exact Option.some_ne_none _⟩
  | step found member _ ih =>
      obtain ⟨later, below, -⟩ := tree.down _ _ low high found _ member
      exact ih (by omega) below

/-- Freeing the root frees the tree. -/
theorem IsTree.free (tree : IsTree children parent heap lo hi root) (fuel : Nat) (enough : hi ≤ root + fuel) :
    ∃ heap', freeTree children fuel heap root = some heap' ∧ Unused heap' lo hi ∧
      ∀ n, n < lo ∨ hi ≤ n → heap' n = heap n := by
  have ordered : Ordered children heap lo hi := fun n node low high found c member => by
    obtain ⟨later, below, -⟩ := tree.down n node low high found c member
    exact ⟨later, below⟩
  obtain ⟨heap', freed, removed⟩ := freeTree_removed fuel heap root ordered tree.inside.1 tree.inside.2 enough
  refine ⟨heap', freed, fun n low high => ?_, fun n outside => (removed n).2 fun reach => ?_⟩
  · cases found : heap n with
    | none =>
        cases found' : heap' n with
        | none => rfl
        | some node => exact absurd (found.symm.trans (removed.fewer n node found')) (Option.some_ne_none _).symm
    | some node => exact (removed n).1 (tree.reach n low high found)
  · obtain ⟨low, high, -⟩ := tree.reach_inside reach tree.inside.1 tree.inside.2
    omega

/-- Numbers that are not used do not count. -/
theorem IsTree.extend (tree : IsTree children parent heap lo mid root) (unused : Unused heap mid hi)
    (order : mid ≤ hi) :
    IsTree children parent heap lo hi root := by
  have inner : ∀ {n : Nat} {node : Node}, n < hi → heap n = some node → n < mid := fun {n node} high found => by
    by_contra outside
    rw [unused n (by omega) high] at found
    cases found
  refine ⟨⟨tree.inside.1, by have := tree.inside.2; omega⟩, tree.top, fun n node low high found other => ?_,
    fun n node low high found => tree.once n node low (inner high found) found,
    fun n node low high found c member => ?_⟩
  · obtain ⟨p, pnode, isParent, lowP, highP, rest⟩ := tree.up n node low (inner high found) found other
    exact ⟨p, pnode, isParent, lowP, by omega, rest⟩
  · obtain ⟨later, below, rest⟩ := tree.down n node low (inner high found) found c member
    exact ⟨later, by omega, rest⟩

/-- A node alone. -/
theorem IsTree.single {node : Node} (found : heap lo = some node) (leaf : children node = [])
    (top : parent node = none) :
    IsTree children parent heap lo (lo + 1) lo := by
  have only : ∀ {n : Nat}, lo ≤ n → n < lo + 1 → n = lo := fun low high => by omega
  refine ⟨⟨Nat.le_refl lo, Nat.lt_succ_self lo⟩, ⟨node, found, top⟩, fun n node low high _ other => ?_,
    fun n node' low high found' => ?_, fun n node' low high found' c member => ?_⟩
  · exact absurd (only low high) other
  · obtain rfl := only low high
    obtain rfl := Option.some.inj (found.symm.trans found')
    rw [leaf]
    exact List.nodup_nil
  · obtain rfl := only low high
    obtain rfl := Option.some.inj (found.symm.trans found')
    rw [leaf] at member
    exact absurd member List.not_mem_nil

/-- A younger tree becomes the last child of the root. -/
theorem IsTree.attach {c : Nat} {node cnode node' cnode' : Node} (tree : IsTree children parent heap lo mid root)
    (child : IsTree children parent heap mid hi c) (found : heap root = some node) (foundC : heap c = some cnode)
    (isNode : heap' root = some node') (isChild : heap' c = some cnode')
    (others : ∀ n, n ≠ root → n ≠ c → heap' n = heap n) (list : children node' = children node ++ [c])
    (top : parent node' = parent node) (kept : children cnode' = children cnode) (link : parent cnode' = some root) :
    IsTree children parent heap' lo hi root := by
  obtain ⟨lowRoot, highRoot⟩ := tree.inside
  obtain ⟨lowC, highC⟩ := child.inside
  obtain ⟨_, found', noParent⟩ := tree.top
  obtain rfl := Option.some.inj (found.symm.trans found')
  obtain ⟨_, foundC', noParentC⟩ := child.top
  obtain rfl := Option.some.inj (foundC.symm.trans foundC')
  refine ⟨⟨lowRoot, by omega⟩, ⟨node', isNode, top.trans noParent⟩, fun n nnode low high foundN other => ?_,
    fun n nnode low high foundN => ?_, fun n nnode low high foundN d member => ?_⟩
  · by_cases isC : n = c
    · subst isC
      obtain rfl := Option.some.inj (isChild.symm.trans foundN)
      refine ⟨root, node', link, lowRoot, by omega, isNode, ?_⟩
      rw [list]
      exact List.mem_append_right _ List.mem_cons_self
    · rw [others n other isC] at foundN
      rcases Nat.lt_or_ge n mid with old | new
      · obtain ⟨p, pnode, isParent, lowP, highP, foundP, member⟩ := tree.up n nnode low old foundN other
        by_cases isRoot : p = root
        · subst isRoot
          obtain rfl := Option.some.inj (found.symm.trans foundP)
          exact ⟨p, node', isParent, lowP, by omega, isNode, by rw [list]; exact List.mem_append_left _ member⟩
        · exact ⟨p, pnode, isParent, lowP, by omega, (others p isRoot (by omega)).trans foundP, member⟩
      · obtain ⟨p, pnode, isParent, lowP, highP, foundP, member⟩ := child.up n nnode new high foundN isC
        by_cases isC' : p = c
        · subst isC'
          obtain rfl := Option.some.inj (foundC.symm.trans foundP)
          exact ⟨p, cnode', isParent, by omega, highP, isChild, by rw [kept]; exact member⟩
        · exact ⟨p, pnode, isParent, by omega, highP, (others p (by omega) isC').trans foundP, member⟩
  · by_cases isRoot : n = root
    · subst isRoot
      obtain rfl := Option.some.inj (isNode.symm.trans foundN)
      rw [list]
      refine List.nodup_append.mpr ⟨tree.once n node low highRoot found, List.nodup_singleton c,
        fun d member d' member' same => ?_⟩
      obtain ⟨-, below, -⟩ := tree.down n node low highRoot found d member
      obtain rfl := List.mem_singleton.mp member'
      omega
    · by_cases isC : n = c
      · subst isC
        obtain rfl := Option.some.inj (isChild.symm.trans foundN)
        rw [kept]
        exact child.once n cnode lowC highC foundC
      · rw [others n isRoot isC] at foundN
        rcases Nat.lt_or_ge n mid with old | new
        · exact tree.once n nnode low old foundN
        · exact child.once n nnode new high foundN
  · by_cases isRoot : n = root
    · subst isRoot
      obtain rfl := Option.some.inj (isNode.symm.trans foundN)
      rw [list, List.mem_append, List.mem_singleton] at member
      rcases member with member | rfl
      · obtain ⟨later, below, dnode, foundD, isParent⟩ := tree.down n node low highRoot found d member
        exact ⟨later, by omega, dnode, (others d (by omega) (by omega)).trans foundD, isParent⟩
      · exact ⟨by omega, highC, cnode', isChild, link⟩
    · by_cases isC : n = c
      · subst isC
        obtain rfl := Option.some.inj (isChild.symm.trans foundN)
        rw [kept] at member
        obtain ⟨later, below, dnode, foundD, isParent⟩ := child.down n cnode lowC highC foundC d member
        exact ⟨later, below, dnode, (others d (by omega) (by omega)).trans foundD, isParent⟩
      · rw [others n isRoot isC] at foundN
        rcases Nat.lt_or_ge n mid with old | new
        · obtain ⟨later, below, dnode, foundD, isParent⟩ := tree.down n nnode low old foundN d member
          have notRoot : d ≠ root := fun same => by
            subst same
            obtain rfl := Option.some.inj (found.symm.trans foundD)
            rw [noParent] at isParent
            cases isParent
          exact ⟨later, by omega, dnode, (others d notRoot (by omega)).trans foundD, isParent⟩
        · obtain ⟨later, below, dnode, foundD, isParent⟩ := child.down n nnode new high foundN d member
          have notC : d ≠ c := fun same => by
            subst same
            obtain rfl := Option.some.inj (foundC.symm.trans foundD)
            rw [noParentC] at isParent
            cases isParent
          exact ⟨later, below, dnode, (others d (by omega) notC).trans foundD, isParent⟩

end Tree

end PointerTree
