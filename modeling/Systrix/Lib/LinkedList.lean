import Mathlib.Data.List.Nodup
import Mathlib.Tactic.Common

/-!
# Lists threaded through a store

A singly linked list is the trace of a `next` function from a head up to a nil
value.  The store behind `next` is left open: only its values at the members of
the list matter.
-/

namespace LinkedList

variable {next next' : Nat → Nat} {nil head : Nat} {members : List Nat}

/-- Following `next` from `head` visits `members` and then meets `nil`. -/
def Chain (next : Nat → Nat) (nil : Nat) : (head : Nat) → List Nat → Prop
  | head, [] => head = nil
  | head, member :: members => head = member ∧ member ≠ nil ∧ Chain next nil (next member) members

/-- A node that the walk from a head meets. -/
inductive Reaches (next : Nat → Nat) (nil : Nat) : (head node : Nat) → Prop
  | here {node : Nat} (nonNil : node ≠ nil) : Reaches next nil node node
  | next {head node : Nat} (nonNil : head ≠ nil) (rest : Reaches next nil (next head) node) :
      Reaches next nil head node

/-- A node that no link names is reached from itself only. -/
theorem Reaches.eq_head {node : Nat} (reaches : Reaches next nil head node) (unnamed : ∀ other, next other ≠ node) :
    head = node := by
  induction reaches with
  | here => rfl
  | next nonNil rest ih => exact absurd (ih unnamed) (unnamed _)

namespace Chain

theorem head_mem (chain : Chain next nil head members) (nonNil : head ≠ nil) : head ∈ members := by
  cases members with
  | nil => exact absurd chain nonNil
  | cons first members =>
      rw [chain.1]
      exact List.mem_cons_self

theorem reaches (chain : Chain next nil head members) {node : Nat} (member : node ∈ members) :
    Reaches next nil head node := by
  induction members generalizing head with
  | nil => exact absurd member List.not_mem_nil
  | cons first members ih =>
      obtain ⟨rfl, nonNil, tail⟩ := chain
      rcases List.mem_cons.mp member with rfl | later
      · exact .here nonNil
      · exact .next nonNil (ih tail later)

theorem head_eq (chain : Chain next nil head members) : head = members.headD nil := by
  cases members with
  | nil => exact chain
  | cons => exact chain.1

theorem eq_nil_iff (chain : Chain next nil head members) : head = nil ↔ members = [] := by
  cases members with
  | nil => exact ⟨fun _ => rfl, fun _ => chain⟩
  | cons member members =>
      obtain ⟨rfl, nonNil, -⟩ := chain
      simp [nonNil]

theorem congr (chain : Chain next nil head members)
    (same : ∀ member ∈ members, next' member = next member) : Chain next' nil head members := by
  induction members generalizing head with
  | nil => exact chain
  | cons member members ih =>
      refine ⟨chain.1, chain.2.1, ?_⟩
      rw [same member (by simp)]
      exact ih chain.2.2 fun other isMember => same other (by simp [isMember])

/-- A list is determined by its head. -/
theorem unique {other : List Nat} (left : Chain next nil head members)
    (right : Chain next nil head other) : members = other := by
  induction members generalizing head other with
  | nil =>
      have empty := (right.eq_nil_iff).mp left
      exact empty.symm
  | cons member members ih =>
      cases other with
      | nil => exact absurd right (left.1 ▸ left.2.1)
      | cons member' other =>
          obtain ⟨rfl, -, leftTail⟩ := left
          obtain ⟨rfl, -, rightTail⟩ := right
          rw [ih leftTail rightTail]

/-- Links from each number to the one behind it, below a limit, visit the numbers from one on. -/
theorem consecutive {n i : Nat} (below : i < n) (nilAbove : n ≤ nil)
    (links : ∀ j < n, next j = if j + 1 < n then j + 1 else nil) : Chain next nil i (List.range' i (n - i)) := by
  obtain ⟨rest, restEq⟩ : ∃ rest, n - i = rest + 1 := ⟨n - i - 1, by omega⟩
  induction rest generalizing i with
  | zero =>
      have last : ¬i + 1 < n := by omega
      rw [restEq]
      refine ⟨rfl, by omega, ?_⟩
      rw [links i below, if_neg last]
      rfl
  | succ rest ih =>
      have more : i + 1 < n := by omega
      rw [restEq, List.range'_succ]
      refine ⟨rfl, by omega, ?_⟩
      rw [links i below, if_pos more]
      have tail := ih more (by omega)
      rwa [show n - (i + 1) = rest + 1 by omega] at tail

/-- The part of a list behind a node. -/
theorem behind {front back : List Nat} {node : Nat} (chain : Chain next nil head (front ++ node :: back)) :
    Chain next nil (next node) back := by
  induction front generalizing head with
  | nil => exact chain.2.2
  | cons first front ih => exact ih chain.2.2

/-- A node is taken out when the one before it gets its link. -/
theorem unlink {front back : List Nat} {before node : Nat}
    (chain : Chain next nil head (front ++ before :: node :: back)) (link : next' before = next node)
    (same : ∀ member ∈ front ++ back, next' member = next member) :
    Chain next' nil head (front ++ before :: back) := by
  induction front generalizing head with
  | nil =>
      refine ⟨chain.1, chain.2.1, ?_⟩
      rw [link]
      exact chain.2.2.2.2.congr same
  | cons first front ih =>
      refine ⟨chain.1, chain.2.1, ?_⟩
      rw [same first List.mem_cons_self]
      exact ih chain.2.2 fun member isMember => same member (List.mem_cons_of_mem _ isMember)

end Chain

/-- The links back of a list: each is what is kept of the name of the node before, the first of what
stands before the list. -/
def BackLinks (kept prev : Nat → Nat) : (before : Nat) → List Nat → Prop
  | _, [] => True
  | before, member :: members => prev member = kept before ∧ BackLinks kept prev member members

namespace BackLinks

variable {kept prev prev' : Nat → Nat} {before : Nat}

theorem congr (back : BackLinks kept prev before members) (same : ∀ member ∈ members, prev' member = prev member) :
    BackLinks kept prev' before members := by
  induction members generalizing before with
  | nil => trivial
  | cons first members ih =>
      refine ⟨(same first List.mem_cons_self).trans back.1, ?_⟩
      exact ih back.2 fun member isMember => same member (List.mem_cons_of_mem _ isMember)

/-- The link back of a node inside a list. -/
theorem prev_eq {front rest : List Nat} {node last : Nat}
    (back : BackLinks kept prev before (front ++ last :: node :: rest)) : prev node = kept last := by
  induction front generalizing before with
  | nil => exact back.2.1
  | cons first front ih => exact ih back.2

/-- A node is taken out when the one behind it gets its link back. -/
theorem unlink {front rest : List Nat} {node last : Nat}
    (back : BackLinks kept prev before (front ++ last :: node :: rest))
    (link : ∀ behind ∈ rest.head?, prev' behind = prev node)
    (same : ∀ member ∈ front ++ last :: rest.tail, prev' member = prev member) :
    BackLinks kept prev' before (front ++ last :: rest) := by
  induction front generalizing before with
  | nil =>
      refine ⟨(same last List.mem_cons_self).trans back.1, ?_⟩
      cases rest with
      | nil => trivial
      | cons behind rest =>
          have keeps := back.2.2.2.congr fun member isMember => same member (List.mem_cons_of_mem _ isMember)
          exact ⟨(link behind rfl).trans back.2.1, keeps⟩
  | cons first front ih =>
      refine ⟨(same first List.mem_cons_self).trans back.1, ?_⟩
      exact ih back.2 fun member isMember => same member (List.mem_cons_of_mem _ isMember)

end BackLinks

end LinkedList
