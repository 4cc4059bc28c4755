import Mathlib.Data.Finset.Card
import Mathlib.Logic.Relation

/-!
# Walks that erase their way

A walk follows links from node to node and wipes out each node it comes to, its link among the rest.  It ends even where
the links run in a circle, since a wiped node leads nowhere, and it wipes exactly the nodes that could be reached when
it began.
-/

namespace ErasingWalk

variable {σ α : Type} (next : σ → α → Option α) (wipe : σ → α → σ)

/-- The links between the nodes. -/
def Link (s : σ) (a b : α) : Prop := next s a = some b

/-- The nodes that can be reached from a node. -/
def Reach (s : σ) : α → α → Prop := Relation.ReflTransGen (Link next s)

/-- Wipe a node and go on where it led; the fuel bounds the steps. -/
def walk : (fuel : Nat) → σ → Option α → Option σ
  | _, s, none => some s
  | 0, _, some _ => none
  | fuel + 1, s, some a => walk fuel (wipe s a) (next s a)

/-- A wiped node has no link any more, and all other links stay. -/
structure Wipes (live : α → Prop) : Prop where
  target : ∀ s a b, next s a = some b → live b
  wiped : ∀ s a, live a → next (wipe s a) a = none
  kept : ∀ s a b, live a → b ≠ a → next (wipe s a) b = next s b

variable {next wipe} {live : α → Prop} {s s' : σ} {a b : α}

/-- What is reached is reached at once or along the links that are left when the first node is wiped. -/
theorem reach_wiped (wipes : Wipes next wipe live) (alive : live a) :
    Reach next s a b ↔ b = a ∨ ∃ c, next s a = some c ∧ Reach next (wipe s a) c b := by
  constructor
  · intro reach
    induction reach with
    | refl => exact Or.inl rfl
    | @tail b c _ link ih =>
        by_cases here : b = a
        · subst here
          exact Or.inr ⟨c, link, .refl⟩
        · obtain ⟨first, left, path⟩ := ih.resolve_left here
          exact Or.inr ⟨first, left, path.tail ((wipes.kept s a b alive here).trans link)⟩
  · rintro (rfl | ⟨c, first, path⟩)
    · exact .refl
    · refine .head first (Relation.ReflTransGen.mono (fun x y link => ?_) c b path)
      have other : x ≠ a := by
        rintro rfl
        rw [Link, wipes.wiped s x alive] at link
        cases link
      exact (wipes.kept s a x alive other).symm.trans link

/-- The walk has wiped exactly the nodes that could be reached when it began. -/
theorem walk_wipes (wipes : Wipes next wipe live) {fuel : Nat} (alive : live a)
    (walked : walk next wipe fuel s (some a) = some s') :
    ∃ visited : List α, (∀ b, b ∈ visited ↔ Reach next s a b) ∧ s' = visited.foldl wipe s := by
  induction fuel generalizing s a with
  | zero => cases walked
  | succ fuel ih =>
      rw [walk] at walked
      cases link : next s a with
      | none =>
          rw [link, walk.eq_1] at walked
          refine ⟨[a], fun b => ?_, (Option.some.inj walked).symm⟩
          rw [reach_wiped wipes alive, link, List.mem_singleton]
          simp
      | some c =>
          rw [link] at walked
          obtain ⟨visited, reached, rfl⟩ := ih (wipes.target s a c link) walked
          refine ⟨a :: visited, fun b => ?_, rfl⟩
          rw [List.mem_cons, reached, reach_wiped wipes alive, link]
          simp

/-- The nodes with a link get fewer with each step. -/
theorem walk_ends (wipes : Wipes next wipe live) {nodes : Finset α} (finite : ∀ a, live a → a ∈ nodes) {fuel : Nat}
    (alive : live a) (enough : (nodes.filter fun a => (next s a).isSome).card < fuel) :
    ∃ s', walk next wipe fuel s (some a) = some s' := by
  induction fuel generalizing s a with
  | zero => exact absurd enough (Nat.not_lt_zero _)
  | succ fuel ih =>
      rw [walk]
      cases link : next s a with
      | none => exact ⟨wipe s a, walk.eq_1 _ _ _ _⟩
      | some c =>
          refine ih (wipes.target s a c link) (Nat.lt_of_lt_of_le ?_ (Nat.le_of_lt_succ enough))
          refine Finset.card_lt_card ⟨fun b member => ?_, fun all => ?_⟩
          · rw [Finset.mem_filter] at member ⊢
            refine ⟨member.1, ?_⟩
            have other : b ≠ a := by
              rintro rfl
              rw [wipes.wiped s b alive] at member
              cases member.2
            rw [← wipes.kept s a b alive other]
            exact member.2
          · have gone := all (Finset.mem_filter.mpr ⟨finite a alive, by rw [link]; rfl⟩)
            rw [Finset.mem_filter, wipes.wiped s a alive] at gone
            cases gone.2

/-- Changes where nothing is reached change nothing that is reached. -/
theorem reach_congr {next' : σ → α → Option α} {t : σ} (same : ∀ c, Reach next s a c → next' t c = next s c) :
    Reach next' t a b ↔ Reach next s a b := by
  constructor
  · intro reach
    induction reach with
    | refl => exact .refl
    | tail _ link ih => exact ih.tail ((same _ ih).symm.trans link)
  · intro reach
    induction reach with
    | refl => exact .refl
    | tail before link ih => exact ih.tail ((same _ before).trans link)

end ErasingWalk
