import Systrix.Html.Parser

/-!
# Fuel

A result does not change with more fuel.
-/

namespace Systrix.Html

variable {src : Bytes} {malloc : Nat → Bool} {fuel more : Nat}

/-- A call that has all results of another call. -/
def Extends (parse parse' : HtmlParser → Option (Option NodeId × HtmlParser)) : Prop :=
  ∀ s result, parse s = some result → parse' s = some result

theorem hpParseAttrs_more {s : HtmlParser} {attrs : List DomAttr} {result : HtmlParser × List DomAttr}
    (found : hpParseAttrs src fuel s attrs = some result) (le : fuel ≤ more) :
    hpParseAttrs src more s attrs = some result := by
  induction fuel generalizing s attrs more with
  | zero => cases found
  | succ fuel ih =>
      obtain ⟨more, rfl⟩ := Nat.exists_eq_add_of_le' (Nat.zero_lt_of_lt le)
      have le' : fuel ≤ more := Nat.le_of_succ_le_succ le
      rw [hpParseAttrs] at found ⊢
      dsimp only at found ⊢
      split at found
      · rename_i inside
        rw [if_pos inside]
        split at found
        · rename_i ended
          rw [if_pos ended]
          exact found
        rename_i goesOn
        rw [if_neg goesOn]
        split at found
        · rename_i full
          rw [if_pos full]
          exact found
        rename_i room
        rw [if_neg room]
        split at found
        · rename_i empty
          rw [if_pos empty]
          exact found
        rename_i named
        rw [if_neg named]
        split at found
        · rename_i bare
          rw [if_pos bare]
          exact ih found le'
        · rename_i value
          rw [if_neg value]
          exact ih found le'
      · rename_i outside
        rw [if_neg outside]
        exact found

section Loops

variable {parse parse' : HtmlParser → Option (Option NodeId × HtmlParser)} {node : NodeId}

theorem hpChildren_more (extend : Extends parse parse') {s s' : HtmlParser}
    (found : hpChildren src parse node fuel s = some s') (le : fuel ≤ more) :
    hpChildren src parse' node more s = some s' := by
  induction fuel generalizing s more with
  | zero => cases found
  | succ fuel ih =>
      obtain ⟨more, rfl⟩ := Nat.exists_eq_add_of_le' (Nat.zero_lt_of_lt le)
      have le' : fuel ≤ more := Nat.le_of_succ_le_succ le
      rw [hpChildren] at found ⊢
      split at found
      · rename_i inside
        rw [if_pos inside]
        split at found
        · rename_i close
          rw [if_pos close]
          exact found
        rename_i notClose
        rw [if_neg notClose]
        cases parsed : parse s with
        | none =>
            rw [parsed] at found
            cases found
        | some result =>
            obtain ⟨child, s₁⟩ := result
            rw [parsed] at found
            rw [extend s _ parsed]
            cases child with
            | some child =>
                dsimp only at found ⊢
                cases added : hpAddChild s₁.mallocs s₁ node child with
                | none =>
                    rw [added] at found
                    cases found
                | some s₂ =>
                    rw [added] at found
                    exact ih found le'
            | none =>
                dsimp only at found ⊢
                split at found
                · rename_i close
                  rw [if_pos close]
                  exact found
                rename_i notClose
                rw [if_neg notClose]
                split at found
                · rename_i stuck
                  rw [if_pos stuck]
                  exact ih found le'
                · rename_i free
                  rw [if_neg free]
                  exact ih found le'
      · rename_i outside
        rw [if_neg outside]
        exact found

theorem documentLoop_more (extend : Extends parse parse') {s s' : HtmlParser}
    (found : documentLoop src parse node fuel s = some s') (le : fuel ≤ more) :
    documentLoop src parse' node more s = some s' := by
  induction fuel generalizing s more with
  | zero => cases found
  | succ fuel ih =>
      obtain ⟨more, rfl⟩ := Nat.exists_eq_add_of_le' (Nat.zero_lt_of_lt le)
      have le' : fuel ≤ more := Nat.le_of_succ_le_succ le
      rw [documentLoop] at found ⊢
      split at found
      · rename_i inside
        rw [if_pos inside]
        cases parsed : parse s with
        | none =>
            rw [parsed] at found
            cases found
        | some result =>
            obtain ⟨child, s₁⟩ := result
            rw [parsed] at found
            rw [extend s _ parsed]
            cases child with
            | some child =>
                dsimp only at found ⊢
                cases added : hpAddChild s₁.mallocs s₁ node child with
                | none =>
                    rw [added] at found
                    cases found
                | some s₂ =>
                    rw [added] at found
                    exact ih found le'
            | none =>
                dsimp only at found ⊢
                split at found
                · rename_i stuck
                  rw [if_pos stuck]
                  exact ih found le'
                · rename_i free
                  rw [if_neg free]
                  exact ih found le'
      · rename_i outside
        rw [if_neg outside]
        exact found

theorem parseElement_more (extend : Extends parse parse') {s : HtmlParser} {result : Option NodeId × HtmlParser}
    (found : parseElement src fuel parse node s = some result) (le : fuel ≤ more) :
    parseElement src more parse' node s = some result := by
  rw [parseElement] at found ⊢
  dsimp only at found ⊢
  generalize collect isTagByte htmlTolower domTagMax (src.drop s.pos) s.pos [] = scanned at found ⊢
  cases parsed : hpParseAttrs src fuel ((s.at_ scanned.1).write domTagMax scanned.2.length) [] with
  | none =>
      rw [parsed] at found
      cases found
  | some attributed =>
      rw [parsed] at found
      rw [hpParseAttrs_more parsed le]
      dsimp only at found ⊢
      rw [parseContent] at found ⊢
      split at found
      · rename_i isVoid
        rw [if_pos isVoid]
        exact found
      rename_i notVoid
      rw [if_neg notVoid]
      split at found
      · rename_i raw
        rw [if_pos raw]
        exact found
      rename_i notRaw
      rw [if_neg notRaw]
      generalize endOpening src _ = opened at found ⊢
      cases children : hpChildren src parse node fuel opened with
      | none =>
          rw [children] at found
          cases found
      | some s₁ =>
          rw [children] at found
          rw [hpChildren_more extend children le]
          exact found

end Loops

theorem hpParseNode_more (le : fuel ≤ more) : Extends (hpParseNode src malloc fuel) (hpParseNode src malloc more) := by
  induction fuel generalizing more with
  | zero =>
      intro s result found
      cases found
  | succ fuel ih =>
      intro s result found
      obtain ⟨more, rfl⟩ := Nat.exists_eq_add_of_le' (Nat.zero_lt_of_lt le)
      have le' : fuel ≤ more := Nat.le_of_succ_le_succ le
      rw [hpParseNode] at found ⊢
      dsimp only at found ⊢
      split at found
      · rename_i outside
        rw [if_pos outside]
        exact found
      rename_i inside
      rw [if_neg inside]
      split at found
      · rename_i text
        rw [if_pos text]
        exact found
      rename_i tag
      rw [if_neg tag]
      split at found
      · rename_i close
        rw [if_pos close]
        exact found
      rename_i notClose
      rw [if_neg notClose]
      split at found
      · rename_i declaration
        rw [if_pos declaration]
        exact found
      rename_i element
      rw [if_neg element]
      cases alloc : domAlloc malloc .element (s.at_ (s.pos + 1)) with
      | mk child s₁ =>
          rw [alloc] at found
          cases child with
          | none => exact found
          | some node => exact parseElement_more (ih le') found le'

theorem htmlParse_more {html_src : Bytes} {result : Option NodeId × HtmlParser}
    (found : htmlParse malloc fuel html_src = some result) (le : fuel ≤ more) :
    htmlParse malloc more html_src = some result := by
  rw [htmlParse] at found ⊢
  dsimp only at found ⊢
  cases alloc : domAlloc malloc .element ⟨0, fun _ => none, 0, [], []⟩ with
  | mk root s =>
      rw [alloc] at found
      cases root with
      | none => exact found
      | some root =>
          dsimp only at found ⊢
          generalize (s.set root _).write _ _ = s₁ at found ⊢
          cases parsed : documentLoop (cString html_src) (hpParseNode (cString html_src) malloc fuel) root fuel s₁ with
          | none =>
              rw [parsed] at found
              cases found
          | some s₂ =>
              rw [parsed] at found
              rw [documentLoop_more (hpParseNode_more le) parsed le]
              exact found

end Systrix.Html
