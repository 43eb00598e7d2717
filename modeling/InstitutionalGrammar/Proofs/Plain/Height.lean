/-
  InstitutionalGrammar.Proofs.Plain.Height — which trees the limit on nesting lets through.

  - `treeStep_refused`: a written combination is built from its left operand, then its right one.
  - `treeWithin_tooDeep`: a written tree as high as the budget is refused, and no other error comes
    first.
  - `combinationTree_render`: a plain tree is built again from its text exactly when it is no
    higher than the limit.
-/

import InstitutionalGrammar.Proofs.Plain.Basic

namespace InstitutionalGrammar

/-- One step on a written combination builds the left operand, then the right one, and fails as
    the first of them that fails. -/
theorem treeStep_refused {d : Delimiters} {o : Operator} {l r : Node} {m : Marks}
    (ht : (Node.combination o l r m []).Coded (Atom d)) {before after : Text} (hb : Text.allBlank before = true)
    (ha : Text.allBlank after = true) {build : Text → Outcome Node} {e : Failure}
    (hbuild : build (l.write d ++ [' ']) = .error e ∨
      build (l.write d ++ [' ']) = .ok l ∧ build (' ' :: r.write d) = .error e) :
    treeStep d build (before ++ ((Node.combination o l r m []).write d ++ after)) = .error e := by
  obtain ⟨nonShared, htable⟩ := spanTable_write ht hb ha
  obtain ⟨s, p, -, hleft, hp, hright, hstep⟩ := treeStep_root htable (List.append_nil _).symm (by simp)
  have hinput : before ++ ((Node.combination o l r m []).write d ++ after) = _ := rfl
  obtain ⟨hsliceL, hsliceR⟩ := written_operands hinput hleft hp hright
  rw [hstep]
  unfold combinationOf
  rcases hbuild with h | ⟨h, h'⟩
  · simp only [hsliceL, ok_bind, h]
    rfl
  · simp only [hsliceL, hsliceR, ok_bind, h, h']
    rfl

/-- A written tree at least as high as the budget is refused for its depth. -/
theorem treeWithin_tooDeep {d : Delimiters} {t : Node} (ht : t.Coded (Atom d)) {limit budget : Nat}
    (hbudget : budget ≤ t.height) {before after : Text} (hb : Text.allBlank before = true)
    (ha : Text.allBlank after = true) :
    treeWithin d limit budget (before ++ (t.write d ++ after)) = reject (.nestingTooDeep limit) := by
  induction ht generalizing budget before after with
  | leaf hv =>
    obtain rfl : budget = 0 := Nat.le_zero.1 hbudget
    rfl
  | @combination o l r sharedLeft sharedRight ho hl hr hsl hsr ihl ihr =>
    cases budget with
    | zero => rfl
    | succ budget =>
      rw [treeWithin]
      refine treeStep_refused (.combination ho hl hr hsl hsr) hb ha ?_
      rcases Nat.lt_or_ge l.height budget with h | h
      · have hbuilt : treeWithin d limit budget ([] ++ (l.write d ++ [' '])) = .ok l := treeWithin_write hl h rfl rfl
        have hdeep : treeWithin d limit budget ([' '] ++ (r.write d ++ [])) = reject (.nestingTooDeep limit) := by
          refine ihr ?_ rfl rfl
          simp only [Node.height] at hbudget
          omega
        rw [List.append_nil] at hdeep
        exact .inr ⟨hbuilt, hdeep⟩
      · have hdeep : treeWithin d limit budget ([] ++ (l.write d ++ [' '])) = reject (.nestingTooDeep limit) :=
          ihl h rfl rfl
        exact .inl hdeep

/-- A plain tree is built again from its written form if it is no higher than the limit, and
    refused for its depth otherwise. -/
theorem combinationTree_render {t : Node} (ht : t.Coded PlainText) (limit : Nat) :
    combinationTree .parentheses limit t.render =
      if t.height ≤ limit then .ok t else reject (.nestingTooDeep limit) := by
  have hcoded := ht.atoms .parentheses
  have htext : t.render = [] ++ (t.write .parentheses ++ []) := by simp [write_parentheses]
  rw [combinationTree, htext]
  split
  case isTrue hheight => exact treeWithin_write hcoded (Nat.lt_succ_of_le hheight) rfl rfl
  case isFalse hheight => exact treeWithin_tooDeep hcoded (Nat.lt_of_not_le hheight) rfl rfl

/-- A combination of height 2 with text shared at its left. -/
def sharedUnderRoot : Node :=
  .combination .or (.text ['a']) (.combination .xor (.text ['b']) (.text ['c']) {} []) { sharedLeft := [['z']] } []

theorem combinationTree_render_sharedUnderRoot :
    combinationTree .parentheses 2 sharedUnderRoot.render = .ok sharedUnderRoot ∧
      combinationTree .parentheses 1 sharedUnderRoot.render = reject (.nestingTooDeep 1) := by
  have hshared : ∀ t ∈ some ['z'], PlainText t := by
    intro t ht
    cases ht
    decide
  have hnone : ∀ t ∈ (none : Option Text), PlainText t := by
    intro t ht
    cases ht
  have hcoded : sharedUnderRoot.Coded PlainText :=
    .combination rfl (.leaf (by decide)) (.combination rfl (.leaf (by decide)) (.leaf (by decide)) hnone hnone)
      hshared hnone
  exact ⟨combinationTree_render hcoded 2, combinationTree_render hcoded 1⟩

end InstitutionalGrammar
