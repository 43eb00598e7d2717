/-
  InstitutionalGrammar.Proofs.Combination.SideBySide — where a tree has a synthetic conjunction.

  A combination is built under the operator written in it. The builder guesses one only where
  several combinations stand side by side on the outermost level of the text or of an operand.
  - `treeStep_level`: the nodes of one level and how they are joined.
  - `treeWithin_explicit`: a tree is free of guessed operators if no text it is built from has
    combinations side by side.
  - `treeWithin_sideBySide`, `treeWithin_root`: at the top of a tree stand the nodes of the level.
-/

import Mathlib.Logic.Relation
import InstitutionalGrammar.Proofs.Combination.Drawn
import InstitutionalGrammar.Proofs.Combination.Settled
import InstitutionalGrammar.Proofs.Reading.Labels

namespace InstitutionalGrammar

/-- Every combination of the tree is under a written operator; the trees in its leaves do not count. -/
def Node.Explicit : Node → Prop
  | .combination o l r _ _ => o.isSynthetic = false ∧ l.Explicit ∧ r.Explicit
  | .leaf .. => True

/-- The combinations of the outermost level that has any, from left to right. -/
def SpanTable.outermost (table : SpanTable) : List Span :=
  match table.outermostLevel? with
  | none => []
  | some level => (table.atLevel level).filter Span.isCombination

/-- Several combinations stand on the outermost level that has any. -/
def SideBySide (d : Delimiters) (text : Text) : Prop :=
  ∃ table, spanTable d text = .ok table ∧ 1 < table.outermost.length

/-- `part` is an operand of a combination of the outermost level that has any. -/
def IsOperand (d : Delimiters) (text part : Text) : Prop :=
  ∃ table s o, spanTable d text = .ok table ∧ s ∈ table.outermost ∧ s.operator = some o ∧
    (table.input.slice (s.left + 1) o.start = .ok part ∨ table.input.slice o.stop s.right = .ok part)

variable {d : Delimiters} {build : Text → Outcome Node} {table : SpanTable} {text : Text} {tree : Node}

/-! ## One level -/

/-- The node is that of the span, under its operator and with operands that `build` has built. -/
def Span.BuiltAs (build : Text → Outcome Node) (table : SpanTable) (s : Span) (n : Node) : Prop :=
  ∃ o left right l r m, s.operator = some o ∧ o.operator.isSynthetic = false ∧
    table.input.slice (s.left + 1) o.start = .ok left ∧ table.input.slice o.stop s.right = .ok right ∧
    build left = .ok l ∧ build right = .ok r ∧ n = .combination o.operator l r m []

theorem combinationOf_built {s : Span} {o : PlacedOperator} {earlier later : List Span} {n : Node}
    (ho : s.operator = some o) (hwritten : o.operator.isSynthetic = false)
    (h : combinationOf build table earlier s o later = .ok n) : s.BuiltAs build table n := by
  obtain ⟨left, right, -, -, l, r, component, hleft, hright, hl, hr, -, -, rfl⟩ := combinationOf_eq_ok h
  exact ⟨o, left, right, l, r, _, ho, hwritten, hleft, hright, hl, hr, rfl⟩

theorem combinationsOf_built (htable : table.Sound d) {spans earlier : List Span} {ns : List Node}
    (hspans : ∀ s ∈ spans, s ∈ table.spans ∧ s.isCombination = true)
    (h : combinationsOf build table earlier spans = .ok ns) : List.Forall₂ (Span.BuiltAs build table) spans ns := by
  induction spans generalizing earlier ns with
  | nil =>
    cases h
    exact .nil
  | cons s later ih =>
    obtain ⟨hs, hc⟩ := hspans s List.mem_cons_self
    obtain ⟨o, ho⟩ := Option.isSome_iff_exists.1 hc
    rw [combinationsOf, ho] at h
    obtain ⟨n, hn, h⟩ := bind_eq_ok.1 h
    obtain ⟨rest, hrest, h⟩ := bind_eq_ok.1 h
    cases h
    exact .cons (combinationOf_built ho ((htable.spans s hs).operator o ho).written hn) (ih (fun x hx => hspans x (List.mem_cons_of_mem _ hx)) hrest)

theorem SpanTable.outermost_eq {level : Nat} (h : table.outermostLevel? = some level) :
    table.outermost = (table.atLevel level).filter Span.isCombination := by
  rw [outermost, h]

theorem SpanTable.mem_outermost {s : Span} (h : s ∈ table.outermost) : s ∈ table.spans ∧ s.isCombination = true := by
  unfold outermost at h
  split at h
  · cases h
  · obtain ⟨hlevel, hc⟩ := List.mem_filter.1 h
    exact ⟨(List.mem_filter.1 hlevel).1, hc⟩

/-- A tree is a leaf, or the nodes of the outermost level with combinations under synthetic conjunctions. -/
theorem treeStep_level (h : treeStep d build text = .ok tree) :
    ∃ table ns, spanTable d text = .ok table ∧ List.Forall₂ (Span.BuiltAs build table) table.outermost ns ∧
      (ns = [] ∧ tree.isLeaf = true ∨ Node.fold? .syntheticAnd ns = .ok (some tree)) := by
  obtain ⟨table, htable, ⟨hlevel, h⟩ | ⟨level, ns, hlevel, hns, h⟩⟩ := treeStep_eq_ok h
  · obtain ⟨v, rfl, -⟩ := (leafOf_meets d table.input).value h
    refine ⟨table, [], htable, ?_, Or.inl ⟨rfl, rfl⟩⟩
    rw [SpanTable.outermost, hlevel]
    exact .nil
  · rw [← SpanTable.outermost_eq hlevel] at hns
    have hsound := ((spanTable_regular d text).value htable).1
    exact ⟨table, ns, htable, combinationsOf_built hsound (fun s hs => SpanTable.mem_outermost hs) hns, Or.inr h⟩

/-! ## Joined nodes -/

theorem Node.fold?_joined {o : Operator} {a b : Node} {ns : List Node} (h : fold? o (a :: b :: ns) = .ok (some tree)) :
    ∃ l r m p, tree = .combination o l r m p := by
  have hfold := fold?_cons h
  rw [List.foldlM_cons] at hfold
  obtain ⟨first, hfirst, hfold⟩ := bind_eq_ok.1 hfold
  have hjoined : ∀ {l r n}, combine o l r = .ok n → ∃ l r m p, n = .combination o l r m p := by
    intro l r n hn
    obtain ⟨component, rfl⟩ := combine_eq hn
    exact ⟨_, _, _, _, rfl⟩
  exact foldlM_keeps (P := fun n => ∃ l r m p, n = .combination o l r m p) (fun _ _ _ _ _ hc => hjoined hc)
    (hjoined hfirst) hfold

theorem writtenCombinations_foldlM {first : Node} {ns : List Node} (hns : ∀ n ∈ ns, writtenCombinations n = [n])
    (h : ns.foldlM (Node.combine .syntheticAnd) first = .ok tree) :
    writtenCombinations tree = writtenCombinations first ++ ns := by
  induction ns generalizing first with
  | nil =>
    cases h
    rw [List.append_nil]
  | cons n ns ih =>
    rw [List.foldlM_cons] at h
    obtain ⟨both, hboth, h⟩ := bind_eq_ok.1 h
    obtain ⟨component, rfl⟩ := Node.combine_eq hboth
    rw [ih (fun m hm => hns m (List.mem_cons_of_mem _ hm)) h, writtenCombinations, hns n List.mem_cons_self,
      List.append_assoc]
    rfl

/-- Combinations under written operators are found again below the synthetic conjunctions that join them. -/
theorem writtenCombinations_fold? {ns : List Node} (hns : ∀ n ∈ ns, writtenCombinations n = [n])
    (h : Node.fold? .syntheticAnd ns = .ok (some tree)) : writtenCombinations tree = ns := by
  cases ns with
  | nil => cases h
  | cons n ns =>
    rw [writtenCombinations_foldlM (fun m hm => hns m (List.mem_cons_of_mem _ hm)) (Node.fold?_cons h),
      hns n List.mem_cons_self]
    rfl

/-! ## Whole trees -/

/-- A node under the operator written in its span is the only such combination at its top. -/
theorem writtenCombinations_built {spans : List Span} {ns : List Node}
    (h : List.Forall₂ (Span.BuiltAs build table) spans ns) : ∀ n ∈ ns, writtenCombinations n = [n] := by
  induction h with
  | nil => exact nofun
  | cons hs _ ih =>
    intro n hn
    rcases List.mem_cons.1 hn with rfl | hn
    · obtain ⟨o, left, right, l, r, m, -, hwritten, -, -, -, -, rfl⟩ := hs
      generalize o.operator = op at hwritten
      cases op with
      | syntheticAnd => cases hwritten
      | _ => rfl
    · exact ih n hn

theorem SideBySide.iff_of_table (htable : spanTable d text = .ok table) : SideBySide d text ↔ 1 < table.outermost.length := by
  constructor
  · rintro ⟨table', htable', hmany⟩
    cases htable.symm.trans htable'
    exact hmany
  · exact fun hmany => ⟨table, htable, hmany⟩

/-- The texts behind the operands of a text, each with the operands of its own. -/
theorem forall_operands {P : Text → Prop} : (∀ part, Relation.ReflTransGen (IsOperand d) text part → P part) ↔
    P text ∧ ∀ part, IsOperand d text part → ∀ inner, Relation.ReflTransGen (IsOperand d) part inner → P inner := by
  constructor
  · exact fun h => ⟨h text .refl, fun part hpart inner hinner => h inner (.head hpart hinner)⟩
  · rintro ⟨htext, hparts⟩ part hpart
    rcases Relation.ReflTransGen.cases_head hpart with rfl | ⟨first, hfirst, hrest⟩
    · exact htext
    · exact hparts first hfirst part hrest

/-- The operands of the only combination of a level. -/
theorem isOperand_single (htable : spanTable d text = .ok table) {s : Span} (hlevel : table.outermost = [s])
    {o : PlacedOperator} (ho : s.operator = some o) {left right : Text}
    (hleft : table.input.slice (s.left + 1) o.start = .ok left) (hright : table.input.slice o.stop s.right = .ok right)
    (part : Text) : IsOperand d text part ↔ part = left ∨ part = right := by
  constructor
  · rintro ⟨table', s', o', htable', hs', ho', hpart⟩
    cases htable.symm.trans htable'
    rw [hlevel, List.mem_singleton] at hs'
    subst hs'
    cases ho.symm.trans ho'
    rcases hpart with hpart | hpart
    · cases hleft.symm.trans hpart
      exact Or.inl rfl
    · cases hright.symm.trans hpart
      exact Or.inr rfl
  · have hs : s ∈ table.outermost := hlevel ▸ List.mem_singleton_self s
    rintro (rfl | rfl)
    · exact ⟨table, s, o, htable, hs, ho, Or.inl hleft⟩
    · exact ⟨table, s, o, htable, hs, ho, Or.inr hright⟩

/-- A tree has no guessed operator exactly if neither the text nor any text that it builds an operand from
    has combinations side by side. -/
theorem treeWithin_explicit {limit budget : Nat} (h : treeWithin d limit budget text = .ok tree) :
    tree.Explicit ↔ ∀ part, Relation.ReflTransGen (IsOperand d) text part → ¬ SideBySide d part := by
  induction budget generalizing text tree with
  | zero => cases h
  | succ budget ih =>
    obtain ⟨table, ns, htable, hbuilt, hjoined⟩ := treeStep_level h
    rw [forall_operands, SideBySide.iff_of_table htable, hbuilt.length_eq]
    rcases ns with _ | ⟨n, _ | ⟨n', ns⟩⟩
    · obtain ⟨-, hleaf⟩ | hnone := hjoined
      · have hnothing : table.outermost = [] := List.forall₂_nil_right_iff.1 hbuilt
        have hexplicit : tree.Explicit := by
          cases tree with
          | leaf => trivial
          | combination => cases hleaf
        refine iff_of_true hexplicit ⟨by simp, ?_⟩
        rintro part ⟨table', s, o, htable', hs, -⟩
        cases htable.symm.trans htable'
        rw [hnothing] at hs
        cases hs
      · cases hnone
    · obtain ⟨hnil, -⟩ | hfold := hjoined
      · cases hnil
      · cases Node.fold?_cons hfold
        obtain ⟨s, spans, hs, hspans, hlevel⟩ := List.forall₂_cons_right_iff.1 hbuilt
        rw [List.forall₂_nil_right_iff.1 hspans] at hlevel
        obtain ⟨o, left, right, l, r, m, ho, hwritten, hleft, hright, hl, hr, rfl⟩ := hs
        show o.operator.isSynthetic = false ∧ l.Explicit ∧ r.Explicit ↔ _
        rw [ih hl, ih hr]
        simp only [isOperand_single htable hlevel ho hleft hright, hwritten]
        constructor
        · rintro ⟨-, hinl, hinr⟩
          refine ⟨by simp, ?_⟩
          rintro part (rfl | rfl)
          · exact hinl
          · exact hinr
        · exact fun hall => ⟨trivial, hall.2 left (Or.inl rfl), hall.2 right (Or.inr rfl)⟩
    · obtain ⟨hnil, -⟩ | hfold := hjoined
      · cases hnil
      · obtain ⟨l, r, m, p, rfl⟩ := Node.fold?_joined hfold
        constructor
        · exact fun hexplicit => absurd hexplicit.1 (by decide)
        · exact fun hnot => absurd (by simp) hnot.1

/-- At the top of a tree stand the combinations of one level: one, or several side by side. -/
theorem treeWithin_sideBySide {limit budget : Nat} (h : treeWithin d limit budget text = .ok tree) :
    SideBySide d text ↔ 1 < (writtenCombinations tree).length := by
  cases budget with
  | zero => cases h
  | succ budget =>
    obtain ⟨table, ns, htable, hbuilt, hjoined⟩ := treeStep_level h
    rw [SideBySide.iff_of_table htable, hbuilt.length_eq]
    rcases hjoined with ⟨rfl, hleaf⟩ | hfold
    · cases tree with
      | leaf => exact Iff.rfl
      | combination => cases hleaf
    · rw [writtenCombinations_fold? (writtenCombinations_built hbuilt) hfold]

/-- The operator at the root is a guessed one exactly then. -/
theorem treeWithin_root {limit budget : Nat} {o : Operator} {l r : Node} {m : Marks} {p : List Node}
    (h : treeWithin d limit budget text = .ok (.combination o l r m p)) : o.isSynthetic = true ↔ SideBySide d text := by
  cases budget with
  | zero => cases h
  | succ budget =>
    obtain ⟨table, ns, htable, hbuilt, hjoined⟩ := treeStep_level h
    rw [SideBySide.iff_of_table htable, hbuilt.length_eq]
    rcases hjoined with ⟨-, hleaf⟩ | hfold
    · cases hleaf
    · rcases ns with _ | ⟨n, _ | ⟨n', ns⟩⟩
      · cases hfold
      · cases Node.fold?_cons hfold
        obtain ⟨s, spans, hs, -, -⟩ := List.forall₂_cons_right_iff.1 hbuilt
        obtain ⟨o', left, right, l', r', m', -, hwritten, -, -, -, -, he⟩ := hs
        cases he
        rw [hwritten]
        simp
      · obtain ⟨l', r', m', p', he⟩ := Node.fold?_joined hfold
        cases he
        exact iff_of_true rfl (by simp)

end InstitutionalGrammar
