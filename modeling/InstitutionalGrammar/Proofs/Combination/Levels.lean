/-
  InstitutionalGrammar.Proofs.Combination.Levels — how a tree is put together, in rules.

  One step of building finds the spans of a text, builds the combinations of the level that decides from left to
  right and joins them. What holds of the pieces then holds of the tree, so only what is special to a property is
  shown for each property: its leaves, one combination, and a joined pair.
  - `Meets.fold?`, `Meets.combinations`, `Meets.tree`: the rules.
  - `combinationOf_eq_ok`: what a combination that is built is built from.
-/

import InstitutionalGrammar.Combination.Tree
import InstitutionalGrammar.Proofs.Meets

namespace InstitutionalGrammar

variable {E : Failure → Prop} {P Q : Node → Prop} {d : Delimiters} {build : Text → Outcome Node} {table : SpanTable}
  {text : Text} {s : Span} {o : PlacedOperator} {earlier later spans : List Span} {n : Node}

/-! ## Joining -/

theorem Node.combine_eq {o : Operator} {l r : Node} (h : combine o l r = .ok n) :
    ∃ component, n = .combination o l r { component } [] := by
  unfold combine at h
  split at h
  · split at h
    · cases h
      exact ⟨_, rfl⟩
    · cases h
  · cases h
    exact ⟨_, rfl⟩
  · cases h
    exact ⟨_, rfl⟩

theorem Node.fold?_cons {o : Operator} {n tree : Node} {ns : List Node} (h : fold? o (n :: ns) = .ok (some tree)) :
    ns.foldlM (combine o) n = .ok tree := by
  obtain ⟨m, hm, he⟩ := bind_eq_ok.1 ((map_eq_pure_bind some _).symm.trans h)
  cases he
  exact hm

/-- Only no trees are folded into none. -/
theorem Node.fold?_eq_none {o : Operator} {ns : List Node} (h : fold? o ns = .ok none) : ns = [] := by
  cases ns with
  | nil => rfl
  | cons n ns =>
    obtain ⟨m, -, he⟩ := bind_eq_ok.1 ((map_eq_pure_bind some _).symm.trans h)
    cases he

theorem Meets.fold? {F : ParseError → Prop} {o : Operator} {ns : List Node}
    (hjoin : ∀ l r, P l → P r → Meets F P (Node.combine o l r)) (hns : ∀ n ∈ ns, P n) :
    Meets F (fun t => (∀ n ∈ t, P n) ∧ (t = none → ns = [])) (Node.fold? o ns) := by
  cases ns with
  | nil => exact ⟨nofun, fun _ => rfl⟩
  | cons n ns =>
    refine Meets.map (P := P) ?_ fun a ha => ⟨fun m hm => Option.some.inj hm ▸ ha, nofun⟩
    exact Meets.foldlM (fun r hr l hl => hjoin l r hl (hns r (List.mem_cons_of_mem _ hr))) (hns n List.mem_cons_self)

/-! ## Combinations -/

/-- A combination joins the trees of its operands under its operator. It shares the text from the combination before
    it in its scope on, and what is behind it if it is the last one there. -/
theorem combinationOf_eq_ok (h : combinationOf build table earlier s o later = .ok n) :
    ∃ left right before after l r component,
      table.input.slice (s.left + 1) o.start = .ok left ∧ table.input.slice o.stop s.right = .ok right ∧
      build left = .ok l ∧ build right = .ok r ∧
      table.input.slice (match earlier.find? (table.scope · = table.scope s) with
        | some nearest => nearest.right + 1
        | none => (table.scope s).1) s.left = .ok before ∧
      (if later.any (table.scope · = table.scope s) then after = []
        else table.input.slice (s.right + 1) (table.scope s).2 = .ok after) ∧
      n = .combination o.operator l r
        { component, sharedLeft := (shared? before).toList, sharedRight := (shared? after).toList } [] := by
  unfold combinationOf at h
  obtain ⟨left, hleft, h⟩ := bind_eq_ok.1 h
  obtain ⟨l, hl, h⟩ := bind_eq_ok.1 h
  obtain ⟨right, hright, h⟩ := bind_eq_ok.1 h
  obtain ⟨r, hr, h⟩ := bind_eq_ok.1 h
  obtain ⟨node, hnode, h⟩ := bind_eq_ok.1 h
  obtain ⟨component, rfl⟩ := Node.combine_eq (liftM_eq_ok.1 hnode)
  obtain ⟨before, hbefore, h⟩ := bind_eq_ok.1 h
  split at h
  · rename_i hany
    cases h
    exact ⟨left, right, before, [], l, r, component, hleft, hright, hl, hr, hbefore, by rw [if_pos hany], rfl⟩
  · rename_i hany
    obtain ⟨after, hafter, h⟩ := bind_eq_ok.1 h
    cases h
    exact ⟨left, right, before, after, l, r, component, hleft, hright, hl, hr, hbefore, by rwa [if_neg hany], rfl⟩

/-- The combinations of a level, each built behind the earlier ones and before the later. -/
theorem Meets.combinations (hone : ∀ earlier s o later, (earlier.reverse ++ s :: later).Sublist spans →
      s.operator = some o → Meets E P (combinationOf build table earlier s o later)) :
    Meets E (fun ns => (∀ n ∈ ns, P n) ∧ (ns = [] → ∀ s ∈ spans, s.isCombination = false))
      (combinationsOf build table [] spans) := by
  suffices h : ∀ rest earlier : List Span, (earlier.reverse ++ rest).Sublist spans →
      Meets E (fun ns => (∀ n ∈ ns, P n) ∧ (ns = [] → ∀ s ∈ rest, s.isCombination = false))
        (combinationsOf build table earlier rest) from h spans [] (List.Sublist.refl spans)
  intro rest
  induction rest with
  | nil => exact fun _ _ => ⟨nofun, fun _ => nofun⟩
  | cons s later ih =>
    intro earlier hsub
    rw [combinationsOf]
    split
    · rename_i hnone
      have hskip : (earlier.reverse ++ later).Sublist spans := ((List.sublist_cons_self s later).append_left _).trans hsub
      refine (ih earlier hskip).weaken fun ns hns => ⟨hns.1, fun hnil => List.forall_mem_cons.2 ⟨?_, hns.2 hnil⟩⟩
      rw [Span.isCombination, hnone]
      rfl
    · rename_i o ho
      refine (hone earlier s o later hsub ho).bind fun n hn => ?_
      refine (ih (s :: earlier) (by simpa using hsub)).bind fun ns hns => ?_
      exact ⟨List.forall_mem_cons.2 ⟨hn, hns.1⟩, fun hnil => absurd hnil (List.cons_ne_nil n ns)⟩

/-! ## Trees -/

/-- The level that decides has a combination. -/
theorem SpanTable.combinations_ne_nil {level : Nat} (h : table.outermostLevel? = some level) :
    (table.atLevel level).filter Span.isCombination ≠ [] := by
  have hany := List.find?_some (p := fun level => (table.atLevel level).any Span.isCombination) h
  obtain ⟨s, hs, hc⟩ := List.any_eq_true.1 hany
  exact List.ne_nil_of_mem (List.mem_filter.2 ⟨hs, hc⟩)

theorem SpanTable.nodes_ne_nil {level : Nat} {ns : List Node} (h : table.outermostLevel? = some level)
    (hns : ns = [] → ∀ s ∈ (table.atLevel level).filter Span.isCombination, s.isCombination = false) : ns ≠ [] := by
  intro hnil
  obtain ⟨s, hs⟩ := List.exists_mem_of_ne_nil _ (combinations_ne_nil h)
  have hplain := hns hnil s hs
  rw [(List.mem_filter.1 hs).2] at hplain
  cases hplain

/-- One step builds a leaf if no level decides, and joins the combinations of the level that does otherwise. -/
theorem Meets.tree {T : SpanTable → Prop} (htable : Meets E T (spanTable d text))
    (hleaf : ∀ table, T table → table.outermostLevel? = none → Meets E P (leafOf d table.input))
    (hone : ∀ table, T table → ∀ level earlier s o later,
      (earlier.reverse ++ s :: later).Sublist ((table.atLevel level).filter Span.isCombination) → s.operator = some o →
        Meets E Q (combinationOf build table earlier s o later))
    (hjoin : ∀ l r, Q l → Q r → Meets (fun e => E (.rejected e)) Q (Node.combine .syntheticAnd l r))
    (hall : ∀ n, Q n → P n) : Meets E P (treeStep d build text) := by
  unfold treeStep
  refine htable.bind fun table htable => ?_
  split
  · exact hleaf table htable ‹_›
  · rename_i level hlevel
    refine (Meets.combinations (hone table htable level)).bind fun ns hns => ?_
    have hfold : Meets E (fun t => (∀ n ∈ t, Q n) ∧ (t = none → ns = []))
        (liftM (Node.fold? .syntheticAnd ns) : Outcome (Option Node)) := by
      have hfound := Meets.fold? hjoin hns.1
      cases hfold : Node.fold? .syntheticAnd ns with
      | error e => exact hfound.failure hfold
      | ok t => exact hfound.value hfold
    refine hfold.bind fun found hfound => ?_
    cases found with
    | some tree => exact hall tree (hfound.1 tree rfl)
    | none => exact absurd (hfound.2 rfl) (SpanTable.nodes_ne_nil hlevel hns.2)

/-- A tree that is built is a leaf, or the joined combinations of the level that decides. -/
theorem treeStep_eq_ok (h : treeStep d build text = .ok n) : ∃ table, spanTable d text = .ok table ∧
    (table.outermostLevel? = none ∧ leafOf d table.input = .ok n ∨
      ∃ level ns, table.outermostLevel? = some level ∧
        combinationsOf build table [] ((table.atLevel level).filter Span.isCombination) = .ok ns ∧
        Node.fold? .syntheticAnd ns = .ok (some n)) := by
  unfold treeStep at h
  obtain ⟨table, htable, h⟩ := bind_eq_ok.1 h
  refine ⟨table, htable, ?_⟩
  split at h
  · exact Or.inl ⟨‹_›, h⟩
  · rename_i level hlevel
    obtain ⟨ns, hns, h⟩ := bind_eq_ok.1 h
    obtain ⟨found, hfound, h⟩ := bind_eq_ok.1 h
    have hfold := liftM_eq_ok.1 hfound
    cases found with
    | some tree =>
      cases h
      exact Or.inr ⟨level, ns, hlevel, hns, hfold⟩
    | none =>
      have hbuilt := (Meets.combinations (P := fun _ => True) fun _ _ _ _ _ _ => .of_ok fun _ _ => trivial).value hns
      exact absurd (Node.fold?_eq_none hfold) (SpanTable.nodes_ne_nil hlevel hbuilt.2)

end InstitutionalGrammar
