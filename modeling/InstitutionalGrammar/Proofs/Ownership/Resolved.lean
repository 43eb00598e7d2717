/-
  InstitutionalGrammar.Proofs.Ownership.Resolved — a linking pass as its caller sees it, and a second one.

  - `link_settled`: a pass over a statement without matches does nothing.
  - `Linking.unmatched`: behind a pass there are none, if every suffix has a key.
  - `link_resolves`: which leaves stay, which private nodes come in, how many links that makes, and that
    nothing else changes.
-/

import InstitutionalGrammar.Proofs.Meets
import InstitutionalGrammar.Proofs.Ownership.Passes

namespace InstitutionalGrammar

namespace Node

/-- A leaf of a tree stands alone as itself, with the component and the suffix that apply to it. -/
theorem standalone?_leaf {n : Node} {path : Path} (h : path ∈ n.paths) : ∃ e marks privates,
    n.get? path = some (leaf e marks privates) ∧ n.standalone? path = some (leaf e
      { marks with component := n.componentAt? path, suffix := marks.suffix.or (n.suffixAt? path) } privates) := by
  obtain ⟨t, ht, rfl⟩ := (mem_paths none).1 h
  obtain ⟨⟨marks, privates, hget⟩, -⟩ := mem_tips.1 ht
  refine ⟨t.entry, marks, privates, hget, ?_⟩
  rw [standalone?, hget]
  rfl

end Node

namespace Statement

variable {s t : Statement} {kind : SlotKind}

/-- A pass over a statement without matches does nothing. -/
theorem link_settled (h : ∀ c, s.matching kind c = []) : s.link kind = .ok (s, 0) := by
  have hproperty : ∀ c property : Component, c.property? = some property →
      linkProperty c property kind s = .ok (s, 0) := by
    intro c property hp
    have hmatching := h c
    rw [matching, hp, Option.elim_some] at hmatching
    cases htree : s.get? property kind with
    | none => rw [linkProperty, htree]
    | some tree =>
      rw [htree] at hmatching
      simp only [linkProperty, htree, links_eq, hmatching, List.map_nil]
  have hrun : Meets (fun _ => False) (· = (s, 0)) (s.link kind) := by
    refine Meets.foldlM (fun c _ x hx => ?_) rfl
    subst hx
    cases hp : c.property? with
    | none => rfl
    | some property =>
      simp only [hproperty c property hp]
      rfl
  cases hlink : s.link kind with
  | error e => exact (hrun.failure hlink).elim
  | ok x => rw [hrun.value hlink]

/-- Behind a pass no property leaf has the key of an owner. -/
theorem Linking.unmatched (h : Linking kind s t) (hs : s.Keyed) (c : Component) : t.matching kind c = [] := by
  unfold Statement.matching
  cases hp : c.property? with
  | none => rfl
  | some property =>
    rw [Option.elim_some, List.eq_nil_iff_forall_not_mem]
    rintro ⟨k, p, q⟩ hx
    cases htree : t.get? property kind with
    | none =>
      rw [htree, Node.matching_none] at hx
      cases hx
    | some tree =>
      rw [htree] at hx
      obtain ⟨n, hn, hpn, hq⟩ := Node.mem_matching.1 hx
      obtain ⟨hq, hsame⟩ := Node.mem_sharing.1 hq
      obtain ⟨key, howner, hkey⟩ := sameKey_iff.1 hsame
      exact h.apart hs hp k key (Node.mem_slotKeys.2 ⟨tree, htree, q, hq, hkey⟩)
        (Node.mem_slotKeys.2 ⟨n, hn, p, hpn, howner⟩)

/-- A pass is never refused. Every owner leaf gets, behind the private nodes it has, one copy of each leaf
    of the property slot with its key, in leaf order. The property slot keeps the leaves without an owner, as
    they were, and is empty if there are none. No other slot changes. The count is that of the matches, and a
    second pass finds none if every suffix of the statement has a key. -/
theorem link_resolves (kind : SlotKind) (s : Statement) :
    ∃ t, s.link kind = .ok (t, (Component.all.flatMap (s.matching kind)).length) ∧
      (∀ c property : Component, c.property? = some property →
        (∀ k, t.get? c k = (s.get? c k).map fun n =>
          n.grow fun path => Node.copies (s.get? property kind) (n.keyAt? path)) ∧
        (s.get? property kind = none → t.get? property kind = none) ∧
        ∀ tree, s.get? property kind = some tree →
          (∀ q ∈ tree.paths, ∃ e marks privates, tree.get? q = some (.leaf e marks privates) ∧
            tree.standalone? q = some (.leaf e
              { marks with component := tree.componentAt? q, suffix := marks.suffix.or (tree.suffixAt? q) } privates)) ∧
          (t.get? property kind = none ↔ ∀ q ∈ tree.paths, Node.ownedBy (s.get? c) (tree.keyAt? q) = true) ∧
          ∀ rest, t.get? property kind = some rest → rest.paths.map (rest.leafAt? ·) =
            (tree.paths.filter fun q => !Node.ownedBy (s.get? c) (tree.keyAt? q)).map (tree.leafAt? ·)) ∧
      (∀ slot : Slot, slot.component.property? = none →
        (∀ c : Component, c.property? = some slot.component → slot.kind ≠ kind) → t.get slot = s.get slot) ∧
      (s.Keyed → t.link kind = .ok (t, 0)) := by
  obtain ⟨t, ht, h⟩ := link_transfer kind s
  refine ⟨t, ht, fun c property hp => ?_, h.frame, fun hs => ?_⟩
  · have hmoved := h.moved c property hp
    refine ⟨hmoved.grown, fun hnone => by rw [hmoved.kept, hnone]; rfl, fun tree htree => ?_⟩
    have hkept := hmoved.kept
    rw [htree, Option.bind_some] at hkept
    refine ⟨fun q hq => Node.standalone?_leaf hq, by rw [hkept, Node.prune_eq_none_iff], fun rest hrest => ?_⟩
    exact Node.leafAt?_prune (hkept.symm.trans hrest)
  · exact link_settled ((h.linking hs).unmatched hs)

/-- Two inspectors, two properties of the first, and one of nobody. -/
def inspectors : Statement :=
  (Statement.empty.put (.simple .attributes) (some (.combination .and
    (.leaf (.text "inspector".toList) { suffix := some ['1'] } [])
    (.leaf (.text "deputy".toList) { suffix := some ['2'] } []) { component := some .attributes } []))).put
  (.simple .attributesProperty) (some (.combination .or
    (.leaf (.text "certified".toList) { suffix := some ['1'] } [])
    (.combination .and (.text "trained".toList) (.leaf (.text "senior".toList) { suffix := some ['3'] } [])
      { suffix := some "1,2".toList } [])
    { component := some .attributesProperty } []))

theorem link_resolves_inspectors : ∃ t, inspectors.link .simple = .ok (t, 2) ∧ t.link .simple = .ok (t, 0) ∧
    ∃ rest, t.get? .attributesProperty .simple = some rest ∧ rest.paths.map (rest.leafAt? ·) =
      [some ⟨.text "senior".toList, some .attributesProperty, some ['3']⟩] := by
  obtain ⟨t, ht, hproperties, -, hagain⟩ := link_resolves .simple inspectors
  obtain ⟨-, -, hkept⟩ := hproperties .attributes .attributesProperty rfl
  obtain ⟨-, hempty, hrest⟩ := hkept _ rfl
  have hkeyed : inspectors.Keyed := by
    intro slot n hn
    simp only [inspectors, get_put, get_empty] at hn
    split at hn
    · cases hn
      refine ⟨nofun, ?_, ⟨?_, nofun, ?_⟩⟩
      all_goals
        rintro t ⟨⟩
        decide
    · split at hn
      · cases hn
        refine ⟨nofun, ?_, ?_⟩
        all_goals
          rintro t ⟨⟩
          decide
      · cases hn
  have hcount : (Component.all.flatMap (inspectors.matching .simple)).length = 2 := by decide
  rw [hcount] at ht
  refine ⟨t, ht, hagain hkeyed, ?_⟩
  cases hget : t.get? .attributesProperty .simple with
  | none =>
    have howned := hempty.1 hget [.right, .right] (by decide)
    exact absurd howned (by decide)
  | some rest => exact ⟨rest, rfl, (hrest rest hget).trans rfl⟩

end Statement

end InstitutionalGrammar
