/-
  InstitutionalGrammar.Proofs.Ownership.Links — which suffix matches a parse links.

  The simple pass runs before nested statements are attached, so it sees no owner in a complex
  slot; only a pair makes another simple pass later.
  - `parse_links`: every match is linked but those of a simple property with nested owners alone;
    with a pair, all are.
  - `simple_property_of_nested_owner_stays`: such a match.
-/

import InstitutionalGrammar.Proofs.Ownership.Pairs

namespace InstitutionalGrammar

open Statement Node

instance (s : Statement) (c property : Component) (kind owners : SlotKind) :
    Decidable (s.Apart c property kind owners) :=
  inferInstanceAs (Decidable (∀ _ ∈ _, _))

variable {options : Options} {text : Text} {a s : Statement} {out : Node}

namespace Reading

/-- A text without a pair that is read as the statement `s`; `a` is what its atomic text says. -/
def Alone (options : Options) (text : Text) (a s : Statement) : Prop :=
  ∃ outline budget, Outline.of options.depthLimit text = .ok outline ∧ pairs outline.blocks = [] ∧
    atomicStatement options.depthLimit outline.atomic = .ok a ∧
    (step options (within options budget) text).result = .ok (.nested s)

/-- What a text without a pair leaves: the simple properties that find an owner among the nested
    statements only. -/
theorem Alone.full_iff (hlinks : options.linksProperties = true) (h : Alone options text a s) :
    s.FullyLinked ↔ ∀ c property : Component, c.property? = some property →
      ∀ key ∈ heldKeys (a.get? property .simple), key ∈ heldKeys (s.get? c .complex) →
        key ∈ heldKeys (a.get? c .simple) := by
  obtain ⟨outline, budget, houtline, hnone, ha, h⟩ := h
  obtain ⟨outline', a', d, u, t, hdraft, hpasses, -, hout⟩ := step_passes h
  cases houtline.symm.trans (outline_of_draft hdraft)
  cases ha.symm.trans hpasses.atomic
  obtain rfl : s = t := by
    rcases output_cases hout with ⟨-, he⟩ | ⟨raw, tree, hpair, -⟩
    · cases he
      rfl
    · rw [hpair] at hnone
      cases hnone
  rw [(hpasses.settled hlinks).full_iff]
  refine forall_congr' fun c => forall_congr' fun property => forall_congr' fun hp => ?_
  have hkeys := hpasses.simple_keys hlinks hp
  constructor
  · intro hapart key hproperty howner
    by_contra hsimple
    exact hapart key ((hkeys key).2 ⟨hproperty, hsimple⟩) howner
  · intro hsimple key hkey howner
    obtain ⟨hproperty, hunowned⟩ := (hkeys key).1 hkey
    exact hunowned (hsimple key hproperty howner)

/-- Nothing is left to link in the statements of a pair; without a pair the one statement is settled. -/
theorem step_linked (hlinks : options.linksProperties = true) {budget : Nat}
    (h : (step options (within options budget) text).result = .ok out) :
    (∀ s ∈ out.leaves.filterMap statement?, s.FullyLinked) ∨
      ∃ a s, out = .nested s ∧ s.Settled ∧ Alone options text a s := by
  obtain ⟨outline, a, d, u, t, hdraft, hpasses, -, hout⟩ := step_passes h
  rcases output_cases hout with ⟨hnone, rfl⟩ | ⟨raw, tree, hpair, hout⟩
  · refine Or.inr ⟨a, t, rfl, hpasses.settled hlinks, ?_⟩
    exact ⟨outline, budget, outline_of_draft hdraft, hnone, hpasses.atomic, h⟩
  · refine Or.inl fun s hs => ?_
    have htree := pair_unlabelled hpasses.started.blocks (hpair ▸ List.mem_singleton_self (raw, tree))
    have hbuilt := pairOutput_full hlinks hpasses.sound (within_formed options budget) htree.built hout
    obtain ⟨s', he, -, hfull⟩ := hbuilt.leaf hs
    cases he
    exact hfull

end Reading

/-- Every suffix match is linked, in the output statements and in all that are nested in them, but
    one: a property in the simple slot is not linked to owners in the complex slot. That happens in
    a text without a pair, be it the whole or one inside it, to the keys that its atomic text has
    for the property and not for its component. -/
theorem parse_links (hlinks : options.linksProperties = true) {p : Parsed} (h : parse options text = .ok p) :
    (∀ s ∈ p.tree.statements, s.Settled) ∧
    (∀ s ∈ p.tree.statements, s.FullyLinked ∨
      ∃ inner a, Relation.ReflTransGen (Reading.Inside options) text inner ∧ Reading.Alone options inner a s) ∧
    (∀ inner a s, Reading.Alone options inner a s → (s.FullyLinked ↔
      ∀ c property : Component, c.property? = some property → ∀ key ∈ heldKeys (a.get? property .simple),
        key ∈ heldKeys (s.get? c .complex) → key ∈ heldKeys (a.get? c .simple))) ∧
    ((∀ s ∈ p.statements, s.FullyLinked) ∨ ∃ a s, p.tree = .nested s ∧ Reading.Alone options text a s) := by
  have hresult := Reading.step_of_parse h
  have hall : ∀ s ∈ p.tree.statements, s.Settled ∧ (s.FullyLinked ∨
      ∃ inner a, Relation.ReflTransGen (Reading.Inside options) text inner ∧ Reading.Alone options inner a s) := by
    intro s hs
    obtain ⟨left, inner, part, hreaches, hpart, hs⟩ := Reading.step_yields hresult hs
    rcases Reading.step_linked hlinks hpart with hfull | ⟨a, t, rfl, hsettled, halone⟩
    · exact ⟨(hfull s hs).settled, Or.inl (hfull s hs)⟩
    · obtain rfl := mem_leaves_nested.1 hs
      exact ⟨hsettled, Or.inr ⟨inner, a, hreaches.reflTransGen, halone⟩⟩
  refine ⟨fun s hs => (hall s hs).1, fun s hs => (hall s hs).2, fun _ _ _ ha => ha.full_iff hlinks, ?_⟩
  rcases Reading.step_linked hlinks hresult with hfull | ⟨a, t, htree, -, halone⟩
  · exact Or.inl hfull
  · exact Or.inr ⟨a, t, htree, halone⟩

/-- A simple property whose owner is a nested statement. -/
def nestedOwner : Text := "Bdir1\x7bA(x) I(y)\x7d Bdir1,p(z)".toList

theorem parse_nestedOwner : ∃ p, parse {} nestedOwner = .ok p ∧
    ∃ s ∈ p.tree.statements, ¬ s.Apart .directObject .directObjectProperty .simple .complex := by
  obtain ⟨p, hp, hmatch⟩ := exists_ok (x := parse {} nestedOwner)
    (p := fun p => decide (∃ s ∈ p.tree.statements, ¬ s.Apart .directObject .directObjectProperty .simple .complex))
    (by decide +kernel)
  exact ⟨p, hp, of_decide_eq_true hmatch⟩

/-- The property stays in its slot although the statement has the owner. -/
theorem simple_property_of_nested_owner_stays :
    ∃ p, parse {} nestedOwner = .ok p ∧ ¬ ∀ s ∈ p.tree.statements, s.FullyLinked := by
  obtain ⟨p, hp, s, hs, hmatch⟩ := parse_nestedOwner
  exact ⟨p, hp, fun hfull => hmatch (hfull s hs .directObject .directObjectProperty rfl .simple .complex)⟩

theorem parse_links_nestedOwner : ∃ p, parse {} nestedOwner = .ok p ∧ ∀ s ∈ p.tree.statements, s.Settled := by
  obtain ⟨p, hp, -⟩ := parse_nestedOwner
  exact ⟨p, hp, (parse_links rfl hp).1⟩

end InstitutionalGrammar
