/-
  InstitutionalGrammar.Proofs.Ownership.Outer — what the statements of a pair keep of the one around it.

  Every output statement takes over all slots of the outer one. Linking moves properties only, so
  outside their slots nothing goes; the leaves of an owner may gain private nodes.
  - `inheritOuter_carries`: the passes over one element.
  - `step_carries`: every output statement of a text.
  - `Session.read_carries`: so does every statement that a session reads, next to the outer one.
-/

import InstitutionalGrammar.Session
import InstitutionalGrammar.Proofs.Ownership.Pairs

namespace InstitutionalGrammar

open Statement Node

variable {options : Options} {s t outer : Statement} {raw text : Text} {out tree : Node}

namespace Statement

/-- Every slot of `outer` holds the same tree in `s`. Where properties are linked, slots of properties
    are left out and leaves may have more private nodes behind those they had. -/
def Carries (options : Options) (outer s : Statement) : Prop :=
  ∀ slot n, outer.get slot = some n →
    (options.linksProperties = false → s.get slot = some n) ∧
    (options.linksProperties = true → slot.component.isProperty = false → ∃ more, s.get slot = some (n.grow more))

theorem Carries.refl (options : Options) (s : Statement) : s.Carries options s := by
  intro slot n hn
  refine ⟨fun _ => hn, fun _ _ => ⟨fun _ => [], ?_⟩⟩
  rw [grow_nil, hn]

theorem not_property {slot : Slot} (h : slot.component.isProperty = false) (c : Component) :
    c.property? ≠ some slot.component := by
  intro hc
  have hproperty := (Component.property?_isProperty hc).2.1
  rw [h] at hproperty
  cases hproperty

theorem Agree.get_union (h : s.Agree outer) {slot : Slot} {n : Node} (hn : outer.get slot = some n) :
    (s.union outer).get slot = some n := by
  rw [union, get_of, hn]
  cases hs : s.get slot with
  | none => rfl
  | some own =>
    rw [h slot own n hs hn]
    rfl

end Statement

/-- Only a statement that agrees with the outer one takes over its slots. -/
theorem inheritOuter_agrees (h : inheritOuter options outer raw s = .ok t) : s.Agree outer := by
  by_contra hagree
  obtain ⟨u, c, hu⟩ := inherit_conflict raw hagree
  unfold inheritOuter at h
  rw [hu] at h
  cases h

theorem inheritOuter_carries (hs : s.Sound) (ho : outer.Sound) (h : inheritOuter options outer raw s = .ok t) :
    outer.Carries options t ∧ (options.linksProperties = true → t.Keyed) := by
  have hagree := inheritOuter_agrees h
  by_cases hlinks : options.linksProperties = true
  · obtain ⟨u, hu, ht⟩ := inheritOuter_linking hlinks hs ho h
    refine ⟨fun slot n hn => ⟨fun hoff => ?_, fun _ hslot => ?_⟩, fun _ => ht.keyed (hu.keyed (hs.union ho).keyed)⟩
    · exact absurd (hoff.symm.trans hlinks) Bool.false_ne_true
    · obtain ⟨more, hmore⟩ := hu.grows (not_property hslot) (hagree.get_union hn)
      obtain ⟨more', hmore'⟩ := ht.grows (not_property hslot) hmore
      rw [grow_grow] at hmore'
      exact ⟨_, hmore'⟩
  · refine ⟨fun slot n hn => ⟨fun hoff => ?_, fun hon => absurd hon hlinks⟩, fun hon => absurd hon hlinks⟩
    rw [inheritOuter_union hoff h]
    exact hagree.get_union hn

/-- Dropping properties leaves all other slots alone. -/
theorem Statement.Carries.erased {erased : Component → SlotKind → Text → Prop} (h : outer.Carries options s)
    (hlinks : options.linksProperties = true) (ht : Erasing erased s t) : outer.Carries options t := by
  intro slot n hn
  refine ⟨fun hoff => absurd (hoff.symm.trans hlinks) Bool.false_ne_true, fun _ hslot => ?_⟩
  rw [ht.frame slot (not_property hslot)]
  exact (h slot n hn).2 hlinks hslot

namespace Reading

/-- Every output statement of a text carries the outer one. With `options.depthLimit` as `budget` the
    text is parsed, with less it is read inside another. -/
theorem step_carries {budget : Nat} (h : (step options (within options budget) text).result = .ok out) :
    ∃ outer, (step options (within options budget) text).outer = some outer ∧
      ∀ s ∈ out.leaves.filterMap statement?, outer.Carries options s := by
  obtain ⟨outline, _, _, _, outer, -, hpasses, houter, hout⟩ := step_passes h
  refine ⟨outer, houter, fun s hs => ?_⟩
  rcases output_cases hout with ⟨-, rfl⟩ | ⟨raw, tree, -, hpair⟩
  · obtain rfl := mem_leaves_nested.1 hs
    exact .refl options s
  · obtain ⟨path, m, p, hget⟩ := get?_of_mem_leaves hs
    obtain ⟨_, leaf, elements, place, e, v, -, -, -, helements, hplace, hinherit, hoff, herase⟩ :=
      pairOutput_origin hpair hget
    have helement : e.Sound := (((within_formed options budget _).value helements).built.get? hplace).nested.1.sound
    obtain ⟨hcarries, hkeyed⟩ := inheritOuter_carries helement hpasses.sound hinherit
    by_cases hlinks : options.linksProperties = true
    · obtain ⟨erased, herasing⟩ := herase (hkeyed hlinks)
      exact hcarries.erased hlinks herasing
    · rw [← hoff (by simpa using hlinks)]
      exact hcarries

end Reading

/-- A text that a session reads leaves its outer statement there, and every output statement carries it:
    the same tree in every slot or, where properties are linked, in every slot of another component,
    up to private nodes added behind those of a leaf. -/
theorem Session.read_carries {session : Session} (h : (session.read text).2 = .ok tree) :
    ∃ outer, (session.read text).1.takeOuter.2 = some outer ∧
      ∀ s ∈ tree.leaves.filterMap statement?, outer.Carries session.options s := by
  obtain ⟨outer, houter, hcarries⟩ := Reading.step_carries h
  refine ⟨outer, ?_, hcarries⟩
  show (Reading.of session.options text).outer.or session.outer = some outer
  rw [show (Reading.of session.options text).outer = some outer from houter, Option.some_or]

/-- The left element writes a property of the outer component. -/
def outerOwner : Text := "A1(a) \x7bA1,p(b) I(x) [XOR] I(y)\x7d".toList

theorem Session.read_carries_outerOwner : ∃ (tree : Node) (outer : Statement),
    (Session.read { options := {} } outerOwner).2 = .ok tree ∧
    (Session.read { options := {} } outerOwner).1.takeOuter.2 = some outer ∧
    ∀ s ∈ tree.leaves.filterMap statement?, outer.Carries {} s := by
  obtain ⟨tree, htree, -⟩ := exists_ok (x := (Session.read { options := {} } outerOwner).2) (p := fun _ => true)
    (by decide +kernel)
  obtain ⟨outer, houter, hcarries⟩ := Session.read_carries htree
  exact ⟨tree, outer, htree, houter, hcarries⟩

end InstitutionalGrammar
