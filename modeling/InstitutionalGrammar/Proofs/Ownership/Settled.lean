/-
  InstitutionalGrammar.Proofs.Ownership.Settled — the linking passes over the statement of a text.

  A statement is settled when its linking passes left nothing to do, except that properties in
  the simple slot are not linked to owners in the complex one.
  - `Passes`: the statement of a text from pass to pass; `step_passes`: every reading that ends well has one.
  - `Passes.settled`: it is settled in the end.
  - `Passes.simple_keys`: the properties that stay in its simple slots.
-/

import InstitutionalGrammar.Proofs.WellFormed.Reading

namespace InstitutionalGrammar

namespace Statement

/-- No property leaf has the key of an owner, except those in the simple slot that have the key of
    owners in the complex slot. -/
def Settled (s : Statement) : Prop :=
  ∀ c property : Component, c.property? = some property → ∀ kind owners, (kind, owners) ≠ (.simple, .complex) →
    s.Apart c property kind owners

/-- No property leaf has the key of an owner. -/
def FullyLinked (s : Statement) : Prop :=
  ∀ c property : Component, c.property? = some property → ∀ kind owners, s.Apart c property kind owners

variable {s outer : Statement}

theorem FullyLinked.settled (h : s.FullyLinked) : s.Settled :=
  fun c property hp kind owners _ => h c property hp kind owners

theorem Settled.full_iff (h : s.Settled) :
    s.FullyLinked ↔ ∀ c property : Component, c.property? = some property → s.Apart c property .simple .complex := by
  refine ⟨fun hfull c property hp => hfull c property hp .simple .complex, fun hsimple c property hp kind owners => ?_⟩
  by_cases hslots : (kind, owners) = (.simple, .complex)
  · cases hslots
    exact hsimple c property hp
  · exact h c property hp kind owners hslots

theorem Sound.union (hs : s.Sound) (ho : outer.Sound) : (s.union outer).Sound := by
  refine ⟨fun slot n hn => ?_, fun slot n hn => ?_, fun c property kind n hp hn => ?_⟩
  · exact (get_union hn).elim (hs.keyed slot n) (ho.keyed slot n)
  · exact (get_union hn).elim (hs.matched slot n) (ho.matched slot n)
  · obtain ⟨slot, hof, hn⟩ := Option.bind_eq_some_iff.1 hn
    rcases get_union hn with hn | hn
    · exact hs.bare c property kind n hp (by rw [get?_eq hof, hn])
    · exact ho.bare c property kind n hp (by rw [get?_eq hof, hn])

end Statement

namespace Reading

open Statement Node

variable {options : Options} {text : Text} {a s t u : Statement} {out : Node} {outline : Outline}

theorem linked_linking (hlinks : options.linksProperties = true) {kind : SlotKind} (hs : s.Keyed)
    (h : linked options kind s = .ok t) : Linking kind s t := by
  obtain ⟨u, m, hu, hlinking⟩ := link_moved hs kind
  unfold linked at h
  rw [if_pos hlinks, hu] at h
  cases h
  exact hlinking

/-- The statement of a text from pass to pass: `a` is what its atomic text says, `s` is `a` once linked,
    `u` has the nested statements too, and `t` is `u` linked once more. -/
structure Passes (options : Options) (outline : Outline) (a s u t : Statement) : Prop where
  started : Started (fun _ => True) outline s
  atomic : atomicStatement options.depthLimit outline.atomic = .ok a
  formed : a.Formed fun _ => True
  simple : ∀ slot n, a.get slot = some n → slot.kind = .simple
  simplePass : linked options .simple a = .ok s
  nested : Statement.Nested (Entry.Read fun _ => True) s u
  complexPass : linked options .complex u = .ok t

theorem step_passes {budget : Nat} (h : (step options (within options budget) text).result = .ok out) :
    ∃ outline a s u t, draft options text = .ok (outline, s) ∧ Passes options outline a s u t ∧
      (step options (within options budget) text).outer = some t ∧
      (output options (within options budget) outline t).result = .ok out := by
  obtain ⟨outline, s, t, hdraft, hcomplete, houter, hout⟩ := step_ok h
  obtain ⟨-, a, ha, hs⟩ := draft_ok hdraft
  obtain ⟨u, hu, ht⟩ := complete_ok hcomplete
  have hstarted := (draft_meets (P := fun _ => True) options text).value hdraft
  obtain ⟨hformed, hsimple⟩ := (atomicStatement_meets (P := fun _ => True) _ _).value ha
  have hread := (within_formed options budget).blocks outline.blocks
  have hnested := (attachBlocks_meets tolerates_ofInput options hread hstarted.blocks hstarted.simple).value hu
  exact ⟨outline, a, s, u, t, hdraft, ⟨hstarted, ha, hformed, hsimple, hs, hnested, ht⟩, houter, hout⟩

namespace Passes

variable (h : Passes options outline a s u t)
include h

theorem filled : u.Formed fun _ => True := nested_formed h.started.formed h.nested

theorem sound : t.Sound :=
  ((linked_meets options .complex h.filled).value h.complexPass).1.sound

variable (hlinks : options.linksProperties = true)
include hlinks

theorem simple_linking : Linking .simple a s := linked_linking hlinks h.formed.sound.keyed h.simplePass

theorem complex_linking : Linking .complex u t := linked_linking hlinks h.filled.sound.keyed h.complexPass

theorem settled : t.Settled := by
  have hkeyed := h.filled.sound.keyed
  intro c property hp kind owners hne
  cases kind with
  | complex => exact (h.complex_linking hlinks).apart hkeyed hp owners
  | simple =>
    cases owners with
    | complex => exact absurd rfl hne
    | simple =>
      refine (h.complex_linking hlinks).keeps_apart hkeyed hp ?_
      have hapart := (h.simple_linking hlinks).apart h.formed.sound.keyed hp .simple
      intro key
      rw [get?_eq rfl, get?_eq rfl, h.nested.simple, h.nested.simple]
      exact hapart key

/-- A simple property without an owner in the atomic text stays, whoever owns it later. -/
theorem simple_keys {c property : Component} (hp : c.property? = some property) (key : Text) :
    key ∈ heldKeys (t.get? property .simple) ↔
      key ∈ heldKeys (a.get? property .simple) ∧ key ∉ heldKeys (a.get? c .simple) := by
  have hcomplex : a.get? c .complex = none := by
    cases hn : a.get? c .complex with
    | none => rfl
    | some n =>
      obtain ⟨slot, hslot, hn⟩ := Option.bind_eq_some_iff.1 hn
      have hkind := (Slot.of?_eq_some_iff.1 hslot).2
      rw [h.simple slot n hn] at hkind
      cases hkind
  have hsame : t.get? property .simple = s.get? property .simple := by
    rw [(h.complex_linking hlinks).others hp (by decide)]
    exact h.nested.simple property
  rw [hsame, (h.simple_linking hlinks).mem_heldKeys h.formed.sound.keyed hp, ownerKeys, hcomplex]
  simp [heldKeys]

end Passes

end Reading

end InstitutionalGrammar
