/-
  InstitutionalGrammar.Proofs.WellFormed.Slots — well-formed statements and what keeps them so.

  - `Statement.WellFormed`: what every statement in a result is like.
  - `Slot.Formed`: what the tree of a slot must be like for the passes over its statement to keep the
    statement well formed; removal moves marks and private nodes up, so it speaks of all nodes.
  - `Linking.formed`, `Erasing.formed`, `Formed.union`: they do keep it.
-/

import InstitutionalGrammar.Proofs.Inheritance
import InstitutionalGrammar.Proofs.Ownership.Erasing
import InstitutionalGrammar.Proofs.Reading.Labels

namespace InstitutionalGrammar

open Node

/-- What the leaves of a slot hold: coded text, or nested statements. -/
def Slot.Admits : Slot → Entry → Prop
  | .simple _, e => e.Coded
  | .complex .., e => ∃ s, e = .nested s

/-- A property on its own, as an owner keeps it. -/
structure Node.IsProperty (property : Component) (v : Node) : Prop where
  component : v.component? = some property
  entry : ∃ e, v.entry? = some e ∧ (e.Coded ∨ ∃ s, e = .nested s)
  privates : v.privates = []

/-- Slots hold trees of their components and of their kind, and private nodes are properties that
    have the keys of the leaves that own them. -/
structure Statement.WellFormed (s : Statement) : Prop where
  component : ∀ slot n, s.get slot = some n → n.component? = some slot.component
  entries : ∀ slot n path leaf, s.get slot = some n → n.get? path = some leaf → leaf.isLeaf = true →
    ∃ e, leaf.entry? = some e ∧ slot.Admits e
  privates : ∀ slot n path owner v, s.get slot = some n → n.get? path = some owner → v ∈ owner.privates →
    owner.isLeaf = true ∧ ∃ property key, slot.component.property? = some property ∧ v.IsProperty property ∧
      v.key? = some key ∧ n.keyAt? path = some key

/-! ## Types of trees -/

namespace Node

variable {C : Component → Prop} {c : Component} {n m : Node} {path : Path}

theorem composed_grow {more : Path → List Node} : (n.grow more).Composed C ↔ n.Composed C := by
  induction n generalizing more with
  | leaf => exact Iff.rfl
  | combination o l r m p ihl ihr => rw [grow, Composed, Composed, ihl, ihr]

theorem component?_grow (more : Path → List Node) (n : Node) : (n.grow more).component? = n.component? := by
  cases n <;> rfl

theorem Typed.grow (h : n.Typed c) (more : Path → List Node) : (n.grow more).Typed c :=
  ⟨(component?_grow more n).trans h.component, composed_grow.2 h.composed⟩

theorem Composed.moveUp (h : n.Composed C) {marks : Marks} (hm : ∀ c ∈ marks.component, C c) (privates : List Node) :
    (n.moveUp marks privates).Composed C := by
  have hor : ∀ c ∈ (n.marks.component.or marks.component), C c := by
    intro c hc
    rcases Option.or_eq_some_iff.1 hc with hc | hc
    · exact h.root c hc
    · exact hm c hc.2
  cases n with
  | leaf => exact hor
  | combination => exact ⟨hor, h.2⟩

theorem Composed.without (h : n.Composed C) (hm : Without path n m) : m.Composed C := by
  induction hm with
  | left o l r marks ps => exact h.2.2.moveUp h.1 ps
  | right o l r marks ps => exact h.2.1.moveUp h.1 ps
  | inLeft o r marks ps hl ih => exact ⟨h.1, ih h.2.1, h.2.2⟩
  | inRight o l marks ps hr ih => exact ⟨h.1, h.2.1, ih h.2.2⟩

/-- What moves up to the root takes the component of the root, if it has none. -/
theorem component?_moveUp {marks : Marks} (hm : marks.component = some c) (h : n.Composed (· = c))
    (privates : List Node) : (n.moveUp marks privates).component? = some c := by
  have hor : n.marks.component.or marks.component = some c := by
    cases hn : n.marks.component with
    | none => exact hm
    | some d => exact congrArg some (h.root d hn)
  cases n <;> exact hor

theorem Typed.without (h : n.Typed c) (hm : Without path n m) : m.Typed c := by
  refine ⟨?_, h.composed.without hm⟩
  cases hm with
  | left o l r marks ps => exact component?_moveUp h.component h.composed.2.2 ps
  | right o l r marks ps => exact component?_moveUp h.component h.composed.2.1 ps
  | inLeft => exact h.component
  | inRight => exact h.component

theorem Pruned.typed (h : n.Pruned m) (hn : n.Typed c) : m.Typed c := by
  induction h with
  | refl => exact hn
  | tail _ hstep ih =>
    obtain ⟨path, hpath⟩ := hstep
    exact ih.without (without_of_eq hpath)

/-- On the way down to any node there is no component but the one of the root. -/
theorem nearestFrom_composed (h : n.Composed (· = c)) {inherited : Option Component} (hroot : n.component?.or inherited = some c)
    (hm : n.get? path = some m) : nearestFrom component? inherited path n = some c := by
  induction path generalizing n inherited with
  | nil => exact hroot
  | cons s path ih =>
    cases n with
    | leaf => cases s <;> cases hm
    | combination o l r ms p =>
      have hchild : ∀ k : Node, k.Composed (· = c) → k.component?.or (some c) = some c := by
        intro k hk
        cases hkc : k.component? with
        | none => rfl
        | some d => exact congrArg some (hk.root d hkc)
      have hroot : ms.component.or inherited = some c := hroot
      cases s
      · exact ih h.2.1 (hroot ▸ hchild l h.2.1) hm
      · exact ih h.2.2 (hroot ▸ hchild r h.2.2) hm

theorem Typed.componentAt? (h : n.Typed c) (hm : n.get? path = some m) : n.componentAt? path = some c := by
  refine nearestFrom_composed h.composed ?_ hm
  rw [h.component]
  rfl

theorem held_grow (more : Path → List Node) (n : Node) : held (some (n.grow more)) = held (some n) := by
  rw [held, held, Option.elim_some, Option.elim_some, tips_grow]

/-- The leaves of a built tree hold what it was built of. -/
theorem Built.held {L : Entry → Prop} (h : n.Built L) {d : Entry × Option Text} (hd : d ∈ held (some n)) : L d.1 := by
  obtain ⟨path, leaf, hget, hentry, -⟩ := Node.hasLeaf_iff.2 hd
  cases leaf with
  | leaf e m p =>
    cases hentry
    exact h.get? hget
  | combination => cases hentry

end Node

/-! ## Slots -/

/-- What the tree of a slot is like: fit for the passes, of the component and the kind of the slot, with
    statements that have `P` inside and properties as private nodes. -/
structure Slot.Formed (P : Statement → Prop) (slot : Slot) (n : Node) : Prop where
  keyed : n.Keyed
  matched : n.Matched
  bare : (∃ c : Component, c.property? = some slot.component) → n.Bare
  inside : ∀ u ∈ n.statements, P u
  typed : n.Typed slot.component
  entries : ∀ d ∈ held (some n), slot.Admits d.1
  privates : ∀ path owner v, n.get? path = some owner → v ∈ owner.privates →
    ∃ property, slot.component.property? = some property ∧ v.IsProperty property ∧ v.key? ≠ none

/-- All slots are like that. -/
def Statement.Formed (P : Statement → Prop) (s : Statement) : Prop := ∀ slot n, s.get slot = some n → slot.Formed P n

variable {P : Statement → Prop}

/-- The tree that a header labelled, before any pass. -/
theorem Node.Labelled.formed {L : Entry → Prop} {slot : Slot} {n : Node} (h : n.Labelled L slot.component)
    (hadmits : ∀ e, L e → slot.Admits e) (hinside : ∀ e, L e → ∀ u ∈ e.statements, P u) : slot.Formed P n where
  keyed := h.built.keyed
  matched := h.built.bare.matched
  bare := fun _ => h.built.bare
  inside := by
    intro u hu
    obtain ⟨e, he, hu⟩ := h.built.statements hu
    exact hinside e he u hu
  typed := h.toTyped
  entries := fun d hd => hadmits d.1 (h.built.held hd)
  privates := by
    intro path owner v hget hv
    rw [h.built.bare.get? hget] at hv
    cases hv

namespace Statement

variable {s t outer : Statement} {c property : Component} {kind : SlotKind}

namespace Formed

theorem sound (h : s.Formed P) : s.Sound where
  keyed := fun slot n hn => (h slot n hn).keyed
  matched := fun slot n hn => (h slot n hn).matched
  bare := by
    intro c property kind n hp hn
    obtain ⟨slot, hslot, hn⟩ := Option.bind_eq_some_iff.1 hn
    exact (h slot n hn).bare ⟨c, by rw [(Slot.of?_eq_some_iff.1 hslot).1, hp]⟩

theorem mono {Q : Statement → Prop} (h : s.Formed P) (hQ : ∀ u, P u → Q u) : s.Formed Q := by
  intro slot n hn
  have hslot := h slot n hn
  exact ⟨hslot.keyed, hslot.matched, hslot.bare, fun u hu => hQ u (hslot.inside u hu), hslot.typed, hslot.entries,
    hslot.privates⟩

theorem wellFormed (h : s.Formed P) : s.WellFormed where
  component := fun slot n hn => (h slot n hn).typed.component
  entries := by
    intro slot n path leaf hn hget hleaf
    cases leaf with
    | combination => cases hleaf
    | leaf e m p => exact ⟨e, rfl, (h slot n hn).entries (e, _) (Node.hasLeaf_iff.1 ⟨path, _, hget, rfl, rfl⟩)⟩
  privates := by
    intro slot n path owner v hn hget hv
    have hslot := h slot n hn
    obtain ⟨property, hp, hv', hkey⟩ := hslot.privates path owner v hget hv
    obtain ⟨o, ho, hpath, hmatch⟩ := hslot.matched path owner v hget hv
    obtain ⟨⟨marks, privates, hleaf⟩, -⟩ := mem_tips.1 ho
    rw [hpath, hget] at hleaf
    obtain ⟨key, hkey⟩ := Option.ne_none_iff_exists'.1 hkey
    refine ⟨by rw [Option.some.inj hleaf]; rfl, property, key, hp, hv', hkey, ?_⟩
    have hmem := (key_of_path hslot.keyed ho).2 (hmatch ▸ hkey)
    rw [hpath] at hmem
    obtain ⟨q, -, hq⟩ := List.mem_filterMap.1 hmem
    obtain ⟨k, hk, he⟩ := Option.map_eq_some_iff.1 hq
    cases he
    exact hk

theorem union (hs : s.Formed P) (ho : outer.Formed P) : (s.union outer).Formed P :=
  fun slot n hn => (get_union hn).elim (hs slot n) (ho slot n)

/-- What an owner gets from a property slot is a property with a key. -/
theorem copy (h : s.Formed P) {tree v : Node} {place : Path} {key : Text} (htree : s.get? property kind = some tree)
    (hp : c.property? = some property) (hplace : (place, key) ∈ tree.keyedLeaves)
    (hv : tree.standalone? place = some v) : v.IsProperty property ∧ v.key? ≠ none := by
  obtain ⟨slot, hslot, hget⟩ := Option.bind_eq_some_iff.1 htree
  obtain ⟨hcomponent, -⟩ := Slot.of?_eq_some_iff.1 hslot
  have hformed := h slot tree hget
  obtain ⟨o, ho, rfl, hkey⟩ := (mem_keyedLeaves hformed.keyed).1 hplace
  have hentry := hformed.entries o.data (List.mem_map_of_mem ho)
  obtain ⟨⟨marks, privates, hleaf⟩, -⟩ := mem_tips.1 ho
  have hbare : privates = [] := (hformed.bare ⟨c, hcomponent ▸ hp⟩).get? hleaf
  obtain ⟨marks', privates', hv', hsuffix⟩ := standalone?_tip ho
  obtain rfl := Option.some.inj (hv.symm.trans hv')
  have hstand : tree.standalone? o.path = some _ := hv
  rw [standalone?, hleaf, hformed.typed.componentAt? hleaf] at hstand
  obtain ⟨-, hmarks, hprivates⟩ := leaf.inj (Option.some.inj hstand)
  refine ⟨⟨?_, ⟨o.entry, rfl, ?_⟩, ?_⟩, ?_⟩
  · show marks'.component = some property
    rw [← hmarks, hcomponent]
  · cases slot with
    | simple => exact Or.inl hentry
    | complex => exact Or.inr hentry
  · exact hprivates.symm.trans hbare
  · show marks'.suffix.bind Suffix.key? ≠ none
    rw [hsuffix]
    intro hnone
    cases hkey.symm.trans hnone

end Formed

theorem Linking.formed (h : Linking kind s t) (hs : s.Formed P) : t.Formed P := by
  have hsound := h.sound hs.sound
  intro slot n hn
  refine ⟨hsound.keyed slot n hn, hsound.matched slot n hn, ?_, fun u hu => ?_, ?_, ?_, ?_⟩
  · rintro ⟨c, hc⟩
    exact hsound.bare c _ slot.kind n hc (by rw [← get_eq_get?, hn])
  · obtain ⟨slot', m, hm, hu⟩ := h.inner hn hu
    exact (hs slot' m hm).inside u hu
  all_goals
    rcases h.slot_cases slot with ⟨property, hp⟩ | ⟨c, hc, hk⟩ | hsame
  · obtain ⟨m, more, hm, rfl, -⟩ := h.grown hp hn
    exact (hs slot m hm).typed.grow more
  · obtain ⟨m, hm, hpruned⟩ := h.rest hc hk hn
    exact hpruned.typed (hs slot m hm).typed
  · exact (hs slot n (hsame ▸ hn)).typed
  · obtain ⟨m, more, hm, rfl, -⟩ := h.grown hp hn
    rw [held_grow]
    exact (hs slot m hm).entries
  · intro d hd
    rw [← hn, get_eq_get?, h.held hc] at hd
    obtain ⟨m, hm, -⟩ := h.rest hc hk hn
    rw [← get_eq_get?, hm] at hd
    exact (hs slot m hm).entries d hd.1
  · exact (hs slot n (hsame ▸ hn)).entries
  · intro path owner v hget hv
    obtain ⟨m, more, hm, rfl, hmem⟩ := h.grown hp hn
    obtain ⟨k, hk, rfl⟩ := get?_of_grow hget
    cases k with
    | combination => exact (hs slot m hm).privates path _ v hk hv
    | leaf e ms ps =>
      rcases List.mem_append.1 hv with hv | hv
      · exact (hs slot m hm).privates path _ v hk hv
      · obtain ⟨tree, htree, key, place, -, hplace, hcopy⟩ := (hmem _ v).1 hv
        exact ⟨property, hp, hs.copy htree hp hplace hcopy⟩
  · intro path owner v hget hv
    rw [(hsound.bare c _ slot.kind n hc (by rw [← get_eq_get?, hn])).get? hget] at hv
    cases hv
  · exact (hs slot n (hsame ▸ hn)).privates

theorem Erasing.formed {a : Component → SlotKind → Text → Prop} (h : Erasing a s t) (hs : s.Formed P) : t.Formed P := by
  intro slot n hn
  by_cases hslot : ∃ c : Component, c.property? = some slot.component
  · obtain ⟨c, hc⟩ := hslot
    obtain ⟨m, hm, hpruned⟩ := h.pruned slot n hn
    have hformed := hs slot m hm
    have hbare := hpruned.bare (hformed.bare ⟨c, hc⟩)
    refine ⟨hpruned.keyed hformed.keyed, hbare.matched, fun _ => hbare, fun u hu => hformed.inside u (hpruned.statements hu),
      hpruned.typed hformed.typed, fun d hd => ?_, fun path owner v hget hv => ?_⟩
    · rw [← hn, get_eq_get?, h.held c _ hc, ← get_eq_get?, hm] at hd
      exact hformed.entries d hd.1
    · rw [hbare.get? hget] at hv
      cases hv
  · rw [h.frame slot fun c hc => hslot ⟨c, hc⟩] at hn
    exact hs slot n hn

end Statement

end InstitutionalGrammar
