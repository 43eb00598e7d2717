/-
  InstitutionalGrammar.Proofs.Ownership.Passes — what linking passes establish and what they keep.

  - `Linking.apart`: after a pass, no leaf in a property slot of its kind has the key of an owner.
  - `Linking.keeps_apart`, `Linking.sound`: it keeps what an earlier pass established.
  - `Linking.held`, `Linking.privates`: a property leaf stays or moves to an owner with its key, and
    private nodes stay.
-/

import InstitutionalGrammar.Proofs.Ownership.Linking

namespace InstitutionalGrammar

namespace Node

/-- The tree holds a leaf with that entry, and the suffix applies to it. -/
def HasLeaf (n : Node) (d : Entry × Option Text) : Prop :=
  ∃ path leaf, n.get? path = some leaf ∧ leaf.entry? = some d.1 ∧ n.suffixAt? path = d.2

/-- A leaf of the tree has a private node with that entry and that suffix. -/
def HasPrivate (n : Node) (d : Entry × Option Text) : Prop :=
  ∃ path leaf v, n.get? path = some leaf ∧ leaf.isLeaf = true ∧ v ∈ leaf.privates ∧ v.entry? = some d.1 ∧
    v.suffix? = d.2

theorem hasLeaf_iff {n : Node} {d : Entry × Option Text} : n.HasLeaf d ↔ d ∈ held (some n) := by
  rw [held, Option.elim_some, List.mem_map]
  constructor
  · intro h
    obtain ⟨path, m, hm, he, hs⟩ := h
    cases m with
    | combination => cases he
    | leaf e marks privates =>
      cases he
      exact ⟨⟨path, d.1, d.2⟩, mem_tips.2 ⟨⟨marks, privates, hm⟩, hs⟩, rfl⟩
  · intro h
    obtain ⟨t, ht, rfl⟩ := h
    obtain ⟨⟨marks, privates, hget⟩, hs⟩ := mem_tips.1 ht
    exact ⟨t.path, _, hget, rfl, hs⟩

/-- Every tree has a leaf. -/
theorem exists_hasLeaf (n : Node) : ∃ d, n.HasLeaf d := by
  have hleaf : ∃ path e m p, n.get? path = some (.leaf e m p) := by
    induction n with
    | leaf e m p => exact ⟨[], e, m, p, rfl⟩
    | combination o l r m p ihl _ =>
      obtain ⟨path, e, m', p', hget⟩ := ihl
      exact ⟨.left :: path, e, m', p', hget⟩
  obtain ⟨path, e, m, p, hget⟩ := hleaf
  exact ⟨(e, n.suffixAt? path), path, _, hget, rfl, rfl⟩

theorem HasPrivate.grow {n : Node} {d : Entry × Option Text} (h : n.HasPrivate d) (more : Path → List Node) :
    (n.grow more).HasPrivate d := by
  obtain ⟨path, m, v, hm, hleaf, hv, hd⟩ := h
  cases m with
  | combination => cases hleaf
  | leaf e marks privates => exact ⟨path, _, v, get?_grow more hm, rfl, List.mem_append_left _ hv, hd⟩

end Node

namespace Statement

variable {s t : Statement} {c property : Component} {kind : SlotKind}

/-- No leaf in the property slot of that kind has the key of an owner in the slot of the other. -/
def Apart (s : Statement) (c property : Component) (kind owners : SlotKind) : Prop :=
  ∀ key ∈ Node.heldKeys (s.get? property kind), key ∉ Node.heldKeys (s.get? c owners)

/-- What keeps a statement fit for linking: suffixes have keys, private nodes have the keys of their
    owners, and properties have none. -/
structure Sound (s : Statement) : Prop where
  keyed : s.Keyed
  matched : ∀ slot n, s.get slot = some n → n.Matched
  bare : ∀ (c property : Component) kind n, c.property? = some property → s.get? property kind = some n → n.Bare

namespace Linking

variable (h : Linking kind s t)
include h

/-- A slot of an owner, a property slot of the kind of the pass, or one that stays as it was. -/
theorem slot_cases (slot : Slot) : (∃ property, slot.component.property? = some property) ∨
    (∃ c : Component, c.property? = some slot.component ∧ slot.kind = kind) ∨ t.get slot = s.get slot := by
  cases hp : slot.component.property? with
  | some property => exact Or.inl ⟨property, rfl⟩
  | none =>
    by_cases hproperty : ∃ c : Component, c.property? = some slot.component ∧ slot.kind = kind
    · exact Or.inr (Or.inl hproperty)
    · exact Or.inr (Or.inr (h.frame slot hp fun c hc hk => hproperty ⟨c, hc, hk⟩))

/-- The tree of an owner is grown by copies of properties with the keys of its leaves. -/
theorem grown {slot : Slot} (hp : slot.component.property? = some property) {n : Node} (hn : t.get slot = some n) :
    ∃ m more, s.get slot = some m ∧ n = m.grow more ∧ ∀ path v, v ∈ more path ↔ ∃ tree ∈ s.get? property kind,
      ∃ key place, (path, key) ∈ m.keyedLeaves ∧ (place, key) ∈ tree.keyedLeaves ∧ tree.standalone? place = some v := by
  obtain ⟨more, hmore, hmem⟩ := (h.moved _ _ hp).grown slot.kind
  rw [get_eq_get?, hmore] at hn
  obtain ⟨m, hm, rfl⟩ := Option.map_eq_some_iff.1 hn
  exact ⟨m, more, by rw [get_eq_get?, hm], rfl, hmem m hm⟩

theorem rest {slot : Slot} (hp : c.property? = some slot.component) (hk : slot.kind = kind) {n : Node}
    (hn : t.get slot = some n) : ∃ m, s.get slot = some m ∧ m.Pruned n := by
  rw [get_eq_get?, hk] at hn
  obtain ⟨m, hm, hpruned⟩ := (h.moved c _ hp).pruned n hn
  exact ⟨m, by rw [get_eq_get?, hk, hm], hpruned⟩

theorem keyed (hs : s.Keyed) : t.Keyed := by
  intro slot n hn
  rcases h.slot_cases slot with ⟨property, hp⟩ | ⟨c, hc, hk⟩ | hsame
  · obtain ⟨m, more, hm, rfl, -⟩ := h.grown hp hn
    exact Node.keyed_grow.2 (hs slot m hm)
  · obtain ⟨m, hm, hpruned⟩ := h.rest hc hk hn
    exact hpruned.keyed (hs slot m hm)
  · exact hs slot n (hsame ▸ hn)

/-- Owners keep their leaves. -/
theorem owners (hs : s.Keyed) (hp : c.property? = some property) (k : SlotKind) :
    Node.heldKeys (t.get? c k) = Node.heldKeys (s.get? c k) := by
  obtain ⟨more, hmore, -⟩ := (h.moved c property hp).grown k
  rw [hmore]
  exact Node.heldKeys_grow more fun n hn => hs.get? hn

theorem ownerKeys (hs : s.Keyed) (hp : c.property? = some property) :
    Node.ownerKeys (t.get? c) = Node.ownerKeys (s.get? c) := by
  rw [Node.ownerKeys, Node.ownerKeys, h.owners hs hp, h.owners hs hp]

/-- Properties of the other kind are left alone. -/
theorem others (hp : c.property? = some property) {k : SlotKind} (hk : k ≠ kind) :
    t.get? property k = s.get? property k := by
  refine get?_frame fun slot hslot hkind => h.frame slot ?_ fun _ _ e => hk (hkind ▸ e)
  cases hq : slot.component.property? with
  | none => rfl
  | some q => exact (Component.property?_chain hp hq hslot.symm).elim

/-- The keys that stay in a property slot are those without an owner. -/
theorem mem_heldKeys (hs : s.Keyed) (hp : c.property? = some property) {key : Text} :
    key ∈ Node.heldKeys (t.get? property kind) ↔
      key ∈ Node.heldKeys (s.get? property kind) ∧ key ∉ Node.ownerKeys (s.get? c) := by
  rw [Node.mem_heldKeys fun n hn => (h.keyed hs).get? hn, Node.mem_heldKeys fun n hn => hs.get? hn,
    (h.moved c property hp).held]
  constructor
  · intro hd
    obtain ⟨d, hd, hkey⟩ := hd
    obtain ⟨hd, hunowned⟩ := List.mem_filter.1 hd
    exact ⟨⟨d, hd, hkey⟩, Node.unowned_iff.1 hunowned key hkey⟩
  · intro hd
    obtain ⟨⟨d, hd, hkey⟩, howner⟩ := hd
    refine ⟨d, List.mem_filter.2 ⟨hd, Node.unowned_iff.2 fun k hk => ?_⟩, hkey⟩
    rw [hkey] at hk
    exact Option.some.inj hk ▸ howner

theorem apart (hs : s.Keyed) (hp : c.property? = some property) (k : SlotKind) : t.Apart c property kind k := by
  intro key hkey howner
  rw [h.owners hs hp] at howner
  exact ((h.mem_heldKeys hs hp).1 hkey).2 (Node.mem_ownerKeys.2 ⟨k, howner⟩)

theorem keeps_apart (hs : s.Keyed) (hp : c.property? = some property) {k o : SlotKind}
    (hapart : s.Apart c property k o) : t.Apart c property k o := by
  by_cases hk : k = kind
  · rw [hk]
    exact h.apart hs hp o
  · intro key hkey howner
    rw [h.others hp hk] at hkey
    rw [h.owners hs hp] at howner
    exact hapart key hkey howner

/-! ## What a pass keeps -/

theorem bare (hs : s.Sound) (hp : c.property? = some property) (k : SlotKind) {n : Node}
    (hn : t.get? property k = some n) : n.Bare := by
  by_cases hk : k = kind
  · subst hk
    obtain ⟨m, hm, hpruned⟩ := (h.moved c property hp).pruned n hn
    exact hpruned.bare (hs.bare c property k m hp hm)
  · rw [h.others hp hk] at hn
    exact hs.bare c property k n hp hn

theorem sound (hs : s.Sound) : t.Sound where
  keyed := h.keyed hs.keyed
  bare := fun _ _ k _ hp hn => h.bare hs hp k hn
  matched := by
    intro slot n hn
    rcases h.slot_cases slot with ⟨property, hp⟩ | ⟨c, hc, hk⟩ | hsame
    · obtain ⟨m, more, hm, rfl, hmem⟩ := h.grown hp hn
      refine (hs.matched slot m hm).grow fun o ho v hv => ?_
      obtain ⟨tree, htree, key, place, howner, hproperty, hcopy⟩ := (hmem o.path v).1 hv
      rw [Node.key_of_path (hs.keyed slot m hm) ho] at howner
      obtain ⟨p, hpt, rfl, hkey⟩ := (Node.mem_keyedLeaves (hs.keyed.get? htree)).1 hproperty
      obtain ⟨marks, privates, hv', hsuffix⟩ := Node.standalone?_tip hpt
      obtain rfl := Option.some.inj (hv'.symm.trans hcopy)
      rw [howner, ← hkey]
      exact congrArg (Option.bind · Suffix.key?) hsuffix
    · exact (h.bare hs hc slot.kind (by rw [← get_eq_get?, hn])).matched
    · exact hs.matched slot n (hsame ▸ hn)

/-- No slot comes in. -/
theorem populated {slot : Slot} {n : Node} (hn : t.get slot = some n) : ∃ m, s.get slot = some m := by
  rcases h.slot_cases slot with ⟨property, hp⟩ | ⟨c, hc, hk⟩ | hsame
  · obtain ⟨m, more, hm, -⟩ := h.grown hp hn
    exact ⟨m, hm⟩
  · obtain ⟨m, hm, -⟩ := h.rest hc hk hn
    exact ⟨m, hm⟩
  · exact ⟨n, hsame ▸ hn⟩

/-- A slot of a component that is no property keeps its tree, with private nodes added at most. -/
theorem grows {slot : Slot} (hslot : ∀ c : Component, c.property? ≠ some slot.component) {n : Node}
    (hn : s.get slot = some n) : ∃ more, t.get slot = some (n.grow more) := by
  rcases h.slot_cases slot with ⟨property, hp⟩ | ⟨c, hc, hk⟩ | hsame
  · obtain ⟨more, hmore, -⟩ := (h.moved _ _ hp).grown slot.kind
    rw [← get_eq_get?, ← get_eq_get?, hn] at hmore
    exact ⟨more, hmore⟩
  · exact absurd hc (hslot c)
  · refine ⟨fun _ => [], ?_⟩
    rw [hsame, Node.grow_nil, hn]

/-- No statement comes in that was not inside before. -/
theorem inner {slot : Slot} {n : Node} (hn : t.get slot = some n) {u : Statement} (hu : u ∈ n.statements) :
    ∃ slot' m, s.get slot' = some m ∧ u ∈ m.statements := by
  rcases h.slot_cases slot with ⟨property, hp⟩ | ⟨c, hc, hk⟩ | hsame
  · obtain ⟨m, more, hm, rfl, hmem⟩ := h.grown hp hn
    rcases Node.statements_grow hu with hu | hu
    · exact ⟨slot, m, hm, hu⟩
    · obtain ⟨path, v, hv, hu⟩ := hu
      obtain ⟨tree, htree, key, place, -, -, hcopy⟩ := (hmem path v).1 hv
      obtain ⟨slot', -, hslot'⟩ := Option.bind_eq_some_iff.1 htree
      exact ⟨slot', tree, hslot', Node.standalone?_statements hcopy hu⟩
  · obtain ⟨m, hm, hpruned⟩ := h.rest hc hk hn
    exact ⟨slot, m, hm, hpruned.statements hu⟩
  · exact ⟨slot, n, hsame ▸ hn, hu⟩

/-- Private nodes stay where they are. -/
theorem privates (hs : s.Sound) {slot : Slot} {n m v : Node} {path : Path} (hn : s.get slot = some n)
    (hm : n.get? path = some m) (hv : v ∈ m.privates) :
    ∃ n' m', t.get slot = some n' ∧ n'.get? path = some m' ∧ v ∈ m'.privates := by
  rcases h.slot_cases slot with ⟨property, hp⟩ | ⟨c, hc, hk⟩ | hsame
  · obtain ⟨more, hmore, -⟩ := (h.moved _ _ hp).grown slot.kind
    rw [← get_eq_get?, ← get_eq_get?, hn] at hmore
    refine ⟨_, _, hmore, Node.get?_grow more hm, ?_⟩
    cases m with
    | leaf => exact List.mem_append_left _ hv
    | combination => exact hv
  · rw [(hs.bare c _ slot.kind n hc (by rw [← get_eq_get?, hn])).get? hm] at hv
    cases hv
  · exact ⟨n, m, by rw [hsame, hn], hm, hv⟩

/-- A property leaf stays if it has no owner. -/
theorem held (hp : c.property? = some property) (k : SlotKind) {d : Entry × Option Text} :
    d ∈ Node.held (t.get? property k) ↔
      d ∈ Node.held (s.get? property k) ∧ (k = kind → Node.unowned (s.get? c) d.2 = true) := by
  by_cases hk : k = kind
  · subst hk
    simp [(h.moved c property hp).held]
  · rw [h.others hp hk]
    simp [hk]

/-- Otherwise an owner gets it as a private node. -/
theorem moves (hs : s.Sound) (hp : c.property? = some property) {d : Entry × Option Text}
    (hd : d ∈ Node.held (s.get? property kind)) (howned : Node.unowned (s.get? c) d.2 = false) :
    ∃ o n, t.get? c o = some n ∧ n.HasPrivate d := by
  cases htree : s.get? property kind with
  | none => simp [htree, Node.held] at hd
  | some tree =>
    rw [htree, Node.held, Option.elim_some] at hd
    obtain ⟨p, hpt, rfl⟩ := List.mem_map.1 hd
    rw [← Bool.not_eq_true, Node.unowned_iff] at howned
    simp only [not_forall, not_not] at howned
    obtain ⟨key, hkey, howner⟩ := howned
    obtain ⟨o, howner⟩ := Node.mem_ownerKeys.1 howner
    cases hn : s.get? c o with
    | none => simp [hn, Node.heldKeys] at howner
    | some n =>
      rw [hn] at howner
      obtain ⟨⟨path, key'⟩, hpath, rfl⟩ := List.mem_map.1 howner
      obtain ⟨more, hmore, hmem⟩ := (h.moved c property hp).grown o
      rw [hn] at hmore
      obtain ⟨marks, privates, hcopy, hsuffix⟩ := Node.standalone?_tip hpt
      have hplace := (Node.key_of_path (hs.keyed.get? htree) hpt).2 hkey
      have hcopied := (hmem n hn path _).2 ⟨tree, htree, key', p.path, hpath, hplace, hcopy⟩
      obtain ⟨q, hq, hqpath, -⟩ := (Node.mem_keyedLeaves (hs.keyed.get? hn)).1 hpath
      obtain ⟨⟨qmarks, qprivates, hget⟩, -⟩ := Node.mem_tips.1 hq
      rw [hqpath] at hget
      refine ⟨o, _, hmore, path, _, .leaf p.entry marks privates, Node.get?_grow more hget, rfl, ?_, rfl, hsuffix⟩
      exact List.mem_append_right _ (by simpa using hcopied)

end Linking

end Statement

end InstitutionalGrammar
