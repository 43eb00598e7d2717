/-
  InstitutionalGrammar.Proofs.Ownership.Elements — what becomes of the properties written in a pair element.

  Properties are dropped by key, so a property that the element wrote itself goes with an outer one
  of the same key.
  - `element_properties`: a property of an element stays in its slot or goes to an owner, unless the
    outer statement has one with its key, and only another element owns that key.
  - `own_property_dropped`: such an element.
-/

import InstitutionalGrammar.Proofs.Ownership.Pairs

namespace InstitutionalGrammar

open Statement Node

namespace Statement

variable {s t u v outer : Statement} {c property : Component} {kind : SlotKind} {d : Entry × Option Text}

/-- A leaf in the slot holds that entry under that suffix. -/
def HasLeaf (s : Statement) (c : Component) (kind : SlotKind) (d : Entry × Option Text) : Prop :=
  ∃ n, s.get? c kind = some n ∧ n.HasLeaf d

/-- A leaf of the component has a private node with that entry and that suffix. -/
def HasPrivate (s : Statement) (c : Component) (d : Entry × Option Text) : Prop :=
  ∃ kind n, s.get? c kind = some n ∧ n.HasPrivate d

/-- Every private node of `s` is in `t`, at the leaf where it was. -/
def KeepsPrivates (s t : Statement) : Prop :=
  ∀ slot n path m v, s.get slot = some n → n.get? path = some m → v ∈ m.privates →
    ∃ n' m', t.get slot = some n' ∧ n'.get? path = some m' ∧ m'.isLeaf = true ∧ v ∈ m'.privates

theorem hasLeaf_iff : s.HasLeaf c kind d ↔ d ∈ held (s.get? c kind) := by
  unfold HasLeaf
  cases s.get? c kind with
  | none => simp [held]
  | some n => simp [Node.hasLeaf_iff]

theorem mem_keys {properties : Bool} {key : Text} : (c, key) ∈ s.keys properties ↔
    ∃ property, c.property? = some property ∧ key ∈ ownerKeys (s.get? (if properties then property else c)) := by
  unfold keys
  rw [List.mem_eraseDups, List.mem_flatMap]
  constructor
  · intro h
    obtain ⟨e, -, h⟩ := h
    split at h
    · cases h
    · rename_i property hp
      obtain ⟨kind, -, h⟩ := List.mem_flatMap.1 h
      split at h
      · cases h
      · rename_i tree htree
        obtain ⟨leaf, hleaf, he⟩ := List.mem_map.1 h
        obtain ⟨rfl, rfl⟩ := Prod.mk.inj he
        refine ⟨property, hp, mem_ownerKeys.2 ⟨kind, ?_⟩⟩
        rw [htree]
        exact List.mem_map_of_mem hleaf
  · intro h
    obtain ⟨property, hp, h⟩ := h
    obtain ⟨kind, h⟩ := mem_ownerKeys.1 h
    refine ⟨c, c.mem_all, ?_⟩
    rw [hp]
    refine List.mem_flatMap.2 ⟨kind, by cases kind <;> decide, ?_⟩
    cases htree : s.get? (if properties then property else c) kind with
    | none => simp [htree, heldKeys] at h
    | some tree =>
      rw [htree] at h
      obtain ⟨leaf, hleaf, rfl⟩ := List.mem_map.1 h
      exact List.mem_map.2 ⟨leaf, hleaf, rfl⟩

/-! ## One statement -/

theorem Linking.hasPrivate (h : Linking kind s t) (hp : c.property? = some property) (hd : s.HasPrivate c d) :
    t.HasPrivate c d := by
  obtain ⟨k, n, hn, hd⟩ := hd
  obtain ⟨more, hmore, -⟩ := (h.moved c property hp).grown k
  rw [hn] at hmore
  exact ⟨k, _, hmore, hd.grow more⟩

/-- A private node has the key of an owner. -/
theorem Sound.hasPrivate (hs : s.Sound) (hd : s.HasPrivate c d) {key : Text} (hkey : d.2.bind Suffix.key? = some key) :
    key ∈ ownerKeys (s.get? c) := by
  obtain ⟨k, n, hn, path, leaf, v, hleaf, -, hv, -, hsuffix⟩ := hd
  obtain ⟨slot, hslot, hget⟩ := Option.bind_eq_some_iff.1 hn
  obtain ⟨o, ho, -, hmatch⟩ := hs.matched slot n hget path leaf v hleaf hv
  have howner : o.key? = some key := by
    rw [← hmatch, ← hkey, ← hsuffix]
    rfl
  refine mem_ownerKeys.2 ⟨k, ?_⟩
  rw [hn, heldKeys, Option.elim_some, keys_eq (hs.keyed slot n hget)]
  exact List.mem_filterMap.2 ⟨o, ho, howner⟩

/-- Two passes over a statement move a property to an owner or leave it in its slot. -/
theorem linkings_property (hs : s.Sound) (h : Linking .simple s t) (h' : Linking .complex t u)
    (hp : c.property? = some property) (hd : d ∈ held (s.get? property kind)) :
    (unowned (s.get? c) d.2 = true ∧ d ∈ held (u.get? property kind)) ∨
      (unowned (s.get? c) d.2 = false ∧ u.HasPrivate c d) := by
  have hkeys : ∀ suffix, unowned (t.get? c) suffix = unowned (s.get? c) suffix := fun suffix => by
    rw [unowned, unowned, h.ownerKeys hs.keyed hp]
  cases howned : unowned (s.get? c) d.2 with
  | true =>
    refine Or.inl ⟨rfl, (h'.held hp kind).2 ⟨(h.held hp kind).2 ⟨hd, fun _ => howned⟩, fun _ => ?_⟩⟩
    rw [hkeys, howned]
  | false =>
    refine Or.inr ⟨rfl, ?_⟩
    cases kind with
    | simple => exact h'.hasPrivate hp (h.moves hs hp hd howned)
    | complex =>
      refine h'.moves (h.sound hs) hp ((h.held hp .complex).2 ⟨hd, nofun⟩) ?_
      rw [hkeys, howned]

/-- The passes over the statement of an element, and what is dropped from it. -/
structure Passed (unowned owned : List (Component × Text)) (outer s t : Statement) : Prop where
  own : s.Sound
  around : outer.Sound
  passes : ∃ u v, Linking .simple (s.union outer) u ∧ Linking .complex u v ∧
    Erasing (fun c _ key => (c, key) ∈ unowned ∧ (c, key) ∈ owned ∧ (c, key) ∉ v.keys false) v t

variable {unowned owned : List (Component × Text)}

theorem Passed.keepsPrivates (h : Passed unowned owned outer s t) : s.KeepsPrivates t := by
  obtain ⟨u, v, hu, hv, ht⟩ := h.passes
  have hsound := h.own.union h.around
  intro slot n path m w hn hm hw
  have hunion : (s.union outer).get slot = some n := by
    rw [union, get_of, hn]
    rfl
  obtain ⟨n₁, m₁, hn₁, hm₁, hw₁⟩ := hu.privates hsound hunion hm hw
  obtain ⟨n₂, m₂, hn₂, hm₂, hw₂⟩ := hv.privates (hu.sound hsound) hn₁ hm₁ hw₁
  have hvsound := hv.sound (hu.sound hsound)
  obtain ⟨o, ho, hpath, -⟩ := hvsound.matched slot n₂ hn₂ path m₂ w hm₂ hw₂
  obtain ⟨⟨marks, privates, hleaf⟩, -⟩ := mem_tips.1 ho
  rw [hpath, hm₂] at hleaf
  exact ⟨n₂, m₂, ht.privates hvsound hn₂ hm₂ hw₂, hm₂, by rw [Option.some.inj hleaf]; rfl, hw₂⟩

/-- A property stays with the statement unless its key is dropped and not its own. -/
theorem Passed.keepsProperty (h : Passed unowned owned outer s t) (hp : c.property? = some property)
    (hd : s.HasLeaf property kind d) : t.HasLeaf property kind d ∨ t.HasPrivate c d ↔
      ¬ ∃ key, d.2.bind Suffix.key? = some key ∧ (c, key) ∈ unowned ∧ (c, key) ∈ owned ∧ (c, key) ∉ t.keys false := by
  obtain ⟨u, v, hu, hv, ht⟩ := h.passes
  have hsound := h.own.union h.around
  have hvsound := hv.sound (hu.sound hsound)
  have howners : ∀ k, t.get? c k = v.get? c k := ht.owners hp
  have hkeys : ∀ key, (c, key) ∈ t.keys false ↔ key ∈ ownerKeys ((s.union outer).get? c) := by
    intro key
    rw [mem_keys, ← hu.ownerKeys hsound.keyed hp, ← hv.ownerKeys (hu.keyed hsound.keyed) hp, ← funext howners]
    constructor
    · intro hk
      obtain ⟨_, -, hk⟩ := hk
      exact hk
    · exact fun hk => ⟨property, hp, hk⟩
  have hvkeys : ∀ key, (c, key) ∈ v.keys false ↔ (c, key) ∈ t.keys false := by
    intro key
    rw [mem_keys, mem_keys]
    exact Iff.of_eq (congrArg (fun o => ∃ q, c.property? = some q ∧ key ∈ ownerKeys o) (funext howners).symm)
  have hunion : d ∈ held ((s.union outer).get? property kind) := by
    obtain ⟨n, hn, hd⟩ := hd
    obtain ⟨slot, hslot, hn⟩ := Option.bind_eq_some_iff.1 hn
    rw [get?_eq hslot, union, get_of, hn]
    exact Node.hasLeaf_iff.1 hd
  rcases linkings_property hsound hu hv hp hunion with ⟨howned, hheld⟩ | ⟨howned, hprivate⟩
  · rw [unowned_iff] at howned
    rw [hasLeaf_iff, ht.held c property hp]
    constructor
    · intro hd he
      obtain ⟨key, hkey, hunowned, hother, hown⟩ := he
      rcases hd with hd | hd
      · exact hd.2 key hkey ⟨hunowned, hother, fun hk => hown ((hvkeys key).1 hk)⟩
      · have := (ht.sound hvsound).hasPrivate hd hkey
        rw [funext howners, hv.ownerKeys (hu.keyed hsound.keyed) hp, hu.ownerKeys hsound.keyed hp] at this
        exact howned key hkey this
    · intro hd
      exact Or.inl ⟨hheld, fun key hkey he => hd ⟨key, hkey, he.1, he.2.1, fun hk => he.2.2 ((hvkeys key).2 hk)⟩⟩
  · have hkept : t.HasPrivate c d := by
      obtain ⟨k, n, hn, hd⟩ := hprivate
      exact ⟨k, n, by rw [howners, hn], hd⟩
    refine iff_of_true (Or.inr hkept) fun he => ?_
    obtain ⟨key, hkey, -, -, hown⟩ := he
    refine hown ((hkeys key).2 ?_)
    rw [← Bool.not_eq_true, unowned_iff] at howned
    simp only [not_forall, not_not] at howned
    obtain ⟨key', hkey', howner⟩ := howned
    rw [hkey] at hkey'
    exact Option.some.inj hkey' ▸ howner

end Statement

/-! ## Elements of a pair -/

/-- Dropping properties does not change what the statements of a tree own. -/
theorem Node.Mapped.owned {unowned owned : List (Component × Text)} {n m : Node}
    (h : n.Mapped (Unforeign unowned owned) m) (hn : n.Built Entry.Full) (c : Component) (key : Text) :
    (c, key) ∈ n.owned ↔ ∃ u ∈ m.leaves.filterMap statement?, (c, key) ∈ u.keys false := by
  induction h with
  | leaf hk =>
    rename_i e ms p k
    obtain ⟨⟨s, rfl, hs, -⟩, -, -⟩ := hn
    obtain ⟨t, rfl, ht⟩ := hk s ms p rfl hs.keyed
    have hkeys : (c, key) ∈ s.keys false ↔ (c, key) ∈ t.keys false := by
      rw [mem_keys, mem_keys]
      refine exists_congr fun property => and_congr_right fun hp => ?_
      exact Iff.of_eq (congrArg (key ∈ ownerKeys ·) (funext (ht.owners hp)).symm)
    simp [Node.owned, leaves, statement?, hkeys]
  | combination _ _ ihl ihr =>
    have hl := ihl hn.1
    have hr := ihr hn.2.1
    simp only [Node.owned] at hl hr ⊢
    rw [leaves, List.filterMap_append, List.flatMap_append, List.mem_append, hl, hr, leaves, List.filterMap_append]
    simp only [List.mem_append, or_and_right, exists_or]

variable {options : Options} {text : Text} {out : Node}

/-- The statement at some place in what an element is read as, and the one it becomes in the output. -/
theorem Reading.element_passed (hlinks : options.linksProperties = true) {budget : Nat}
    (h : (step options (within options budget) text).result = .ok out) {outline : Outline} {d : Statement}
    (hdraft : draft options text = .ok (outline, d)) {raw : Text} {tree : Node}
    (hpairs : pairs outline.blocks = [(raw, tree)]) {path : Path} {leaf : Node}
    (hget : (tree.spreadShared [] []).get? path = some leaf) (hleaf : leaf.isLeaf = true) {elements : Node}
    (hread : (within options budget (leaf.text?.getD [])).result = .ok elements) {place : Path} {s : Statement}
    {m : Marks} {p : List Node} (hplace : elements.get? place = some (.leaf (.nested s) m p)) :
    ∃ outer owned t, (step options (within options budget) text).outer = some outer ∧
      out.get? (path ++ place) = some (.leaf (.nested t) m p) ∧ Passed (outer.keys true) owned outer s t ∧
      ∀ c key, (c, key) ∈ owned ↔ ∃ u ∈ out.leaves.filterMap statement?, (c, key) ∈ u.keys false := by
  have hformed := within_formed options budget
  obtain ⟨outline', a, d', u, outer, hdraft', hpasses, hsome, hout⟩ := step_passes h
  have houter := hpasses.sound
  rw [hdraft] at hdraft'
  cases hdraft'
  rcases output_cases hout with ⟨hnone, -⟩ | ⟨raw', tree', hpairs', hout⟩
  · rw [hnone] at hpairs
    cases hpairs
  · rw [hpairs] at hpairs'
    cases hpairs'
    have htree := pair_unlabelled hpasses.started.blocks (hpairs ▸ List.mem_singleton_self (raw, tree))
    obtain ⟨expanded, hexpanded, herase⟩ := pairOutput_mapped hlinks hout
    have hfull : expanded.Built Entry.Full :=
      hexpanded.built (spreadShared_built [] [] htree.built) fun _ _ _ _ _ hk =>
        elementOutput_full hlinks houter hformed hk
    obtain ⟨k, hk, helement⟩ := hexpanded.get? hget hleaf
    obtain ⟨read, hread', hmapped⟩ := elementOutput_mapped helement
    rw [hread] at hread'
    cases hread'
    have hs : s.Sound := (((hformed _).value hread).built.get? hplace).nested.1.sound
    obtain ⟨k', hk', honStatement⟩ := hmapped.get? hplace rfl
    obtain ⟨v, hv, rfl⟩ := onStatement_nested honStatement
    obtain ⟨u, hu, hv'⟩ := inheritOuter_linking hlinks hs houter hv
    have herased := eraseForeign_erasing herase
    have hplaced : expanded.get? (path ++ place) = some (.leaf (.nested v) m p) := by
      rw [get?_append, hk]
      exact hk'
    obtain ⟨k'', hk'', hforeign⟩ := herased.get? hplaced rfl
    obtain ⟨t, rfl, ht⟩ := hforeign v m p rfl (hv'.keyed (hu.keyed (hs.union houter).keyed))
    exact ⟨outer, expanded.owned, t, hsome, hk'', ⟨hs, houter, u, v, hu, hv', ht⟩,
      fun c key => herased.owned hfull c key⟩

/-- What is written in an element of a pair stays with its statement, in the slot or as a private
    node of an owner, and private nodes stay where they are. Only a property whose key the statement
    around the pair left unlinked, and which another element owns and this one does not, is dropped,
    also if the element wrote it itself. With `options.depthLimit` as `budget` the text is parsed,
    with less it is read inside another. -/
theorem element_properties (hlinks : options.linksProperties = true) {budget : Nat}
    (h : (Reading.step options (Reading.within options budget) text).result = .ok out) {outline : Outline}
    {d : Statement} (hdraft : Reading.draft options text = .ok (outline, d)) {raw : Text} {tree : Node}
    (hpairs : Reading.pairs outline.blocks = [(raw, tree)]) {path : Path} {leaf : Node}
    (hget : (tree.spreadShared [] []).get? path = some leaf) (hleaf : leaf.isLeaf = true) {s : Statement}
    (hread : (Reading.within options budget (leaf.text?.getD [])).result = .ok (.nested s)) :
    ∃ outer t, (Reading.step options (Reading.within options budget) text).outer = some outer ∧
      out.get? path = some (.nested t) ∧ s.KeepsPrivates t ∧
      ∀ (c property : Component) kind e, c.property? = some property → s.HasLeaf property kind e →
        (t.HasLeaf property kind e ∨ t.HasPrivate c e ↔
          ¬ ∃ key, e.2.bind Suffix.key? = some key ∧ (c, key) ∈ outer.keys true ∧
            (∃ u ∈ out.leaves.filterMap statement?, (c, key) ∈ u.keys false) ∧ (c, key) ∉ t.keys false) := by
  obtain ⟨outer, owned, t, houter, ht, hpassed, howned⟩ :=
    Reading.element_passed hlinks h hdraft hpairs hget hleaf hread (get?_nil (.nested s))
  rw [List.append_nil] at ht
  refine ⟨outer, t, houter, ht, hpassed.keepsPrivates, fun c property kind e hp he => ?_⟩
  rw [hpassed.keepsProperty hp he]
  simp only [howned]

/-- The property of the right element has the key of a nested one around the pair, whose owner is in
    the left element. -/
def claimedKey : Text := "A1,p\x7bI(z)\x7d \x7bA1(a) I(b) [XOR] A1,p(y) I(c)\x7d".toList

/-- The statement of its right element. -/
def ownProperty : Statement :=
  (Statement.empty.put (.simple .attributesProperty)
    (some (.leaf (.text ['y']) { component := some .attributesProperty, suffix := some ['1'] } []))).put
    (.simple .aim) (some (.leaf (.text ['c']) { component := some .aim } []))

theorem claimedKey_pair : ∃ x, Reading.draft {} claimedKey = .ok x ∧ Reading.pairs x.1.blocks =
    [("\x7bA1(a) I(b) [XOR] A1,p(y) I(c)\x7d".toList,
      .combination .xor (.text "A1(a) I(b)".toList) (.text "A1,p(y) I(c)".toList) {} [])] := by
  obtain ⟨x, hx, hpairs⟩ := exists_ok (x := Reading.draft {} claimedKey) (p := fun x =>
    decide (Reading.pairs x.1.blocks = [("\x7bA1(a) I(b) [XOR] A1,p(y) I(c)\x7d".toList,
      .combination .xor (.text "A1(a) I(b)".toList) (.text "A1,p(y) I(c)".toList) {} [])])) (by decide +kernel)
  exact ⟨x, hx, of_decide_eq_true hpairs⟩

theorem within_ownProperty :
    (Reading.within {} 64 "A1,p(y) I(c)".toList).result = .ok (.nested ownProperty) := by
  obtain ⟨n, hn, he⟩ := exists_ok (x := (Reading.within {} 64 "A1,p(y) I(c)".toList).result)
    (p := fun n => decide (n = .nested ownProperty)) (by decide +kernel)
  rw [hn, of_decide_eq_true he]

theorem hasLeaf_ownProperty : ownProperty.HasLeaf .attributesProperty .simple (.text ['y'], some ['1']) :=
  ⟨_, rfl, [], _, rfl, rfl, rfl⟩

/-- The element loses the property that it wrote. -/
theorem own_property_dropped : ∃ p x raw tree t, parse {} claimedKey = .ok p ∧
    Reading.draft {} claimedKey = .ok x ∧ Reading.pairs x.1.blocks = [(raw, tree)] ∧
    (tree.spreadShared [] []).get? [.right] = some (.text "A1,p(y) I(c)".toList) ∧
    (Reading.within {} 64 "A1,p(y) I(c)".toList).result = .ok (.nested ownProperty) ∧
    p.tree.get? [.right] = some (.nested t) ∧
    ownProperty.HasLeaf .attributesProperty .simple (.text ['y'], some ['1']) ∧
    ¬ (t.HasLeaf .attributesProperty .simple (.text ['y'], some ['1']) ∨
      t.HasPrivate .attributes (.text ['y'], some ['1'])) := by
  obtain ⟨x, hx, hpairs⟩ := claimedKey_pair
  obtain ⟨p, hp, hrun⟩ := exists_ok (x := parse {} claimedKey)
    (p := fun p => ((p.tree.get? [.right]).bind Node.statement?).any fun t =>
      decide (p.tree.get? [.right] = some (.nested t) ∧ t.get? .attributesProperty .simple = none ∧
        t.get? .attributes .simple = none ∧ t.get? .attributes .complex = none)) (by decide +kernel)
  obtain ⟨t, -, ht⟩ := (Option.any_eq_true _ _).1 hrun
  obtain ⟨hget, hproperty, hsimple, hcomplex⟩ := of_decide_eq_true ht
  refine ⟨p, x, _, _, _, hp, hx, hpairs, rfl, within_ownProperty, hget, hasLeaf_ownProperty, ?_⟩
  intro h
  rcases h with h | h
  · obtain ⟨n, hn, -⟩ := h
    rw [hproperty] at hn
    cases hn
  · obtain ⟨kind, n, hn, -⟩ := h
    cases kind
    · rw [hsimple] at hn
      cases hn
    · rw [hcomplex] at hn
      cases hn

theorem element_properties_claimedKey : ∃ (p : Parsed) (t : Statement), parse {} claimedKey = .ok p ∧
    p.tree.get? [.right] = some (.nested t) ∧ ownProperty.KeepsPrivates t := by
  obtain ⟨x, hx, hpairs⟩ := claimedKey_pair
  obtain ⟨p, hp, -⟩ := exists_ok (x := parse {} claimedKey) (p := fun _ => true) (by decide +kernel)
  have hget : ((Node.combination .xor (.text "A1(a) I(b)".toList) (.text "A1,p(y) I(c)".toList) {} []).spreadShared
      [] []).get? [.right] = some (.text "A1,p(y) I(c)".toList) := rfl
  obtain ⟨outer, t, -, ht, hprivates, -⟩ :=
    element_properties rfl (Reading.step_of_parse hp) hx hpairs hget rfl within_ownProperty
  exact ⟨p, t, hp, ht, hprivates⟩

end InstitutionalGrammar
