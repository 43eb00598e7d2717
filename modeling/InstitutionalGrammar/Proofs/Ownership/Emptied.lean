/-
  InstitutionalGrammar.Proofs.Ownership.Emptied — statements that a pair leaves empty.

  A statement without any slot is refused before the statements of its pair are expanded. Dropping
  the properties of other elements comes after that test and can take the last slot.
  - `Passed.isEmpty_iff`: it does so exactly when all there is are properties whose keys other
    elements own.
  - `step_emptied`: the empty output statements of a text, whether it is parsed or read inside another.
  - `parse_populated`: no other statement in a result is empty.
  - `element_emptied`: one that is.
-/

import InstitutionalGrammar.Proofs.Ownership.Elements

namespace InstitutionalGrammar

open Statement Node

variable {options : Options} {s t outer : Statement} {c property : Component} {kind : SlotKind}

/-! ## One statement -/

namespace Statement

theorem isEmpty_iff : s.isEmpty = true ↔ ∀ slot, s.get slot = none := by
  rw [isEmpty, List.isEmpty_iff, List.eq_nil_iff_forall_not_mem]
  constructor
  · intro h slot
    cases hn : s.get slot with
    | none => rfl
    | some n => exact absurd (mem_populated.2 hn) (h (slot, n))
  · rintro h ⟨slot, n⟩ hn
    rw [mem_populated, h slot] at hn
    cases hn

theorem union_populated (h : s.isEmpty = false) : (s.union outer).isEmpty = false := by
  rw [← Bool.not_eq_true, isEmpty_iff] at h ⊢
  refine fun hempty => h fun slot => ?_
  have hslot := hempty slot
  rw [union, get_of] at hslot
  exact (Option.or_eq_none_iff.1 hslot).1

/-- Every slot holds properties only, all with keys that are `claimed`. -/
def Claimed (claimed : Component → Text → Prop) (s : Statement) : Prop :=
  ∀ slot n, s.get slot = some n → ∃ c : Component, c.property? = some slot.component ∧
    ∀ d, n.HasLeaf d → ∃ key, d.2.bind Suffix.key? = some key ∧ claimed c key

/-- Without a property in its own slots a component owns no key. -/
theorem Claimed.unowned {claimed : Component → Text → Prop} (h : s.Claimed claimed) (hp : c.property? = some property) :
    s.get? c kind = none := by
  cases hn : s.get? c kind with
  | none => rfl
  | some n =>
    obtain ⟨slot, hslot, hn⟩ := Option.bind_eq_some_iff.1 hn
    obtain ⟨d, hd, -⟩ := h slot n hn
    rw [(Slot.of?_eq_some_iff.1 hslot).1] at hd
    exact (Component.property?_chain hd hp rfl).elim

variable {unowned owned : List (Component × Text)}

/-- A slot of another component is still there in the end. -/
theorem Passed.keepsSlot (h : Passed unowned owned outer s t) {slot : Slot}
    (hslot : ∀ c : Component, c.property? ≠ some slot.component) {n : Node} (hn : (s.union outer).get slot = some n) :
    ∃ m, t.get slot = some m := by
  obtain ⟨u, v, hu, hv, ht⟩ := h.passes
  obtain ⟨more, hm⟩ := hu.grows hslot hn
  obtain ⟨more', hk⟩ := hv.grows hslot hm
  exact ⟨_, by rw [ht.frame slot hslot, hk]⟩

/-- What is left empty had only properties that other statements claim: an owner would have stayed. -/
theorem Passed.claimed_of_isEmpty (h : Passed unowned owned outer s t) (hempty : ∀ slot, t.get slot = none) :
    (s.union outer).Claimed fun c key => (c, key) ∈ unowned ∧ (c, key) ∈ owned := by
  obtain ⟨u, v, hu, hv, ht⟩ := h.passes
  have hsound := h.own.union h.around
  intro slot n hn
  by_cases hslot : ∃ c : Component, c.property? = some slot.component
  · obtain ⟨c, hc⟩ := hslot
    refine ⟨c, hc, fun d hd => ?_⟩
    have hheld : d ∈ held ((s.union outer).get? slot.component slot.kind) := by
      rw [← get_eq_get?, hn]
      exact Node.hasLeaf_iff.1 hd
    rcases linkings_property hsound hu hv hc hheld with ⟨-, hstays⟩ | ⟨-, k, n', hn', -⟩
    · have hgone : d ∉ held (t.get? slot.component slot.kind) := by
        rw [← get_eq_get?, hempty slot]
        exact List.not_mem_nil
      rw [ht.held c _ hc] at hgone
      simp only [hstays, true_and, not_forall, not_not] at hgone
      obtain ⟨key, hkey, hclaimed, howned, -⟩ := hgone
      exact ⟨key, hkey, hclaimed, howned⟩
    · obtain ⟨slot', hof, hn'⟩ := Option.bind_eq_some_iff.1 hn'
      have howner : ∀ e : Component, e.property? ≠ some slot'.component := by
        intro e he
        rw [(Slot.of?_eq_some_iff.1 hof).1] at he
        exact Component.property?_chain he hc rfl
      rw [← ht.frame slot' howner, hempty slot'] at hn'
      cases hn'
  · simp only [not_exists] at hslot
    obtain ⟨m, hm⟩ := h.keepsSlot hslot hn
    rw [hempty slot] at hm
    cases hm

/-- Properties that other statements claim all go. -/
theorem Passed.isEmpty_of_claimed (h : Passed unowned owned outer s t)
    (hclaimed : (s.union outer).Claimed fun c key => (c, key) ∈ unowned ∧ (c, key) ∈ owned) (slot : Slot) :
    t.get slot = none := by
  obtain ⟨u, v, hu, hv, ht⟩ := h.passes
  have hsound := h.own.union h.around
  cases hn : t.get slot with
  | none => rfl
  | some n =>
    obtain ⟨m, hm, -⟩ := ht.pruned slot n hn
    obtain ⟨k, hk⟩ := hv.populated hm
    obtain ⟨w, hw⟩ := hu.populated hk
    obtain ⟨c, hc, hall⟩ := hclaimed slot w hw
    obtain ⟨d, hd⟩ := n.exists_hasLeaf
    have hheld : d ∈ held (t.get? slot.component slot.kind) := by
      rw [← get_eq_get?, hn]
      exact Node.hasLeaf_iff.1 hd
    obtain ⟨hheld, hstays⟩ := (ht.held c _ hc _ d).1 hheld
    have hbefore := ((hu.held hc _).1 ((hv.held hc _).1 hheld).1).1
    rw [← get_eq_get?, hw] at hbefore
    obtain ⟨key, hkey, hunowned, howned⟩ := hall d (Node.hasLeaf_iff.2 hbefore)
    refine absurd ⟨hunowned, howned, fun hown => ?_⟩ (hstays key hkey)
    obtain ⟨property, -, hkeys⟩ := mem_keys.1 hown
    obtain ⟨kind, hmem⟩ := mem_ownerKeys.1 hkeys
    have hmem : key ∈ heldKeys (v.get? c kind) := hmem
    rw [hv.owners (hu.keyed hsound.keyed) hc, hu.owners hsound.keyed hc, hclaimed.unowned hc] at hmem
    cases hmem

/-- The passes over the statement of an element leave it empty exactly when there is nothing in it and
    in the outer statement but properties that are claimed by other statements. -/
theorem Passed.isEmpty_iff (h : Passed unowned owned outer s t) :
    t.isEmpty = true ↔ (s.union outer).Claimed fun c key => (c, key) ∈ unowned ∧ (c, key) ∈ owned := by
  rw [Statement.isEmpty_iff]
  exact ⟨h.claimed_of_isEmpty, h.isEmpty_of_claimed⟩

end Statement

/-! ## Pairs -/

variable {budget : Nat} {text : Text} {out : Node}

/-- `t` is what the statement `e` of an element becomes in the output of a text with a pair; `outer` is
    the statement around the pair. With `options.depthLimit` as `budget` the text is parsed, with less
    it is read inside another. -/
structure Reading.ExpandsTo (options : Options) (budget : Nat) (text : Text) (out : Node) (outer e t : Statement) :
    Prop where
  result : (step options (within options budget) text).result = .ok out
  around : (step options (within options budget) text).outer = some outer
  element : ∃ outline d raw tree path leaf elements place m p,
    draft options text = .ok (outline, d) ∧ pairs outline.blocks = [(raw, tree)] ∧
    (tree.spreadShared [] []).get? path = some leaf ∧ leaf.isLeaf = true ∧
    (within options budget (leaf.text?.getD [])).result = .ok elements ∧
    elements.get? place = some (.leaf (.nested e) m p) ∧ out.get? (path ++ place) = some (.leaf (.nested t) m p)

/-- The outer statement has an unlinked property with that key, and some statement of the pair owns it. -/
def Reading.Foreign (out : Node) (outer : Statement) (c : Component) (key : Text) : Prop :=
  (c, key) ∈ outer.keys true ∧ ∃ u ∈ out.leaves.filterMap statement?, (c, key) ∈ u.keys false

/-- Such a statement is empty exactly when the element and the outer statement have nothing but
    properties with foreign keys. -/
theorem Reading.ExpandsTo.isEmpty_iff (hlinks : options.linksProperties = true) {e : Statement}
    (h : ExpandsTo options budget text out outer e t) :
    t.isEmpty = true ↔ (e.union outer).Claimed (Foreign out outer) := by
  obtain ⟨outline, d, raw, tree, path, leaf, elements, place, m, p, hdraft, hpairs, hget, hleaf, hread, hplace, ht⟩ :=
    h.element
  obtain ⟨outer', owned, t', houter, ht', hpassed, howned⟩ :=
    element_passed hlinks h.result hdraft hpairs hget hleaf hread hplace
  rw [h.around] at houter
  rw [ht] at ht'
  cases houter
  cases ht'
  have hforeign : (fun c key => (c, key) ∈ outer.keys true ∧ (c, key) ∈ owned) = Foreign out outer := by
    funext c key
    rw [howned, Foreign]
  rw [hpassed.isEmpty_iff, hforeign]

namespace Reading

/-- An output statement of a text is empty since a pair left it so: linking is on, and the element that
    it stands for and the outer statement have nothing but properties with foreign keys. -/
def Emptied (options : Options) (budget : Nat) (text : Text) (out : Node) (t : Statement) : Prop :=
  options.linksProperties = true ∧
    ∃ outer e, ExpandsTo options budget text out outer e t ∧ (e.union outer).Claimed (Foreign out outer)

/-- One of its blocks is a pair. -/
def Paired (options : Options) (text : Text) : Prop :=
  ∃ outline, Outline.of options.depthLimit text = .ok outline ∧ pairs outline.blocks ≠ []

/-- Without a pair the one statement has been found populated; with one, each stands for an element. -/
theorem step_expands (h : (step options (within options budget) text).result = .ok out)
    (hs : s ∈ out.leaves.filterMap statement?) :
    (¬ Paired options text ∧ s.isEmpty = false) ∨
      ∃ outer e, ExpandsTo options budget text out outer e s ∧ (options.linksProperties = false → s = e.union outer) := by
  obtain ⟨outline, d, outer, hdraft, -, houter, hout⟩ := step_ok h
  rcases output_cases hout with ⟨hnone, rfl⟩ | ⟨raw, tree, hpairs, hpair⟩
  · obtain rfl := mem_leaves_nested.1 hs
    refine Or.inl ⟨fun hpaired => ?_, output_populated hnone hout⟩
    obtain ⟨outline', houtline, hsome⟩ := hpaired
    cases houtline.symm.trans (outline_of_draft hdraft)
    exact hsome hnone
  · obtain ⟨path, m, p, hget⟩ := get?_of_mem_leaves hs
    obtain ⟨at', leaf, elements, place, e, v, rfl, hat, hleaf, helements, hplace, hinherit, hoff, -⟩ :=
      pairOutput_origin hpair hget
    refine Or.inr ⟨outer, e, ⟨h, houter, outline, d, raw, tree, at', leaf, elements, place, m, p, hdraft, hpairs, hat,
      hleaf, helements, hplace, hget⟩, fun hlinks => ?_⟩
    rw [← hoff hlinks, inheritOuter_union hlinks hinherit]

theorem ExpandsTo.paired {e : Statement} (h : ExpandsTo options budget text out outer e t) : Paired options text := by
  obtain ⟨outline, d, raw, tree, -, -, -, -, -, -, hdraft, hpairs, -⟩ := h.element
  exact ⟨outline, outline_of_draft hdraft, by simp [hpairs]⟩

/-- Without linking nothing is dropped, and no statement gets empty at any depth. -/
theorem within_populated (hlinks : options.linksProperties = false) (budget : Nat) :
    Reads (Entry.Read fun s => s.isEmpty = false) (within options budget) := by
  refine within_reads (fun budget text out hread h s hs _ => ?_) budget
  rcases step_expands h hs with ⟨-, hpopulated⟩ | ⟨outer, e, hexpands, hunion⟩
  · exact hpopulated
  · obtain ⟨outline, d, raw, tree, path, leaf, elements, place, m, p, -, -, -, -, helements, hplace, -⟩ :=
      hexpands.element
    rw [hunion hlinks]
    exact union_populated (((hread _).value helements).built.get? hplace).nested.2

theorem step_emptied (h : (step options (within options budget) text).result = .ok out)
    (hs : s ∈ out.leaves.filterMap statement?) : s.isEmpty = true ↔ Emptied options budget text out s := by
  constructor
  · intro hempty
    have hlinks : options.linksProperties = true := by
      by_contra hlinks
      have hout := (within_populated (by simpa using hlinks) (budget + 1) text).value h
      exact Bool.false_ne_true ((hout.built.leaf hs).nested.2.symm.trans hempty)
    rcases step_expands h hs with ⟨-, hpopulated⟩ | ⟨outer, e, hexpands, -⟩
    · exact absurd (hpopulated.symm.trans hempty) Bool.false_ne_true
    · exact ⟨hlinks, outer, e, hexpands, (hexpands.isEmpty_iff hlinks).1 hempty⟩
  · intro hemptied
    obtain ⟨hlinks, outer, e, hexpands, hclaimed⟩ := hemptied
    exact (hexpands.isEmpty_iff hlinks).2 hclaimed

end Reading

/-- An output statement is empty exactly if the pair of the text left it so, and every statement in a
    result, at any depth, is an output statement of the text or of one that was read inside it, to
    which the same applies there. So nothing is empty without linking, and nothing if neither the
    text nor any text inside it has a pair. -/
theorem parse_populated {parsed : Parsed} (h : parse options text = .ok parsed) :
    (∀ s ∈ parsed.statements,
      s.isEmpty = true ↔ Reading.Emptied options options.depthLimit text parsed.tree s) ∧
    (∀ s ∈ parsed.tree.statements, ∃ left inner out, Reading.Reaches options options.depthLimit text left inner ∧
      (Reading.step options (Reading.within options left) inner).result = .ok out ∧
      s ∈ out.leaves.filterMap statement? ∧ (s.isEmpty = true ↔ Reading.Emptied options left inner out s)) ∧
    ((options.linksProperties = false ∨ ∀ left inner, Reading.Reaches options options.depthLimit text left inner →
      ¬ Reading.Paired options inner) → ∀ s ∈ parsed.tree.statements, s.isEmpty = false) := by
  have hresult := Reading.step_of_parse h
  have horigin : ∀ s ∈ parsed.tree.statements, ∃ left inner out,
      Reading.Reaches options options.depthLimit text left inner ∧
      (Reading.step options (Reading.within options left) inner).result = .ok out ∧
      s ∈ out.leaves.filterMap statement? ∧ (s.isEmpty = true ↔ Reading.Emptied options left inner out s) := by
    intro s hs
    obtain ⟨left, inner, out, hreaches, hout, hs⟩ := Reading.step_yields hresult hs
    exact ⟨left, inner, out, hreaches, hout, hs, Reading.step_emptied hout hs⟩
  refine ⟨fun s hs => Reading.step_emptied hresult hs, horigin, fun hnone s hs => ?_⟩
  obtain ⟨left, inner, out, hreaches, -, -, hiff⟩ := horigin s hs
  rw [← Bool.not_eq_true, hiff]
  intro hemptied
  obtain ⟨hlinks, outer, e, hexpands, -⟩ := hemptied
  rcases hnone with hoff | hnone
  · exact Bool.false_ne_true (hoff.symm.trans hlinks)
  · exact hnone left inner hreaches hexpands.paired

/-- The right element has only a property, with a key that the outer statement leaves unlinked and the
    left element owns. -/
def claimedSlot : Text := "A1,p\x7bI(z)\x7d \x7bA1(a) I(b) [XOR] A1,p(y)\x7d".toList

theorem parse_claimedSlot : ∃ parsed, parse {} claimedSlot = .ok parsed ∧
    ∃ s ∈ parsed.tree.statements, s.isEmpty = true := by
  obtain ⟨parsed, hparsed, hempty⟩ := exists_ok (x := parse {} claimedSlot)
    (p := fun q => q.tree.statements.any Statement.isEmpty) (by decide +kernel)
  exact ⟨parsed, hparsed, List.any_eq_true.1 hempty⟩

theorem parse_populated_claimedSlot : ∃ parsed, parse {} claimedSlot = .ok parsed ∧
    ∃ s ∈ parsed.tree.statements, s.isEmpty = true ∧ ∃ left inner out,
      Reading.Reaches {} 64 claimedSlot left inner ∧ Reading.Emptied {} left inner out s := by
  obtain ⟨parsed, hparsed, s, hs, hempty⟩ := parse_claimedSlot
  obtain ⟨left, inner, out, hreaches, -, -, hiff⟩ := (parse_populated hparsed).2.1 s hs
  exact ⟨parsed, hparsed, s, hs, hempty, left, inner, out, hreaches, hiff.1 hempty⟩

/-- The output of that element is a statement without any slot. -/
theorem element_emptied : ¬ ∀ (options : Options) (text : Text) (parsed : Parsed),
    parse options text = .ok parsed → ∀ s ∈ parsed.tree.statements, s.isEmpty = false := by
  intro hpopulated
  obtain ⟨parsed, hparsed, s, hs, hempty⟩ := parse_claimedSlot
  exact Bool.false_ne_true ((hpopulated {} claimedSlot parsed hparsed s hs).symm.trans hempty)

end InstitutionalGrammar
