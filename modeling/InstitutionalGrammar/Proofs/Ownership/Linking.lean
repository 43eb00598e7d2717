/-
  InstitutionalGrammar.Proofs.Ownership.Linking — a linking pass, where every suffix has a key.

  - `Transfer.moved`: for one property slot, every leaf with the key of an owner leaves it, and every
    such owner gets it as a private node.
  - `link_moved`: a pass does so for every component, and changes nothing else.
-/

import InstitutionalGrammar.Proofs.Ownership.Transfer

namespace InstitutionalGrammar

namespace Node

/-- What the leaves of a slot hold, with the suffixes that apply to them. -/
def held (tree : Option Node) : List (Entry × Option Text) := tree.elim [] fun n => (n.tips none).map Tip.data

/-- The keys of the leaves of a slot. -/
def heldKeys (tree : Option Node) : List Text := tree.elim [] keys

theorem heldKeys_grow (more : Path → List Node) {tree : Option Node} (h : ∀ n ∈ tree, n.Keyed) :
    heldKeys (tree.map (grow more)) = heldKeys tree := by
  cases tree with
  | none => rfl
  | some n => exact congrArg (List.map Prod.snd) (keyedLeaves_grow more (h n rfl))

theorem mem_heldKeys {tree : Option Node} (h : ∀ n ∈ tree, n.Keyed) {key : Text} :
    key ∈ heldKeys tree ↔ ∃ d ∈ held tree, d.2.bind Suffix.key? = some key := by
  cases tree with
  | none => simp [heldKeys, held]
  | some n =>
    simp only [heldKeys, held, Option.elim_some, keys_eq (h n rfl), List.mem_filterMap, List.mem_map]
    constructor
    · intro h
      obtain ⟨t, ht, hk⟩ := h
      exact ⟨t.data, ⟨t, ht, rfl⟩, hk⟩
    · intro h
      obtain ⟨d, ⟨t, ht, rfl⟩, hk⟩ := h
      exact ⟨t, ht, hk⟩

end Node

namespace Statement

variable {s : Statement} {c : Component} {kind : SlotKind}

/-- Every suffix in the slots has a key. -/
def Keyed (s : Statement) : Prop := ∀ slot n, s.get slot = some n → n.Keyed

theorem Keyed.get? (h : s.Keyed) {n : Node} (hn : n ∈ s.get? c kind) : n.Keyed := by
  obtain ⟨slot, -, hslot⟩ := Option.bind_eq_some_iff.1 hn
  exact h slot n hslot

end Statement

/-! ## Owners and properties of one component -/

namespace Node

/-- The keys of the leaves in both slots of a component. -/
def ownerKeys (owners : SlotKind → Option Node) : List Text := heldKeys (owners .simple) ++ heldKeys (owners .complex)

/-- No owner has the key of the suffix. -/
def unowned (owners : SlotKind → Option Node) (suffix : Option Text) : Bool :=
  (suffix.bind Suffix.key?).all fun key => !(ownerKeys owners).contains key

theorem mem_ownerKeys {owners : SlotKind → Option Node} {key : Text} :
    key ∈ ownerKeys owners ↔ ∃ kind, key ∈ heldKeys (owners kind) := by
  rw [ownerKeys, List.mem_append]
  constructor
  · intro h
    rcases h with h | h
    · exact ⟨.simple, h⟩
    · exact ⟨.complex, h⟩
  · intro h
    obtain ⟨kind, h⟩ := h
    cases kind
    · exact Or.inl h
    · exact Or.inr h

theorem unowned_iff {owners : SlotKind → Option Node} {suffix : Option Text} :
    unowned owners suffix = true ↔ ∀ key, suffix.bind Suffix.key? = some key → key ∉ ownerKeys owners := by
  unfold unowned
  cases suffix.bind Suffix.key? with
  | none => simp
  | some key => simp

/-- Every leaf of `tree` with the key of an owner moved from it to all of those. -/
structure Moved (owners : SlotKind → Option Node) (tree : Option Node) (owners' : SlotKind → Option Node)
    (rest : Option Node) : Prop where
  grown : ∀ kind, ∃ more : Path → List Node, owners' kind = (owners kind).map (grow more) ∧
    ∀ n ∈ owners kind, ∀ path v, v ∈ more path ↔ ∃ t ∈ tree, ∃ key place,
      (path, key) ∈ n.keyedLeaves ∧ (place, key) ∈ t.keyedLeaves ∧ t.standalone? place = some v
  held : held rest = (held tree).filter fun d => unowned owners d.2
  pruned : ∀ m ∈ rest, ∃ t ∈ tree, t.Pruned m
theorem mem_copies {tree : Option Node} {key : Option Text} {v : Node} : v ∈ copies tree key ↔
    ∃ t ∈ tree, ∃ k place, key = some k ∧ (place, k) ∈ t.keyedLeaves ∧ t.standalone? place = some v := by
  cases tree with
  | none => simp [copies]
  | some t =>
    simp only [copies, Option.elim_some, List.mem_filterMap, mem_sharing, sameKey_iff, mem_leafKeys, Option.mem_def,
      Option.some.injEq, exists_eq_left']
    grind

theorem mem_slotKeys {tree : Option Node} {key : Text} :
    key ∈ heldKeys tree ↔ ∃ n, tree = some n ∧ ∃ p ∈ n.paths, n.keyAt? p = some key := by
  cases tree <;> simp [heldKeys, keys, mem_leafKeys]

theorem ownedBy_eq (owners : SlotKind → Option Node) (suffix : Option Text) :
    ownedBy owners (suffix.bind Suffix.key?) = !unowned owners suffix := by
  rw [Bool.eq_iff_iff, ownedBy_iff, Bool.not_eq_true', ← Bool.not_eq_true, unowned_iff]
  simp only [not_forall, not_not, mem_ownerKeys, mem_slotKeys, sameKey_iff]
  constructor
  · rintro ⟨kind, n, hn, p, hp, key, howner, hkey⟩
    exact ⟨key, hkey, kind, n, hn, p, hp, howner⟩
  · rintro ⟨key, hkey, kind, n, hn, p, hp, howner⟩
    exact ⟨kind, n, hn, p, hp, key, howner, hkey⟩

theorem data_under (side : Side) (gone : Path → Bool) (ts : List Tip) :
    ((ts.map (.under side)).filter fun t => !gone t.path).map Tip.data =
      (ts.filter fun t => !gone (side :: t.path)).map Tip.data := by
  rw [List.filter_map, List.map_map]
  rfl

/-- The leaves that stay keep what they hold and the suffixes that apply to them. -/
theorem tips_prune (gone : Path → Bool) (n : Node) (above : Option Text) :
    ((n.prune gone).elim [] fun m => (m.tips above).map Tip.data) =
      ((n.tips above).filter fun t => !gone t.path).map Tip.data := by
  induction n generalizing gone above with
  | leaf e marks ps => by_cases h : gone [] = true <;> simp [prune, tips, h]
  | combination o l r marks ps ihl ihr =>
    have hside : ∀ (side : Side) (ts : List Tip), (ts.map (.under side)).map Tip.data = ts.map Tip.data :=
      fun side ts => List.map_map
    have hl := ihl (fun q => gone (.left :: q)) (marks.suffix.or above)
    have hr := ihr (fun q => gone (.right :: q)) (marks.suffix.or above)
    rw [prune, tips, List.filter_append, List.map_append, data_under, data_under, ← hl, ← hr]
    cases l.prune fun q => gone (.left :: q) <;> cases r.prune fun q => gone (.right :: q) <;>
      simp [rejoin, tips, tips_moveUp, hside]

theorem held_prune (gone : Path → Bool) (n : Node) :
    held (n.prune gone) = ((n.tips none).filter fun t => !gone t.path).map Tip.data := tips_prune gone n none

theorem prune_pruned {n m : Node} {gone : Path → Bool} (h : n.prune gone = some m) : n.Pruned m :=
  removeAll_pruned ((removeAll_filter gone n).trans (congrArg _ h))

/-- Where suffixes have keys, what moves can be told from the suffixes of the leaves. -/
theorem Transfer.moved {owners owners' : SlotKind → Option Node} {tree rest : Option Node}
    (h : Transfer owners tree owners' rest) (htree : ∀ t ∈ tree, t.Keyed) : Moved owners tree owners' rest where
  grown := by
    intro kind
    refine ⟨fun path => (owners kind).elim [] fun n => if path ∈ n.paths then copies tree (n.keyAt? path) else [],
      ?_, ?_⟩
    · rw [h.grown]
      cases owners kind with
      | none => rfl
      | some n => exact congrArg some (grow_congr fun p hp => by simp [hp])
    · intro n hn path v
      rw [Option.mem_def.1 hn]
      by_cases hpath : path ∈ n.paths
      · simp only [Option.elim_some, hpath, if_true, mem_copies, mem_leafKeys, true_and]
      · simp [hpath, mem_leafKeys]
  held := by
    cases htree' : tree with
    | none => rw [h.kept, htree']; rfl
    | some t =>
      have hkeyed := htree t htree'
      rw [h.kept, htree', Option.bind_some, held_prune, held, Option.elim_some, List.filter_map]
      refine congrArg _ (List.filter_congr fun u hu => ?_)
      rw [keyAt?_tip hkeyed hu, Tip.key?, ownedBy_eq, Bool.not_not]
      rfl
  pruned := by
    intro m hm
    rw [h.kept] at hm
    obtain ⟨t, ht, hprune⟩ := Option.bind_eq_some_iff.1 hm
    exact ⟨t, ht, prune_pruned hprune⟩

end Node

namespace Statement

variable {s : Statement} {kind : SlotKind}

/-- What a pass over all components does to the slots. -/
structure Linking (kind : SlotKind) (s t : Statement) : Prop where
  moved : ∀ c property : Component, c.property? = some property →
    Node.Moved (s.get? c) (s.get? property kind) (t.get? c) (t.get? property kind)
  frame : ∀ slot : Slot, slot.component.property? = none →
    (∀ c : Component, c.property? = some slot.component → slot.kind ≠ kind) → t.get slot = s.get slot

theorem Transferred.linking {t : Statement} (h : Transferred kind s t) (hs : s.Keyed) : Linking kind s t :=
  ⟨fun c property hp => (h.moved c property hp).moved fun _ hn => hs.get? hn, h.frame⟩

theorem link_moved (hs : s.Keyed) (kind : SlotKind) : ∃ t m, s.link kind = .ok (t, m) ∧ Linking kind s t := by
  obtain ⟨t, ht, h⟩ := link_transfer kind s
  exact ⟨t, _, ht, h.linking hs⟩

end Statement

end InstitutionalGrammar
