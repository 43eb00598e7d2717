/-
  InstitutionalGrammar.Proofs.Ownership.Tips — the leaves of a tree with the suffixes that apply to them.

  - `mem_tips`: a leaf stands at its address, and its suffix is the nearest one on the way down.
  - `keyAt?_eq`, `keyedLeaves_eq`: the keys that apply, when every suffix has a key.
  - `Keyed.without`: every suffix still has one when a node is taken out.
  - `tips_moveUp`: a node that moves up to the place of its parent keeps what applies to its leaves.
-/

import InstitutionalGrammar.Statement.Ownership
import InstitutionalGrammar.Proofs.Header.Keys
import InstitutionalGrammar.Proofs.Leaves
import InstitutionalGrammar.Proofs.Removal.Step

namespace InstitutionalGrammar

/-- A leaf: where it stands, what it holds, and the suffix that applies to it. -/
structure Tip where
  path : Path
  entry : Entry
  suffix : Option Text

namespace Tip

def under (side : Side) (t : Tip) : Tip := { t with path := side :: t.path }

/-- What stays of a leaf when others are taken out. -/
def data (t : Tip) : Entry × Option Text := (t.entry, t.suffix)

def key? (t : Tip) : Option Text := t.suffix.bind Suffix.key?

end Tip

/-- The leaves of a tree below a node with the suffix `above`. -/
def Node.tips (above : Option Text) : Node → List Tip
  | .leaf e m _ => [⟨[], e, m.suffix.or above⟩]
  | .combination _ l r m _ =>
    (l.tips (m.suffix.or above)).map (.under .left) ++ (r.tips (m.suffix.or above)).map (.under .right)

namespace Node

variable {n m : Node} {path : Path}

theorem map_path_tips (n : Node) (above : Option Text) : (n.tips above).map Tip.path = n.paths := by
  induction n generalizing above with
  | leaf => rfl
  | combination o l r m p ihl ihr =>
    rw [tips, List.map_append, List.map_map, List.map_map, paths, ← ihl (m.suffix.or above), ← ihr (m.suffix.or above),
      List.map_map, List.map_map]
    rfl

theorem mem_paths (above : Option Text) : path ∈ n.paths ↔ ∃ t ∈ n.tips above, t.path = path := by
  rw [← map_path_tips n above, List.mem_map]

/-- The leaves of a tree by their addresses. -/
theorem mem_tips {above : Option Text} {t : Tip} :
    t ∈ n.tips above ↔ (∃ marks privates, n.get? t.path = some (leaf t.entry marks privates)) ∧
      nearestFrom suffix? above t.path n = t.suffix := by
  induction n generalizing above t with
  | leaf e m p =>
    rw [tips, List.mem_singleton]
    constructor
    · intro h
      rw [h]
      exact ⟨⟨m, p, rfl⟩, rfl⟩
    · intro h
      obtain ⟨⟨marks, privates, hget⟩, hsuffix⟩ := h
      obtain ⟨path, entry, suffix⟩ := t
      cases path with
      | nil =>
        simp only [get?_nil, Option.some.injEq, leaf.injEq] at hget
        obtain ⟨rfl, rfl, rfl⟩ := hget
        have hsuffix : m.suffix.or above = suffix := hsuffix
        rw [hsuffix]
      | cons s path => cases s <;> cases hget
  | combination o l r m p ihl ihr =>
    rw [tips, List.mem_append, List.mem_map, List.mem_map]
    constructor
    · intro h
      rcases h with h | h
      · obtain ⟨u, hu, rfl⟩ := h
        exact ihl.1 hu
      · obtain ⟨u, hu, rfl⟩ := h
        exact ihr.1 hu
    · intro h
      obtain ⟨path, entry, suffix⟩ := t
      cases path with
      | nil =>
        obtain ⟨⟨marks, privates, hget⟩, -⟩ := h
        cases hget
      | cons s path =>
        cases s
        · exact Or.inl ⟨⟨path, entry, suffix⟩, ihl.2 h, rfl⟩
        · exact Or.inr ⟨⟨path, entry, suffix⟩, ihr.2 h, rfl⟩

/-! ## Keys -/

/-- Every suffix in the tree has a key. -/
def Keyed : Node → Prop
  | .leaf _ m _ => KeyedSuffix m.suffix
  | .combination _ l r m _ => KeyedSuffix m.suffix ∧ l.Keyed ∧ r.Keyed

theorem Keyed.suffix (h : n.Keyed) : KeyedSuffix n.suffix? := by
  cases n with
  | leaf => exact h
  | combination => exact h.1

theorem Keyed.child {s : Side} {k : Node} (h : n.Keyed) (hk : n.child? s = some k) : k.Keyed := by
  cases n with
  | leaf => cases s <;> cases hk
  | combination =>
    cases s <;> cases hk
    · exact h.2.1
    · exact h.2.2

theorem nearestFrom_key (h : n.Keyed) (above : Option Text) (path : Path) :
    nearestFrom key? (above.bind Suffix.key?) path n = (nearestFrom suffix? above path n).bind Suffix.key? := by
  have hkey : (n.key?).or (above.bind Suffix.key?) = (n.suffix?.or above).bind Suffix.key? :=
    (h.suffix.bind_or above).symm
  induction path generalizing n above with
  | nil => exact hkey
  | cons s path ih =>
    rw [nearestFrom, nearestFrom, hkey]
    cases hk : n.child? s with
    | none => rfl
    | some k =>
      have hchild := h.child hk
      exact ih hchild _ (hchild.suffix.bind_or _).symm

/-- Where every suffix has a key, the key that applies is the one of the suffix that applies. -/
theorem keyAt?_eq (h : n.Keyed) (path : Path) : n.keyAt? path = (n.suffixAt? path).bind Suffix.key? :=
  nearestFrom_key h none path

theorem keyAt?_tip (h : n.Keyed) {t : Tip} (ht : t ∈ n.tips none) : n.keyAt? t.path = t.key? := by
  rw [keyAt?_eq h]
  exact congrArg (Option.bind · Suffix.key?) (mem_tips.1 ht).2

theorem mem_leafKeys {key : Text} : (path, key) ∈ n.keyedLeaves ↔ path ∈ n.paths ∧ n.keyAt? path = some key := by
  simp [keyedLeaves]

theorem key_of_path (h : n.Keyed) {t : Tip} (ht : t ∈ n.tips none) {key : Text} :
    (t.path, key) ∈ n.keyedLeaves ↔ t.key? = some key := by
  rw [mem_leafKeys, keyAt?_tip h ht, and_iff_right ((mem_paths none).2 ⟨t, ht, rfl⟩)]

theorem mem_keyedLeaves (h : n.Keyed) {key : Text} :
    (path, key) ∈ n.keyedLeaves ↔ ∃ t ∈ n.tips none, t.path = path ∧ t.key? = some key := by
  constructor
  · intro hkey
    obtain ⟨t, ht, rfl⟩ := (mem_paths none).1 (mem_leafKeys.1 hkey).1
    exact ⟨t, ht, rfl, (key_of_path h ht).1 hkey⟩
  · rintro ⟨t, ht, rfl, hkey⟩
    exact (key_of_path h ht).2 hkey

/-- The leaves that have a key, in a tree in which every suffix has one. -/
theorem keyedLeaves_eq (h : n.Keyed) :
    n.keyedLeaves = (n.tips none).filterMap fun t => t.key?.map (t.path, ·) := by
  rw [keyedLeaves, ← map_path_tips n none, List.filterMap_map]
  refine List.filterMap_congr fun t ht => ?_
  rw [Function.comp_apply, keyAt?_tip h ht]

/-- The keys of the leaves. -/
def keys (n : Node) : List Text := n.keyedLeaves.map Prod.snd

theorem keys_eq (h : n.Keyed) : n.keys = (n.tips none).filterMap Tip.key? := by
  rw [keys, keyedLeaves_eq h, List.map_filterMap]
  refine List.filterMap_congr fun t _ => ?_
  cases t.key? <;> rfl

/-! ## Removals -/

theorem tips_moveUp (marks : Marks) (privates : List Node) (n : Node) (above : Option Text) :
    (n.moveUp marks privates).tips above = n.tips (marks.suffix.or above) := by
  cases n <;> simp [moveUp, Marks.moveUp, withMarks, withPrivates, tips, Node.marks, Option.or_assoc]

theorem keyed_moveUp {marks : Marks} (hm : KeyedSuffix marks.suffix) (privates : List Node) (hn : n.Keyed) :
    (n.moveUp marks privates).Keyed := by
  cases n with
  | leaf e m p => exact KeyedSuffix.or hn hm
  | combination o l r m p => exact ⟨KeyedSuffix.or hn.1 hm, hn.2⟩

theorem Keyed.without (h : n.Keyed) (hm : Without path n m) : m.Keyed := by
  induction hm with
  | left o l r marks ps => exact keyed_moveUp h.1 ps h.2.2
  | right o l r marks ps => exact keyed_moveUp h.1 ps h.2.1
  | inLeft o r marks ps hl ih => exact ⟨h.1, ih h.2.1, h.2.2⟩
  | inRight o l marks ps hr ih => exact ⟨h.1, h.2.1, ih h.2.2⟩

end Node

end InstitutionalGrammar
