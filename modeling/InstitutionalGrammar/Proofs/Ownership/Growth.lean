/-
  InstitutionalGrammar.Proofs.Ownership.Growth — private nodes added to the leaves of a tree.

  - `grow`: a tree with further private nodes at its leaves; all else stays (`tips_grow`,
    `get?_grow`).
  - `modify_privates`: one private node added at a leaf is such a growth.
  - `standalone?_tip`: a leaf on its own keeps what it holds and the suffix that applies to it.
-/

import Mathlib.Logic.Relation
import InstitutionalGrammar.Proofs.Ownership.Tips
import InstitutionalGrammar.Proofs.Plain.Basic

namespace InstitutionalGrammar.Node

variable {n m : Node} {path : Path}

/-! ## Growth -/

/-- The tree with further private nodes at its leaves, `more path` at the one at `path`. -/
def grow (more : Path → List Node) : Node → Node
  | leaf e m p => leaf e m (p ++ more [])
  | combination o l r m p =>
    combination o (l.grow fun q => more (.left :: q)) (r.grow fun q => more (.right :: q)) m p

theorem tips_grow (more : Path → List Node) (n : Node) (above : Option Text) :
    (n.grow more).tips above = n.tips above := by
  induction n generalizing more above with
  | leaf => rfl
  | combination o l r m p ihl ihr => rw [grow, tips, tips, ihl, ihr]

theorem paths_grow (more : Path → List Node) (n : Node) : (n.grow more).paths = n.paths := by
  rw [← map_path_tips _ none, tips_grow, map_path_tips]

theorem keyed_grow {more : Path → List Node} : (n.grow more).Keyed ↔ n.Keyed := by
  induction n generalizing more with
  | leaf => exact Iff.rfl
  | combination o l r m p ihl ihr => rw [grow, Keyed, Keyed, ihl, ihr]

theorem keyedLeaves_grow (more : Path → List Node) (h : n.Keyed) : (n.grow more).keyedLeaves = n.keyedLeaves := by
  rw [keyedLeaves_eq (keyed_grow.2 h), keyedLeaves_eq h, tips_grow]

theorem grow_grow (f g : Path → List Node) (n : Node) : (n.grow f).grow g = n.grow fun q => f q ++ g q := by
  induction n generalizing f g with
  | leaf => simp [grow]
  | combination o l r m p ihl ihr => rw [grow, grow, grow, ihl, ihr]

theorem grow_nil (n : Node) : (n.grow fun _ => []) = n := by
  induction n with
  | leaf => simp [grow]
  | combination o l r m p ihl ihr => rw [grow, ihl, ihr]

theorem get?_grow (more : Path → List Node) (h : n.get? path = some m) :
    (n.grow more).get? path = some (m.grow fun q => more (path ++ q)) := by
  induction path generalizing n more with
  | nil =>
    rw [get?_nil] at h ⊢
    cases h
    rfl
  | cons s path ih =>
    cases n with
    | leaf => cases s <;> cases h
    | combination o l r ms p =>
      cases s
      · exact ih _ h
      · exact ih _ h

theorem modify_privates (h : path ∈ n.paths) (v : Node) :
    n.modify (fun owner => owner.withPrivates (owner.privates ++ [v])) path =
      n.grow fun q => if q = path then [v] else [] := by
  induction n generalizing path with
  | leaf e m p =>
    rw [List.mem_singleton.1 h]
    rfl
  | combination o l r m p ihl ihr =>
    rw [paths, List.mem_append, List.mem_map, List.mem_map] at h
    rcases h with h | h
    · obtain ⟨q, hq, rfl⟩ := h
      have hother : (r.grow fun q' => if Side.right :: q' = Side.left :: q then [v] else []) = r := by
        refine Eq.trans (congrArg (r.grow ·) (funext fun q' => ?_)) (grow_nil r)
        simp
      rw [modify, ihl hq, grow, hother]
      simp
    · obtain ⟨q, hq, rfl⟩ := h
      have hother : (l.grow fun q' => if Side.left :: q' = Side.right :: q then [v] else []) = l := by
        refine Eq.trans (congrArg (l.grow ·) (funext fun q' => ?_)) (grow_nil l)
        simp
      rw [modify, ihr hq, grow, hother]
      simp

/-! ## Statements inside a tree -/

theorem mem_statementsAll {ns : List Node} {u : Statement} : u ∈ statementsAll ns ↔ ∃ n ∈ ns, u ∈ n.statements := by
  induction ns with
  | nil => simp [statementsAll]
  | cons n ns ih => simp [statementsAll, ih]

/-- What a grown tree holds it held before, or the private nodes bring it. -/
theorem statements_grow {more : Path → List Node} {u : Statement} (h : u ∈ (n.grow more).statements) :
    u ∈ n.statements ∨ ∃ q v, v ∈ more q ∧ u ∈ v.statements := by
  induction n generalizing more with
  | leaf e m p =>
    simp only [grow, statements, List.mem_append, mem_statementsAll] at h ⊢
    rcases h with h | h
    · exact Or.inl (Or.inl h)
    · obtain ⟨v, hv, hu⟩ := h
      rcases hv with hv | hv
      · exact Or.inl (Or.inr ⟨v, hv, hu⟩)
      · exact Or.inr ⟨[], v, hv, hu⟩
  | combination o l r m p ihl ihr =>
    simp only [grow, statements, List.mem_append] at h ⊢
    rcases h with (h | h) | h
    · rcases ihl h with h | h
      · exact Or.inl (Or.inl (Or.inl h))
      · obtain ⟨q, v, hv, hu⟩ := h
        exact Or.inr ⟨_, v, hv, hu⟩
    · rcases ihr h with h | h
      · exact Or.inl (Or.inl (Or.inr h))
      · obtain ⟨q, v, hv, hu⟩ := h
        exact Or.inr ⟨_, v, hv, hu⟩
    · exact Or.inl (Or.inr h)

theorem statements_withMarks (marks : Marks) (n : Node) : (n.withMarks marks).statements = n.statements := by
  cases n <;> simp [withMarks, statements]

theorem statements_get? (h : n.get? path = some m) {u : Statement} (hu : u ∈ m.statements) : u ∈ n.statements := by
  induction path generalizing n with
  | nil =>
    rw [get?_nil] at h
    cases h
    exact hu
  | cons s path ih =>
    cases n with
    | leaf => cases s <;> cases h
    | combination o l r ms p =>
      simp only [statements, List.mem_append]
      cases s
      · exact Or.inl (Or.inl (ih h))
      · exact Or.inl (Or.inr (ih h))

/-! ## Leaves on their own -/

/-- No node of the tree has private nodes. -/
def Bare : Node → Prop
  | leaf _ _ p => p = []
  | combination _ l r _ p => p = [] ∧ l.Bare ∧ r.Bare

theorem Bare.get? (h : n.Bare) (hm : n.get? path = some m) : m.privates = [] := by
  induction path generalizing n with
  | nil =>
    rw [get?_nil] at hm
    cases hm
    cases m with
    | leaf => exact h
    | combination => exact h.1
  | cons s path ih =>
    cases n with
    | leaf => cases s <;> cases hm
    | combination o l r ms p =>
      cases s
      · exact ih h.2.1 hm
      · exact ih h.2.2 hm

theorem nearestFrom_get? {α : Type} (f : Node → Option α) (inherited : Option α) (h : n.get? path = some m) :
    ∃ b, nearestFrom f inherited path n = (f m).or b := by
  induction path generalizing n inherited with
  | nil =>
    rw [get?_nil] at h
    cases h
    exact ⟨inherited, rfl⟩
  | cons s path ih =>
    obtain ⟨k, hk, h⟩ := Option.bind_eq_some_iff.1 h
    obtain ⟨b, hb⟩ := ih ((f n).or inherited) h
    exact ⟨b, by rw [nearestFrom, hk]; exact hb⟩

theorem standalone?_tip {t : Tip} (h : t ∈ n.tips none) : ∃ marks privates,
    n.standalone? t.path = some (leaf t.entry marks privates) ∧ marks.suffix = t.suffix := by
  obtain ⟨⟨marks, privates, hget⟩, hsuffix⟩ := mem_tips.1 h
  obtain ⟨b, hb⟩ := nearestFrom_get? suffix? none hget
  have hb : t.suffix = marks.suffix.or b := hsuffix ▸ hb
  refine ⟨{ marks with component := n.componentAt? t.path, suffix := marks.suffix.or (n.suffixAt? t.path) }, privates,
    ?_, ?_⟩
  · rw [standalone?, hget]
    rfl
  · show marks.suffix.or (nearestFrom suffix? none t.path n) = t.suffix
    rw [hsuffix, hb, ← Option.or_assoc, Option.or_self]

theorem standalone?_statements {v : Node} (h : n.standalone? path = some v) {u : Statement} (hu : u ∈ v.statements) :
    u ∈ n.statements := by
  obtain ⟨m, hm, rfl⟩ := Option.map_eq_some_iff.1 h
  rw [statements_withMarks] at hu
  exact statements_get? hm hu

/-! ## What a removal keeps -/

theorem statements_moveUp {marks : Marks} {privates : List Node} {u : Statement} :
    u ∈ (n.moveUp marks privates).statements ↔ u ∈ n.statements ∨ u ∈ statementsAll privates := by
  cases n
  all_goals
    simp only [moveUp, withMarks, withPrivates, Node.privates, statements, List.mem_append, mem_statementsAll]
    grind

theorem statements_without (h : Without path n m) {u : Statement} (hu : u ∈ m.statements) : u ∈ n.statements := by
  induction h with
  | left o l r marks ps =>
    simp only [statements, List.mem_append]
    exact (statements_moveUp.1 hu).imp_left Or.inr
  | right o l r marks ps =>
    simp only [statements, List.mem_append]
    exact (statements_moveUp.1 hu).imp_left Or.inl
  | inLeft o r marks ps hl ih =>
    simp only [statements, List.mem_append] at hu ⊢
    exact hu.imp_left fun hu => hu.imp_left ih
  | inRight o l marks ps hr ih =>
    simp only [statements, List.mem_append] at hu ⊢
    exact hu.imp_left fun hu => hu.imp_right ih

theorem Bare.moveUp (h : n.Bare) (marks : Marks) : (n.moveUp marks []).Bare := by
  cases n with
  | leaf e m p =>
    have hp : p = [] := h
    simp [Node.moveUp, withMarks, withPrivates, Bare, Node.privates, hp]
  | combination o l r m p =>
    have hp : p = [] := h.1
    simp [Node.moveUp, withMarks, withPrivates, Bare, Node.privates, hp, h.2]

theorem Bare.without (h : n.Bare) (hm : Without path n m) : m.Bare := by
  induction hm with
  | left o l r marks ps =>
    obtain ⟨rfl, -, hr⟩ := h
    exact hr.moveUp marks
  | right o l r marks ps =>
    obtain ⟨rfl, hl, -⟩ := h
    exact hl.moveUp marks
  | inLeft o r marks ps hl ih => exact ⟨h.1, ih h.2.1, h.2.2⟩
  | inRight o l marks ps hr ih => exact ⟨h.1, h.2.1, ih h.2.2⟩

/-- What is left of a tree when nodes are taken out one after another. -/
def Pruned : Node → Node → Prop := Relation.ReflTransGen fun n m => ∃ path, n.without? path = some m

theorem removeAll_pruned {ps : List Path} (h : n.removeAll ps = .ok (some m)) : n.Pruned m := by
  induction hlen : ps.length generalizing ps n with
  | zero =>
    obtain rfl := List.eq_nil_of_length_eq_zero hlen
    rw [removeAll] at h
    cases h
    exact .refl
  | succ k ih =>
    obtain ⟨p, ps, rfl⟩ := List.exists_cons_of_length_eq_add_one hlen
    rw [removeAll] at h
    obtain ⟨⟨rest, emptied⟩, hremove, h⟩ := bind_eq_ok.1 h
    cases emptied with
    | true => cases h
    | false =>
      refine .head ?_ (ih h (by simpa using hlen))
      unfold remove at hremove
      split at hremove
      · cases hremove
      · split at hremove
        · rename_i hm
          cases hremove
          exact ⟨p, hm⟩
        · cases hremove

namespace Pruned

variable (h : n.Pruned m)
include h

theorem keyed (hn : n.Keyed) : m.Keyed := by
  induction h with
  | refl => exact hn
  | tail _ hstep ih =>
    obtain ⟨path, hpath⟩ := hstep
    exact ih.without (without_of_eq hpath)

theorem bare (hn : n.Bare) : m.Bare := by
  induction h with
  | refl => exact hn
  | tail _ hstep ih =>
    obtain ⟨path, hpath⟩ := hstep
    exact ih.without (without_of_eq hpath)

theorem statements {u : Statement} (hu : u ∈ m.statements) : u ∈ n.statements := by
  induction h with
  | refl => exact hu
  | tail _ hstep ih =>
    obtain ⟨path, hpath⟩ := hstep
    exact ih (statements_without (without_of_eq hpath) hu)

end Pruned

/-! ## Private nodes and their owners -/

/-- Private nodes stand at leaves only, and have the keys of those. -/
def Matched (n : Node) : Prop :=
  ∀ path m v, n.get? path = some m → v ∈ m.privates → ∃ t ∈ n.tips none, t.path = path ∧ v.key? = t.key?

theorem Bare.matched (h : n.Bare) : n.Matched := by
  intro path m v hm hv
  rw [h.get? hm] at hv
  cases hv

theorem get?_of_grow {more : Path → List Node} (h : (n.grow more).get? path = some m) :
    ∃ k, n.get? path = some k ∧ m = k.grow fun q => more (path ++ q) := by
  induction path generalizing n more with
  | nil =>
    rw [get?_nil] at h
    cases h
    exact ⟨n, by simp, rfl⟩
  | cons s path ih =>
    cases n with
    | leaf => cases s <;> cases h
    | combination o l r ms p =>
      cases s
      · exact ih h
      · exact ih h

theorem Matched.grow (h : n.Matched) {more : Path → List Node}
    (hmore : ∀ t ∈ n.tips none, ∀ v ∈ more t.path, v.key? = t.key?) : (n.grow more).Matched := by
  intro path m v hm hv
  rw [tips_grow]
  obtain ⟨k, hk, rfl⟩ := get?_of_grow hm
  cases hk' : k with
  | combination o l r ms p =>
    rw [hk'] at hk hv
    exact h path _ v hk hv
  | leaf e ms p =>
    rw [hk'] at hk hv
    rcases List.mem_append.1 hv with hv | hv
    · exact h path _ v hk hv
    · have htip : (⟨path, e, nearestFrom suffix? none path n⟩ : Tip) ∈ n.tips none := by
        exact mem_tips.2 ⟨⟨ms, p, hk⟩, rfl⟩
      refine ⟨_, htip, rfl, hmore _ htip v ?_⟩
      simpa using hv

end InstitutionalGrammar.Node
