/-
  InstitutionalGrammar.Proofs.Removal.Step — one removal below the root, as a relation.

  A removal walks down to the parent of the node, and the sibling moves up to its place. What a removal
  keeps is shown for the two sides at the bottom of the walk, and for the two ways down.
  - `Without`: the step; `without_of_eq`, `Without.eq_some`: it is what the removal computes.
  - `exists_without`: there is one wherever a node stands.
  - `Path.rebase_sibling`, `Path.rebase_below`, `Path.rebase_beside`: addresses behind it.
-/

import InstitutionalGrammar.Node.Removal

namespace InstitutionalGrammar

/-! ## Addresses -/

namespace Path

theorem rebase_sibling (s : Side) (q : Path) : rebase [s] (s.opposite :: q) = q := by cases s <;> rfl

theorem rebase_below (s : Side) {p : Path} (hp : p ≠ []) (q : Path) : rebase (s :: p) (s :: q) = s :: rebase p q := by
  cases p with
  | nil => exact absurd rfl hp
  | cons t p => simp [rebase]

theorem rebase_beside (s : Side) {p : Path} (hp : p ≠ []) (q : Path) :
    rebase (s :: p) (s.opposite :: q) = s.opposite :: q := by
  cases p with
  | nil => exact absurd rfl hp
  | cons t p => cases s <;> rfl

theorem opposite_ne (s : Side) : s.opposite ≠ s := by cases s <;> decide

theorem rebase_apart (s t : Side) (h : s ≠ t) {p : Path} (hp : p ≠ []) (q : Path) :
    rebase (s :: p) (t :: q) = t :: q := by
  have ht : t = s.opposite := by cases s <;> cases t <;> first | rfl | exact absurd rfl h
  rw [ht, rebase_beside s hp]

end Path

namespace Node

variable {n m : Node} {path : Path}

/-! ## The step -/

/-- Taking out the node at an address below the root: its sibling moves up, and no other node changes. -/
inductive Without : Path → Node → Node → Prop
  | left (o : Operator) (l r : Node) (marks : Marks) (ps : List Node) :
    Without [.left] (combination o l r marks ps) (r.moveUp marks ps)
  | right (o : Operator) (l r : Node) (marks : Marks) (ps : List Node) :
    Without [.right] (combination o l r marks ps) (l.moveUp marks ps)
  | inLeft {p : Path} {l l' : Node} (o : Operator) (r : Node) (marks : Marks) (ps : List Node) :
    Without p l l' → Without (.left :: p) (combination o l r marks ps) (combination o l' r marks ps)
  | inRight {p : Path} {r r' : Node} (o : Operator) (l : Node) (marks : Marks) (ps : List Node) :
    Without p r r' → Without (.right :: p) (combination o l r marks ps) (combination o l r' marks ps)

theorem without_of_eq (h : n.without? path = some m) : Without path n m := by
  induction path generalizing n m with
  | nil => cases n <;> cases h
  | cons s path ih =>
    cases n with
    | leaf => cases s <;> cases path <;> cases h
    | combination o l r marks ps =>
      cases s <;> cases path
      · cases h
        exact .left o l r marks ps
      · obtain ⟨l', hl, rfl⟩ := Option.map_eq_some_iff.1 h
        exact .inLeft o r marks ps (ih hl)
      · cases h
        exact .right o l r marks ps
      · obtain ⟨r', hr, rfl⟩ := Option.map_eq_some_iff.1 h
        exact .inRight o l marks ps (ih hr)

namespace Without

theorem ne_nil (h : Without path n m) : path ≠ [] := by
  cases h <;> exact List.cons_ne_nil _ _

theorem eq_some (h : Without path n m) : n.without? path = some m := by
  induction h with
  | left => rfl
  | right => rfl
  | @inLeft p l l' o r marks ps hl ih =>
    obtain ⟨t, p, rfl⟩ := List.exists_cons_of_ne_nil hl.ne_nil
    rw [without?, ih]
    · rfl
    · exact List.cons_ne_nil t p
  | @inRight p r r' o l marks ps hr ih =>
    obtain ⟨t, p, rfl⟩ := List.exists_cons_of_ne_nil hr.ne_nil
    rw [without?, ih]
    · rfl
    · exact List.cons_ne_nil t p

/-- A node stands at the address. -/
theorem get? (h : Without path n m) : ∃ k, n.get? path = some k := by
  induction h with
  | left o l => exact ⟨l, get?_nil l⟩
  | right o l r => exact ⟨r, get?_nil r⟩
  | inLeft _ _ _ _ _ ih => exact ih
  | inRight _ _ _ _ _ ih => exact ih

end Without

theorem exists_without {k : Node} (h : n.get? path = some k) (hne : path ≠ []) : ∃ m, Without path n m := by
  induction path generalizing n with
  | nil => exact absurd rfl hne
  | cons s path ih =>
    cases n with
    | leaf => cases s <;> cases h
    | combination o l r marks ps =>
      by_cases hnil : path = []
      · subst hnil
        cases s
        · exact ⟨_, .left o l r marks ps⟩
        · exact ⟨_, .right o l r marks ps⟩
      · cases s
        · obtain ⟨l', hl⟩ := ih h hnil
          exact ⟨_, .inLeft o r marks ps hl⟩
        · obtain ⟨r', hr⟩ := ih h hnil
          exact ⟨_, .inRight o l marks ps hr⟩

end Node

end InstitutionalGrammar
