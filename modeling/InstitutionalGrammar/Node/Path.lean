/-
  InstitutionalGrammar.Node.Path — addresses of nodes below a root.

  An address is the list of sides taken from the root down. Component, suffix and linkage key
  of a node are its own or, where it has none, those of the nearest ancestor that has one.

  Leaves are listed from left to right by address, all together or in groups; a group ends where
  two trees are joined by the synthetic conjunction alone.
-/

import InstitutionalGrammar.Node.Basic

namespace InstitutionalGrammar

abbrev Path := List Side

namespace Path

/-- The address of the parent; the root has none. -/
def parent? : Path → Option Path
  | [] => none
  | s :: p => some (s :: p).dropLast

/-- The steps as messages show them. -/
def render (p : Path) : Text :=
  let step : Side → Text
    | .left => ['L', 'e', 'f', 't']
    | .right => ['R', 'i', 'g', 'h', 't']
  ['['] ++ Text.join [',', ' '] (p.map step) ++ [']']

/-- What becomes of an address when the node at `removed` is taken out: the sibling moves up to
    the place of the parent, so addresses below it lose that one step. -/
def rebase : (removed path : Path) → Path
  | [s], t :: p => if t = s.opposite then p else t :: p
  | s :: r, t :: p => if s = t then t :: rebase r p else t :: p
  | _, p => p

end Path

namespace Node

def get? : Path → Node → Option Node
  | [], n => some n
  | s :: p, n => (n.child? s).bind (get? p)

/-- Change the node at an address; the tree stays as it is if there is none. -/
def modify (f : Node → Node) : Path → Node → Node
  | [], n => f n
  | .left :: p, combination o l r m ps => combination o (modify f p l) r m ps
  | .right :: p, combination o l r m ps => combination o l (modify f p r) m ps
  | _, n => n

/-- The nearest value of `f` on the way down to an address, `inherited` if there is none. -/
def nearestFrom {α : Type} (f : Node → Option α) (inherited : Option α) : Path → Node → Option α
  | [], n => (f n).or inherited
  | s :: p, n => (n.child? s).bind (nearestFrom f ((f n).or inherited) p)

/-- The value of `f` at an address, or at the nearest ancestor that has one. -/
def nearest {α : Type} (f : Node → Option α) (path : Path) (n : Node) : Option α := nearestFrom f none path n

/-- The component that a node belongs to. -/
def componentAt? (path : Path) (n : Node) : Option Component := n.nearest component? path

/-- The suffix that applies to a node. -/
def suffixAt? (path : Path) (n : Node) : Option Text := n.nearest suffix? path

/-- The key that applies to a node; suffixes with an empty first segment are passed over. -/
def keyAt? (path : Path) (n : Node) : Option Text := n.nearest key? path

@[simp] theorem get?_nil (n : Node) : n.get? [] = some n := by cases n <;> rfl

theorem get?_append (p q : Path) (n : Node) : n.get? (p ++ q) = (n.get? p).bind (get? q) := by
  induction p generalizing n with
  | nil => simp
  | cons s p ih =>
    simp only [List.cons_append, get?]
    cases n.child? s with
    | none => rfl
    | some c => exact ih c

/-! ### Leaves -/

/-- The addresses of the leaves. -/
def paths : Node → List Path
  | leaf .. => [[]]
  | combination _ l r _ _ => (paths l).map (Side.left :: ·) ++ (paths r).map (Side.right :: ·)

/-- The addresses of the leaves, in one group for each tree that the synthetic conjunction
    joins at the top. -/
def separateGroups : Node → List (List Path)
  | combination .syntheticAnd l r _ _ =>
    (separateGroups l).map (·.map (Side.left :: ·)) ++ (separateGroups r).map (·.map (Side.right :: ·))
  | n => [n.paths]

/-- The leaves in groups; with `aggregate` they all make one. -/
def groups (aggregate : Bool) (n : Node) : List (List Path) :=
  if aggregate then [n.paths] else n.separateGroups

/-- The leaves themselves. -/
def leaves : Node → List Node
  | combination _ l r _ _ => leaves l ++ leaves r
  | n => [n]

/-- Replace every leaf, from left to right. -/
def mapLeavesM {m : Type → Type} [Monad m] (f : Node → m Node) : Node → m Node
  | combination o l r m p => do
    let l ← mapLeavesM f l
    let r ← mapLeavesM f r
    return combination o l r m p
  | n => f n

/-- Where a replacement of leaves stands: how many were visited and what stopped it. -/
structure Visit where
  count : Nat
  refusal : Option ParseError

/-- Replace the leaves, each known by its number, until one is refused. The replacements made
    before that stay; no leaf behind it is visited. -/
def replaceLeaves (f : Nat → Node → Except ParseError Node) (n : Node) : Node × Visit :=
  let visit (leaf : Node) : StateM Visit Node := do
    let v ← get
    match v.refusal with
    | some _ => return leaf
    | none => match f v.count leaf with
      | .ok new => set { v with count := v.count + 1 }; return new
      | .error e => set { v with count := v.count + 1, refusal := some e }; return leaf
  (mapLeavesM visit n).run ⟨0, none⟩

/-- The joined groups are the leaves. -/
theorem flatten_separateGroups (n : Node) : n.separateGroups.flatten = n.paths := by
  fun_induction separateGroups n with
  | case1 l r m p hl hr =>
    simp only [paths, List.flatten_append, ← hl, ← hr, List.map_flatten]
  | case2 => simp

end Node

end InstitutionalGrammar
