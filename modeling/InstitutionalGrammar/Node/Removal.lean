/-
  InstitutionalGrammar.Node.Removal — taking nodes out of a tree.

  The sibling of a removed node takes the place of the parent. It keeps its own marks, takes
  the component, suffix and annotation it lacks from the parent, and gains the shared text and
  the private nodes of the parent. A tree that loses its root is the empty leaf.
-/

import InstitutionalGrammar.Node.Path

namespace InstitutionalGrammar

/-- The marks of a node that moves up to the place of one marked `parent`; the shared text of the
    parent stays outside its own. -/
def Marks.moveUp (parent own : Marks) : Marks :=
  { component := own.component.or parent.component
    suffix := own.suffix.or parent.suffix
    remark := own.remark.or parent.remark
    sharedLeft := parent.sharedLeft ++ own.sharedLeft
    sharedRight := own.sharedRight ++ parent.sharedRight }

namespace Node

/-- The node in the place of a parent with these marks and private nodes. -/
def moveUp (marks : Marks) (privates : List Node) (n : Node) : Node :=
  (n.withMarks (marks.moveUp n.marks)).withPrivates (n.privates ++ privates)

/-- The tree without the node at an address below the root; none if no node is there. -/
def without? : Path → Node → Option Node
  | [.left], combination _ _ r m ps => some (r.moveUp m ps)
  | [.right], combination _ l _ m ps => some (l.moveUp m ps)
  | .left :: p, combination o l r m ps => (without? p l).map fun l => combination o l r m ps
  | .right :: p, combination o l r m ps => (without? p r).map fun r => combination o l r m ps
  | _, _ => none

/-- The tree without the node at `path`, and whether the tree became empty. -/
def remove (path : Path) (n : Node) : Except ParseError (Node × Bool) :=
  match path with
  | [] => .ok (empty, true)
  | _ => match without? path n with
    | some m => .ok (m, false)
    | none => .error (.invalidNodePath path.render)

/-- Remove the nodes one after another, each address adjusted to the removals before it; with
    each, whether the tree became empty. Ends at the first address without a node. -/
def removeEach : List Path → Node → Node × Except ParseError (List (Path × Bool))
  | [], n => (n, .ok [])
  | path :: paths, n => match remove path n with
    | .error e => (n, .error e)
    | .ok (m, emptied) =>
      let (rest, log) := removeEach (paths.map (Path.rebase path)) m
      (rest, log.map ((path, emptied) :: ·))
termination_by paths => paths.length

/-- The tree without the nodes at `paths`; none as soon as nothing is left. -/
def removeAll (paths : List Path) (n : Node) : Except ParseError (Option Node) :=
  match paths with
  | [] => .ok (some n)
  | path :: paths => do
    let (rest, emptied) ← remove path n
    if emptied then return none
    removeAll (paths.map (Path.rebase path)) rest
termination_by paths.length

end Node

end InstitutionalGrammar
