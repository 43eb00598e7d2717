/-
  InstitutionalGrammar.Reading.Nested — nested statements in the complex slots.

  Statements combined inside one block keep the operators written there. Plain nested
  statements of one component are joined by one operator: the one the options name, or the only
  one written between the first and the last of them, or the synthetic conjunction. `read`
  reads the inside of a block.
-/

import InstitutionalGrammar.Options.Reader
import InstitutionalGrammar.Reading.Outline

namespace InstitutionalGrammar

/-- Put a tree into the complex slot of a component, behind what is there. -/
def Statement.nest (c : Component) (tree : Node) (s : Statement) : Except ParseError Statement :=
  match Slot.of? c .complex with
  | none => .error (.unsupportedNesting c.symbol)
  | some slot => match s.get slot with
    | none => .ok (s.put slot (some tree))
    | some before => do
      let joined ← Node.combine .syntheticAnd before tree
      return s.put slot (some joined)

def Header.label (h : Header) (n : Node) : Node := n.label h.component h.suffix h.remark

/-! ## Combined statements -/

def untaggedReason (text : Text) : Text :=
  ['\''] ++ text ++ "' is not a tagged nested statement".toList

def mixedReason (a b : Component) : Text :=
  "mixed component types ".toList ++ a.symbol ++ " and ".toList ++ b.symbol

def foreignReason (inner outer : Component) : Text :=
  inner.symbol ++ " statements combined inside ".toList ++ outer.symbol

/-- The nested statement of one leaf. The state is the component of the leaves before it. -/
def nestedLeaf (read : Text → Report Node) (raw : Text) (leaf : Node) : StateT (Option Component) Report Node := do
  let text := leaf.text?.getD []
  match ← (TaggedBlock.read text : Outcome _) with
  | none => (reject (.invalidNestedCombination raw (untaggedReason text)) : Outcome _)
  | some ⟨header, inner⟩ =>
    match ← get with
    | none => set (some header.component)
    | some c =>
      if c ≠ header.component then
        (reject (.invalidNestedCombination raw (mixedReason c header.component)) : Outcome _)
    return header.label (← read inner)

/-- Read the leaves of a combination of tagged blocks and attach it. -/
def attachCombination (read : Text → Report Node) (raw : Text) (header : Header) (tree : Node)
    (s : Statement) : Report Statement := do
  let (tree, tag) ← (tree.mapLeavesM (nestedLeaf read raw)).run none
  let component := tag.getD header.component
  if component ≠ header.component then
    (reject (.invalidNestedCombination raw (foreignReason component header.component)) : Outcome _)
  s.nest component (header.label tree)

/-! ## Plain nested statements -/

/-- The plain nested statements of one component, and the bytes from the first block to the last. -/
structure NestedGroup where
  component : Component
  trees : List Node
  start : Nat
  stop : Nat

/-- Add the tree of a block to the group of its component; a new group comes last. -/
def addToGroup (c : Component) (tree : Node) (start stop : Nat) : List NestedGroup → List NestedGroup
  | [] => [⟨c, [tree], start, stop⟩]
  | g :: gs =>
    if g.component = c then { g with trees := g.trees ++ [tree], stop } :: gs
    else g :: addToGroup c tree start stop gs

/-- The operator that joins the nested statements between two offsets of the atomic text. -/
def joiningOperator (options : Options) (atomic : Text) (start stop : Nat) : Except ParseError Operator :=
  match options.nestedOperator with
  | some o => .ok o
  | none =>
    match (outerOperators atomic).filter fun o => start ≤ o.2.offset && o.2.offset < stop with
    | [] => .ok .syntheticAnd
    | (first, _) :: later => match later.find? (·.1 ≠ first) with
      | none => .ok first
      | some (second, position) => .error (.mixedOperators first.token second.token position)

/-- Join the statements of a group and attach them. -/
def attachGroup (options : Options) (atomic : Text) (s : Statement) (g : NestedGroup) :
    Except ParseError Statement := do
  let operator ←
    if g.trees.length > 1 then joiningOperator options atomic g.start g.stop else pure .syntheticAnd
  match ← Node.fold? operator g.trees with
  | none => return s
  | some tree => s.nest g.component tree

/-- Read the plain nested statements, in order, into groups. -/
def nestedGroups (read : Text → Report Node) (groups : List NestedGroup) :
    List Block → Report (List NestedGroup)
  | [] => return groups
  | b :: bs => match b.content with
    | .nested header inner => do
      let tree ← read inner
      nestedGroups read (addToGroup header.component (header.label tree) b.start b.stop groups) bs
    | _ => nestedGroups read groups bs

/-! ## All blocks -/

/-- Attach the combined statements and report the ignored blocks, in order. -/
def attachCombinations (read : Text → Report Node) (s : Statement) : List Block → Report Statement
  | [] => return s
  | b :: bs => match b.content with
    | .stray => do
      Report.ignore b.raw
      attachCombinations read s bs
    | .combined header tree => do
      let s ← attachCombination read b.raw header tree s
      attachCombinations read s bs
    | _ => attachCombinations read s bs

/-- The statement with its nested statements; combined ones come before plain ones. -/
def attachBlocks (options : Options) (read : Text → Report Node) (outline : Outline) (s : Statement) :
    Report Statement := do
  let s ← attachCombinations read s outline.blocks
  let groups ← nestedGroups read [] outline.blocks
  (groups.foldlM (attachGroup options outline.atomic) s : Except ParseError _)

end InstitutionalGrammar
