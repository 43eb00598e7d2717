/-
  InstitutionalGrammar.Combination.Tree — the binary tree of a text with combinations.

  The outermost level that has a combination decides. Each combination there is built from its
  two operands, and several are joined by the synthetic conjunction in textual order. Text
  around a combination, inside the span it lies in, is shared text of its node.
-/

import InstitutionalGrammar.Combination.Sweep
import InstitutionalGrammar.Node.Basic

namespace InstitutionalGrammar

def isOpening (c : Char) : Bool := c = Delimiters.parentheses.opening || c = Delimiters.braces.opening

def isClosing (c : Char) : Bool := c = Delimiters.parentheses.closing || c = Delimiters.braces.closing

/-- The text that a stretch beside a combination shares: what is left without blanks and without
    the delimiters that stray at its outer ends. -/
def shared? (t : Text) : Option Text :=
  match (Text.stripEnd isOpening (Text.stripStart isClosing t.trim)).trim with
  | [] => none
  | cleaned => some cleaned

/-- The bytes in which a span can share text: the inside of the span around it, or all. -/
def SpanTable.scope (table : SpanTable) (s : Span) : Nat × Nat :=
  match table.parent? s with
  | some outer => (outer.left + 1, outer.right)
  | none => (0, table.input.size)

/-- Whether one pair of delimiters encloses all of the text. -/
def isEnclosed (d : Delimiters) (t : Text) : Outcome Bool := do
  if t.head? = some d.opening then
    return (← closeOf t 0 d) = some (t.size - 1)
  return false

/-- The leaf of a text without combinations; one pair of delimiters around it is dropped. -/
def leafOf (d : Delimiters) (text : Text) : Outcome Node := do
  let trimmed := text.trim
  let value ←
    if ← isEnclosed d trimmed then pure (← trimmed.slice 1 (trimmed.size - 1)).trim else pure trimmed
  if value.isEmpty then reject (.emptyOperand text (Position.locate text 0))
  return .text value

/-- The node of the combination `s`, which has the operator `o`. `earlier` and `later` are the
    combinations before and behind it on its level, nearest first; `build` builds operands. -/
def combinationOf (build : Text → Outcome Node) (table : SpanTable) (earlier : List Span) (s : Span)
    (o : PlacedOperator) (later : List Span) : Outcome Node := do
  let left ← build (← table.input.slice (s.left + 1) o.start)
  let right ← build (← table.input.slice o.stop s.right)
  let node ← Node.combine o.operator left right
  let scope := table.scope s
  let start := match earlier.find? (table.scope · = scope) with
    | some before => before.right + 1
    | none => scope.1
  let sharedLeft := (shared? (← table.input.slice start s.left)).toList
  let sharedRight ←
    if later.any (table.scope · = scope) then pure []
    else pure (shared? (← table.input.slice (s.right + 1) scope.2)).toList
  return node.withMarks { node.marks with sharedLeft, sharedRight }

/-- The nodes of the combinations of one level. -/
def combinationsOf (build : Text → Outcome Node) (table : SpanTable) (earlier : List Span) :
    List Span → Outcome (List Node)
  | [] => return []
  | s :: later => match s.operator with
    | none => combinationsOf build table earlier later
    | some o => do
      let node ← combinationOf build table earlier s o later
      return node :: (← combinationsOf build table (s :: earlier) later)

/-- The tree of a text, when `build` builds the operands. -/
def treeStep (d : Delimiters) (build : Text → Outcome Node) (text : Text) : Outcome Node := do
  let table ← spanTable d text
  match table.outermostLevel? with
  | none => leafOf d table.input
  | some level =>
    let nodes ← combinationsOf build table [] ((table.atLevel level).filter Span.isCombination)
    match ← Node.fold? .syntheticAnd nodes with
    | some tree => return tree
    | none => leafOf d table.input

/-- The tree of a text that may nest `budget - 1` combinations. -/
def treeWithin (d : Delimiters) (limit : Nat) : (budget : Nat) → Text → Outcome Node
  | 0, _ => reject (.nestingTooDeep limit)
  | budget + 1, text => treeStep d (treeWithin d limit budget) text

/-- The tree of a text whose combinations nest no deeper than `limit`. -/
def combinationTree (d : Delimiters) (limit : Nat) (text : Text) : Outcome Node :=
  treeWithin d limit (limit + 1) text

end InstitutionalGrammar
