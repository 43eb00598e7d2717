/-
  InstitutionalGrammar.ComponentTree — the coded content of one component of a statement.

  Every occurrence of the component becomes a tree, marked with what its header says; several
  are joined by the synthetic conjunction in textual order. No entry may be written twice.
-/

import InstitutionalGrammar.Combination.Tree
import InstitutionalGrammar.Header.Basic

namespace InstitutionalGrammar

/-! ## Occurrences -/

/-- A header with the content that its delimiters enclose. -/
structure Occurrence where
  header : Header
  /-- The byte of the closing delimiter. -/
  close : Nat
  /-- From the symbol to the closing delimiter. -/
  raw : Text
  /-- From the opening to the closing delimiter. -/
  body : Text
  deriving DecidableEq, Repr

/-- The occurrence that starts with `header` in `text`. -/
def Occurrence.ofHeader (text : Text) (header : Header) : Outcome Occurrence := do
  match ← closeOf text header.delimiterAt header.delimiter with
  | none => reject (.unterminatedComponent header.component.symbol (Position.locate text header.start))
  | some close =>
    return ⟨header, close, ← text.slice header.start (close + 1), ← text.slice header.delimiterAt (close + 1)⟩

/-- Every occurrence of `component` in `text` that is delimited by `delimiters`. -/
def Occurrence.all (text : Text) (component : Component) (delimiters : Delimiters) : Outcome (List Occurrence) :=
  ((Header.all text).filter fun h => h.component = component && h.delimiter = delimiters).mapM
    (Occurrence.ofHeader text)

/-! ## Trees -/

/-- The tree of one occurrence. -/
def occurrenceTree (limit : Nat) (o : Occurrence) : Outcome Node := do
  let tree ← combinationTree .parentheses limit o.body
  return tree.label o.header.component o.header.suffix o.header.remark

/-- The trees of the occurrences, none of which may repeat one of them or of the entries `seen`. -/
def occurrenceTrees (limit : Nat) (seen : List Text) : List Occurrence → Outcome (List Node)
  | [] => return []
  | o :: os => do
    if seen.contains o.raw then reject (.duplicateComponent o.raw)
    let tree ← occurrenceTree limit o
    return tree :: (← occurrenceTrees limit (o.raw :: seen) os)

/-- The tree of the component `c` in a text whose combinations nest no deeper than `limit`. -/
def componentTree (limit : Nat) (c : Component) (text : Text) : Outcome Node := do
  let trees ← occurrenceTrees limit [] (← Occurrence.all text c .parentheses)
  match ← Node.fold? .syntheticAnd trees with
  | none => reject (.componentNotFound c.symbol)
  | some tree => return tree.withComponent c

/-- The component's tree, if it occurs. -/
def componentTree? (limit : Nat) (c : Component) (text : Text) : Outcome (Option Node) :=
  match componentTree limit c text with
  | .ok tree => .ok (some tree)
  | .error (.rejected (.componentNotFound _)) => .ok none
  | .error cause => .error cause

end InstitutionalGrammar
