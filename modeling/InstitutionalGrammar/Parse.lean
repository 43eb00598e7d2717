/-
  InstitutionalGrammar.Parse — the statements that a text codes.

  A parse ends with a tree of statements or is refused; either way blocks that belong to no
  component are reported in a warning, and a refusal shows how much of the outermost statement
  was read.
-/

import InstitutionalGrammar.Reading.Basic

namespace InstitutionalGrammar

structure Parsed where
  /-- A nested statement, or several joined by operators where a pair made several. -/
  tree : Node
  warnings : List ParseError

structure Refusal where
  cause : Failure
  /-- The outermost statement as far as it was read. -/
  outer : Option Node
  warnings : List ParseError

namespace Parsed

/-- The output statements from left to right. -/
def statements (p : Parsed) : List Statement := p.tree.leaves.filterMap Node.statement?

/-- The blocks that the warnings name. -/
def ignored (p : Parsed) : List Text := p.warnings.flatMap ParseError.elements

end Parsed

/-- The warnings about ignored blocks: one for all, none for none. -/
def warningsOf : List Text → List ParseError
  | [] => []
  | blocks => [.ignoredElements blocks]

/-- Read a text as one coded statement with everything nested in it. -/
def parse (options : Options) (text : Text) : Except Refusal Parsed :=
  let r := Reading.of options text
  match r.result with
  | .ok tree => .ok ⟨tree, warningsOf r.ignored⟩
  | .error cause => .error ⟨cause, r.outer.map .nested, warningsOf r.ignored⟩

end InstitutionalGrammar
