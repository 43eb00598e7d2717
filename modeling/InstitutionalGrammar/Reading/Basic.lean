/-
  InstitutionalGrammar.Reading.Basic — a whole statement from its text.

  The atomic text fills the simple slots, nested statements fill the complex ones, and a pair
  makes one statement of each of its elements. Nested statements and elements of pairs are read
  the same way, one level deeper.
-/

import InstitutionalGrammar.Reading.Nested
import InstitutionalGrammar.Reading.Pair
import InstitutionalGrammar.ComponentTree

namespace InstitutionalGrammar

/-- What reading a text leaves behind. -/
structure Reading where
  result : Outcome Node
  /-- The blocks that belong to no component. -/
  ignored : List Text
  /-- The statement of the text itself, without its pair, as far as it was built. -/
  outer : Option Statement

namespace Reading

/-- What the text around this one sees of the reading. -/
def report (r : Reading) : Report Node := ⟨r.ignored, r.result⟩

/-- Fill the simple slots from the atomic text. -/
def atomicStatement (limit : Nat) (atomic : Text) : Outcome Statement :=
  Component.all.foldlM (fun s c => do
    match ← componentTree? limit c atomic with
    | none => return s
    | some tree => return s.put (.simple c) (some tree)) Statement.empty

/-- The statement with the properties in slots of that kind linked, if the options ask for it. -/
def linked (options : Options) (kind : SlotKind) (s : Statement) : Except ParseError Statement := do
  if options.linksProperties then
    let (s, _) ← s.link kind
    return s
  return s

/-- The outline of a text and the statement of its atomic text. -/
def draft (options : Options) (text : Text) : Outcome (Outline × Statement) := do
  requireBalanced text
  let outline ← Outline.of options.depthLimit text
  let s ← atomicStatement options.depthLimit outline.atomic
  return (outline, ← linked options .simple s)

/-- The statement with its nested statements. -/
def complete (options : Options) (read : Text → Report Node) (outline : Outline) (s : Statement) :
    Report Statement := do
  let s ← attachBlocks options read outline s
  linked options .complex s

/-- The pairs among the blocks, with their trees. -/
def pairs (blocks : List Block) : List (Text × Node) :=
  blocks.filterMap fun b => match b.content with
    | .pair tree => some (b.raw, tree)
    | _ => none

/-- The output of a statement: itself, or the statements of its pair. -/
def output (options : Options) (read : Text → Report Node) (outline : Outline) (s : Statement) :
    Report Node :=
  match pairs outline.blocks with
  | [] => if s.isEmpty then (reject .emptyStatement : Outcome _) else return .nested s
  | [(raw, tree)] => pairOutput options read s raw tree
  | ps => (reject (.multipleComponentPairs (ps.map (·.1))) : Outcome _)

/-- Read a text, when `read` reads the texts inside it. -/
def step (options : Options) (read : Text → Report Node) (text : Text) : Reading :=
  match draft options text with
  | .error cause => ⟨.error cause, [], none⟩
  | .ok (outline, s) =>
    let completed := complete options read outline s
    match completed.result with
    | .error cause => ⟨.error cause, completed.ignored, some s⟩
    | .ok s =>
      let out := output options read outline s
      ⟨out.result, completed.ignored ++ out.ignored, some s⟩

/-- Read a text in which statements may nest `budget - 1` deep. -/
def within (options : Options) : (budget : Nat) → Text → Report Node
  | 0, _ => (reject (.nestingTooDeep options.depthLimit) : Outcome _)
  | budget + 1, text => (step options (within options budget) text).report

/-- The reading of a text in which statements may nest as deep as the options allow. -/
def of (options : Options) (text : Text) : Reading :=
  step options (within options options.depthLimit) text

end Reading

end InstitutionalGrammar
