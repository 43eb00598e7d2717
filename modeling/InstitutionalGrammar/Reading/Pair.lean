/-
  InstitutionalGrammar.Reading.Pair — one statement for each element of a pair.

  Every element of a pair is read as a statement and takes over the slots of the statement
  around the pair. Slots that only the outer statement populates are copied; a slot that both
  populate must hold the same tree in both, for neither could take precedence. A property of the
  outer statement that finds its owner in one element is dropped from the elements that own no
  such instance. `read` reads an element.
-/

import InstitutionalGrammar.Node.Equality
import InstitutionalGrammar.Options.Reader
import InstitutionalGrammar.Reading.Outline
import InstitutionalGrammar.Statement.Ownership

namespace InstitutionalGrammar

/-! ## Inheritance -/

namespace Statement

/-- Take over these slots in order, up to the first conflict; what was copied before it stays. -/
def inheritSlots (context : Text) : List (Slot × Node) → Statement → Statement × Except ParseError Unit
  | [], s => (s, .ok ())
  | (slot, tree) :: rest, s => match s.get slot with
    | none => inheritSlots context rest (s.put slot (some tree))
    | some own =>
      if own = tree then inheritSlots context rest s
      else (s, .error (.conflictingPairField slot.component.symbol context))

/-- Take over the slots of `outer`; `context` is the pair that an error names. -/
def inherit (s outer : Statement) (context : Text) : Statement × Except ParseError Unit :=
  inheritSlots context outer.populated s

end Statement

/-! ## Elements -/

/-- Move the shared text of combinations into every text leaf below them; the text shared by an
    outer combination stands outside that of an inner one. -/
def Node.spreadShared (before after : List Text) : Node → Node
  | .combination o l r m p =>
    let before := before ++ m.sharedLeft
    let after := m.sharedRight ++ after
    .combination o (l.spreadShared before after) (r.spreadShared before after)
      { m with sharedLeft := [], sharedRight := [] } p
  | .leaf (.text v) m p => .leaf (.text (joinSpaced (before ++ [v] ++ after))) m p
  | n => n

def emptyElementReason : Text := "empty pair element".toList

def looseOperatorReason (o : Operator) (fragment : Text) : Text :=
  "un-combined operator ".toList ++ o.token ++ " in '".toList ++ fragment ++ ['\'']

/-- Change the statement of a leaf. -/
def onStatement (f : Statement → Except ParseError Statement) : Node → Except ParseError Node
  | .leaf (.nested s) m p => return .leaf (.nested (← f s)) m p
  | n => return n

/-- The statement of an element with the slots of the outer one. -/
def inheritOuter (options : Options) (outer : Statement) (raw : Text) (s : Statement) :
    Except ParseError Statement := do
  let (s, taken) := s.inherit outer raw
  taken
  if options.linksProperties then
    let (s, _) ← s.link .simple
    let (s, _) ← s.link .complex
    return s
  return s

/-- The statements of one element. -/
def elementOutput (options : Options) (read : Text → Report Node) (outer : Statement) (raw : Text)
    (leaf : Node) : Report Node := do
  let fragment := leaf.text?.getD []
  if fragment.isEmpty then
    (reject (.invalidComponentPair raw emptyElementReason) : Outcome _)
  match outerOperators fragment with
  | (o, _) :: _ => (reject (.invalidComponentPair raw (looseOperatorReason o fragment)) : Outcome _)
  | [] =>
    let tree ← read fragment
    (tree.mapLeavesM (onStatement (inheritOuter options outer raw)) : Except ParseError _)

/-- Drop the properties with the keys `unowned` from every statement that does not own them, if
    another one does. -/
def eraseForeign (unowned : List (Component × Text)) (tree : Node) : Except ParseError Node :=
  let owned := (tree.leaves.filterMap Node.statement?).flatMap (Statement.keys false)
  match unowned.filter owned.contains with
  | [] => .ok tree
  | claimed => tree.mapLeavesM <| onStatement fun s => do
    let own := s.keys false
    let (s, _) ← s.eraseKeys (claimed.filter (!own.contains ·))
    return s

/-- The statements of a pair inside the statement `outer`. -/
def pairOutput (options : Options) (read : Text → Report Node) (outer : Statement) (raw : Text)
    (tree : Node) : Report Node := do
  let tree ← (tree.spreadShared [] []).mapLeavesM (elementOutput options read outer raw)
  if options.linksProperties then eraseForeign (outer.keys true) tree else return tree

end InstitutionalGrammar
