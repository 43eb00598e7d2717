/-
  InstitutionalGrammar.Reading.Outline — the blocks of a statement and the text around them.

  A block is a pair of braces outside all parentheses and other blocks, together with the header
  in front of it. One behind a header is a nested statement or a combination of nested
  statements; one without is a combination of fragments, a pair. The atomic text is the text
  with every block blanked out, so that offsets stay what they were.
-/

import InstitutionalGrammar.Combination.Tree
import InstitutionalGrammar.Node.Path
import InstitutionalGrammar.Node.Render

namespace InstitutionalGrammar

/-- What a block stands for. -/
inductive BlockContent where
  /-- One nested statement, as in `Cac{A(x) I(y)}`. -/
  | nested (header : Header) (inner : Text)
  /-- Nested statements joined by operators; its leaves are tagged blocks. -/
  | combined (header : Header) (tree : Node)
  /-- Fragments joined by operators. -/
  | pair (tree : Node)
  /-- Nothing that belongs to a component. -/
  | stray

/-- A pair of braces with the header in front of it. -/
structure Block where
  /-- The byte of the header, or of the opening brace if there is none. -/
  start : Nat
  /-- The byte behind the closing brace. -/
  stop : Nat
  raw : Text
  content : BlockContent

structure Outline where
  /-- The text with spaces in place of every block. -/
  atomic : Text
  blocks : List Block

/-! ## Blocks -/

/-- The outermost pairs of braces outside parentheses, by the offsets of both braces. `parens`
    and `braces` are open so far, the outermost brace at `opened`. -/
def braceBounds (parens braces : Nat) (opened : Option Nat) : List Token → List (Nat × Nat)
  | [] => []
  | t :: ts => match t.lexeme with
    | .opening .parentheses =>
      braceBounds (if braces = 0 then parens + 1 else parens) braces opened ts
    | .closing .parentheses =>
      braceBounds (if braces = 0 then parens - 1 else parens) braces opened ts
    | .opening .braces =>
      if parens = 0 then
        braceBounds parens (braces + 1) (if braces = 0 then some t.position.offset else opened) ts
      else braceBounds parens braces opened ts
    | .closing .braces =>
      if parens = 0 then
        if braces ≤ 1 then
          opened.toList.map (·, t.position.offset) ++ braceBounds parens 0 none ts
        else braceBounds parens (braces - 1) opened ts
      else braceBounds parens braces opened ts
    | _ => braceBounds parens braces opened ts

/-- Whether a node or one below it has shared text. -/
def Node.hasShared : Node → Bool
  | .combination _ l r m _ =>
    !m.sharedLeft.isEmpty || !m.sharedRight.isEmpty || l.hasShared || r.hasShared
  | .leaf _ m _ => !m.sharedLeft.isEmpty || !m.sharedRight.isEmpty

/-- Whether a leaf holds the text of a tagged block. -/
def isTaggedLeaf (leaf : Node) : Outcome Bool :=
  match leaf.text? with
  | none => return false
  | some text => return (← TaggedBlock.read text).isSome

/-- The tree of a block that combines tagged blocks and nothing else. -/
def taggedTree? (limit : Nat) (braced : Text) : Outcome (Option Node) :=
  match combinationTree .braces limit braced with
  | .error (.rejected _) => return none
  | .error cause => .error cause
  | .ok tree => do
    if tree.isLeaf || tree.hasShared then return none
    if ← tree.leaves.allM isTaggedLeaf then return some tree
    return none

/-- The combinations under written operators that the synthetic conjunction joins at the top. -/
def writtenCombinations : Node → List Node
  | .combination .syntheticAnd l r _ _ => writtenCombinations l ++ writtenCombinations r
  | .leaf .. => []
  | n => [n]

/-- What a block behind a header is. -/
def taggedContent (limit : Nat) (header : Header) (inner braced : Text) : Outcome BlockContent := do
  if !header.component.nests then return .stray
  match ← taggedTree? limit braced with
  | some tree => return .combined header tree
  | none => return .nested header inner

/-- What a block without a header is. -/
def untaggedContent (limit : Nat) (inner braced : Text) : Outcome BlockContent := do
  if inner.trim.isEmpty then return .stray
  let tree ← combinationTree .braces limit braced
  let pairs := writtenCombinations tree
  if pairs.length > 1 then reject (.multipleComponentPairs (pairs.map Node.render))
  return if tree.isCombination then .pair tree else .stray

/-- The block between the braces at `left` and `right`. -/
def blockAt (limit : Nat) (text : Text) (shapes : List PlacedShape) : Nat × Nat → Outcome Block
  | (left, right) => do
    let inner ← text.slice (left + 1) right
    match Header.among? shapes left with
    | some header =>
      let raw ← text.slice header.start (right + 1)
      let content ← taggedContent limit header inner (← text.slice left (right + 1))
      return ⟨header.start, right + 1, raw, content⟩
    | none =>
      let raw ← text.slice left (right + 1)
      return ⟨left, right + 1, raw, ← untaggedContent limit inner raw⟩

/-! ## Outline -/

/-- The text from byte `cursor` on, with spaces in place of the blocks. A block that starts before
    the end of the one before it cannot be laid out. -/
def blankOut (text : Text) (cursor : Nat) : List Block → Outcome Text
  | [] => text.slice cursor text.size
  | b :: bs => do
    let before ← text.slice cursor b.start
    return before ++ List.replicate (b.stop - b.start) ' ' ++ (← blankOut text b.stop bs)

/-- The outline of a text in which combinations nest no deeper than `limit`. -/
def Outline.of (limit : Nat) (text : Text) : Outcome Outline := do
  let shapes := PlacedShape.all text
  let blocks ← (braceBounds 0 0 none (tokens text)).mapM (blockAt limit text shapes)
  return ⟨← blankOut text 0 blocks, blocks⟩

end InstitutionalGrammar
