/-
  InstitutionalGrammar.Header.Basic — component headers and how they are found.

  A header is a component symbol, a suffix, an annotation in brackets and an opening delimiter,
  without a space between them, and no word character stands before it. What follows a symbol
  decides how much of it belongs to the suffix, so at each place at most one header can start.

  A shape is the header of the component that its symbol and its property marker name; some
  symbols have no property, and then the shape is no header, but the search still passes it.
  - `Header.all`: from left to right, without overlap.
  - `Header.endingAt?`: the header whose delimiter stands at an offset.
  - `TaggedBlock.read`: a text that is one header in front of one block of braces.
-/

import InstitutionalGrammar.Component
import InstitutionalGrammar.Delimiters
import InstitutionalGrammar.Header.Suffix
import InstitutionalGrammar.Text.Blank
import InstitutionalGrammar.Text.Word

namespace InstitutionalGrammar

/-! ## Shapes -/

/-- The parts of a written header. -/
structure Shape where
  base : Text
  suffix : Text
  /-- The annotation with its brackets. -/
  remark : Option Text
  delimiter : Delimiters
  deriving DecidableEq, Repr

namespace Shape

/-- The characters before the delimiter. -/
def lead (s : Shape) : Text := s.base ++ s.suffix ++ s.remark.getD []

def written (s : Shape) : Text := s.lead ++ [s.delimiter.opening]

def isBracket (c : Char) : Bool := c = '[' || c = ']'

/-- The annotation that a text starts with, and the rest; none if a bracket does not close. -/
def readRemark? : Text → Option (Option Text × Text)
  | '[' :: t => match t.dropWhile (!isBracket ·) with
    | ']' :: rest => some (some ('[' :: t.takeWhile (!isBracket ·) ++ [']']), rest)
    | _ => none
  | t => some (none, t)

def readDelimiter? : Text → Option Delimiters
  | c :: _ => if c = Delimiters.parentheses.opening then some .parentheses
    else if c = Delimiters.braces.opening then some .braces
    else none
  | [] => none

/-- The header shape that a text starts with. -/
def read? (t : Text) : Option Shape :=
  match Component.bases.find? (·.isPrefixOf t) with
  | none => none
  | some base =>
    let rest := t.drop base.length
    let suffix := rest.takeWhile Suffix.isSuffixChar
    if Suffix.isWritten suffix then
      match readRemark? (rest.dropWhile Suffix.isSuffixChar) with
      | some (remark, rest) => (readDelimiter? rest).map fun d => ⟨base, suffix, remark, d⟩
      | none => none
    else none

end Shape

/-- A header shape and the byte at which it starts. -/
structure PlacedShape where
  shape : Shape
  start : Nat
  deriving DecidableEq, Repr

namespace PlacedShape

/-- The byte of the delimiter. -/
def delimiterAt (p : PlacedShape) : Nat := p.start + p.shape.lead.size

/-- The shapes that start in a text whose first character is at byte `offset`; `inWord` tells
    whether a word character stands before it. -/
def allFrom (inWord : Bool) (offset : Nat) : Text → List PlacedShape
  | [] => []
  | c :: t =>
    let later := allFrom (isWord c) (offset + c.utf8Size) t
    if inWord then later
    else match Shape.read? (c :: t) with
      | some s => ⟨s, offset⟩ :: later
      | none => later

/-- Every header shape of the text, overlapping ones included, in order of their starts. -/
def all (text : Text) : List PlacedShape := allFrom false 0 text

/-- Of the shapes from byte `stop` on, the first, then the next one behind its end, and so on. -/
def disjointFrom (stop : Nat) : List PlacedShape → List PlacedShape
  | [] => []
  | p :: ps => if stop ≤ p.start then p :: disjointFrom (p.delimiterAt + 1) ps else disjointFrom stop ps

end PlacedShape

/-! ## Headers -/

structure Header where
  component : Component
  suffix : Option Text
  /-- The annotation with its brackets. -/
  remark : Option Text
  /-- The byte of the first character of the symbol. -/
  start : Nat
  /-- The byte of the delimiter. -/
  delimiterAt : Nat
  delimiter : Delimiters
  deriving DecidableEq, Repr

/-- The header of a shape; none if no component has the symbol with that marker. -/
def PlacedShape.header? (p : PlacedShape) : Option Header :=
  let (property, suffix) := Suffix.split p.shape.suffix
  (Component.ofSymbol? p.shape.base property).map fun c =>
    ⟨c, suffix, p.shape.remark, p.start, p.delimiterAt, p.shape.delimiter⟩

/-- The headers of a text from left to right. A shape that is no header still hides those it overlaps. -/
def Header.all (text : Text) : List Header :=
  (PlacedShape.disjointFrom 0 (PlacedShape.all text)).filterMap PlacedShape.header?

/-- Among `shapes`, the leftmost with its delimiter at `offset` decides. -/
def Header.among? (shapes : List PlacedShape) (offset : Nat) : Option Header :=
  (shapes.find? (·.delimiterAt = offset)).bind PlacedShape.header?

/-- The header whose delimiter stands at byte `offset`. -/
def Header.endingAt? (text : Text) (offset : Nat) : Option Header := Header.among? (PlacedShape.all text) offset

/-- A header in front of one block of braces. -/
structure TaggedBlock where
  header : Header
  /-- What stands between the braces. -/
  inner : Text
  deriving DecidableEq, Repr

/-- The tagged block that the trimmed text is. Offsets refer to the trimmed text. -/
def TaggedBlock.read (text : Text) : Outcome (Option TaggedBlock) := do
  let trimmed := text.trim
  match (Shape.read? trimmed).bind fun s => PlacedShape.header? ⟨s, 0⟩ with
  | none => return none
  | some header =>
    if header.delimiter ≠ .braces then return none
    match ← closeOf trimmed header.delimiterAt .braces with
    | none => return none
    | some close =>
      if close + 1 ≠ trimmed.size then return none
      return some ⟨header, ← trimmed.slice (header.delimiterAt + 1) close⟩

end InstitutionalGrammar
