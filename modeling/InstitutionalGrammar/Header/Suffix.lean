/-
  InstitutionalGrammar.Header.Suffix — the suffix written behind a component symbol.

  A suffix is a list of segments separated by commas. The first segment is the linkage key; a
  later segment `p`, with or without digits, marks the component as a property.
-/

import InstitutionalGrammar.Text.Basic

namespace InstitutionalGrammar.Suffix

/-- The digits behind the property marker, if the segment is one. -/
def markerDigits? : Text → Option Text
  | 'p' :: digits => if digits.all Char.isDigit then some digits else none
  | _ => none

/-- The segments without their first property marker; its digits stay behind as a segment. -/
def dropMarker? : List Text → Option (List Text)
  | [] => none
  | s :: ss => match markerDigits? s with
    | some [] => some ss
    | some digits => some (digits :: ss)
    | none => (dropMarker? ss).map (s :: ·)

/-- The segments with commas between them, if that is any text. -/
def compose (segments : List Text) : Option Text :=
  match Text.join [','] segments with
  | [] => none
  | t => some t

/-- Whether a raw suffix marks a property, and the suffix without the marker. An empty first
    segment is left out. -/
def split (raw : Text) : Bool × Option Text :=
  match Text.pieces ',' raw with
  | [] => (false, none)
  | first :: later =>
    let kept := if first = [] then [] else [first]
    match dropMarker? later with
    | some rest => (true, compose (kept ++ rest))
    | none => (false, compose (kept ++ later))

/-- The first segment, if it is not empty. -/
def key? (suffix : Text) : Option Text :=
  match (Text.pieces ',' suffix).head? with
  | some [] => none
  | k => k

/-! ## Written suffixes -/

def isTail (c : Char) : Bool := c.isAlphanum || c = '_'

def isSuffixChar (c : Char) : Bool := isTail c || c = ','

/-- A suffix may start with a digit, a capital or an underscore, or with the first comma; the
    later segments are not empty. -/
def isWritten (t : Text) : Bool :=
  match Text.pieces ',' t with
  | [] => true
  | first :: later =>
    (match first with
      | [] => true
      | c :: r => (c.isDigit || c.isUpper || c = '_') && r.all isTail) &&
      later.all fun s => s ≠ [] && s.all isTail

example : split [',', 'p', '1', ',', '5', '5'] = (true, some ['1', ',', '5', '5']) := by decide
example : split ['A', ',', 'p', 'a'] = (false, some ['A', ',', 'p', 'a']) := by decide

end InstitutionalGrammar.Suffix
