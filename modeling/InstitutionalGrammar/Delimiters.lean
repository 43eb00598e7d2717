/-
  InstitutionalGrammar.Delimiters — the two kinds of delimiters and what they enclose.

  Parentheses scope the content of a component, braces nested statements and pairs.
  - `requireBalanced`: both kinds net to zero and neither ever closes early.
  - `closeOf`: where the delimiter opened at an offset closes, counting one kind only.
-/

import InstitutionalGrammar.Error

namespace InstitutionalGrammar

inductive Delimiters where
  | parentheses
  | braces
  deriving DecidableEq, Repr

namespace Delimiters

def opening : Delimiters → Char
  | parentheses => '('
  | braces => '\x7b'

def closing : Delimiters → Char
  | parentheses => ')'
  | braces => '\x7d'

theorem opening_ne_closing (d e : Delimiters) : d.opening ≠ e.closing := by cases d <;> cases e <;> decide

end Delimiters

/-! ## Balance -/

/-- The offset of the first closing delimiter of kind `d` that has no counterpart, when `depth`
    of them are open at byte `offset`. -/
def firstExcess? (d : Delimiters) (depth offset : Nat) : Text → Option Nat
  | [] => none
  | c :: t =>
    if c = d.opening then firstExcess? d (depth + 1) (offset + c.utf8Size) t
    else if c = d.closing then
      match depth with
      | 0 => some offset
      | k + 1 => firstExcess? d k (offset + c.utf8Size) t
    else firstExcess? d depth (offset + c.utf8Size) t

/-- Totals are compared before the order is. -/
def requireBalancedIn (d : Delimiters) (text : Text) : Except ParseError Unit :=
  if text.count d.opening ≠ text.count d.closing then
    .error (.imbalancedDelimiters d.opening d.closing (text.count d.opening) (text.count d.closing))
  else match firstExcess? d 0 0 text with
    | some offset => .error (.misorderedDelimiter d.closing (Position.locate text offset))
    | none => .ok ()

/-- Parentheses are checked before braces; each kind is counted without regard to the other. -/
def requireBalanced (text : Text) : Except ParseError Unit := do
  requireBalancedIn .parentheses text
  requireBalancedIn .braces text

/-! ## Matching -/

/-- The offset at which the depth returns to zero, when `depth` delimiters of kind `d` are open at
    byte `offset`. -/
def closeFrom? (d : Delimiters) (depth offset : Nat) : Text → Option Nat
  | [] => none
  | c :: t =>
    if c = d.opening then closeFrom? d (depth + 1) (offset + c.utf8Size) t
    else if c = d.closing then
      match depth with
      | 0 => none
      | 1 => some offset
      | k + 2 => closeFrom? d (k + 1) (offset + c.utf8Size) t
    else closeFrom? d depth (offset + c.utf8Size) t

/-- The offset of the delimiter that closes the first one opened from byte `start` on; none if a
    closing one comes first or it never closes. -/
def closeOf (text : Text) (start : Nat) (d : Delimiters) : Outcome (Option Nat) :=
  match text.dropBytes? start with
  | some rest => .ok (closeFrom? d 0 start rest)
  | none => .error .misplacedCut

end InstitutionalGrammar
