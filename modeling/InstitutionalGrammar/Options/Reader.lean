/-
  InstitutionalGrammar.Options.Reader — the choices of a parse, and how they are written as JSON.

  An object names the options it sets, an array lists them in order; what is left out keeps its
  default. An object may have members that are no options, but none twice that is one.
-/

import InstitutionalGrammar.Token
import InstitutionalGrammar.Options.Json

namespace InstitutionalGrammar

structure Options where
  /-- What joins several nested statements of one component; read from the text if there is none. -/
  nestedOperator : Option Operator := none
  /-- Whether properties move to the instance that has their suffix key. -/
  linksProperties : Bool := true
  /-- How deep combinations and statements may nest. -/
  depthLimit : Nat := 64
  deriving DecidableEq, Repr

/-! ## Options written as JSON -/

inductive OptionsError where
  /-- The text is no JSON, or a value has the wrong form. -/
  | malformed
  | zeroDepth
  /-- The synthetic conjunction is never written and cannot be asked for. -/
  | syntheticOperator
  deriving DecidableEq, Repr

def OptionsError.reason : OptionsError → Text
  | malformed => "malformed document".toList
  | zeroDepth => "max_nesting_depth must be at least 1".toList
  | syntheticOperator => "nested_operator must be an explicit operator".toList

def OptionsError.cause (e : OptionsError) : ParseError := .invalidOptions e.reason

namespace Options

/-- The largest depth limit that can be written. -/
def maxDepthLimit : Nat := 18446744073709551615

def operatorNamed? (name : Text) : Option Operator :=
  [("And", Operator.and), ("Or", .or), ("Xor", .xor), ("SyntheticAnd", .syntheticAnd)].findSome? fun p =>
    if p.1.toList = name then some p.2 else none

/-- An operator is written as its name, or as an object with that name and null. -/
def operatorOf? : Json → Option (Option Operator)
  | .null => some none
  | .string (some name) => (operatorNamed? name).map some
  | .object [(some name, .null)] => (operatorNamed? name).map some
  | _ => none

/-- A depth is written as a natural number within the limit. -/
def depthOf? : Json → Option Nat
  | .number (some n) => if n ≤ maxDepthLimit then some n else none
  | _ => none

/-- The options that can be set, in the order in which an array lists them. -/
inductive Field where
  | nestedOperator
  | linksProperties
  | depthLimit
  deriving DecidableEq, Repr

namespace Field

def all : List Field := [nestedOperator, linksProperties, depthLimit]

def name : Field → Text
  | nestedOperator => "nested_operator".toList
  | linksProperties => "resolve_private_links".toList
  | depthLimit => "max_nesting_depth".toList

def named? (key : Text) : Option Field := all.find? (·.name = key)

/-- Set a field to a value of its form. -/
def set? (o : Options) (value : Json) : Field → Option Options
  | nestedOperator => (operatorOf? value).map fun op => { o with nestedOperator := op }
  | linksProperties => match value with
    | .bool b => some { o with linksProperties := b }
    | _ => none
  | depthLimit => (depthOf? value).map fun n => { o with depthLimit := n }

end Field

/-- Set the options that the members name; `left` are those not yet named. -/
def ofMembers? (left : List Field) (o : Options) : List (Option Text × Json) → Option Options
  | [] => some o
  | (none, _) :: _ => none
  | (some key, value) :: ms => match Field.named? key with
    | none => ofMembers? left o ms
    | some field =>
      if left.contains field then
        (field.set? o value).bind fun o => ofMembers? (left.erase field) o ms
      else none

/-- Set the options in order. -/
def ofItems? : List Field → Options → List Json → Option Options
  | _, o, [] => some o
  | [], _, _ :: _ => none
  | field :: fields, o, value :: vs => (field.set? o value).bind fun o => ofItems? fields o vs

def ofJson? : Json → Option Options
  | .object members => ofMembers? Field.all {} members
  | .array items => ofItems? Field.all {} items
  | _ => none

/-- The options that a text sets. -/
def read (text : Text) : Except OptionsError Options :=
  match (Json.ofText? text).bind ofJson? with
  | none => .error .malformed
  | some o =>
    if o.depthLimit = 0 then .error .zeroDepth
    else if o.nestedOperator = some .syntheticAnd then .error .syntheticOperator
    else .ok o

end Options

end InstitutionalGrammar
