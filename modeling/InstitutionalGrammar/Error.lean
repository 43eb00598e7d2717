/-
  InstitutionalGrammar.Error — why a statement is refused.

  A `ParseError` is a cause; its code, category and wording are functions of it. A `Failure`
  is what a computation on offsets can end with besides: a cut that does not fall on the text,
  or regrouping that does not settle. A `Report` has the blocks that were ignored on the way
  beside its result; what was reported stays so when the computation fails later.
-/

import InstitutionalGrammar.Text.Basic

namespace InstitutionalGrammar

inductive ParseError where
  /-- The delimiters of one kind do not net to zero. -/
  | imbalancedDelimiters (opening closing : Char) (opened closed : Nat)
  /-- A delimiter closes before its counterpart opened. -/
  | misorderedDelimiter (delimiter : Char) (position : Position)
  /-- An operator stands outside every combination. -/
  | operatorOutsideCombination (operator : Text) (position : Position)
  /-- Two different operators share one level. -/
  | mixedOperators (first second : Text) (position : Position)
  /-- Nothing but white space stands on one side of an operator. -/
  | emptyOperand (context : Text) (position : Position)
  /-- The delimiter of a component never closes. -/
  | unterminatedComponent (component : Text) (position : Position)
  | componentNotFound (component : Text)
  /-- The same component entry occurs twice to the letter. -/
  | duplicateComponent (entry : Text)
  /-- More than one combination of pairs on one level. -/
  | multipleComponentPairs (pairs : List Text)
  /-- Trees of two different components are joined. -/
  | mismatchedComponentTypes (left right : Text)
  | invalidNestedCombination (text reason : Text)
  | unknownOperator (token : Text)
  /-- A nested statement is attached to a component that holds none. -/
  | unsupportedNesting (component : Text)
  /-- The outer statement and an element of a pair populate one slot differently. -/
  | conflictingPairField (component pair : Text)
  | invalidComponentPair (text reason : Text)
  | emptyStatement
  | nestingTooDeep (limit : Nat)
  /-- Blocks, to the letter, that belong to no component. -/
  | ignoredElements (elements : List Text)
  | invalidOptions (reason : Text)
  | invalidNodePath (path : Text)
  deriving DecidableEq, Repr

inductive ErrorCategory where
  /-- The shape of delimiters, operators and operands. -/
  | structural
  /-- A requested component is absent. -/
  | lookup
  /-- The text admits more than one reading. -/
  | ambiguity
  /-- Trees or operators do not fit together. -/
  | composition
  /-- Nothing usable was coded. -/
  | completeness
  /-- Reported beside a result. -/
  | soft
  deriving DecidableEq, Repr

namespace ParseError

/-- The stable name of the kind of error. -/
def code : ParseError → String
  | imbalancedDelimiters .. => "IMBALANCED_DELIMITERS"
  | misorderedDelimiter .. => "MISORDERED_DELIMITER"
  | operatorOutsideCombination .. => "OPERATOR_OUTSIDE_COMBINATION"
  | mixedOperators .. => "MIXED_OPERATORS"
  | emptyOperand .. => "EMPTY_OPERAND"
  | unterminatedComponent .. => "UNTERMINATED_COMPONENT"
  | componentNotFound .. => "COMPONENT_NOT_FOUND"
  | duplicateComponent .. => "DUPLICATE_COMPONENT"
  | multipleComponentPairs .. => "MULTIPLE_COMPONENT_PAIRS"
  | mismatchedComponentTypes .. => "MISMATCHED_COMPONENT_TYPES"
  | invalidNestedCombination .. => "INVALID_NESTED_COMBINATION"
  | unknownOperator .. => "UNKNOWN_OPERATOR"
  | unsupportedNesting .. => "UNSUPPORTED_NESTING"
  | conflictingPairField .. => "CONFLICTING_PAIR_FIELD"
  | invalidComponentPair .. => "INVALID_COMPONENT_PAIR"
  | emptyStatement => "EMPTY_STATEMENT"
  | nestingTooDeep .. => "NESTING_TOO_DEEP"
  | ignoredElements .. => "IGNORED_ELEMENTS"
  | invalidOptions .. => "INVALID_OPTIONS"
  | invalidNodePath .. => "INVALID_NODE_PATH"

def category : ParseError → ErrorCategory
  | imbalancedDelimiters .. | misorderedDelimiter .. | operatorOutsideCombination .. | mixedOperators ..
  | emptyOperand .. | unterminatedComponent .. | nestingTooDeep .. => .structural
  | componentNotFound .. => .lookup
  | duplicateComponent .. | multipleComponentPairs .. | mismatchedComponentTypes ..
  | invalidNestedCombination .. | conflictingPairField .. => .ambiguity
  | unknownOperator .. | unsupportedNesting .. | invalidOptions .. | invalidNodePath .. => .composition
  | invalidComponentPair .. | emptyStatement => .completeness
  | ignoredElements .. => .soft

/-- Whether the error ends the parse that meets it. -/
def isFatal (e : ParseError) : Bool := e.category != .lookup && e.category != .soft

/-- The parts of the input the error speaks of. -/
def elements : ParseError → List Text
  | ignoredElements es => es
  | multipleComponentPairs ps => ps
  | _ => []

def quoted (t : Text) : String := "'" ++ String.ofList t ++ "'"

def listed (ts : List Text) : String := String.ofList (Text.join [',', ' '] ts)

/-- The wording that a reader of the error sees. -/
def message : ParseError → String
  | imbalancedDelimiters o c m n =>
    "Imbalanced delimiters: " ++ toString m ++ " " ++ quoted [o] ++ " vs. " ++ toString n ++ " " ++ quoted [c]
  | misorderedDelimiter d p => "Unexpected closing delimiter " ++ quoted [d] ++ " at " ++ p.render
  | operatorOutsideCombination o p =>
    "Logical operator " ++ String.ofList o ++ " at " ++ p.render ++ " is not enclosed in a combination"
  | mixedOperators a b p =>
    "Mixed operators " ++ String.ofList a ++ " and " ++ String.ofList b ++ " at " ++ p.render ++
      ", use parentheses to disambiguate"
  | emptyOperand t p => "Empty operand near " ++ p.render ++ ": " ++ quoted t
  | unterminatedComponent c p => "Unterminated component " ++ quoted c ++ " starting at " ++ p.render
  | componentNotFound c => "Component " ++ String.ofList c ++ " not found"
  | duplicateComponent t => "Duplicate component entry " ++ quoted t
  | multipleComponentPairs ps => "Multiple component pair combinations on one level: " ++ listed ps
  | mismatchedComponentTypes l r =>
    "Cannot combine component types " ++ String.ofList l ++ " and " ++ String.ofList r
  | invalidNestedCombination t r => "Invalid nested combination " ++ quoted t ++ ": " ++ String.ofList r
  | unknownOperator t => "Unknown logical operator " ++ quoted t
  | unsupportedNesting c => "Component " ++ String.ofList c ++ " does not support nested statements"
  | conflictingPairField c p =>
    "Component " ++ String.ofList c ++ " populated both outside and inside component pair " ++ quoted p
  | invalidComponentPair t r => "Invalid component pair " ++ quoted t ++ ": " ++ String.ofList r
  | emptyStatement => "Empty statement: no IG-Script components found"
  | nestingTooDeep n => "Nesting depth exceeds limit of " ++ toString n
  | ignoredElements es => "Ignored elements: " ++ listed es
  | invalidOptions r => "Invalid parse options: " ++ String.ofList r
  | invalidNodePath p => "Invalid node path " ++ String.ofList p

end ParseError

/-- How a computation on a text fails. -/
inductive Failure where
  | rejected (cause : ParseError)
  /-- A cut past the end of the text, inside a character, or with its ends the wrong way round. -/
  | misplacedCut
  /-- More regroupings than the text has operators. -/
  | unsettled
  deriving DecidableEq, Repr

/-- What a computation on a text comes to. -/
abbrev Outcome := Except Failure

instance : MonadLift (Except ParseError) Outcome := ⟨Except.mapError .rejected⟩

def reject {α : Type} (cause : ParseError) : Outcome α := .error (.rejected cause)

/-- The bytes from `start` up to, not including, `stop`. -/
def Text.slice (t : Text) (start stop : Nat) : Outcome Text :=
  match t.slice? start stop with
  | some s => .ok s
  | none => .error .misplacedCut

/-! ## Reports -/

/-- A result and the blocks ignored on the way to it. -/
structure Report (α : Type) where
  ignored : List Text
  result : Outcome α

namespace Report

def bind {α β : Type} (r : Report α) (f : α → Report β) : Report β :=
  match r.result with
  | .error cause => ⟨r.ignored, .error cause⟩
  | .ok a => ⟨r.ignored ++ (f a).ignored, (f a).result⟩

instance : Monad Report where
  pure a := ⟨[], .ok a⟩
  bind := bind

instance : MonadLift Outcome Report := ⟨fun r => ⟨[], r⟩⟩

instance : MonadLift (Except ParseError) Report := ⟨fun r => ⟨[], r.mapError .rejected⟩⟩

/-- Report a block as ignored. -/
def ignore (block : Text) : Report Unit := ⟨[block], .ok ()⟩

end Report

end InstitutionalGrammar
