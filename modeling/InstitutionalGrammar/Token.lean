/-
  InstitutionalGrammar.Token — delimiters, logical operators and the text between them.

  Three operators are written. The synthetic conjunction joins what stands side by side without a
  written operator; it has a name but no written form.

  Lexing is total: whatever is neither a delimiter nor a written operator is text, annotation
  brackets included, and neighbouring characters of text make one lexeme. A token is a lexeme
  with the place where it stands.
  - `lex_written`: the written forms of the lexemes, one after another, are the text.
-/

import InstitutionalGrammar.Delimiters
import InstitutionalGrammar.Text.Blank

namespace InstitutionalGrammar

/-! ## Operators -/

inductive Operator where
  | and
  | or
  | xor
  | syntheticAnd
  deriving DecidableEq, Repr

namespace Operator

def isSynthetic (o : Operator) : Bool := o = syntheticAnd

def name : Operator → Text
  | and => ['A', 'N', 'D']
  | or => ['O', 'R']
  | xor => ['X', 'O', 'R']
  | syntheticAnd => ['b', 'A', 'N', 'D']

/-- The written form; the synthetic conjunction shows its name. -/
def token : Operator → Text
  | syntheticAnd => syntheticAnd.name
  | o => ['['] ++ o.name ++ [']']

/-- The operator that a name or a token stands for, whatever brackets and white space surround it. -/
def read (token : Text) : Except ParseError Operator :=
  let bare := Text.stripEnd (· = ']') (Text.stripStart (· = '[') token.trim)
  match [and, or, xor, syntheticAnd].find? (·.name = bare) with
  | some o => .ok o
  | none => .error (.unknownOperator token)

end Operator

/-! ## Lexemes and tokens -/

inductive Lexeme where
  | opening (kind : Delimiters)
  | closing (kind : Delimiters)
  | operator (operator : Operator)
  | text (value : Text)
  deriving DecidableEq, Repr

structure Token where
  lexeme : Lexeme
  position : Position
  /-- The byte behind the last one of the token. -/
  stop : Nat
  deriving DecidableEq, Repr

namespace Lexeme

def written : Lexeme → Text
  | opening d => [d.opening]
  | closing d => [d.closing]
  | operator o => o.token
  | text t => t

/-- Put `c` in front of the lexemes, joining it to a text that leads them. -/
def consText (c : Char) : List Lexeme → List Lexeme
  | text t :: ls => text (c :: t) :: ls
  | ls => text [c] :: ls

theorem consText_written (c : Char) (ls : List Lexeme) :
    (consText c ls).flatMap written = c :: ls.flatMap written := by
  unfold consText
  split <;> simp [written]

end Lexeme

/-- The lexemes of a text. -/
def lex : Text → List Lexeme
  | [] => []
  | '[' :: 'A' :: 'N' :: 'D' :: ']' :: t => .operator .and :: lex t
  | '[' :: 'O' :: 'R' :: ']' :: t => .operator .or :: lex t
  | '[' :: 'X' :: 'O' :: 'R' :: ']' :: t => .operator .xor :: lex t
  | c :: t =>
    if c = Delimiters.parentheses.opening then .opening .parentheses :: lex t
    else if c = Delimiters.parentheses.closing then .closing .parentheses :: lex t
    else if c = Delimiters.braces.opening then .opening .braces :: lex t
    else if c = Delimiters.braces.closing then .closing .braces :: lex t
    else Lexeme.consText c (lex t)

theorem lex_written (t : Text) : (lex t).flatMap Lexeme.written = t := by
  fun_induction lex t <;>
    simp_all [Lexeme.written, Lexeme.consText_written, Operator.token, Operator.name]

/-- The lexemes as tokens, the first of them standing at `p`. -/
def place (p : Position) : List Lexeme → List Token
  | [] => []
  | l :: ls =>
    let stop := l.written.foldl Position.after p
    ⟨l, p, stop.offset⟩ :: place stop ls

/-- The lexemes of a text with their places. -/
def tokens (text : Text) : List Token := place .start (lex text)

def Token.operator? (t : Token) : Option Operator :=
  match t.lexeme with
  | .operator o => some o
  | _ => none

/-! ## Operators outside all delimiters -/

/-- One depth counts both kinds of delimiters and never falls below zero. -/
def outerFrom (depth : Nat) : List Token → List (Operator × Position)
  | [] => []
  | t :: ts => match t.lexeme with
    | .opening _ => outerFrom (depth + 1) ts
    | .closing _ => outerFrom (depth - 1) ts
    | .operator o => if depth = 0 then (o, t.position) :: outerFrom depth ts else outerFrom depth ts
    | .text _ => outerFrom depth ts

/-- The operators outside all delimiters, with their places. -/
def outerOperators (text : Text) : List (Operator × Position) := outerFrom 0 (tokens text)

end InstitutionalGrammar
