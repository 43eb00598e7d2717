/-
  InstitutionalGrammar.Combination.Sweep — the combinations of a text.

  Inside the content of a component only parentheses and operators count. Across fragments
  braces and operators count, but what stands in parentheses is the content of some component,
  and a block behind a header is a nested statement; both are passed over.

  One sweep goes through the tokens with a stack of open spans and notes the operator directly
  inside each. A second operator of the same kind inside a span stops the sweep: everything in
  the span before it is put into delimiters of its own, and the text is swept again, so
  repeated operators associate to the left. Two different operators in one span are refused.
-/

import InstitutionalGrammar.Header.Basic
import InstitutionalGrammar.Token

namespace InstitutionalGrammar

/-! ## What tokens mean -/

inductive Mark where
  | opening
  | closing
  | operator (operator : Operator)
  /-- The token has no part in combinations. -/
  | plain
  deriving DecidableEq, Repr

/-- What a lexeme means where combinations are scoped by `d`. -/
def Mark.ofLexeme (d : Delimiters) : Lexeme → Mark
  | .opening e => if e = d then opening else plain
  | .closing e => if e = d then closing else plain
  | .operator o => operator o
  | .text _ => plain

/-- The marks across fragments, when `block` braces of a tagged block and `content` parentheses
    are open. -/
def fragmentMarks (shapes : List PlacedShape) : (block content : Nat) → List Token → List (Mark × Token)
  | _, _, [] => []
  | block + 1, content, t :: ts =>
    let block := match t.lexeme with
      | .opening .braces => block + 2
      | .closing .braces => block
      | _ => block + 1
    (.plain, t) :: fragmentMarks shapes block content ts
  | 0, content, t :: ts =>
    match t.lexeme with
    | .opening .parentheses => (.plain, t) :: fragmentMarks shapes 0 (content + 1) ts
    | .closing .parentheses => (.plain, t) :: fragmentMarks shapes 0 (content - 1) ts
    | .opening .braces =>
      if content = 0 then
        if (Header.among? shapes t.position.offset).isSome then (.plain, t) :: fragmentMarks shapes 1 content ts
        else (.opening, t) :: fragmentMarks shapes 0 content ts
      else (.plain, t) :: fragmentMarks shapes 0 content ts
    | l =>
      (if content = 0 then Mark.ofLexeme .braces l else .plain, t) :: fragmentMarks shapes 0 content ts

/-- The tokens of a text with what they mean to combinations scoped by `d`. -/
def marks (d : Delimiters) (text : Text) : List (Mark × Token) :=
  match d with
  | .parentheses => (tokens text).map fun t => (Mark.ofLexeme .parentheses t.lexeme, t)
  | .braces => fragmentMarks (PlacedShape.all text) 0 0 (tokens text)

/-! ## Spans -/

/-- An operator and the bytes of its token. -/
structure PlacedOperator where
  operator : Operator
  start : Nat
  stop : Nat
  deriving DecidableEq, Repr

/-- A delimited span. One of level 1 is outermost; one of level k + 1 lies inside one of level k. -/
structure Span where
  level : Nat
  /-- The byte of the opening delimiter. -/
  left : Nat
  /-- The byte of the closing delimiter. -/
  right : Nat
  operator : Option PlacedOperator
  deriving DecidableEq, Repr

/-- Whether an operator stands directly inside; the operands on both of its sides are not blank. -/
def Span.isCombination (s : Span) : Bool := s.operator.isSome

/-- Whether `inner` lies strictly inside. -/
def Span.contains (s inner : Span) : Bool := s.left < inner.left && inner.right < s.right

/-- The spans of a text, as far as they decide its combinations. -/
structure SpanTable where
  /-- The text that all offsets refer to. -/
  input : Text
  /-- All spans, in the order in which they close. -/
  spans : List Span
  /-- The trimmed stretches outside all spans, blank ones left out. -/
  nonShared : List Text
  deriving DecidableEq, Repr

namespace SpanTable

def atLevel (t : SpanTable) (level : Nat) : List Span := t.spans.filter (·.level = level)

/-- The levels that have spans, outermost first. -/
def levels (t : SpanTable) : List Nat :=
  (List.range (t.spans.foldl (fun m s => max m s.level) 0 + 1)).filter fun level => !(t.atLevel level).isEmpty

/-- The outermost level that has a combination. -/
def outermostLevel? (t : SpanTable) : Option Nat :=
  t.levels.find? fun level => (t.atLevel level).any Span.isCombination

/-- The span one level up that the given one lies in. -/
def parent? (t : SpanTable) (s : Span) : Option Span :=
  (t.atLevel (s.level - 1)).find? (·.contains s)

end SpanTable

/-! ## One sweep -/

/-- A span that has not closed yet. -/
structure Frame where
  left : Nat
  operator : Option PlacedOperator
  deriving DecidableEq, Repr

structure SweepState where
  /-- The open spans, innermost first. -/
  stack : List Frame
  /-- The closed spans, last first. -/
  closed : List Span
  /-- The finished stretches outside all spans, last first. -/
  runs : List Text
  /-- The parts of the present stretch outside all spans, last first. -/
  run : List Text

/-- What ends a sweep before the end of the text. -/
inductive Interruption where
  | failure (cause : Failure)
  /-- In the span opened at `left`, the operator at byte `operator` repeats the one before it. -/
  | repetition (left operator : Nat)

/-- How a sweep ends. -/
inductive Sweep where
  | settled (table : SpanTable)
  | repetition (left operator : Nat)

namespace SweepState

def start : SweepState := ⟨[], [], [], []⟩

/-- End the present stretch outside all spans. -/
def endRun (s : SweepState) : SweepState :=
  match Text.trim s.run.reverse.flatten with
  | [] => { s with run := [] }
  | t => { s with runs := t :: s.runs, run := [] }

def addRun (s : SweepState) (t : Text) : SweepState :=
  if s.stack.isEmpty then { s with run := t :: s.run } else s

end SweepState

/-- End the sweep with an error of the text. -/
def interrupt {α : Type} (cause : ParseError) : Except Interruption α := .error (.failure (.rejected cause))

/-- Whether only white space stands between two offsets. -/
def blankBetween (text : Text) (start stop : Nat) : Outcome Bool := return (← text.slice start stop).trim.isEmpty

/-- The operand behind the operator of a span that closes at `right` must not be blank. -/
def checkLastOperand (text : Text) (top : Frame) (right : Nat) : Outcome Unit :=
  match top.operator with
  | none => return ()
  | some o => do
    if ← blankBetween text o.stop right then
      reject (.emptyOperand (← text.slice top.left (right + 1)) (Position.locate text o.start))

/-- The operand before an operator token must not be blank. -/
def checkOperand (text : Text) (top : Frame) (t : Token) : Outcome Unit := do
  let start := match top.operator with
    | some o => o.stop
    | none => top.left + 1
  if ← blankBetween text start t.position.offset then
    reject (.emptyOperand (← text.slice top.left t.stop) t.position)

/-- One token further. -/
def sweepStep (d : Delimiters) (text : Text) (s : SweepState) : Mark × Token → Except Interruption SweepState
  | (.plain, t) => .ok (s.addRun t.lexeme.written)
  | (.opening, t) =>
    let s := if s.stack.isEmpty then s.endRun else s
    .ok { s with stack := ⟨t.position.offset, none⟩ :: s.stack }
  | (.closing, t) => match s.stack with
    | [] => interrupt (.misorderedDelimiter d.closing t.position)
    | top :: rest => do
      (checkLastOperand text top t.position.offset).mapError .failure
      return { s with
        stack := rest
        closed := ⟨rest.length + 1, top.left, t.position.offset, top.operator⟩ :: s.closed }
  | (.operator o, t) => match s.stack with
    | [] => interrupt (.operatorOutsideCombination o.token t.position)
    | top :: rest => do
      (checkOperand text top t).mapError .failure
      match top.operator with
      | none => return { s with stack := { top with operator := some ⟨o, t.position.offset, t.stop⟩ } :: rest }
      | some first =>
        if first.operator = o then .error (.repetition top.left t.position.offset)
        else interrupt (.mixedOperators first.operator.token o.token t.position)

/-- All tokens of a text, from the first to the last or to a repetition. -/
def sweep (d : Delimiters) (text : Text) : Outcome Sweep :=
  match (marks d text).foldlM (sweepStep d text) SweepState.start with
  | .error (.failure cause) => .error cause
  | .error (.repetition left operator) => .ok (.repetition left operator)
  | .ok s => match s.stack with
    | [] => .ok (.settled ⟨text, s.closed.reverse, s.endRun.runs.reverse⟩)
    | stack => reject (.imbalancedDelimiters d.opening d.closing stack.length 0)

/-! ## Repeated sweeps -/

/-- Put what stands between the delimiter at `left` and the operator into delimiters of its own. -/
def regroup (d : Delimiters) (text : Text) (left operator : Nat) : Outcome Text := do
  let head ← text.slice 0 (left + 1)
  let operands ← text.slice (left + 1) operator
  let tail ← text.slice operator text.size
  return head ++ [d.opening] ++ operands.trimEnd ++ [d.closing, ' '] ++ tail

/-- Sweep and regroup, at most `fuel` times, until a sweep settles. -/
def settle (d : Delimiters) (fuel : Nat) (text : Text) : Outcome SpanTable := do
  match ← sweep d text with
  | .settled table => return table
  | .repetition left operator => match fuel with
    | 0 => .error .unsettled
    | fuel + 1 => settle d fuel (← regroup d text left operator)

/-- How many written operators a text has. -/
def operatorCount (text : Text) : Nat := ((tokens text).filter (·.operator?.isSome)).length

/-- The combinations of a balanced text. A sweep stops at a later operator than the one before it,
    so there are no more regroupings than operators. -/
def spanTable (d : Delimiters) (text : Text) : Outcome SpanTable := do
  requireBalanced text
  settle d (operatorCount text) text

end InstitutionalGrammar
