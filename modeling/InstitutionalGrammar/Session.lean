/-
  InstitutionalGrammar.Session — texts read one after another.

  A session collects the ignored blocks of all its texts and keeps the outermost statement of
  the last text that got as far as one, until each is taken. `read` changes it once, behind a
  text. `assemble` changes it while a text is read: every ignored block is noted when it is met,
  however deep, and the outermost statement twice, when its atomic text is read and when its
  nested statements are attached; a failure keeps all changes made before it.
-/

import InstitutionalGrammar.Reading.Basic

namespace InstitutionalGrammar

structure Session where
  options : Options
  /-- The ignored blocks not taken yet, in the order of their texts. -/
  ignored : List Text := []
  /-- The latest outermost statement not taken yet. -/
  outer : Option Statement := none

namespace Session

/-- Read one more text. -/
def read (s : Session) (text : Text) : Session × Outcome Node :=
  let r := Reading.of s.options text
  ({ s with ignored := s.ignored ++ r.ignored, outer := r.outer.or s.outer }, r.result)

/-- Hand out the outermost statement; the session keeps none. -/
def takeOuter (s : Session) : Session × Option Statement := ({ s with outer := none }, s.outer)

/-- Hand out the ignored blocks; the session keeps none. -/
def takeIgnored (s : Session) : Session × List Text := ({ s with ignored := [] }, s.ignored)

/-! ## Reading step by step -/

/-- A computation that works on a session. It leaves the session changed also when it fails. -/
abbrev Run := ExceptT Failure (StateM Session)

namespace Run

/-- Note an ignored block. -/
def ignore (block : Text) : Run Unit := modify fun σ => { σ with ignored := σ.ignored ++ [block] }

/-- Note the outermost statement, in place of the one before. -/
def keep (outermost : Bool) (s : Statement) : Run Unit :=
  if outermost then modify fun σ => { σ with outer := some s } else return ()

end Run

instance : MonadLift Outcome Run := ⟨fun r σ => (r, σ)⟩

instance : MonadLift (Except ParseError) Run := ⟨fun r σ => (r.mapError .rejected, σ)⟩

section Reading

variable (options : Options) (read : Text → Run Node) (raw : Text)

def nestedLeaf (leaf : Node) : StateT (Option Component) Run Node := do
  let text := leaf.text?.getD []
  match ← (TaggedBlock.read text : Outcome _) with
  | none => (reject (.invalidNestedCombination raw (untaggedReason text)) : Outcome _)
  | some ⟨header, inner⟩ =>
    match ← get with
    | none => set (some header.component)
    | some c =>
      if c ≠ header.component then
        (reject (.invalidNestedCombination raw (mixedReason c header.component)) : Outcome _)
    return header.label (← read inner)

def attachCombination (header : Header) (tree : Node) (s : Statement) : Run Statement := do
  let (tree, tag) ← (tree.mapLeavesM (nestedLeaf read raw)).run none
  let component := tag.getD header.component
  if component ≠ header.component then
    (reject (.invalidNestedCombination raw (foreignReason component header.component)) : Outcome _)
  s.nest component (header.label tree)

def nestedGroups (groups : List NestedGroup) : List Block → Run (List NestedGroup)
  | [] => return groups
  | b :: bs => match b.content with
    | .nested header inner => do
      let tree ← read inner
      nestedGroups (addToGroup header.component (header.label tree) b.start b.stop groups) bs
    | _ => nestedGroups groups bs

def attachCombinations (s : Statement) : List Block → Run Statement
  | [] => return s
  | b :: bs => match b.content with
    | .stray => do
      Run.ignore b.raw
      attachCombinations s bs
    | .combined header tree => do
      let s ← attachCombination read b.raw header tree s
      attachCombinations s bs
    | _ => attachCombinations s bs

def attachBlocks (outline : Outline) (s : Statement) : Run Statement := do
  let s ← attachCombinations read s outline.blocks
  let groups ← nestedGroups read [] outline.blocks
  (groups.foldlM (attachGroup options outline.atomic) s : Except ParseError _)

def elementOutput (outer : Statement) (leaf : Node) : Run Node := do
  let fragment := leaf.text?.getD []
  if fragment.isEmpty then
    (reject (.invalidComponentPair raw emptyElementReason) : Outcome _)
  match outerOperators fragment with
  | (o, _) :: _ => (reject (.invalidComponentPair raw (looseOperatorReason o fragment)) : Outcome _)
  | [] =>
    let tree ← read fragment
    (tree.mapLeavesM (onStatement (inheritOuter options outer raw)) : Except ParseError _)

def pairOutput (outer : Statement) (tree : Node) : Run Node := do
  let tree ← (tree.spreadShared [] []).mapLeavesM (elementOutput options read raw outer)
  if options.linksProperties then eraseForeign (outer.keys true) tree else return tree

def output (outline : Outline) (s : Statement) : Run Node :=
  match Reading.pairs outline.blocks with
  | [] => if s.isEmpty then (reject .emptyStatement : Outcome _) else return .nested s
  | [(raw, tree)] => pairOutput options read raw s tree
  | ps => (reject (.multipleComponentPairs (ps.map (·.1))) : Outcome _)

/-- Read a text, the whole or one inside it, when `read` reads the texts inside this one. -/
def step (outermost : Bool) (text : Text) : Run Node := do
  let (outline, s) ← Reading.draft options text
  Run.keep outermost s
  let s ← attachBlocks options read outline s
  let s ← Reading.linked options .complex s
  Run.keep outermost s
  output options read outline s

def within : (budget : Nat) → Text → Run Node
  | 0, _ => (reject (.nestingTooDeep options.depthLimit) : Outcome _)
  | budget + 1, text => step options (within budget) false text

end Reading

/-- Read one more text, working on the session all the way. -/
def assemble (text : Text) (σ : Session) : Outcome Node × Session :=
  step σ.options (within σ.options σ.options.depthLimit) true text σ

/-! ## Calls -/

/-- What a session can be called to do. -/
inductive Call where
  | assemble (text : Text)
  | takeOuter
  | takeIgnored
  deriving DecidableEq, Repr

inductive Answer where
  /-- What a text was read as, or why it was not. -/
  | reading (result : Outcome Node)
  | outer (s : Option Statement)
  | ignored (blocks : List Text)

/-- The text that a call reads. -/
def Call.text? : Call → Option Text
  | .assemble text => some text
  | _ => none

def fresh (options : Options) : Session := { options }

/-- One call: the session it leaves behind and its answer. -/
def call (σ : Session) : Call → Session × Answer
  | .assemble text => ((assemble text σ).2, .reading (assemble text σ).1)
  | .takeOuter => (σ.takeOuter.1, .outer σ.takeOuter.2)
  | .takeIgnored => (σ.takeIgnored.1, .ignored σ.takeIgnored.2)

/-- The session behind a list of calls. -/
def after (σ : Session) (calls : List Call) : Session := calls.foldl (fun σ c => (σ.call c).1) σ

/-- The answers to a list of calls, one for each. -/
def answers (σ : Session) : List Call → List Answer
  | [] => []
  | c :: cs => (σ.call c).2 :: answers (σ.call c).1 cs

end Session

end InstitutionalGrammar
