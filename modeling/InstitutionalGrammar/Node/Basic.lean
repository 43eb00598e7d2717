/-
  InstitutionalGrammar.Node.Basic — trees of coded text, and the statements they make up.

  A node is a leaf or two nodes joined by an operator. Both carry marks and private nodes, the
  properties that describe this node alone. A leaf holds coded text, a nested statement or a
  group of nodes; a statement holds at most one tree in each of its slots.
-/

import InstitutionalGrammar.Component
import InstitutionalGrammar.Token
import InstitutionalGrammar.Header.Suffix

namespace InstitutionalGrammar

/-- What the header and the surroundings of a node say of it. -/
structure Marks where
  component : Option Component := none
  suffix : Option Text := none
  /-- The annotation with its brackets. -/
  remark : Option Text := none
  /-- Text before a combination that belongs to both of its sides. -/
  sharedLeft : List Text := []
  sharedRight : List Text := []
  deriving DecidableEq, Repr

mutual

inductive Node where
  | leaf (entry : Entry) (marks : Marks) (privates : List Node)
  | combination (operator : Operator) (left right : Node) (marks : Marks) (privates : List Node)

inductive Entry where
  | empty
  | text (value : Text)
  | nested (statement : Statement)
  | group (nodes : List Node)

inductive Statement where
  | of (slots : Slot → Option Node)

end

/-- Induction over the operands of combinations; entries and private nodes are taken as they are. -/
@[induction_eliminator]
theorem Node.induction {motive : Node → Prop} (leaf : ∀ e m p, motive (.leaf e m p))
    (combination : ∀ o l r m p, motive l → motive r → motive (.combination o l r m p)) : ∀ n, motive n
  | .leaf e m p => leaf e m p
  | .combination o l r m p => combination o l r m p (induction leaf combination l) (induction leaf combination r)

inductive Side where
  | left
  | right
  deriving DecidableEq, Repr

def Side.opposite : Side → Side
  | left => right
  | right => left

namespace Node

/-! ## Construction -/

def empty : Node := leaf .empty {} []

/-- A leaf that holds the trimmed text. -/
def text (value : Text) : Node := leaf (.text value.trim) {} []

def nested (statement : Statement) : Node := leaf (.nested statement) {} []

def group (nodes : List Node) : Node := leaf (.group nodes) {} []

def marks : Node → Marks
  | leaf _ m _ => m
  | combination _ _ _ m _ => m

def privates : Node → List Node
  | leaf _ _ p => p
  | combination _ _ _ _ p => p

def withMarks (marks : Marks) : Node → Node
  | leaf e _ p => leaf e marks p
  | combination o l r _ p => combination o l r marks p

def withPrivates (privates : List Node) : Node → Node
  | leaf e m _ => leaf e m privates
  | combination o l r m _ => combination o l r m privates

def component? (n : Node) : Option Component := n.marks.component

def suffix? (n : Node) : Option Text := n.marks.suffix

def withComponent (c : Component) (n : Node) : Node := n.withMarks { n.marks with component := some c }

/-- The node as the content of a component: it takes over what the header says. -/
def label (c : Component) (suffix remark : Option Text) (n : Node) : Node :=
  n.withMarks { n.marks with component := some c, suffix, remark }

/-- Join two trees. The joint root has their common component; two different ones do not join. -/
def combine (o : Operator) (left right : Node) : Except ParseError Node :=
  match left.component?, right.component? with
  | some l, some r =>
    if l = r then .ok (combination o left right { component := some l } [])
    else .error (.mismatchedComponentTypes l.symbol r.symbol)
  | some l, none => .ok (combination o left right { component := some l } [])
  | none, r => .ok (combination o left right { component := r } [])

/-- Join the trees from the left, under one operator; none if there are none. -/
def fold? (o : Operator) : List Node → Except ParseError (Option Node)
  | [] => .ok none
  | n :: ns => some <$> ns.foldlM (combine o) n

/-! ## Inspection -/

def isLeaf : Node → Bool
  | leaf .. => true
  | combination .. => false

def isCombination (n : Node) : Bool := !n.isLeaf

/-- Neither content nor children nor private nodes. -/
def isEmpty : Node → Bool
  | leaf .empty _ [] => true
  | _ => false

def entry? : Node → Option Entry
  | leaf e _ _ => some e
  | combination .. => none

def text? : Node → Option Text
  | leaf (.text v) _ _ => some v
  | _ => none

def statement? : Node → Option Statement
  | leaf (.nested s) _ _ => some s
  | _ => none

def operator? : Node → Option Operator
  | combination o _ _ _ _ => some o
  | leaf .. => none

def child? : Side → Node → Option Node
  | .left, combination _ l _ _ _ => some l
  | .right, combination _ _ r _ _ => some r
  | _, leaf .. => none

/-- The first segment of the suffix, by which properties find their owners. -/
def key? (n : Node) : Option Text := n.suffix?.bind Suffix.key?

end Node

namespace Statement

def get : Statement → Slot → Option Node
  | of slots => slots

def empty : Statement := of fun _ => none

/-- The statement with that tree, or none, in the slot. -/
def put (slot : Slot) (tree : Option Node) (s : Statement) : Statement :=
  of fun t => if t = slot then tree else s.get t

@[simp] theorem get_of (f : Slot → Option Node) (t : Slot) : (of f).get t = f t := rfl

@[simp] theorem get_empty (t : Slot) : empty.get t = none := rfl

theorem get_put (slot t : Slot) (tree : Option Node) (s : Statement) :
    (s.put slot tree).get t = if t = slot then tree else s.get t := rfl

theorem ext_get {s t : Statement} (h : ∀ slot, s.get slot = t.get slot) : s = t := by
  cases s; cases t
  exact congrArg of (funext h)

def get? (s : Statement) (c : Component) (k : SlotKind) : Option Node := (Slot.of? c k).bind s.get

/-- The populated slots in order, with their trees. -/
def populated (s : Statement) : List (Slot × Node) :=
  Slot.all.filterMap fun slot => (s.get slot).map (slot, ·)

theorem mem_populated {s : Statement} {slot : Slot} {n : Node} :
    (slot, n) ∈ s.populated ↔ s.get slot = some n := by
  simp only [populated, List.mem_filterMap, Option.map_eq_some_iff, Prod.mk.injEq]
  constructor
  · intro h
    obtain ⟨t, -, m, hm, rfl, rfl⟩ := h
    exact hm
  · intro h
    exact ⟨slot, slot.mem_all, n, h, rfl, rfl⟩

def isEmpty (s : Statement) : Bool := s.populated.isEmpty

end Statement

end InstitutionalGrammar
