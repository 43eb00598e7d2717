/-
  InstitutionalGrammar.Statement.Ownership — properties that describe one instance of a component.

  A property written with the suffix key of an instance (`A1(inspector) A1,p(certified)`)
  describes that instance alone. Linking moves such leaves out of the property slot and into
  the private nodes of every leaf of the component with their key; a property without an owner
  stays where it is.
-/

import InstitutionalGrammar.Node.Path
import InstitutionalGrammar.Node.Removal

namespace InstitutionalGrammar

/-- The leaves that have a key, with their keys. -/
def Node.keyedLeaves (n : Node) : List (Path × Text) :=
  n.paths.filterMap fun p => (n.keyAt? p).map (p, ·)

/-- The node at an address as it stands alone: with the component and the suffix that apply to it. -/
def Node.standalone? (path : Path) (n : Node) : Option Node :=
  (n.get? path).map fun m =>
    m.withMarks { m.marks with
      component := n.componentAt? path
      suffix := m.suffix?.or (n.suffixAt? path) }

namespace Statement

/-- Both kinds of slot, in the order in which they are searched. -/
def slotKinds : List SlotKind := [.simple, .complex]

/-- Change the tree of a slot, if the component has the slot and it is populated. -/
def modifySlot (c : Component) (k : SlotKind) (f : Node → Node) (s : Statement) : Statement :=
  match Slot.of? c k with
  | none => s
  | some slot => match s.get slot with
    | none => s
    | some tree => s.put slot (some (f tree))

/-- Fill or empty a slot, if the component has it. -/
def putSlot (c : Component) (k : SlotKind) (tree : Option Node) (s : Statement) : Statement :=
  match Slot.of? c k with
  | none => s
  | some slot => s.put slot tree

/-! ## Links -/

/-- A leaf of a component, in its slot of that kind, and a leaf of its property with the same key. -/
structure Link where
  kind : SlotKind
  owner : Path
  property : Path
  deriving DecidableEq, Repr

/-- The links between the leaves of `c` and the given property leaves, owner by owner. -/
def links (c : Component) (properties : List (Path × Text)) (s : Statement) : List Link :=
  slotKinds.flatMap fun kind => match s.get? c kind with
    | none => []
    | some owners => owners.keyedLeaves.flatMap fun owner =>
      (properties.filter (·.2 = owner.2)).map fun property => ⟨kind, owner.1, property.1⟩

/-- Give the owner of a link its copy of the property leaf of `tree`. -/
def attach (c : Component) (tree : Node) (s : Statement) (link : Link) : Statement :=
  match tree.standalone? link.property with
  | none => s
  | some copy =>
    s.modifySlot c link.kind (Node.modify (fun owner => owner.withPrivates (owner.privates ++ [copy])) link.owner)

/-- Link the leaves of one property slot to their owners; also the number of links. -/
def linkProperty (c property : Component) (kind : SlotKind) (s : Statement) :
    Except ParseError (Statement × Nat) :=
  match s.get? property kind with
  | none => .ok (s, 0)
  | some tree => match links c tree.keyedLeaves s with
    | [] => .ok (s, 0)
    | ls => do
      let rest ← tree.removeAll (ls.map Link.property).eraseDups
      return ((ls.foldl (attach c tree) s).putSlot property kind rest, ls.length)

/-- Link the property slots of one kind, component by component; owners are looked up in both
    kinds of slot. Also the number of links. -/
def link (kind : SlotKind) (s : Statement) : Except ParseError (Statement × Nat) :=
  Component.all.foldlM (fun (s, n) c => match c.property? with
    | none => .ok (s, n)
    | some property => do
      let (s, m) ← linkProperty c property kind s
      return (s, n + m)) (s, 0)

/-! ## Keys -/

/-- The distinct keys of each component that has a property, read from its own slots or, with
    `properties`, from those of the property. -/
def keys (properties : Bool) (s : Statement) : List (Component × Text) :=
  (Component.all.flatMap fun c => match c.property? with
    | none => []
    | some property => slotKinds.flatMap fun kind =>
      match s.get? (if properties then property else c) kind with
      | none => []
      | some tree => tree.keyedLeaves.map fun leaf => (c, leaf.2)).eraseDups

/-- Remove the leaves with that key from one property slot; also how many there were. -/
def eraseKey (property : Component) (key : Text) (kind : SlotKind) (s : Statement) :
    Except ParseError (Statement × Nat) :=
  match s.get? property kind with
  | none => .ok (s, 0)
  | some tree => match tree.keyedLeaves.filter (·.2 = key) with
    | [] => .ok (s, 0)
    | doomed => do
      let rest ← tree.removeAll (doomed.map (·.1))
      return (s.putSlot property kind rest, doomed.length)

/-- Remove the properties with these keys from both property slots of their components; also the
    number of leaves removed. -/
def eraseKeys (keys : List (Component × Text)) (s : Statement) : Except ParseError (Statement × Nat) :=
  keys.foldlM (fun (s, n) (c, key) => match c.property? with
    | none => .ok (s, n)
    | some property => slotKinds.foldlM (fun (s, n) kind => do
      let (s, m) ← eraseKey property key kind s
      return (s, n + m)) (s, n)) (s, 0)

end Statement

end InstitutionalGrammar
