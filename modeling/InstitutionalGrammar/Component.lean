/-
  InstitutionalGrammar.Component — the closed set of components a statement codes, and their slots.

  Every component has a written symbol; a property shares the symbol of the component it
  describes and adds the marker `,p`. Only some components may hold a nested statement. Every
  component has a simple slot in a statement, for coded text; one that supports nesting has a
  complex slot too, for nested statements.
-/

import InstitutionalGrammar.Text.Basic

namespace InstitutionalGrammar

inductive Component where
  | attributes
  | attributesProperty
  | deontic
  | aim
  | directObject
  | directObjectProperty
  | indirectObject
  | indirectObjectProperty
  | activationCondition
  | executionConstraint
  | constitutedEntity
  | constitutedEntityProperty
  | modal
  | constitutiveFunction
  | constitutingProperties
  | constitutingPropertiesProperty
  | orElse
  deriving DecidableEq, Repr

namespace Component

/-- All components, in the order in which a statement lists them. -/
def all : List Component :=
  [attributes, attributesProperty, deontic, aim, directObject, directObjectProperty, indirectObject,
    indirectObjectProperty, activationCondition, executionConstraint, constitutedEntity,
    constitutedEntityProperty, modal, constitutiveFunction, constitutingProperties,
    constitutingPropertiesProperty, orElse]

/-- The symbol without the property marker. -/
def base : Component → Text
  | attributes | attributesProperty => ['A']
  | deontic => ['D']
  | aim => ['I']
  | directObject | directObjectProperty => ['B', 'd', 'i', 'r']
  | indirectObject | indirectObjectProperty => ['B', 'i', 'n', 'd']
  | activationCondition => ['C', 'a', 'c']
  | executionConstraint => ['C', 'e', 'x']
  | constitutedEntity | constitutedEntityProperty => ['E']
  | modal => ['M']
  | constitutiveFunction => ['F']
  | constitutingProperties | constitutingPropertiesProperty => ['P']
  | orElse => ['O']

def isProperty : Component → Bool
  | attributesProperty | directObjectProperty | indirectObjectProperty | constitutedEntityProperty
  | constitutingPropertiesProperty => true
  | _ => false

/-- The written symbol. -/
def symbol (c : Component) : Text := if c.isProperty then c.base ++ [',', 'p'] else c.base

/-- Whether the component may hold a nested statement. -/
def nests : Component → Bool
  | attributes | deontic | aim | constitutedEntity | modal | constitutiveFunction => false
  | _ => true

/-- The component that describes this one. -/
def property? : Component → Option Component
  | attributes => some attributesProperty
  | directObject => some directObjectProperty
  | indirectObject => some indirectObjectProperty
  | constitutedEntity => some constitutedEntityProperty
  | constitutingProperties => some constitutingPropertiesProperty
  | _ => none

def ofSymbol? (base : Text) (property : Bool) : Option Component :=
  all.find? fun c => c.base = base && c.isProperty = property

/-- The distinct symbols without markers, longer ones first. -/
def bases : List Text :=
  [['B', 'd', 'i', 'r'], ['B', 'i', 'n', 'd'], ['C', 'a', 'c'], ['C', 'e', 'x'], ['A'], ['D'], ['E'], ['F'],
    ['I'], ['M'], ['O'], ['P']]

theorem mem_all (c : Component) : c ∈ all := by cases c <;> decide

theorem ofSymbol?_base (c : Component) : ofSymbol? c.base c.isProperty = some c := by cases c <;> decide

theorem property?_isProperty {c p : Component} (h : c.property? = some p) :
    c.isProperty = false ∧ p.isProperty = true ∧ p.base = c.base := by
  cases c <;> simp_all [property?] <;> subst h <;> decide

end Component

/-! ## Slots -/

inductive SlotKind where
  | simple
  | complex
  deriving DecidableEq, Repr

inductive Slot where
  | simple (component : Component)
  | complex (component : Component) (nesting : component.nests = true)
  deriving DecidableEq

namespace Slot

def component : Slot → Component
  | simple c => c
  | complex c _ => c

def kind : Slot → SlotKind
  | simple _ => .simple
  | complex .. => .complex

/-- The slot of that kind, if the component has one. -/
def of? (c : Component) : SlotKind → Option Slot
  | .simple => some (simple c)
  | .complex => if h : c.nests = true then some (complex c h) else none

/-- All slots in component order, simple before complex. -/
def all : List Slot := Component.all.flatMap fun c => [SlotKind.simple, .complex].filterMap (of? c)

theorem of?_eq_some_iff {c : Component} {k : SlotKind} {s : Slot} :
    of? c k = some s ↔ s.component = c ∧ s.kind = k := by
  cases k <;> cases s <;> simp [of?, component, kind]
  · exact eq_comm
  · rename_i d h
    constructor
    · rintro ⟨_, rfl⟩; rfl
    · rintro rfl; exact ⟨h, rfl⟩

theorem mem_all (s : Slot) : s ∈ all := by
  simp only [all, List.mem_flatMap, List.mem_filterMap]
  exact ⟨s.component, Component.mem_all _, s.kind, by cases s.kind <;> simp, of?_eq_some_iff.2 ⟨rfl, rfl⟩⟩

end Slot

end InstitutionalGrammar
