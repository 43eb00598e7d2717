/-
  InstitutionalGrammar.Proofs.Plain.Basic — statements that their written form determines.

  A plain statement has no suffixes, annotations or private nodes, and its texts are free of
  delimiters and brackets.
  - `Statement.Plain`: the trees that the slots of a plain statement hold.
  - `Statement.Arranged`: a statement written out with its slots in some order, here and in every
    statement inside it.
  - `Statement.nesting`, `Statement.statements`: how deep statements nest, and which.
-/

import InstitutionalGrammar.Proofs.Combination.Building

namespace InstitutionalGrammar

/-! ## Plain trees and statements -/

/-- A text that stands for itself. -/
structure PlainText (t : Text) : Prop where
  ne_nil : t ≠ []
  trimmed : t.trim = t
  unreserved : ∀ c ∈ t, isReserved c = false

theorem plainText_iff {t : Text} :
    PlainText t ↔ t ≠ [] ∧ t.trim = t ∧ (t.all fun c => !isReserved c) = true := by
  constructor
  · intro h
    exact ⟨h.ne_nil, h.trimmed, by simpa using h.unreserved⟩
  · intro h
    exact ⟨h.1, h.2.1, by simpa using h.2.2⟩

instance (t : Text) : Decidable (PlainText t) := decidable_of_iff _ plainText_iff.symm

inductive Statement.Plain : Statement → Prop
  | intro {s : Statement} (populated : ∃ slot, s.get slot ≠ none)
      (simple : ∀ c n, s.get (.simple c) = some n → ∃ t : Node, t.Coded PlainText ∧ n = t.withComponent c)
      (complex : ∀ c h n, s.get (.complex c h) = some n → ∃ t, n = (Node.nested t).withComponent c)
      (inner : ∀ c h t, s.get (.complex c h) = some ((Node.nested t).withComponent c) → t.Plain) : s.Plain

/-! ## Written forms -/

/-- A slot written out, when `inner` is what its delimiters enclose. -/
def Slot.written (slot : Slot) (inner : Text) : Text :=
  match slot with
  | .simple c => c.symbol ++ Delimiters.parentheses.opening :: (inner ++ [Delimiters.parentheses.closing])
  | .complex c _ => c.symbol ++ Delimiters.braces.opening :: (inner ++ [Delimiters.braces.closing])

/-- The text is the statement written out, the slots of each statement in it in any order. -/
inductive Statement.Arranged : Statement → Text → Prop
  | intro {s : Statement} (order : List Slot) (inner : Slot → Text)
      (populated : order.Perm (s.populated.map Prod.fst))
      (simple : ∀ c n, s.get (.simple c) = some n → inner (.simple c) = n.render)
      (complex : ∀ c h t, s.get (.complex c h) = some ((Node.nested t).withComponent c) →
        t.Arranged (inner (.complex c h))) :
      s.Arranged (joinSpaced (order.map fun slot => slot.written (inner slot)))

/-! ## Statements inside statements -/

mutual

/-- How many statements lie inside one another below the node. -/
def Node.nesting : Node → Nat
  | .leaf e _ ps => max e.nesting (nestingAll ps)
  | .combination _ l r _ ps => max (max l.nesting r.nesting) (nestingAll ps)
termination_by structural n => n

def Entry.nesting : Entry → Nat
  | .nested s => s.nesting + 1
  | .group ns => nestingAll ns
  | _ => 0
termination_by structural e => e

/-- How many statements lie inside one another below the statement. -/
def Statement.nesting : Statement → Nat
  | .of slots => (Slot.all.map fun slot => slotNesting (slots slot)).foldr max 0
termination_by structural s => s

def slotNesting : Option Node → Nat
  | none => 0
  | some n => n.nesting
termination_by structural n => n

def nestingAll : List Node → Nat
  | [] => 0
  | n :: ns => max n.nesting (nestingAll ns)
termination_by structural ns => ns

end

mutual

/-- The statements in a node, at any depth. -/
def Node.statements : Node → List Statement
  | .leaf e _ ps => e.statements ++ statementsAll ps
  | .combination _ l r _ ps => l.statements ++ r.statements ++ statementsAll ps
termination_by structural n => n

def Entry.statements : Entry → List Statement
  | .nested s => s.statements
  | .group ns => statementsAll ns
  | _ => []
termination_by structural e => e

/-- The statement and those inside it, at any depth. -/
def Statement.statements : Statement → List Statement
  | .of slots => .of slots :: Slot.all.flatMap fun slot => slotStatements (slots slot)
termination_by structural s => s

def slotStatements : Option Node → List Statement
  | none => []
  | some n => n.statements
termination_by structural n => n

def statementsAll : List Node → List Statement
  | [] => []
  | n :: ns => n.statements ++ statementsAll ns
termination_by structural ns => ns

end

namespace Statement

theorem le_foldr_max {ns : List Nat} {n : Nat} (h : n ∈ ns) : n ≤ ns.foldr max 0 := by
  induction ns with
  | nil => cases h
  | cons m ns ih =>
    rcases List.mem_cons.1 h with e | h
    · subst e; exact Nat.le_max_left _ _
    · exact Nat.le_trans (ih h) (Nat.le_max_right _ _)

theorem nesting_le {s : Statement} {slot : Slot} {n : Node} (h : s.get slot = some n) : n.nesting ≤ s.nesting := by
  obtain ⟨slots⟩ := s
  have hslots : slots slot = some n := h
  rw [nesting]
  refine le_foldr_max (List.mem_map.2 ⟨slot, slot.mem_all, ?_⟩)
  rw [hslots, slotNesting]

theorem mem_statements_self (s : Statement) : s ∈ s.statements := by
  obtain ⟨slots⟩ := s
  rw [statements]
  exact List.mem_cons_self

theorem mem_statements {s u : Statement} {slot : Slot} {n : Node} (h : s.get slot = some n) (hu : u ∈ n.statements) :
    u ∈ s.statements := by
  obtain ⟨slots⟩ := s
  have hslots : slots slot = some n := h
  rw [statements]
  refine List.mem_cons_of_mem _ (List.mem_flatMap.2 ⟨slot, slot.mem_all, ?_⟩)
  rwa [hslots, slotStatements]

/-- What is nested in a slot lies one level deeper. -/
theorem nesting_lt {s t : Statement} {slot : Slot} {c : Component}
    (h : s.get slot = some ((Node.nested t).withComponent c)) : t.nesting < s.nesting := by
  have := nesting_le h
  simp only [Node.nested, Node.withComponent, Node.withMarks, Node.nesting, Entry.nesting, nestingAll] at this
  omega

theorem mem_statements_nested {s t u : Statement} {slot : Slot} {c : Component}
    (h : s.get slot = some ((Node.nested t).withComponent c)) (hu : u ∈ t.statements) : u ∈ s.statements := by
  refine mem_statements h ?_
  simpa [Node.nested, Node.withComponent, Node.withMarks, Node.statements, Entry.statements] using Or.inl hu

end Statement

/-! ## Texts and trees -/

theorem PlainText.atom {t : Text} (h : PlainText t) (d : Delimiters) : Atom d t where
  toSilent := .plain h.unreserved
  ne_nil := h.ne_nil
  trimmed := h.trimmed
  head := fun c hc => head_of_unreserved (h.unreserved c (List.mem_of_head? hc)) d
  last := by
    intro c hc
    have := h.unreserved c (List.mem_of_getLast? hc)
    simp only [isReserved, Bool.or_eq_false_iff] at this
    exact this.1.1

namespace Node

theorem Coded.mono {p q : Text → Prop} (hpq : ∀ t, p t → q t) {n : Node} (h : n.Coded p) : n.Coded q := by
  induction h with
  | leaf hv => exact .leaf (hpq _ hv)
  | combination ho _ _ hb ha ihl ihr =>
    exact .combination ho ihl ihr (fun t ht => hpq t (hb t ht)) fun t ht => hpq t (ha t ht)

theorem Coded.atoms {n : Node} (h : n.Coded PlainText) (d : Delimiters) : n.Coded (Atom d) :=
  h.mono fun _ ht => ht.atom d

theorem render_withComponent (c : Component) (n : Node) : (n.withComponent c).render = n.render := by
  cases n <;> simp [withComponent, withMarks, Node.render, Marks.surround, marks]

theorem height_withComponent (c : Component) (n : Node) : (n.withComponent c).height = n.height := by
  cases n <;> rfl

end Node

end InstitutionalGrammar
