/-
  InstitutionalGrammar.Proofs.Ownership.Unsuffixed — statements in which nothing has a suffix.

  Properties find their owners by suffix, so without suffixes nothing is linked
  (`link_unsuffixed`), and there are no keys to drop anything by (`keys_unsuffixed`).
-/

import InstitutionalGrammar.Proofs.Outcome
import InstitutionalGrammar.Statement.Ownership

namespace InstitutionalGrammar

namespace Node

/-- No node of the tree has a suffix. -/
def Unsuffixed : Node → Prop
  | leaf _ m _ => m.suffix = none
  | combination _ l r m _ => m.suffix = none ∧ l.Unsuffixed ∧ r.Unsuffixed

namespace Unsuffixed

variable {n : Node}

theorem key? (h : n.Unsuffixed) : n.key? = none := by
  cases n with
  | leaf e m p =>
    have hm : m.suffix = none := h
    simp [Node.key?, suffix?, marks, hm]
  | combination o l r m p => simp [Node.key?, suffix?, marks, h.1]

theorem child (h : n.Unsuffixed) {side : Side} {m : Node} (hm : n.child? side = some m) : m.Unsuffixed := by
  cases n with
  | leaf e m p => cases side <;> cases hm
  | combination o l r m p =>
    cases side <;> cases hm
    · exact h.2.1
    · exact h.2.2

theorem keyAt? (h : n.Unsuffixed) (path : Path) : n.keyAt? path = none := by
  unfold Node.keyAt? nearest
  induction path generalizing n with
  | nil => simp [nearestFrom, h.key?]
  | cons side path ih =>
    simp only [nearestFrom, h.key?, Option.none_or]
    cases hm : n.child? side with
    | none => rfl
    | some m => exact ih (h.child hm)

theorem keyedLeaves (h : n.Unsuffixed) : n.keyedLeaves = [] := by
  unfold Node.keyedLeaves
  rw [List.filterMap_eq_nil_iff]
  intro path _
  rw [h.keyAt?]
  rfl

end Unsuffixed

end Node

namespace Statement

variable {s : Statement}

/-- No slot holds a tree with a suffix. -/
def Unsuffixed (s : Statement) : Prop := ∀ slot n, s.get slot = some n → n.Unsuffixed

theorem Unsuffixed.get? (h : s.Unsuffixed) {c : Component} {kind : SlotKind} {n : Node} (hn : s.get? c kind = some n) :
    n.Unsuffixed := by
  obtain ⟨slot, -, hslot⟩ := Option.bind_eq_some_iff.1 hn
  exact h slot n hslot

theorem linkProperty_unsuffixed (h : s.Unsuffixed) (c property : Component) (kind : SlotKind) :
    linkProperty c property kind s = .ok (s, 0) := by
  unfold linkProperty
  cases hn : s.get? property kind with
  | none => rfl
  | some tree =>
    have hlinks : links c tree.keyedLeaves s = [] := by
      unfold links
      rw [List.flatMap_eq_nil_iff, (h.get? hn).keyedLeaves]
      intro k _
      cases s.get? c k with
      | none => rfl
      | some owners => simp
    simp only [hlinks]

/-- Nothing is linked where nothing has a suffix. -/
theorem link_unsuffixed (h : s.Unsuffixed) (kind : SlotKind) : s.link kind = .ok (s, 0) := by
  unfold link
  induction Component.all with
  | nil => rfl
  | cons c cs ih =>
    rw [List.foldlM_cons]
    cases hp : c.property? with
    | none => exact ih
    | some property =>
      simp only [linkProperty_unsuffixed h]
      exact ih

theorem keys_unsuffixed (h : s.Unsuffixed) (properties : Bool) : s.keys properties = [] := by
  unfold keys
  refine (congrArg List.eraseDups (?_ : _ = ([] : List (Component × Text)))).trans rfl
  rw [List.flatMap_eq_nil_iff]
  intro c _
  cases c.property? with
  | none => rfl
  | some property =>
    simp only
    rw [List.flatMap_eq_nil_iff]
    intro kind _
    cases hn : s.get? (if properties then property else c) kind with
    | none => rfl
    | some tree => simp [(h.get? hn).keyedLeaves]

end Statement

end InstitutionalGrammar
