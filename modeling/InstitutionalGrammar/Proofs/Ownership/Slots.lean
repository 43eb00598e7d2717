/-
  InstitutionalGrammar.Proofs.Ownership.Slots — which slot a change reaches, and which it leaves alone.

  - `property?_chain`, `property?_inj`: no component is a property of two, or of a property.
  - `get?_modifySlot_self`, `get?_putSlot`: what a changed slot holds then.
  - `get?_frame`: all others hold what they held.
-/

import InstitutionalGrammar.Statement.Ownership

namespace InstitutionalGrammar

namespace Component

variable {c d p q : Component}

theorem property?_ne (h : c.property? = some p) : p ≠ c := by
  intro e
  have := property?_isProperty h
  rw [e, this.1] at this
  exact absurd this.2.1 (by decide)

/-- A property has no property of its own. -/
theorem property?_chain (hp : c.property? = some p) (hq : d.property? = some q) (h : p = d) : False := by
  have hc := property?_isProperty hp
  have hd := property?_isProperty hq
  rw [h, hd.1] at hc
  exact absurd hc.2.1 (by decide)

theorem property?_inj (hc : c.property? = some p) (hd : d.property? = some p) : d = c := by
  have h := (property?_isProperty hc).2.2.symm.trans (property?_isProperty hd).2.2
  have hkind := (property?_isProperty hc).1.trans (property?_isProperty hd).1.symm
  have := ofSymbol?_base c
  rw [h, hkind, ofSymbol?_base] at this
  exact Option.some.inj this

end Component

namespace Statement

variable {s : Statement} {c : Component} {kind : SlotKind}

theorem get?_eq {slot : Slot} (h : Slot.of? c kind = some slot) : s.get? c kind = s.get slot := by
  rw [get?, h]
  rfl

theorem putSlot_self (s : Statement) (c : Component) (kind : SlotKind) : s.putSlot c kind (s.get? c kind) = s := by
  unfold putSlot
  cases hslot : Slot.of? c kind with
  | none => rfl
  | some slot =>
    refine ext_get fun t => ?_
    rw [get_put, get?_eq hslot]
    split
    · rename_i h
      rw [h]
    · rfl

theorem get_putSlot_ne (tree : Option Node) {slot : Slot} (h : ¬ (slot.component = c ∧ slot.kind = kind)) :
    (s.putSlot c kind tree).get slot = s.get slot := by
  unfold putSlot
  cases hslot : Slot.of? c kind with
  | none => rfl
  | some t =>
    have hne : slot ≠ t := fun e => h (e ▸ Slot.of?_eq_some_iff.1 hslot)
    simp [get_put, hne]

theorem get?_putSlot_ne (tree : Option Node) {d : Component} {k : SlotKind} (h : ¬ (d = c ∧ k = kind)) :
    (s.putSlot c kind tree).get? d k = s.get? d k := by
  cases hslot : Slot.of? d k with
  | none => simp [get?, hslot]
  | some slot =>
    obtain ⟨rfl, rfl⟩ := Slot.of?_eq_some_iff.1 hslot
    rw [get?_eq hslot, get?_eq hslot, get_putSlot_ne tree h]

theorem get?_putSlot (tree : Option Node) (h : (s.get? c kind).isSome) :
    (s.putSlot c kind tree).get? c kind = tree := by
  unfold putSlot
  cases hslot : Slot.of? c kind with
  | none => simp [get?, hslot] at h
  | some slot => simp [get?_eq hslot, get_put]

theorem get_modifySlot_ne (f : Node → Node) {slot : Slot} (h : ¬ (slot.component = c ∧ slot.kind = kind)) :
    (s.modifySlot c kind f).get slot = s.get slot := by
  unfold modifySlot
  cases hslot : Slot.of? c kind with
  | none => rfl
  | some t =>
    have hne : slot ≠ t := fun e => h (e ▸ Slot.of?_eq_some_iff.1 hslot)
    simp only
    split
    · rfl
    · simp [get_put, hne]

theorem get?_modifySlot_ne (f : Node → Node) {d : Component} {k : SlotKind} (h : ¬ (d = c ∧ k = kind)) :
    (s.modifySlot c kind f).get? d k = s.get? d k := by
  cases hslot : Slot.of? d k with
  | none => simp [get?, hslot]
  | some slot =>
    obtain ⟨rfl, rfl⟩ := Slot.of?_eq_some_iff.1 hslot
    rw [get?_eq hslot, get?_eq hslot, get_modifySlot_ne f h]

theorem get?_modifySlot_self (f : Node → Node) : (s.modifySlot c kind f).get? c kind = (s.get? c kind).map f := by
  unfold modifySlot
  cases hslot : Slot.of? c kind with
  | none => simp [get?, hslot]
  | some slot =>
    rw [get?_eq hslot, get?_eq hslot]
    simp only
    cases hn : s.get slot with
    | none => exact hn
    | some n => simp [get_put]

theorem get_eq_get? (s : Statement) (slot : Slot) : s.get slot = s.get? slot.component slot.kind :=
  (get?_eq (Slot.of?_eq_some_iff.2 ⟨rfl, rfl⟩)).symm

/-- A slot that is not among the changed ones holds what it held. -/
theorem get?_frame {t : Statement} {d : Component} {k : SlotKind}
    (h : ∀ slot : Slot, slot.component = d → slot.kind = k → t.get slot = s.get slot) : t.get? d k = s.get? d k := by
  cases hslot : Slot.of? d k with
  | none => simp [get?, hslot]
  | some slot =>
    obtain ⟨hd, hk⟩ := Slot.of?_eq_some_iff.1 hslot
    rw [get?_eq hslot, get?_eq hslot, h slot hd hk]

end Statement

end InstitutionalGrammar
