/-
  InstitutionalGrammar.Proofs.Ownership.Erasing — what dropping properties by their keys does.

  - `eraseKeys_erasing`: exactly the property leaves with those keys go, and owners stay as they are.
  - `Erasing.keeps_apart`, `Erasing.sound`: what linking passes established stays so.
-/

import InstitutionalGrammar.Proofs.Ownership.Erased
import InstitutionalGrammar.Proofs.Ownership.Passes

namespace InstitutionalGrammar.Statement

variable {s t : Statement} {c property : Component} {kind : SlotKind} {key : Text}
variable {a b : Component → SlotKind → Text → Prop}

/-- The property leaves with an erased key are gone, and nothing else is. -/
structure Erasing (erased : Component → SlotKind → Text → Prop) (s t : Statement) : Prop where
  held : ∀ (c property : Component), c.property? = some property → ∀ kind d,
    d ∈ Node.held (t.get? property kind) ↔
      d ∈ Node.held (s.get? property kind) ∧ ∀ key, d.2.bind Suffix.key? = some key → ¬ erased c kind key
  pruned : ∀ slot n, t.get slot = some n → ∃ m, s.get slot = some m ∧ m.Pruned n
  frame : ∀ slot : Slot, (∀ c : Component, c.property? ≠ some slot.component) → t.get slot = s.get slot

namespace Erasing

theorem refl (h : ∀ c kind key, c.property? ≠ none → ¬ a c kind key) (s : Statement) : Erasing a s s where
  held := by
    intro c property hp kind d
    exact ⟨fun hd => ⟨hd, fun key _ => h c kind key (by simp [hp])⟩, And.left⟩
  pruned := fun slot n hn => ⟨n, hn, .refl⟩
  frame := fun _ _ => rfl

theorem congr (h : Erasing a s t) (hab : ∀ c kind key, a c kind key ↔ b c kind key) : Erasing b s t := by
  have : a = b := funext fun c => funext fun kind => funext fun key => propext (hab c kind key)
  exact this ▸ h

theorem keyed (h : Erasing a s t) (hs : s.Keyed) : t.Keyed := by
  intro slot n hn
  obtain ⟨m, hm, hpruned⟩ := h.pruned slot n hn
  exact hpruned.keyed (hs slot m hm)

end Erasing

/-- Exactly the properties with the given keys are dropped. -/
theorem eraseKeys_erasing (hs : s.Keyed) (keys : List (Component × Text)) :
    ∃ t m, s.eraseKeys keys = .ok (t, m) ∧ Erasing (fun c _ key => (c, key) ∈ keys) s t := by
  obtain ⟨t, ht, hslots⟩ := eraseKeys_erased hs keys
  refine ⟨t, _, ht, ?_, fun slot m hm => ?_, fun slot hslot => ?_⟩
  · intro c property hp kind d
    rw [get?_erased hslots]
    cases hn : s.get? property kind with
    | none => simp [Node.held]
    | some n =>
      rw [Option.bind_some, Node.held_prune, Node.held, Option.elim_some, List.mem_map, List.mem_map]
      have hstays : ∀ o ∈ n.tips none, (!listed keys property (n.keyAt? o.path)) = true ↔
          ∀ key, o.data.2.bind Suffix.key? = some key → (c, key) ∉ keys := by
        intro o ho
        rw [Node.keyAt?_tip (hs.get? hn) ho, listed_eq hp, Option.all_eq_true]
        simp only [decide_eq_true_eq]
        rfl
      constructor
      · rintro ⟨o, ho, rfl⟩
        obtain ⟨ho, hkeep⟩ := List.mem_filter.1 ho
        exact ⟨⟨o, ho, rfl⟩, (hstays o ho).1 hkeep⟩
      · rintro ⟨⟨o, ho, rfl⟩, hkeep⟩
        exact ⟨o, List.mem_filter.2 ⟨ho, (hstays o ho).2 hkeep⟩, rfl⟩
  · rw [hslots] at hm
    obtain ⟨n, hn, hprune⟩ := Option.bind_eq_some_iff.1 hm
    exact ⟨n, hn, Node.prune_pruned hprune⟩
  · rw [hslots]
    exact (Erased.slot_untold (a := fun slot k => listed keys slot.component k) fun _ _ => listed_foreign hslot).symm

/-! ## What it keeps -/

namespace Erasing

variable (h : Erasing a s t)
include h

theorem owners (hp : c.property? = some property) (k : SlotKind) : t.get? c k = s.get? c k :=
  get?_frame fun slot hslot _ => h.frame slot fun _ hd => Component.property?_chain hd hp hslot

theorem bare (hs : s.Sound) (hp : c.property? = some property) (k : SlotKind) {n : Node}
    (hn : t.get? property k = some n) : n.Bare := by
  obtain ⟨slot, hslot, hn⟩ := Option.bind_eq_some_iff.1 hn
  obtain ⟨m, hm, hpruned⟩ := h.pruned slot n hn
  exact hpruned.bare (hs.bare c property k m hp (by rw [get?_eq hslot, hm]))

theorem sound (hs : s.Sound) : t.Sound where
  keyed := h.keyed hs.keyed
  bare := fun _ _ k _ hp hn => h.bare hs hp k hn
  matched := by
    intro slot n hn
    by_cases hslot : ∃ c : Component, c.property? = some slot.component
    · obtain ⟨c, hc⟩ := hslot
      exact (h.bare hs hc slot.kind (by rw [← get_eq_get?, hn])).matched
    · rw [h.frame slot fun c hc => hslot ⟨c, hc⟩] at hn
      exact hs.matched slot n hn

theorem keeps_apart (hs : s.Keyed) (hp : c.property? = some property) {k o : SlotKind}
    (hapart : s.Apart c property k o) : t.Apart c property k o := by
  intro key hkey howner
  rw [h.owners hp] at howner
  rw [Node.mem_heldKeys fun n hn => (h.keyed hs).get? hn] at hkey
  obtain ⟨d, hd, hkey⟩ := hkey
  refine hapart key ((Node.mem_heldKeys fun n hn => hs.get? hn).2 ⟨d, ?_, hkey⟩) howner
  exact ((h.held c property hp k d).1 hd).1

theorem inner {slot : Slot} {n : Node} (hn : t.get slot = some n) {u : Statement} (hu : u ∈ n.statements) :
    ∃ m, s.get slot = some m ∧ u ∈ m.statements := by
  obtain ⟨m, hm, hpruned⟩ := h.pruned slot n hn
  exact ⟨m, hm, hpruned.statements hu⟩

theorem privates (hs : s.Sound) {slot : Slot} {n m v : Node} {path : Path} (hn : s.get slot = some n)
    (hm : n.get? path = some m) (hv : v ∈ m.privates) : t.get slot = some n := by
  by_cases hslot : ∃ c : Component, c.property? = some slot.component
  · obtain ⟨c, hc⟩ := hslot
    rw [(hs.bare c _ slot.kind n hc (by rw [← get_eq_get?, hn])).get? hm] at hv
    cases hv
  · rw [h.frame slot fun c hc => hslot ⟨c, hc⟩, hn]

end Erasing

end InstitutionalGrammar.Statement
