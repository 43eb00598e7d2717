/-
  InstitutionalGrammar.Proofs.Plain.RoundTrip — a plain statement is parsed from its written form.

  - `Plain.arranged_render`: rendering writes the slots in one of the orders.
  - `step_arranged`: one reading of a statement, when the budget allows for the nesting below it.
  - `parse_render`: the parse of a written statement is the statement.
-/

import InstitutionalGrammar.Parse
import InstitutionalGrammar.Proofs.Plain.Reading

namespace InstitutionalGrammar

/-! ## Rendering -/

/-- What the delimiters of a slot enclose when its tree is rendered. -/
def Statement.innerRender (s : Statement) (slot : Slot) : Text :=
  match slot, s.get slot with
  | .simple _, some n => n.render
  | .complex .., some (.leaf (.nested t) _ _) => t.render
  | _, _ => []

theorem Statement.Plain.renderSlot_eq {s : Statement} (hs : s.Plain) {slot : Slot} {n : Node}
    (hn : s.get slot = some n) :
    renderSlot slot (some n) = some (slot.written (s.innerRender slot)) := by
  obtain ⟨-, hsimple, hcomplex, -⟩ := hs
  cases slot with
  | simple c =>
    simp only [renderSlot, Slot.written, innerRender, hn]
    simp [Delimiters.opening, Delimiters.closing]
  | complex c hc =>
    obtain ⟨t, rfl⟩ := hcomplex c hc n hn
    have hinner : s.innerRender (.complex c hc) = t.render := by
      simp only [innerRender, hn]
      rfl
    have hrender : ((Node.nested t).withComponent c).render =
        Delimiters.braces.opening :: (t.render ++ [Delimiters.braces.closing]) := by
      rw [Node.render_withComponent, Node.nested, Node.render, surround_eq, Entry.render]
      simp [Marks.lead, Marks.trail, Delimiters.opening, Delimiters.closing]
    simp only [renderSlot, Slot.written, hinner, hrender]

/-- Rendering writes the slots in component order. -/
theorem Statement.Plain.arranged_render {s : Statement} (hs : s.Plain) : s.Arranged s.render := by
  induction hs with
  | @intro s hpop hsimple hcomplex hinner ih =>
    have hplain : s.Plain := .intro hpop hsimple hcomplex hinner
    have hwritten : s.render =
        joinSpaced ((s.populated.map Prod.fst).map fun slot => slot.written (s.innerRender slot)) := by
      obtain ⟨slots⟩ := s
      rw [render, populated_fst]
      refine congrArg joinSpaced ?_
      induction Slot.all with
      | nil => rfl
      | cons slot later ihl =>
        rw [List.filterMap_cons, List.filter_cons, ihl]
        cases hn : slots slot with
        | none => simp [renderSlot, hn]
        | some n =>
          rw [hplain.renderSlot_eq (show get (.of slots) slot = some n from hn)]
          simp [hn]
    rw [hwritten]
    refine .intro _ s.innerRender (.refl _) ?_ ?_
    · intro c n hn
      simp only [innerRender, hn]
    · intro c h t ht
      have hinner' : s.innerRender (.complex c h) = t.render := by
        simp only [innerRender, ht]
        rfl
      rw [hinner']
      exact ih c h t ht

/-! ## Reading -/

/-- Reading a written statement gives the statement, when `budget` is at least its nesting. -/
theorem step_arranged {s : Statement} {x : Text} (hx : s.Arranged x) (hs : s.Plain) {options : Options} {budget : Nat}
    (hnesting : s.nesting ≤ budget)
    (hheight : ∀ u ∈ s.statements, ∀ p ∈ u.populated, p.2.height ≤ options.depthLimit) :
    Reading.step options (Reading.within options budget) x = ⟨.ok (.nested s), [], some s⟩ := by
  induction hx generalizing budget with
  | @intro s order inner hperm hsimple hcomplex ih =>
    have hrow := hs.row hperm hsimple hcomplex
    refine hrow.step (hrow.ne_nil hs) ?_ fun c n hn =>
      hheight s s.mem_statements_self (.simple c, n) (Statement.mem_populated.2 hn)
    intro c hc t ht
    -- the nested statement is one level deeper, so its budget is one less
    have hlt := Statement.nesting_lt ht
    obtain ⟨k, rfl⟩ : ∃ k, budget = k + 1 := ⟨budget - 1, by omega⟩
    obtain ⟨n', hn', hplain, -⟩ := hrow.complex c hc _ ht
    have hk : t.nesting ≤ k := by omega
    have hstep := ih c hc t ht (by cases hn'; exact hplain) hk fun u hu =>
      hheight u (Statement.mem_statements_nested ht hu)
    rw [Reading.within, hstep]
    rfl

theorem within_arranged {s : Statement} {x : Text} (hx : s.Arranged x) (hs : s.Plain) {options : Options} {budget : Nat}
    (hnesting : s.nesting < budget)
    (hheight : ∀ u ∈ s.statements, ∀ p ∈ u.populated, p.2.height ≤ options.depthLimit) :
    Reading.within options budget x = .done (.nested s) := by
  obtain ⟨k, rfl⟩ : ∃ k, budget = k + 1 := ⟨budget - 1, by omega⟩
  rw [Reading.within, step_arranged hx hs (Nat.le_of_lt_succ hnesting) hheight]
  rfl

/-- The blocks of a row are read as the statements nested in its slots. -/
theorem Row.reads {s : Statement} {order : List Slot} {inner : Slot → Text} (h : Row s order inner) {options : Options}
    {budget : Nat} (hnesting : s.nesting ≤ budget)
    (hheight : ∀ u ∈ s.statements, ∀ p ∈ u.populated, p.2.height ≤ options.depthLimit) (c : Component)
    (hc : c.nests = true) (t : Statement) (ht : s.get (.complex c hc) = some ((Node.nested t).withComponent c)) :
    Reading.within options budget (inner (.complex c hc)) = .done (.nested t) := by
  have hlt := Statement.nesting_lt ht
  obtain ⟨n', hn', hplain, hx⟩ := h.complex c hc _ ht
  cases hn'
  exact within_arranged hx hplain (by omega) fun u hu => hheight u (Statement.mem_statements_nested ht hu)

/-- Parsing undoes rendering, and the order in which the slots of any statement are written makes no
    difference. -/
theorem parse_render {s : Statement} (hs : s.Plain) {options : Options} (hnesting : s.nesting ≤ options.depthLimit)
    (hheight : ∀ u ∈ s.statements, ∀ p ∈ u.populated, p.2.height ≤ options.depthLimit) :
    parse options s.render = .ok ⟨.nested s, []⟩ ∧
      ∀ x, s.Arranged x → parse options x = .ok ⟨.nested s, []⟩ := by
  have harranged : ∀ x, s.Arranged x → parse options x = .ok ⟨.nested s, []⟩ := by
    intro x hx
    unfold parse Reading.of
    rw [step_arranged hx hs hnesting hheight]
    rfl
  exact ⟨harranged _ hs.arranged_render, harranged⟩

/-- One text in one simple slot. -/
def Statement.only (c : Component) (v : Text) : Statement :=
  empty.put (.simple c) (some ((Node.leaf (.text v) {} []).withComponent c))

theorem Statement.plain_only (c : Component) {v : Text} (hv : PlainText v) : (only c v).Plain := by
  have hget : ∀ slot n, (only c v).get slot = some n →
      slot = .simple c ∧ n = (Node.leaf (.text v) {} []).withComponent c := by
    intro slot n hn
    simp only [only, get_put, get_empty] at hn
    split at hn
    · exact ⟨‹_›, (Option.some.inj hn).symm⟩
    · cases hn
  refine .intro ⟨.simple c, by simp [only, get_put]⟩ ?_ ?_ ?_
  · intro e n hn
    obtain ⟨he, rfl⟩ := hget _ n hn
    cases he
    exact ⟨_, .leaf hv, rfl⟩
  · intro e h n hn
    cases (hget _ n hn).1
  · intro e h t ht
    cases (hget _ _ ht).1

/-- Two aims that share a text, under a condition. -/
def Statement.conditional : Statement :=
  let aims : Node := .combination .or (.text ['x']) (.text ['y']) { sharedLeft := [['z']] } []
  (empty.put (.simple .aim) (some (aims.withComponent .aim))).put (.complex .activationCondition rfl)
    (some ((Node.nested (only .attributes ['a'])).withComponent .activationCondition))

theorem Statement.plain_conditional : conditional.Plain := by
  have hcomplex : ∀ c h n, conditional.get (.complex c h) = some n →
      c = .activationCondition ∧ n = (Node.nested (only .attributes ['a'])).withComponent .activationCondition := by
    intro c h n hn
    simp only [conditional, get_put, get_empty] at hn
    split at hn
    · rename_i hc
      cases hc
      exact ⟨rfl, (Option.some.inj hn).symm⟩
    · split at hn <;> cases hn
      rename_i hc
      cases hc
  refine .intro ⟨.simple .aim, by simp [conditional, get_put]⟩ ?_ ?_ ?_
  · intro c n hn
    simp only [conditional, get_put, get_empty] at hn
    split at hn
    · rename_i hc
      cases hc
    · split at hn
      · rename_i hc
        cases hc
        have hshared : ∀ t ∈ some ['z'], PlainText t := by
          intro t ht
          cases ht
          decide
        have hnone : ∀ t ∈ (none : Option Text), PlainText t := by
          intro t ht
          cases ht
        exact ⟨_, .combination rfl (.leaf (by decide)) (.leaf (by decide)) hshared hnone, (Option.some.inj hn).symm⟩
      · cases hn
  · intro c h n hn
    obtain ⟨rfl, rfl⟩ := hcomplex c h n hn
    exact ⟨_, rfl⟩
  · intro c h t ht
    obtain ⟨rfl, ht⟩ := hcomplex c h _ ht
    cases ht
    exact plain_only _ (by decide)

theorem parse_render_conditional :
    parse {} Statement.conditional.render = .ok ⟨.nested .conditional, []⟩ :=
  (parse_render Statement.plain_conditional (by decide +kernel) (by decide +kernel)).1

end InstitutionalGrammar
