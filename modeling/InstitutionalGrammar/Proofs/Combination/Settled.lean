/-
  InstitutionalGrammar.Proofs.Combination.Settled — what a settled sweep has seen.

  A sweep hands every operator it meets to the span around it and keeps the span, so an operator that
  it met shows in the table. One step keeps that (`sweepStep_meets`), and so does the run.
  - `spanTable_meets`: the table of a text shows a combination if an operator is marked in its input.
  - `Settled.operatorFree`: content whose table has no combination has no operator.
-/

import InstitutionalGrammar.Combination.Tree
import InstitutionalGrammar.Proofs.Combination.Building
import InstitutionalGrammar.Proofs.Combination.Levels
import InstitutionalGrammar.Proofs.Meets

namespace InstitutionalGrammar

/-! ## The outermost level with a combination -/

namespace SpanTable

variable {table : SpanTable} {level : Nat}

theorem isCombination_of_outermostLevel?_none (h : table.outermostLevel? = none) {s : Span} (hs : s ∈ table.spans) :
    s.isCombination = false := by
  by_contra hc
  have hmem : s ∈ table.atLevel s.level := List.mem_filter.2 ⟨hs, by simp⟩
  have hlevel : s.level ∈ table.levels := by
    have hle := level_le_foldl 0 hs
    refine List.mem_filter.2 ⟨List.mem_range.2 (by omega), ?_⟩
    simpa using List.ne_nil_of_mem hmem
  refine List.find?_eq_none.1 h s.level hlevel (List.any_eq_true.2 ⟨s, hmem, ?_⟩)
  simpa using hc

/-- No combination is farther out than the level that decides. -/
theorem level_le_of_outermostLevel? (h : table.outermostLevel? = some level) {s : Span} (hs : s ∈ table.spans)
    (hc : s.isCombination = true) : level ≤ s.level := by
  by_contra hlt
  unfold outermostLevel? levels at h
  rw [List.find?_filter, List.find?_range_eq_some] at h
  have hnone := h.2.2 s.level (by omega)
  have hmem : s ∈ table.atLevel s.level := List.mem_filter.2 ⟨hs, by simp⟩
  have hempty : (table.atLevel s.level).isEmpty = false := by simpa using List.ne_nil_of_mem hmem
  have hany : (table.atLevel s.level).any Span.isCombination = true := List.any_eq_true.2 ⟨s, hmem, hc⟩
  simp [hempty, hany] at hnone

end SpanTable

/-! ## One sweep -/

/-- An operator stands directly inside some span, open or closed. -/
def SweepState.Shows (s : SweepState) : Prop :=
  (∃ frame ∈ s.stack, frame.operator.isSome) ∨ ∃ e ∈ s.closed, e.isCombination = true

/-- A repeated operator, or a fault of the text. -/
def Interruption.Fair : Interruption → Prop
  | .failure f => f.Within (·.ofInput = true)
  | .repetition .. => True

/-- Some operator counts among the marks. -/
def Operates (ms : List (Mark × Token)) : Prop := ∃ x ∈ ms, ∃ o, x.1 = .operator o

variable {d : Delimiters} {text : Text}

theorem blankBetween_meets (text : Text) (start stop : Nat) : Fair (fun _ => True) (blankBetween text start stop) :=
  (Meets.slice text start stop).bind fun _ _ => trivial

theorem checkLastOperand_meets (text : Text) (top : Frame) (right : Nat) :
    Fair (fun _ => True) (checkLastOperand text top right) := by
  unfold checkLastOperand
  split
  · trivial
  · refine (blankBetween_meets text _ _).bind fun blank _ => ?_
    split
    · exact (Meets.slice text _ _).bind fun _ _ => rfl
    · trivial

theorem checkOperand_meets (text : Text) (top : Frame) (t : Token) : Fair (fun _ => True) (checkOperand text top t) := by
  have hcheck : ∀ start, Fair (fun _ => True) (do
      if ← blankBetween text start t.position.offset then
        reject (.emptyOperand (← text.slice top.left t.stop) t.position)) := by
    intro start
    refine (blankBetween_meets text _ _).bind fun blank _ => ?_
    split
    · exact (Meets.slice text _ _).bind fun _ _ => rfl
    · trivial
  unfold checkOperand
  exact hcheck _

theorem SweepState.Shows.of_bare {s s' : SweepState} (h : s.Shows) (hbare : s'.bare = s.bare) : s'.Shows := by
  unfold Shows
  rw [stack_of_bare hbare, closed_of_bare hbare]
  exact h

/-- Before and behind a token the same operators show, and its own if it is one. -/
theorem sweepStep_meets (d : Delimiters) (text : Text) (s : SweepState) (x : Mark × Token) :
    Meets Interruption.Fair (fun s' => (s.Shows ∨ ∃ o, x.1 = .operator o) → s'.Shows) (sweepStep d text s x) := by
  obtain ⟨m, t⟩ := x
  have hstep := sweepStep_cases d text s m t
  generalize sweepStep d text s (m, t) = y at hstep ⊢
  cases hstep with
  | passes =>
    rintro (h | ⟨o, ho⟩)
    · exact h.of_bare (addRun_bare s _)
    · cases ho
  | opens =>
    rintro (h | ⟨o, ho⟩)
    · rcases h.of_bare (leaveRun_bare s) with ⟨frame, hframe, ho⟩ | hclosed
      · exact Or.inl ⟨frame, List.mem_cons_of_mem _ hframe, ho⟩
      · exact Or.inr hclosed
    · cases ho
  | unended _ hfail => exact (checkLastOperand_meets text _ _).failure hfail
  | closes hstack =>
    -- the operator of the frame goes with the span
    rintro ((⟨frame, hframe, ho⟩ | ⟨e, he, hc⟩) | ⟨o, ho⟩)
    · rw [hstack] at hframe
      rcases List.mem_cons.1 hframe with rfl | hframe
      · exact Or.inr ⟨_, List.mem_cons_self, ho⟩
      · exact Or.inl ⟨frame, hframe, ho⟩
    · exact Or.inr ⟨e, List.mem_cons_of_mem _ he, hc⟩
    · cases ho
  | unled _ hfail => exact (checkOperand_meets text _ t).failure hfail
  | notes => exact fun _ => Or.inl ⟨_, List.mem_cons_self, rfl⟩
  | repeats => trivial
  | unopened | outside | mixes => rfl

/-- All operators of a run show in the end. -/
theorem sweepAll_meets (d : Delimiters) (text : Text) (ms : List (Mark × Token)) (s : SweepState) :
    Meets Interruption.Fair (fun s' => (s.Shows ∨ Operates ms) → s'.Shows) (ms.foldlM (sweepStep d text) s) := by
  induction ms generalizing s with
  | nil =>
    rintro (h | ⟨x, hx, -⟩)
    · exact h
    · cases hx
  | cons x ms ih =>
    rw [List.foldlM_cons]
    refine (sweepStep_meets d text s x).bind fun s₁ h₁ => (ih s₁).weaken fun s' h' => ?_
    rintro (h | ⟨y, hy, o, ho⟩)
    · exact h' (Or.inl (h₁ (Or.inl h)))
    · rcases List.mem_cons.1 hy with rfl | hy
      · exact h' (Or.inl (h₁ (Or.inr ⟨o, ho⟩)))
      · exact h' (Or.inr ⟨y, hy, o, ho⟩)

/-! ## The table -/

/-- An operator marked in the input shows in a span of the table. -/
def SpanTable.Settled (d : Delimiters) (table : SpanTable) : Prop :=
  Operates (marks d table.input) → ∃ e ∈ table.spans, e.isCombination = true

theorem sweep_meets (d : Delimiters) (text : Text) :
    Fair (fun r => ∀ table, r = .settled table → table.Settled d) (sweep d text) := by
  refine (sweepAll_meets d text (marks d text) .start).ends (fun f hf => hf) (fun _ _ _ => nofun) ?_ fun _ _ _ => rfl
  rintro s hshows hstack table ⟨⟩ hoperates
  rcases hshows (Or.inr hoperates) with ⟨frame, hframe, -⟩ | ⟨e, he, hc⟩
  · rw [hstack] at hframe
    cases hframe
  · exact ⟨e, List.mem_reverse.2 he, hc⟩

theorem regroup_meets (d : Delimiters) (text : Text) (left operator : Nat) :
    Fair (fun _ => True) (regroup d text left operator) := by
  unfold regroup
  refine (Meets.slice text _ _).bind fun head _ => (Meets.slice text _ _).bind fun operands _ => ?_
  exact (Meets.slice text _ _).bind fun tail _ => trivial

theorem settle_meets (d : Delimiters) (fuel : Nat) (text : Text) : Fair (SpanTable.Settled d) (settle d fuel text) :=
  Meets.rounds (I := fun _ _ => True) (fun _ text _ => sweep_meets d text) (fun _ _ table _ hfound => hfound table rfl)
    (fun _ _ _ _ _ => trivial) (fun _ text left operator _ _ => regroup_meets d text left operator) trivial

/-- The table of a text shows its operators. -/
theorem spanTable_meets (d : Delimiters) (text : Text) : Fair (SpanTable.Settled d) (spanTable d text) :=
  (requireBalanced_meets (fun _ _ _ _ => rfl) (fun _ _ => rfl) text).lift.bind fun _ _ => settle_meets d _ text

/-- Content without combinations is free of operators: inside content every operator counts. -/
theorem SpanTable.Settled.operatorFree {table : SpanTable} (h : table.Settled .parentheses)
    (hnone : table.outermostLevel? = none) : OperatorFree table.input := by
  refine operatorFree_of_lex fun o ho => ?_
  rw [← map_lexeme_tokens] at ho
  obtain ⟨t, ht, hl⟩ := List.mem_map.1 ho
  obtain ⟨e, he, hc⟩ := h ⟨_, List.mem_map_of_mem ht, o, by rw [hl]; rfl⟩
  rw [isCombination_of_outermostLevel?_none hnone he] at hc
  cases hc

end InstitutionalGrammar
