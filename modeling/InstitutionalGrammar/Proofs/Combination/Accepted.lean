/-
  InstitutionalGrammar.Proofs.Combination.Accepted — the texts whose combinations can be told.

  A sweep over content notes for each open span what the gauge of the text keeps of it, so both get over the same
  lexemes; only a repeated operator stops the sweep and not the gauge. The regrouped text is gauged like the
  text itself. So the rounds of a balanced text settle if the text is grammatical, and are refused otherwise.
  - `Follows`: the open spans of a sweep, as the gauge sees them; `sweepStep_follows`: one lexeme further.
  - `Repetition.gauge_regrouped`: what regrouping keeps.
  - `spanTable_grammatical`: balanced texts that are accepted.
-/

import InstitutionalGrammar.Proofs.Combination.Gauge
import InstitutionalGrammar.Proofs.Combination.Layers
import InstitutionalGrammar.Proofs.Combination.NormalForm

namespace InstitutionalGrammar

variable {a g q text u v w : Text} {f : Frame} {fs : List Frame} {scope : Scope} {σ τ : List Scope} {l : Lexeme}
  {ls ls' : List Lexeme} {o : Operator} {s : SweepState} {t : Token} {p : Position} {rest : Text}

/-! ## Open spans -/

/-- The byte from which on a span is looked through for an operand. -/
def Frame.start (f : Frame) : Nat :=
  match f.operator with
  | some o => o.stop
  | none => f.left + 1

/-- The open span at byte `i`, with `g` in it so far, in the scope. -/
structure Frame.Agrees (i : Nat) (g : Text) (f : Frame) (scope : Scope) : Prop where
  left : f.left = i
  noted : scope.operator = f.noted
  filled : ∃ l s, g = l ++ s ∧ f.start = i + 1 + l.size ∧ scope.filled = !s.allBlank

/-- The open spans and scopes behind a text. -/
inductive Follows : Text → List Frame → List Scope → Prop
  | outside {q : Text} : Balanced .parentheses q → Follows q [] []
  | inside {a g : Text} {f : Frame} {fs : List Frame} {scope : Scope} {σ : List Scope} :
      Follows a fs σ → Balanced .parentheses g → f.Agrees a.size g scope →
      Follows (a ++ Delimiters.parentheses.opening :: g) (f :: fs) (scope :: fill true σ)

namespace Follows

theorem extend (h : Follows q fs σ) (hw : Balanced .parentheses w) : Follows (q ++ w) fs (fill (!w.allBlank) σ) := by
  cases h with
  | outside hq => exact .outside (hq.append hw)
  | @inside a g f fs scope σ ha hg hf =>
    obtain ⟨l, s, rfl, hstart, hfilled⟩ := hf.filled
    rw [List.append_assoc, List.cons_append, List.append_assoc]
    refine .inside ha ?_ ⟨hf.left, hf.noted, l, s ++ w, rfl, hstart, ?_⟩
    · rw [← List.append_assoc]
      exact hg.append hw
    · rw [hfilled, Text.allBlank_append, Bool.not_and]

theorem push (h : Follows q fs σ) :
    Follows (q ++ [Delimiters.parentheses.opening]) (⟨q.size, none⟩ :: fs) (.start :: fill true σ) :=
  .inside h (.nil _) ⟨rfl, rfl, [], [], rfl, rfl, rfl⟩

theorem pop (h : Follows q (f :: fs) (scope :: σ)) : Follows (q ++ [Delimiters.parentheses.closing]) fs σ := by
  cases h with
  | inside ha hg hf =>
    have hclosed := ha.extend hg.wrap
    rw [List.append_assoc]
    exact hclosed

theorem note (h : Follows q (f :: fs) (scope :: σ)) (start : Nat) :
    Follows (q ++ o.token) ({ f with operator := some ⟨o, start, q.size + o.token.size⟩ } :: fs)
      (⟨some o, false⟩ :: σ) := by
  cases h with
  | @inside a g _ _ _ _ ha hg hf =>
    rw [List.append_assoc, List.cons_append]
    refine .inside ha (hg.append ?_) ⟨hf.left, rfl, g ++ o.token, [], by simp, ?_, rfl⟩
    · exact .plain (token_plain _)
    · simp only [Frame.start, Text.size_append, Text.size_cons, Delimiters.utf8Size_opening]
      omega

theorem length_eq (h : Follows q fs σ) : fs.length = σ.length := by
  induction h with
  | outside _ => rfl
  | inside _ _ _ ih => simp [ih]

theorem noted_eq (h : Follows q (f :: fs) (scope :: σ)) : scope.operator = f.noted := by
  cases h with
  | inside _ _ hf => exact hf.noted

/-- In a balanced text, a parenthesis closes only where one is open. -/
theorem ne_nil (h : Follows q fs σ) (hbalanced : Balanced .parentheses (q ++ Delimiters.parentheses.closing :: w)) : fs ≠ [] := by
  rintro rfl
  cases h with
  | outside hq => exact hbalanced.not_closing hq

/-- Behind a balanced text, all is closed. -/
theorem eq_nil (h : Follows q fs σ) (hbalanced : Balanced .parentheses q) : fs = [] := by
  cases h with
  | outside _ => rfl
  | inside _ hg _ => exact (hbalanced.not_open hg.ordered).elim

/-! ### Operands -/

theorem blankBetween_eq (h : Follows q (f :: fs) (scope :: σ)) (w : Text) :
    blankBetween (q ++ w) f.start q.size = .ok (!scope.filled) := by
  cases h with
  | @inside a g _ _ _ _ ha hg hf =>
    obtain ⟨l, s, rfl, hstart, hfilled⟩ := hf.filled
    have hslice : (a ++ Delimiters.parentheses.opening :: (l ++ s) ++ w).slice f.start
        (a ++ Delimiters.parentheses.opening :: (l ++ s)).size = .ok s := by
      refine Text.slice_parts (a := a ++ Delimiters.parentheses.opening :: l) (c := w) (by simp) ?_ ?_
      · simp only [Text.size_append, Text.size_cons, Delimiters.utf8Size_opening]
        omega
      · simp only [Text.size_append, Text.size_cons]
        omega
    have hblank : s.trim.isEmpty = s.allBlank := by
      rw [Bool.eq_iff_iff, List.isEmpty_iff, Text.trim_eq_nil_iff]
    rw [blankBetween, hslice, ok_bind, hfilled, Bool.not_not, hblank]
    rfl

theorem exists_slice (h : Follows q (f :: fs) σ) (u w : Text) :
    ∃ part, (q ++ (u ++ w)).slice f.left (q.size + u.size) = .ok part := by
  cases h with
  | @inside a g _ _ _ _ ha hg hf =>
    refine ⟨Delimiters.parentheses.opening :: (g ++ u), Text.slice_parts (a := a) (c := w) (by simp) hf.left.symm ?_⟩
    simp only [Text.size_append, Text.size_cons]
    omega

theorem checkOperand_eq (h : Follows q (f :: fs) (scope :: σ)) (hoffset : t.position.offset = q.size)
    (hstop : t.stop = q.size + u.size) (w : Text) : ∃ part, checkOperand (q ++ (u ++ w)) f t =
      if scope.filled then .ok () else reject (.emptyOperand part t.position) := by
  obtain ⟨part, hpart⟩ := h.exists_slice u w
  refine ⟨part, ?_⟩
  have hblank := h.blankBetween_eq (u ++ w)
  unfold checkOperand
  rw [hoffset, hstop, hpart]
  show (do if ← blankBetween (q ++ (u ++ w)) f.start q.size then _) = _
  rw [hblank, ok_bind]
  cases scope.filled <;> rfl

theorem checkLastOperand_eq (h : Follows q (f :: fs) (scope :: σ)) (hu : u.size = 1) (w : Text) :
    ∃ part position, checkLastOperand (q ++ (u ++ w)) f q.size =
      if scope.operator.isNone || scope.filled then .ok () else reject (.emptyOperand part position) := by
  obtain ⟨part, hpart⟩ := h.exists_slice u w
  have hblank := h.blankBetween_eq (u ++ w)
  have hnoted := h.noted_eq
  unfold checkLastOperand
  cases hoperator : f.operator with
  | none =>
    rw [Frame.noted, hoperator] at hnoted
    exact ⟨part, .start, by rw [hnoted]; rfl⟩
  | some first =>
    have hstart : f.start = first.stop := by rw [Frame.start, hoperator]
    rw [Frame.noted, hoperator] at hnoted
    rw [hstart] at hblank
    rw [hu] at hpart
    refine ⟨part, Position.locate (q ++ (u ++ w)) first.start, ?_⟩
    simp only
    rw [hblank, hpart, hnoted, ok_bind]
    cases scope.filled <;> rfl

end Follows

/-! ## One lexeme -/

/-- The text is refused for its combinations. -/
def Failure.Refused (f : Failure) : Prop :=
  ∃ e, f = .rejected e ∧ e.code ∈ ["OPERATOR_OUTSIDE_COMBINATION", "MIXED_OPERATORS", "EMPTY_OPERAND"]

/-- The operator behind `g` repeats the one directly in the span that opened behind `a`. -/
structure Repetition (a g : Text) (o : Operator) : Prop where
  written : o.isSynthetic = false
  balanced : Balanced .parentheses g
  gauged : ∃ σ, gauge [] (lex (a ++ Delimiters.parentheses.opening :: g)) = some (⟨some o, true⟩ :: σ)

/-- Where a sweep stops at a lexeme: the gauge does too, or the operator repeats that of its scope. -/
def Interruption.Halts (q : Text) (σ : List Scope) (l : Lexeme) : Interruption → Prop
  | .failure f => f.Refused ∧ gaugeStep σ l = none
  | .repetition left operator => ∃ (a g : Text) (o : Operator) (τ : List Scope), q = a ++ Delimiters.parentheses.opening :: g ∧ Balanced .parentheses g ∧
      left = a.size ∧ operator = q.size ∧ l = .operator o ∧ o.isSynthetic = false ∧ σ = ⟨some o, true⟩ :: τ

/-- The step over the lexeme keeps to the gauge, or stops as it may. -/
def Keeps (q : Text) (σ : List Scope) (l : Lexeme) (x : Except Interruption SweepState) : Prop :=
  Meets (Interruption.Halts q σ l) (fun s' => ∃ τ, gaugeStep σ l = some τ ∧ Follows (q ++ l.written) s'.stack τ) x

namespace Follows

theorem exists_scope (h : Follows q s.stack σ) (hstack : s.stack = f :: fs) : ∃ scope τ, σ = scope :: τ := by
  have hlength := h.length_eq
  rw [hstack] at hlength
  exact List.exists_cons_of_length_eq_add_one hlength.symm

theorem step_plain (h : Follows q s.stack σ) (hl : Balanced .parentheses l.written)
    (hgauge : gaugeStep σ l = some (fill (!l.written.allBlank) σ)) :
    Keeps q σ l (sweepStep .parentheses text s (.plain, t)) := by
  refine ⟨_, hgauge, ?_⟩
  rw [SweepState.stack_of_bare (addRun_bare s _)]
  exact h.extend hl

theorem step_opening (h : Follows q s.stack σ) (hoffset : t.position.offset = q.size) :
    Keeps q σ (.opening .parentheses) (sweepStep .parentheses text s (.opening, t)) := by
  refine ⟨.start :: fill true σ, by cases σ <;> rfl, ?_⟩
  show Follows _ (⟨t.position.offset, none⟩ :: s.leaveRun.stack) _
  rw [hoffset, SweepState.stack_of_bare (leaveRun_bare s)]
  exact h.push

theorem step_closing (h : Follows q s.stack σ) (hoffset : t.position.offset = q.size)
    (hbalanced : Balanced .parentheses (q ++ Delimiters.parentheses.closing :: w)) :
    Keeps q σ (.closing .parentheses)
      (sweepStep .parentheses (q ++ Delimiters.parentheses.closing :: w) s (.closing, t)) := by
  rw [sweepStep]
  split
  · rename_i hstack
    exact (h.ne_nil hbalanced hstack).elim
  · rename_i top outer hstack
    obtain ⟨scope, σ, rfl⟩ := h.exists_scope hstack
    rw [hstack] at h
    obtain ⟨part, place, hcheck⟩ := h.checkLastOperand_eq (u := [Delimiters.parentheses.closing]) rfl w
    rw [List.singleton_append] at hcheck
    rw [hoffset, hcheck]
    by_cases hfilled : (scope.operator.isNone || scope.filled) = true
    · rw [if_pos hfilled]
      exact ⟨σ, by rw [gaugeStep_closing, if_pos hfilled], h.pop⟩
    · rw [if_neg hfilled]
      exact ⟨⟨_, rfl, by simp [ParseError.code]⟩, by rw [gaugeStep_closing, if_neg hfilled]⟩

/-- Behind an operand, the operator is the first in its span, repeats the first, or is another one. -/
theorem step_operator (h : Follows q s.stack σ) (ho : o.isSynthetic = false) (hoffset : t.position.offset = q.size)
    (hstop : t.stop = q.size + o.token.size) (w : Text) :
    Keeps q σ (.operator o) (sweepStep .parentheses (q ++ (o.token ++ w)) s (.operator o, t)) := by
  rw [sweepStep]
  split
  · rename_i hstack
    rw [hstack] at h
    cases h with
    | outside _ => exact ⟨⟨_, rfl, by simp [ParseError.code]⟩, rfl⟩
  · rename_i top outer hstack
    obtain ⟨scope, σ, rfl⟩ := h.exists_scope hstack
    rw [hstack] at h
    obtain ⟨part, hcheck⟩ := h.checkOperand_eq hoffset hstop w
    rw [hcheck]
    by_cases hfilled : scope.filled = true
    · rw [if_pos hfilled]
      simp only [mapError_ok, ok_bind]
      have hnoted := h.noted_eq
      split
      · rename_i hnone
        refine ⟨⟨some o, false⟩ :: σ, ?_, ?_⟩
        · rw [gaugeStep_operator, hfilled, hnoted, Frame.noted, hnone]
          rfl
        · rw [hstop]
          exact h.note t.position.offset
      · rename_i first hfirst
        rw [Frame.noted, hfirst] at hnoted
        split
        · rename_i hsame
          subst hsame
          obtain ⟨noted, filled⟩ := scope
          simp only at hnoted hfilled
          subst hnoted hfilled
          cases h with
          | @inside a g _ _ _ _ ha hg hf => exact ⟨a, g, first.operator, _, rfl, hg, hf.left, hoffset, rfl, ho, rfl⟩
        · rename_i hmixed
          refine ⟨⟨_, rfl, by simp [ParseError.code]⟩, ?_⟩
          rw [gaugeStep_operator, hnoted]
          simp [hmixed]
    · rw [if_neg hfilled]
      refine ⟨⟨_, rfl, by simp [ParseError.code]⟩, ?_⟩
      rw [gaugeStep_operator]
      simp [hfilled]

end Follows

/-- One lexeme further, in a text that starts with `q` and is balanced. -/
theorem sweepStep_follows (h : Follows q s.stack σ) (hwritable : t.lexeme.Writable)
    (hplain : ∀ v, t.lexeme = .text v → WellNested v) (hoffset : t.position.offset = q.size)
    (hstop : t.stop = q.size + t.lexeme.written.size) (htext : text = q ++ (t.lexeme.written ++ w))
    (hbalanced : Balanced .parentheses text) :
    Keeps q σ t.lexeme (sweepStep .parentheses text s (Mark.ofLexeme .parentheses t.lexeme, t)) := by
  cases hl : t.lexeme with
  | text v => exact h.step_plain ((hplain v hl).balanced _) (by cases σ <;> rfl)
  | opening e =>
    cases e with
    | braces => exact h.step_plain (.single (by decide) (by decide)) (by cases σ <;> rfl)
    | parentheses => exact h.step_opening hoffset
  | closing e =>
    cases e with
    | braces => exact h.step_plain (.single (by decide) (by decide)) (by cases σ <;> rfl)
    | parentheses =>
      rw [htext, hl] at hbalanced
      rw [htext, hl]
      exact h.step_closing hoffset hbalanced
  | operator o =>
    rw [hl] at hstop
    rw [htext, hl]
    exact h.step_operator (hwritable.operator o hl) hoffset hstop w

/-! ## One sweep -/

/-- Where a sweep of the text stops: the gauge does not get through either, or an operator is repeated. -/
def Interruption.Ends (text : Text) : Interruption → Prop
  | .failure f => f.Refused ∧ gauge [] (lex text) = none
  | .repetition left operator => ∃ (a g : Text) (o : Operator) (rest : Text),
      text = a ++ Delimiters.parentheses.opening :: (g ++ (o.token ++ rest)) ∧
        left = a.size ∧ operator = a.size + 1 + g.size ∧ Repetition a g o

theorem sweepAll_follows (hbalanced : Balanced .parentheses text) (hlex : lex text = ls ++ ls')
    (hp : p.offset = (writtenOf ls).size) (hgauge : gauge [] ls = some σ) (h : Follows (writtenOf ls) s.stack σ) :
    Meets (Interruption.Ends text) (fun s' => ∃ τ, gauge [] (lex text) = some τ ∧ Follows text s'.stack τ)
      (((place p ls').map fun t => (Mark.ofLexeme .parentheses t.lexeme, t)).foldlM (sweepStep .parentheses text) s) := by
  induction ls' generalizing ls p σ s with
  | nil =>
    rw [List.append_nil] at hlex
    have hwritten : writtenOf ls = text := by rw [← hlex]; exact lex_written text
    rw [hwritten] at h
    exact ⟨σ, by rw [hlex]; exact hgauge, h⟩
  | cons l ls' ih =>
    have hmem : l ∈ lex text := by rw [hlex]; simp
    have hwritten : text = writtenOf ls ++ (l.written ++ writtenOf ls') := writtenOf_split hlex
    have hplain : ∀ v, l = .text v → WellNested v := by
      rintro v rfl
      exact text_of_mem_lex hmem
    have hstop : (p.past l.written).offset = (writtenOf ls).size + l.written.size := by rw [Position.offset_past, hp]
    have hstep := sweepStep_follows (t := ⟨l, p, (p.past l.written).offset⟩) h (writable_of_mem_lex text l hmem) hplain hp
      hstop hwritten hbalanced
    have hsofar : ∀ m, gauge [] (ls ++ l :: m) = (gaugeStep σ l).bind fun τ => gauge τ m := by
      intro m
      rw [gauge_append, hgauge, Option.bind_some, gauge_cons]
    rw [place, List.map_cons, List.foldlM_cons]
    refine Meets.bind (hstep.imp ?_ fun _ h => h) ?_
    · rintro (f | ⟨left, operator⟩) hhalts
      · exact ⟨hhalts.1, by rw [hlex, hsofar, hhalts.2]; rfl⟩
      · obtain ⟨a, g, o, τ, hq, hg, rfl, rfl, rfl, ho, rfl⟩ := hhalts
        refine ⟨a, g, o, writtenOf ls', ?_, rfl, ?_, ho, hg, τ, ?_⟩
        · rw [hwritten, hq]
          simp [Lexeme.written]
        · rw [hq]
          simp only [Text.size_append, Text.size_cons, Delimiters.utf8Size_opening]
          omega
        · have hparts := hlex
          rw [hwritten, hq] at hparts
          rw [← (lex_split (Sharp.token ho (writtenOf ls')) hq hparts).1]
          exact hgauge
    · rintro s' ⟨τ, hτ, hfollows⟩
      have hsnoc : gauge [] (ls ++ [l]) = some τ := by rw [hsofar, hτ]; rfl
      rw [← writtenOf_snoc] at hfollows
      exact ih (by rw [hlex]; simp) (offset_past_snoc hp l) hsnoc hfollows

/-- What a sweep of a text ends with, if it does not fail. -/
def Sweep.Ends (text : Text) : Sweep → Prop
  | .settled _ => ∃ τ, gauge [] (lex text) = some τ
  | .repetition left operator => Interruption.Ends text (.repetition left operator)

theorem sweep_ends (hbalanced : Balanced .parentheses text) :
    Meets (fun f => f.Refused ∧ gauge [] (lex text) = none) (Sweep.Ends text) (sweep .parentheses text) := by
  have hrun := sweepAll_follows (s := .start) (p := .start) hbalanced (List.nil_append (lex text)).symm rfl rfl (.outside (.nil _))
  refine hrun.ends (fun f hf => hf) (fun left operator h => h) ?_ ?_
  · exact fun s ⟨τ, hτ, _⟩ _ => ⟨τ, hτ⟩
  · exact fun s ⟨_, _, hfollows⟩ hopen => absurd (hfollows.eq_nil hbalanced) hopen

/-! ## All sweeps -/

/-- The gauge of a text does not see the regrouping. -/
theorem Repetition.gauge_regrouped (h : Repetition a g o) (rest : Text) :
    gauge [] (lex (regrouped .parentheses a g o rest)) =
      gauge [] (lex (a ++ Delimiters.parentheses.opening :: (g ++ (o.token ++ rest)))) := by
  obtain ⟨σ, hgauge⟩ := h.gauged
  rw [lex_append a (Sharp.opening _ g), lex_opening, gauge_append, Option.bind_eq_some_iff] at hgauge
  obtain ⟨ρ, ha, hg⟩ := hgauge
  -- the operands read alike, whatever is around them
  obtain ⟨r, hr⟩ := h.balanced.gauge_eq .start
  have hfound : r = some ⟨some o, true⟩ := by
    rw [gauge_opening, hr] at hg
    cases r with
    | none => cases hg
    | some r =>
      obtain ⟨rfl, -⟩ := List.cons.inj (Option.some.inj hg)
      rfl
  have hoperands : ∀ σ, gauge (.start :: σ) (lex g) = some (⟨some o, true⟩ :: σ) := fun σ => by rw [hr, hfound]; rfl
  have htrimmed : ∀ σ, gauge (.start :: σ) (lex g.trimEnd) = some (⟨some o, true⟩ :: σ) := by
    intro σ
    obtain ⟨blank, hblank, hall⟩ := Text.stripEnd_append isBlank g
    rw [← hoperands σ, ← gauge_blank hall, Text.trimEnd, ← hblank]
  have hlex : lex (a ++ Delimiters.parentheses.opening :: (g ++ (o.token ++ rest))) =
      lex a ++ .opening .parentheses :: (lex g ++ .operator o :: lex rest) := by
    rw [lex_append a (Sharp.opening _ _), lex_opening, lex_append g (Sharp.token h.written rest), lex_token h.written]
  rw [lex_regrouped h.written, hlex, regroupedLexemes]
  simp only [List.append_assoc, List.cons_append, gauge_append, ha, Option.bind_some, gauge_opening, htrimmed, hoperands]
  simp [gauge_cons, gaugeStep, fill, Scope.start, Text.allBlank]

theorem Rounds.ends {rounds : List Round} {result : Outcome SpanTable} (h : Rounds .parentheses text rounds result)
    (hbalanced : Balanced .parentheses text) :
    Meets (fun f => f.Refused ∧ gauge [] (lex text) = none) (fun _ => ∃ τ, gauge [] (lex text) = some τ) result := by
  induction h with
  | settled hsweep => exact (sweep_ends hbalanced).value hsweep
  | failed hsweep => exact (sweep_ends hbalanced).failure hsweep
  | again hrestarts _ ih =>
    obtain ⟨a', g', o', rest', hstop, hnext⟩ := hrestarts.exists_stop
    obtain ⟨left, token, hsweep, -, hregroup⟩ := hrestarts.stops
    obtain ⟨a, g, o, rest, htext, rfl, hoperator, hrepetition⟩ := (sweep_ends hbalanced).value hsweep
    rw [hoperator, htext, regroup_parts] at hregroup
    have hsame := hrepetition.gauge_regrouped rest
    rw [Except.ok.inj hregroup, ← htext] at hsame
    rw [← hsame]
    refine ih ?_
    rw [hnext]
    exact hstop.balanced hbalanced

/-- A balanced text has a table if the gauge gets through it, and is refused for its combinations otherwise. -/
theorem spanTable_ends (h : requireBalanced text = .ok ()) :
    Meets (fun f => f.Refused ∧ gauge [] (lex text) = none) (fun _ => ∃ τ, gauge [] (lex text) = some τ)
      (spanTable .parentheses text) := by
  obtain ⟨rounds, result, hrounds, -, -, hlength⟩ := exists_rounds .parentheses text
  have hresult : spanTable .parentheses text = result := by
    rw [spanTable, hrounds.settle_eq, if_pos hlength, h]
    rfl
  rw [hresult]
  exact hrounds.ends (requireBalanced_iff.1 h .parentheses)

theorem exists_spanTable_iff (h : requireBalanced text = .ok ()) :
    (∃ table, spanTable .parentheses text = .ok table) ↔ ∃ τ, gauge [] (lex text) = some τ := by
  have hends := spanTable_ends h
  constructor
  · rintro ⟨table, htable⟩
    exact hends.value htable
  · rintro ⟨τ, hτ⟩
    cases hresult : spanTable .parentheses text with
    | ok table => exact ⟨table, rfl⟩
    | error f =>
      have hnone := (hends.failure hresult).2
      rw [hτ] at hnone
      cases hnone

/-- The combinations of a balanced content can be told exactly if the content is grammatical; otherwise it is
    refused for an operator outside all parentheses, for mixed operators, or for an operand that is blank. -/
theorem spanTable_grammatical (text : Text) (h : requireBalanced text = .ok ()) :
    ((∃ table, spanTable .parentheses text = .ok table) ↔ Grammatical text) ∧
      (¬ Grammatical text → ∃ e, spanTable .parentheses text = reject e ∧
        e.code ∈ ["OPERATOR_OUTSIDE_COMBINATION", "MIXED_OPERATORS", "EMPTY_OPERAND"]) := by
  rw [exists_spanTable_iff h, ← gauge_iff (requireBalanced_iff.1 h .parentheses)]
  refine ⟨Iff.rfl, fun hnot => ?_⟩
  have hends := spanTable_ends h
  cases hresult : spanTable .parentheses text with
  | ok table => exact absurd (hends.value hresult) hnot
  | error f =>
    obtain ⟨⟨e, rfl, hcode⟩, -⟩ := hends.failure hresult
    exact ⟨e, rfl, hcode⟩

/-- Two combinations that are operands of a third, with words beside them. -/
def combinedPairs : Text := "if (all (a [AND] b) [OR] (c [XOR] d [XOR] e))".toList

theorem spanTable_grammatical_combinedPairs : requireBalanced combinedPairs = .ok () ∧
    ((∃ table, spanTable .parentheses combinedPairs = .ok table) ↔ Grammatical combinedPairs) ∧
      (¬ Grammatical combinedPairs → ∃ e, spanTable .parentheses combinedPairs = reject e ∧
        e.code ∈ ["OPERATOR_OUTSIDE_COMBINATION", "MIXED_OPERATORS", "EMPTY_OPERAND"]) := by
  have hbalanced : requireBalanced combinedPairs = .ok () := by decide +kernel
  exact ⟨hbalanced, spanTable_grammatical combinedPairs hbalanced⟩

end InstitutionalGrammar
