/-
  InstitutionalGrammar.Proofs.Combination.Replaced — a part of a text can be replaced by what it is regrouped to.

  The rounds of a part are rounds of the whole: the sweep stops at the same operator and the same operands are put
  into delimiters. So the whole has the table that it has with the part in normal form.
  - `spanTable_again`: one round changes nothing for the table.
  - `spanTable_replace`: all rounds of a part.
  - `spanTable_past`: the table of the whole, from that of the part.
-/

import InstitutionalGrammar.Proofs.Combination.Embedded
import InstitutionalGrammar.Proofs.Combination.NormalForm

namespace InstitutionalGrammar

variable {d : Delimiters} {a b x text next : Text} {stack : List Frame} {closed : List Span} {table : SpanTable}
  {left operator : Nat}

/-! ## One round -/

/-- More fuel than there are operators makes no difference. -/
theorem settle_enough {fuel : Nat} (h : operatorCount text ≤ fuel) :
    settle d fuel text = settle d (operatorCount text) text := by
  obtain ⟨rounds, result, hrounds, -, -, hlength⟩ := exists_rounds d text
  rw [hrounds.settle_eq, hrounds.settle_eq, if_pos hlength, if_pos (hlength.trans h)]

/-- A text that is regrouped has the table of the regrouped text. -/
theorem spanTable_again (hbalanced : ∀ e, Balanced e text) (hsweep : sweep d text = .ok (.repetition left operator))
    (hregroup : regroup d text left operator = .ok next) :
    (∀ e, Balanced e next) ∧ spanTable d text = spanTable d next := by
  obtain ⟨a, operands, o, rest, hstop, rfl, rfl⟩ := sweep_stops hsweep
  rw [hstop.regroup_eq] at hregroup
  obtain rfl := Except.ok.inj hregroup
  have hnext : ∀ e, Balanced e (regrouped d a operands o rest) := fun e => hstop.balanced (hbalanced e)
  refine ⟨hnext, ?_⟩
  -- one round more than the regrouped text needs
  let fuel := operatorCount text + operatorCount (regrouped d a operands o rest)
  have hround : settle d (fuel + 1) text = settle d fuel (regrouped d a operands o rest) := by
    rw [settle, hsweep]
    simp only [ok_bind, hstop.regroup_eq]
  have htext : settle d (fuel + 1) text = settle d (operatorCount text) text := settle_enough (by omega)
  rw [spanTable, spanTable, requireBalanced_iff.2 hbalanced, requireBalanced_iff.2 hnext]
  rw [← htext, hround, settle_enough (by omega)]

/-! ## All rounds of a part -/

/-- A sweep comes to the end of `a` with these open and closed spans, whatever stands behind. -/
def SweptTo (d : Delimiters) (a : Text) (stack : List Frame) (closed : List Span) : Prop :=
  ∀ v, sweepFrom d [] (a ++ v) .start = sweepFrom d a v ⟨stack, closed, [], []⟩

theorem SweptTo.past_settled (h : SweptTo d a stack closed) (hx : Embedded d a x b)
    (hsweep : sweep d x = .ok (.settled table)) : sweepFrom d [] (a ++ (x ++ b)) .start = sweepFrom d (a ++ x) b
      ⟨stack, (table.spans.map (·.behind a.size stack.length)).reverse ++ closed, [], []⟩ := by
  rw [h, hx.sweepFrom_settled stack closed hsweep]

/-- The rounds of a part change nothing for the table of the whole. -/
theorem Rounds.spanTable_replace {rounds : List Round} (h : Rounds d x rounds (.ok table)) (ha : SweptTo d a stack closed)
    (hx : Embedded d a x b) (hbalanced : ∀ e, Balanced e (a ++ (x ++ b))) :
    Embedded d a table.input b ∧ (∀ e, Balanced e (a ++ (table.input ++ b))) ∧
      spanTable d (a ++ (x ++ b)) = spanTable d (a ++ (table.input ++ b)) := by
  generalize hresult : (.ok table : Outcome SpanTable) = result at h
  induction h with
  | settled hsweep =>
    cases hresult
    rw [(foldlM_of_settled hsweep).1]
    exact ⟨hx, hbalanced, rfl⟩
  | failed _ => cases hresult
  | @again x round rounds result hrestarts _ ih =>
    obtain ⟨left, token, hsweep, -, hregroup⟩ := hrestarts.stops
    obtain ⟨a', operands, o, rest, hstop, rfl, hoperator⟩ := sweep_stops hsweep
    rw [hoperator] at hsweep hregroup
    rw [hstop.regroup_eq] at hregroup
    have hnext := Except.ok.inj hregroup
    -- the whole stops at the same operator
    have hwhole : sweep d (a ++ (x ++ b)) =
        .ok (.repetition (a.size + a'.size) (a.size + (a'.size + 1 + operands.size))) :=
      sweep_repetition ((ha (x ++ b)).trans (hx.sweepFrom_repetition stack closed hsweep))
    have hregrouped : regroup d (a ++ (x ++ b)) (a.size + a'.size) (a.size + (a'.size + 1 + operands.size)) =
        .ok (a ++ (round.next ++ b)) := by
      have hparts := regroup_parts d (a ++ a') operands o (rest ++ b)
      have htext : a ++ a' ++ d.opening :: (operands ++ (o.token ++ (rest ++ b))) = a ++ (x ++ b) := by
        rw [hstop.text_eq]
        simp
      rw [htext, Text.size_append] at hparts
      rw [← Nat.add_assoc, ← Nat.add_assoc, hparts, ← hnext]
      simp [regrouped]
    obtain ⟨hbalanced', hsame⟩ := spanTable_again hbalanced hwhole hregrouped
    have hx' : Embedded d a round.next b :=
      ⟨fun e => hnext ▸ hstop.balanced (hx.balanced e), hx.untagged, hx.loose⟩
    obtain ⟨hembedded, hbalanced'', hrest⟩ := ih hx' hbalanced' hresult
    exact ⟨hembedded, hbalanced'', hsame.trans hrest⟩

/-- The whole has the table that it has with a part of it replaced by the input of its table. -/
theorem spanTable_replace (h : spanTable d x = .ok table) (ha : SweptTo d a stack closed) (hx : Embedded d a x b)
    (hbalanced : ∀ e, Balanced e (a ++ (x ++ b))) :
    Embedded d a table.input b ∧ (∀ e, Balanced e (a ++ (table.input ++ b))) ∧
      spanTable d (a ++ (x ++ b)) = spanTable d (a ++ (table.input ++ b)) := by
  obtain ⟨rounds, result, hrounds, -, -, hlength⟩ := exists_rounds d x
  rw [spanTable, hrounds.settle_eq, if_pos hlength] at h
  obtain ⟨_, -, rfl⟩ := bind_eq_ok.1 h
  exact hrounds.spanTable_replace ha hx hbalanced

/-- The table of the whole, if the sweep of what stands behind the part comes to the end. -/
theorem spanTable_past (h : spanTable d x = .ok table) (ha : SweptTo d a stack closed) (hx : Embedded d a x b)
    (hbalanced : ∀ e, Balanced e (a ++ (x ++ b))) (spans : List Span)
    (hend : sweepFrom d (a ++ table.input) b
      ⟨stack, (table.spans.map (·.behind a.size stack.length)).reverse ++ closed, [], []⟩ = .ok ⟨[], spans.reverse, [], []⟩) :
    ∃ nonShared, spanTable d (a ++ (x ++ b)) = .ok ⟨a ++ (table.input ++ b), spans, nonShared⟩ := by
  obtain ⟨hx', hbalanced', hsame⟩ := spanTable_replace h ha hx hbalanced
  have hrun := ha.past_settled hx' (spanTable_settles h).2
  rw [hend] at hrun
  obtain ⟨nonShared, hwhole⟩ := sweep_settled hrun
  rw [List.reverse_reverse] at hwhole
  exact ⟨nonShared, hsame.trans (spanTable_of_sweep (requireBalanced_iff.2 hbalanced') hwhole)⟩

end InstitutionalGrammar
