/-
  InstitutionalGrammar.Proofs.Combination.Paired — two operands in parentheses.

  An operand in normal form is swept in one go, wherever it stands: a sweep of the pair notes the spans of both
  operands, one level further in, and then the pair. So the tree of the pair joins those of its operands.
  - `exists_normal`: operands are built from their normal form.
  - `sweep_paired`: the sweep of a pair.
  - `builds_paired`: its tree.
-/

import InstitutionalGrammar.Proofs.Combination.Builds

namespace InstitutionalGrammar

open Delimiters (parentheses)

variable {a b l r w x : Text} {o : Operator} {tree : Node} {table : SpanTable}

/-! ## Operands in normal form -/

/-- A text that can be an operand and is swept in one go. -/
structure Normal (x : Text) : Prop where
  filled : x.allBlank = false
  balanced : ∀ e, Balanced e x
  settles : ∃ table, sweep parentheses x = .ok (.settled table)

theorem allBlank_opening (a b : Text) : Text.allBlank (a ++ parentheses.opening :: b) = false := by
  rw [Text.allBlank_append, show Text.allBlank (parentheses.opening :: b) = false from rfl, Bool.and_false]

/-- An operand is built from its normal form. -/
theorem exists_normal (hfilled : x.allBlank = false) (h : spanTable parentheses x = .ok table) :
    Normal table.input ∧ ∀ tree, Builds table.input tree ↔ Builds x tree := by
  have hstart : x.allBlank = false ∧ ∀ e, Balanced e x := ⟨hfilled, (spanTable_settles h).1⟩
  obtain ⟨-, ⟨hfilled', hbalanced⟩, hsweep⟩ := spanTable_lasts (P := fun t => t.allBlank = false ∧ ∀ e, Balanced e t)
    (fun {t a operands o rest} hstop ht => ⟨allBlank_opening a _, fun e => hstop.balanced (ht.2 e)⟩) hstart h
  refine ⟨⟨hfilled', hbalanced, table, hsweep⟩, fun tree => Builds.congr ?_⟩
  rw [h, spanTable_of_sweep (requireBalanced_iff.2 hbalanced) hsweep]

namespace Normal

theorem embedded (h : Normal x) (hb : Loose b) : Embedded parentheses a x b := ⟨h.balanced, nofun, hb⟩

theorem trim_ne_nil (h : Normal x) : x.trim ≠ [] := by
  rw [Ne, Text.trim_eq_nil_iff, h.filled]
  exact Bool.false_ne_true

/-- Blanks at the end of an operand can be left out. -/
theorem trimEnd (h : Normal x) : Normal x.trimEnd ∧ ∀ tree, Builds x.trimEnd tree ↔ Builds x tree := by
  obtain ⟨blank, hx, hall⟩ : ∃ blank, x = x.trimEnd ++ blank ∧ Text.allBlank blank = true := Text.stripEnd_append isBlank x
  have hbalanced : ∀ e, Balanced e x.trimEnd := fun e => by
    have hpad : Balanced e ([] ++ (x.trimEnd ++ blank)) ↔ Balanced e x.trimEnd := balanced_pad rfl hall
    rw [List.nil_append, ← hx] at hpad
    exact hpad.1 (h.balanced e)
  obtain ⟨table, hsweep⟩ := h.settles
  have hloose := Loose.of_allBlank hall (b := []) nofun
  rw [List.append_nil] at hloose
  have hembedded : Embedded parentheses [] x.trimEnd blank := ⟨hbalanced, nofun, hloose⟩
  refine ⟨⟨?_, hbalanced, ?_⟩, fun tree => ?_⟩
  · have hfilled := h.filled
    rw [hx, Text.allBlank_append, hall, Bool.and_true] at hfilled
    exact hfilled
  · -- a sweep that does not get through would not get through the text either
    have hends := sweep_ends (hbalanced parentheses)
    cases hfound : sweep parentheses x.trimEnd with
    | error f =>
      have hnone := (hends.failure hfound).2
      have hgauge := (sweep_ends (h.balanced parentheses)).value hsweep
      obtain ⟨τ, hτ⟩ := hgauge
      rw [hx, gauge_blank hall, hnone] at hτ
      cases hτ
    | ok found =>
      cases found with
      | settled table => exact ⟨table, rfl⟩
      | repetition left operator =>
        have hrun := hembedded.sweepFrom_repetition [] [] hfound
        rw [← hx] at hrun
        cases hsweep.symm.trans (sweep_repetition hrun)
  · have hpad : Builds ([] ++ (x.trimEnd ++ blank)) tree ↔ Builds x.trimEnd tree :=
      builds_pad (requireBalanced_iff.2 hbalanced) rfl hall
    rw [List.nil_append, ← hx] at hpad
    exact hpad.symm

end Normal

/-! ## Two operands -/

/-- The operator behind the first operand of a pair. -/
def placedBehind (l : Text) (o : Operator) : PlacedOperator := ⟨o, 1 + l.size, 1 + l.size + o.token.size⟩

theorem loose_token (ho : o.isSynthetic = false) (v : Text) : Loose (o.token ++ v) := (Sharp.token ho v).loose

/-- The spans of an operand are further in than the pair. -/
theorem Normal.deeper (h : Normal x) (hsweep : sweep parentheses x = .ok (.settled table)) (k : Nat) :
    ∀ s ∈ table.spans.map (·.behind k 1), 1 < s.level := by
  have hplaced := spanTable_placed (spanTable_of_sweep (requireBalanced_iff.2 h.balanced) hsweep)
  intro s hs
  obtain ⟨e, he, rfl⟩ := List.mem_map.1 hs
  have hpos := hplaced.level_pos he
  rw [Span.behind_level]
  omega

/-- A sweep over the first operand of a pair, and the operator. -/
theorem sweptTo_operator (ho : o.isSynthetic = false) (hl : Normal l) : ∃ closed : List Span,
    SweptTo parentheses (parentheses.opening :: (l ++ o.token)) [⟨0, some (placedBehind l o)⟩] closed ∧
      ∀ s ∈ closed, 1 < s.level := by
  obtain ⟨table, hsweep⟩ := hl.settles
  have hsize : Text.size [parentheses.opening] = 1 := rfl
  refine ⟨(table.spans.map (·.behind 1 1)).reverse, fun v => ?_, fun s hs => hl.deeper hsweep 1 s (List.mem_reverse.1 hs)⟩
  have hrun := (sweptTo_opening parentheses).past_settled (hl.embedded (loose_token ho v)) hsweep
  rw [sweepFrom_operator ho (a := [parentheses.opening]) (b := l) rfl hsize hl.trim_ne_nil, List.append_nil, hsize] at hrun
  simpa [placedBehind, hsize] using hrun

/-- A sweep over two operands. -/
theorem sweptTo_operands (ho : o.isSynthetic = false) (hl : Normal l) (hr : Normal r) : ∃ closed : List Span,
    (∀ v, Loose v → sweepFrom parentheses [] (parentheses.opening :: (l ++ (o.token ++ (r ++ v)))) .start =
      sweepFrom parentheses (parentheses.opening :: (l ++ o.token) ++ r) v ⟨[⟨0, some (placedBehind l o)⟩], closed, [], []⟩) ∧
      ∀ s ∈ closed, 1 < s.level := by
  obtain ⟨closed, hswept, hclosed⟩ := sweptTo_operator ho hl
  obtain ⟨table, hsweep⟩ := hr.settles
  refine ⟨(table.spans.map (·.behind (Text.size (parentheses.opening :: (l ++ o.token))) 1)).reverse ++ closed,
    fun v hv => ?_, ?_⟩
  · have hrun := hswept.past_settled (hr.embedded hv) hsweep
    simpa using hrun
  · intro s hs
    rcases List.mem_append.1 hs with hs | hs
    · exact hr.deeper hsweep _ s (List.mem_reverse.1 hs)
    · exact hclosed s hs

theorem size_lead (l : Text) (o : Operator) : Text.size (parentheses.opening :: (l ++ o.token)) = (placedBehind l o).stop := by
  simp only [Text.size_cons, Text.size_append, Delimiters.utf8Size_opening, placedBehind]
  omega

theorem size_operands (l r : Text) (o : Operator) :
    Text.size (parentheses.opening :: (l ++ o.token) ++ r) = (placedBehind l o).stop + r.size := by
  rw [Text.size_append, size_lead]

/-- Two operands in parentheses, with some text behind them. -/
def paired (o : Operator) (l r w : Text) : Text :=
  parentheses.opening :: (l ++ (o.token ++ (r ++ parentheses.closing :: w)))

/-- The span of the pair. -/
def pairSpan (o : Operator) (l r : Text) : Span := ⟨1, 0, (placedBehind l o).stop + r.size, some (placedBehind l o)⟩

/-- The sweep of a pair of two operands: the spans of the operands, and then the pair. -/
theorem sweep_paired (ho : o.isSynthetic = false) (hl : Normal l) (hr : Normal r) (hw : Text.allBlank w = true) :
    ∃ table inside, sweep parentheses (paired o l r w) = .ok (.settled table) ∧ table.input = paired o l r w ∧
      table.spans = inside ++ [pairSpan o l r] ++ [] ∧ ∀ s ∈ inside, 1 < s.level := by
  obtain ⟨closed, hswept, hclosed⟩ := sweptTo_operands ho hl hr
  have hrun := hswept (parentheses.closing :: w) (Sharp.closing parentheses w).loose
  rw [sweepFrom_closing (a := parentheses.opening :: (l ++ o.token)) (b := r) rfl (size_lead l o) hr.trim_ne_nil,
    ← List.append_nil w, sweepFrom_plain (plain_of_allBlank hw), sweepFrom_nil, size_operands, List.append_nil] at hrun
  obtain ⟨nonShared, hsettled⟩ := sweep_settled hrun
  rw [List.reverse_cons] at hsettled
  exact ⟨_, closed.reverse, hsettled, rfl, (List.append_nil _).symm, fun s hs => hclosed s (List.mem_reverse.1 hs)⟩

theorem operands_balanced (hl : ∀ e, Balanced e l) (hr : ∀ e, Balanced e r) (o : Operator) (e : Delimiters) :
    Balanced e (l ++ (o.token ++ r)) := (hl e).append (Balanced.token_iff.2 (hr e))

theorem paired_balanced (hl : ∀ e, Balanced e l) (hr : ∀ e, Balanced e r) (hw : Text.allBlank w = true) (e : Delimiters) :
    Balanced e (paired o l r w) := by
  have hoperands := (operands_balanced hl hr o e).append (.plain (Balanced.of_allBlank hw))
  simpa [paired] using Balanced.wrap_part (a := []) hoperands parentheses

/-- A combination of two operands that shares no text. -/
theorem combinationOf_bare {build : Text → Outcome Node} {s : Span} {p : PlacedOperator}
    (hl : table.input.slice (s.left + 1) p.start = .ok l) (hr : table.input.slice p.stop s.right = .ok r)
    (hbefore : shared? <$> table.input.slice (table.scope s).1 s.left = .ok none)
    (hbehind : shared? <$> table.input.slice (s.right + 1) (table.scope s).2 = .ok none)
    (hlabel : ∀ n m, build l = .ok n → build r = .ok m → Node.combine p.operator n m = .ok (.combination p.operator n m {} [])) :
    combinationOf build table [] s p [] = .ok tree ↔
      ∃ n m, build l = .ok n ∧ build r = .ok m ∧ tree = .combination p.operator n m {} [] := by
  have hstart : table.shareStart [] s = (table.scope s).1 := rfl
  rw [combinationOf_eq]
  simp only [hl, hr, hstart, hbefore, hbehind, List.any_nil, Bool.false_eq_true, if_false, ok_bind]
  constructor
  · intro h
    obtain ⟨n, hn, h⟩ := bind_eq_ok.1 h
    obtain ⟨m, hm, h⟩ := bind_eq_ok.1 h
    rw [hlabel n m hn hm] at h
    exact ⟨n, m, hn, hm, (Except.ok.inj h).symm⟩
  · rintro ⟨n, m, hn, hm, rfl⟩
    rw [hn, hm, ok_bind, ok_bind, hlabel n m hn hm]
    rfl

/-- The pair, cut at its span and its operator. -/
theorem paired_slices (o : Operator) (l r w : Text) :
    (paired o l r w).slice ((pairSpan o l r).left + 1) (placedBehind l o).start = .ok l ∧
      (paired o l r w).slice (placedBehind l o).stop (pairSpan o l r).right = .ok r ∧
      (paired o l r w).slice 0 (pairSpan o l r).left = .ok [] ∧
      (paired o l r w).slice ((pairSpan o l r).right + 1) (paired o l r w).size = .ok w := by
  have hlead := size_lead l o
  refine ⟨?_, ?_, Text.slice_parts (a := []) rfl rfl rfl, ?_⟩
  · exact Text.slice_parts (a := [parentheses.opening]) (c := o.token ++ (r ++ parentheses.closing :: w)) (by simp [paired])
      rfl rfl
  · exact Text.slice_parts (a := parentheses.opening :: (l ++ o.token)) (c := parentheses.closing :: w) (by simp [paired])
      hlead (congrArg (· + r.size) hlead)
  · have hparts : paired o l r w = (parentheses.opening :: (l ++ o.token) ++ r ++ [parentheses.closing]) ++ w ++ [] := by
      simp [paired]
    have hclosing : Text.size (parentheses.opening :: (l ++ o.token) ++ r ++ [parentheses.closing]) =
        (pairSpan o l r).right + 1 := by
      rw [Text.size_append, size_operands]
      rfl
    refine Text.slice_parts hparts hclosing ?_
    rw [hparts, List.append_nil]
    exact (Text.size_append _ w).symm

/-- A pair of two operands is built from both. -/
theorem builds_paired (ho : o.isSynthetic = false) (hl : Normal l) (hr : Normal r) (hw : Text.allBlank w = true) :
    Builds (paired o l r w) tree ↔ ∃ n m, Builds l n ∧ Builds r m ∧ tree = .combination o n m {} [] := by
  obtain ⟨table, inside, hsweep, hinput, hspans, hinside⟩ := sweep_paired ho hl hr hw
  have htable := spanTable_of_sweep (requireBalanced_iff.2 (paired_balanced hl.balanced hr.balanced hw)) hsweep
  have hcount : operatorCount (paired o l r w) = operatorCount l + (operatorCount r + operatorCount w) + 1 := by
    rw [paired, operatorCount_weight.char _ (separates_opening _).1, operatorCount_weight.operator ho,
      operatorCount_weight.around (separates_closing _)]
  have hbuilds : ∀ {t n}, operatorCount t < operatorCount (paired o l r w) →
      (Builds t n ↔ treeWithin parentheses 0 (operatorCount (paired o l r w)) t = .ok n) := fun h => builds_iff h 0
  have hscope : table.scope (pairSpan o l r) = (0, (paired o l r w).size) := by
    rw [(spanTable_placed htable).scope_outer (by simp [hspans]) rfl, hinput]
  obtain ⟨hleft, hright, hbefore, hbehind⟩ := paired_slices o l r w
  obtain ⟨houtermost, honly⟩ := SpanTable.only_span hspans rfl rfl hinside nofun
  rw [builds_iff (Nat.lt_succ_self _) 0, treeWithin, treeStep_single htable houtermost honly rfl,
    combinationOf_bare (l := l) (r := r)]
  · exact exists_congr fun n => exists_congr fun m => by rw [hbuilds (by omega), hbuilds (by omega)]; rfl
  · rwa [hinput]
  · rwa [hinput]
  · rw [hinput, hscope, hbefore]
    rfl
  · rw [hinput, hscope, hbehind]
    exact congrArg Except.ok (shared?_blank hw)
  · intro n m hn hm
    have hn' := (hbuilds (by omega)).2 hn
    have hm' := (hbuilds (by omega)).2 hm
    exact (hn'.unlabelled.combine _ hm'.unlabelled).1

theorem normal_paired (ho : o.isSynthetic = false) (hl : Normal l) (hr : Normal r) (hw : Text.allBlank w = true) :
    Normal (paired o l r w) := by
  obtain ⟨table, -, hsweep, -⟩ := sweep_paired ho hl hr hw
  exact ⟨rfl, paired_balanced hl.balanced hr.balanced hw, table, hsweep⟩

end InstitutionalGrammar
