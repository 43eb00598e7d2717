/-
  InstitutionalGrammar.Proofs.Combination.Stretches — what a table says of the text it refers to.

  Everything that uses a table cuts its input at the offsets of the spans and relies on what stands there. A sweep
  notes an operator only behind an operand and closes a span only behind its last one, and it collects the text
  outside all spans piece by piece, so all of it can be read off the input again.
  - `SweepState.Gathered`: the operands so far are not blank, and the stretches so far are those between the
    outermost spans.
  - `sweepStep_gathered`: one token.
  - `spanTable_wellFormed`: the table of every text.
-/

import InstitutionalGrammar.Proofs.Combination.Scopes

namespace InstitutionalGrammar

variable {d : Delimiters} {text : Text} {i j : Nat} {table : SpanTable}

/-! ## Texts between offsets -/

/-- More than white space stands between the two bytes. -/
def Text.Filled (t : Text) (i j : Nat) : Prop := ∃ p, t.slice i j = .ok p ∧ p.trim ≠ []

/-- The bytes before, between and behind the spans, from `start` to `stop`. -/
def gaps (start : Nat) : List Span → (stop : Nat) → List (Nat × Nat)
  | [], stop => [(start, stop)]
  | s :: later, stop => (start, s.left) :: gaps (s.right + 1) later stop

/-- The texts that stand in these bytes. -/
def Text.slices (t : Text) (bytes : List (Nat × Nat)) : Outcome (List Text) :=
  bytes.mapM fun g => t.slice g.1 g.2

/-- The texts that are not blank, trimmed. -/
def trimmedStretches (parts : List Text) : List Text := (parts.map Text.trim).filter (!·.isEmpty)

theorem blankBetween_filled (h : blankBetween text i j = .ok false) : text.Filled i j := by
  obtain ⟨p, hp, hblank⟩ := bind_eq_ok.1 h
  refine ⟨p, hp, fun hnil => ?_⟩
  rw [hnil] at hblank
  cases hblank

theorem checkLastOperand_filled {top : Frame} (h : checkLastOperand text top i = .ok ()) :
    ∀ o ∈ top.operator, text.Filled o.stop i :=
  fun o ho => blankBetween_filled (checkLastOperand_eq_ok.1 h o ho)

theorem checkOperand_filled {top : Frame} {t : Token} (h : checkOperand text top t = .ok ()) (hnone : top.operator = none) :
    text.Filled (top.left + 1) t.position.offset := by
  have hblank := checkOperand_eq_ok.1 h
  rw [hnone] at hblank
  exact blankBetween_filled hblank

theorem gaps_concat (start : Nat) (spans : List Span) (s : Span) (stop : Nat) :
    gaps start (spans ++ [s]) stop = gaps start spans s.left ++ [(s.right + 1, stop)] := by
  induction spans generalizing start with
  | nil => rfl
  | cons e spans ih => rw [List.cons_append, gaps, ih, gaps, List.cons_append]

/-- Only the last gap depends on where the text stops. -/
theorem gaps_last (start : Nat) (spans : List Span) :
    ∃ inner k, ∀ stop, gaps start spans stop = inner ++ [(k, stop)] := by
  rcases List.eq_nil_or_concat spans with rfl | ⟨spans, s, rfl⟩
  · exact ⟨[], start, fun _ => rfl⟩
  · exact ⟨gaps start spans s.left, s.right + 1, fun stop => by rw [List.concat_eq_append, gaps_concat]⟩

theorem slices_concat {bytes : List (Nat × Nat)} {parts : List Text} {p : Text} :
    text.slices (bytes ++ [(i, j)]) = .ok (parts ++ [p]) ↔ text.slices bytes = .ok parts ∧ text.slice i j = .ok p := by
  unfold Text.slices
  rw [List.mapM_append, List.mapM_cons, List.mapM_nil]
  constructor
  · intro h
    obtain ⟨parts', hparts, h⟩ := bind_eq_ok.1 h
    obtain ⟨last, hlast, h⟩ := bind_eq_ok.1 h
    obtain ⟨p', hp, hlast⟩ := bind_eq_ok.1 hlast
    cases hlast
    obtain ⟨rfl, hsame⟩ := List.append_inj' (Except.ok.inj h) rfl
    cases hsame
    exact ⟨hparts, hp⟩
  · rintro ⟨hparts, hp⟩
    rw [hparts, hp]
    rfl

theorem trimmedStretches_concat (parts : List Text) (p : Text) :
    trimmedStretches (parts ++ [p]) = trimmedStretches parts ++ trimmedStretches [p] := by
  simp [trimmedStretches]

/-! ## The state of a sweep -/

/-- Where the present gap between outermost spans stops, in a sweep that has come to byte `i`. -/
def SweepState.gapStop (s : SweepState) (i : Nat) : Nat := (s.stack.getLast?.map Frame.left).getD i

/-- The closed spans of level 1, in order. -/
def SweepState.outermost (s : SweepState) : List Span := (s.closed.filter (·.level = 1)).reverse

/-- The finished stretches are what stands in the gaps before the last, which is the present stretch or, while a
    span is open, a finished one too. -/
def SweepState.Stretched (text : Text) (i : Nat) (s : SweepState) : Prop :=
  ∃ parts p, text.slices (gaps 0 s.outermost (s.gapStop i)) = .ok (parts ++ [p]) ∧
    if s.stack.isEmpty then s.runs.reverse = trimmedStretches parts ∧ s.run.reverse.flatten = p
    else s.runs.reverse = trimmedStretches (parts ++ [p]) ∧ s.run = []

/-- A sweep that has come to byte `i`. -/
structure SweepState.Gathered (text : Text) (i : Nat) (s : SweepState) : Prop where
  frames : ∀ f ∈ s.stack, ∀ o ∈ f.operator, text.Filled (f.left + 1) o.start
  spans : ∀ e ∈ s.closed, ∀ o ∈ e.operator, text.Filled (e.left + 1) o.start ∧ text.Filled o.stop e.right
  stretched : s.Stretched text i

namespace SweepState

variable {s s' : SweepState} {top : Frame} {rest : List Frame}

theorem endRun_runs (s : SweepState) : s.endRun.runs.reverse = s.runs.reverse ++ trimmedStretches [s.run.reverse.flatten] := by
  unfold endRun
  cases h : Text.trim s.run.reverse.flatten with
  | nil => simp [trimmedStretches, h]
  | cons c u => simp [trimmedStretches, h]

theorem endRun_run (s : SweepState) : s.endRun.run = [] := by
  unfold endRun
  split <;> rfl

/-- Whatever a token in a span does to the spans inside, the gap in which the outermost one stands stays as it is. -/
theorem Stretched.inside (h : s.Stretched text i) (hstack : s.stack ≠ []) (hstack' : s'.stack ≠ [])
    (hlast : s'.stack.getLast?.map Frame.left = s.stack.getLast?.map Frame.left) (hclosed : s'.outermost = s.outermost)
    (hruns : s'.runs = s.runs) (hrun : s'.run = s.run) : s'.Stretched text j := by
  obtain ⟨parts, p, hparts, hruns'⟩ := h
  have hstop : s'.gapStop j = s.gapStop i := by
    obtain ⟨f, hf⟩ := Option.isSome_iff_exists.1 (List.getLast?_isSome.2 hstack)
    simp [gapStop, hlast, hf]
  refine ⟨parts, p, by rw [hclosed, hstop, hparts], ?_⟩
  rw [if_neg (by simpa using hstack)] at hruns'
  rw [if_neg (by simpa using hstack'), hruns, hrun]
  exact hruns'

/-- The present stretch goes on. -/
theorem Stretched.grow (h : s.Stretched text i) (hstack : s.stack = []) {w : Text} (hw : text.At i w) :
    SweepState.Stretched text (i + w.size) { s with run := w :: s.run } := by
  obtain ⟨parts, p, hparts, hruns⟩ := h
  obtain ⟨inner, k, hgaps⟩ := gaps_last 0 s.outermost
  simp only [gapStop, hstack, List.isEmpty_nil, if_true, List.getLast?_nil, Option.map_none, Option.getD_none] at hparts hruns
  rw [hgaps, slices_concat, Text.slice_eq_ok] at hparts
  obtain ⟨hparts, hat, hsize⟩ := hparts
  refine ⟨parts, p ++ w, ?_, ?_⟩
  · simp only [gapStop, hstack, List.getLast?_nil, Option.map_none, Option.getD_none]
    rw [show outermost { s with stack := [], run := w :: s.run } = s.outermost from rfl]
    rw [hgaps, slices_concat, Text.slice_eq_ok, Text.size_append]
    exact ⟨hparts, hat.append (hsize ▸ hw), by omega⟩
  · simp [hstack, hruns]

/-- An outermost span opens behind the present stretch. -/
theorem Stretched.push (h : s.Stretched text i) (hstack : s.stack = []) :
    SweepState.Stretched text j { s.endRun with stack := [⟨i, none⟩] } := by
  obtain ⟨parts, p, hparts, hruns⟩ := h
  simp only [gapStop, hstack, List.isEmpty_nil, if_true, List.getLast?_nil, Option.map_none, Option.getD_none] at hparts hruns
  have hclosed : outermost { s.endRun with stack := [⟨i, none⟩] } = s.outermost := by
    unfold outermost
    exact congrArg (fun closed : List Span => (closed.filter (·.level = 1)).reverse) (closed_of_bare (endRun_bare s))
  refine ⟨parts, p, by rw [hclosed]; exact hparts, ?_⟩
  refine ⟨?_, endRun_run s⟩
  show s.endRun.runs.reverse = _
  rw [endRun_runs, hruns.1, hruns.2, trimmedStretches_concat]

/-- An outermost span closes; the next stretch starts behind it. -/
theorem Stretched.pop (h : s.Stretched text i) (hstack : s.stack = [top]) (hcut : text.Cut (i + 1)) :
    SweepState.Stretched text (i + 1) { s with
      stack := []
      closed := ⟨1, top.left, i, top.operator⟩ :: s.closed } := by
  obtain ⟨parts, p, hparts, hruns⟩ := h
  simp only [gapStop, hstack, List.isEmpty_cons, Bool.false_eq_true, if_false, List.getLast?_singleton, Option.map_some,
    Option.getD_some] at hparts hruns
  have hclosed : outermost { s with stack := [], closed := ⟨1, top.left, i, top.operator⟩ :: s.closed } =
      s.outermost ++ [⟨1, top.left, i, top.operator⟩] := by
    simp [outermost]
  refine ⟨parts ++ [p], [], ?_, hruns.1, by rw [hruns.2]; rfl⟩
  rw [hclosed]
  show text.slices (gaps 0 (s.outermost ++ [_]) (i + 1)) = _
  rw [gaps_concat, slices_concat, Text.slice_eq_ok]
  obtain ⟨a, b, rfl, ha⟩ := hcut
  exact ⟨hparts, ⟨a, b, rfl, ha⟩, rfl⟩

namespace Gathered

variable {stop : Nat} {w : Text} {o : PlacedOperator}

theorem addRun (h : s.Gathered text i) (hw : text.At i w) (hstop : stop = i + w.size) : (s.addRun w).Gathered text stop := by
  unfold SweepState.addRun
  split
  · rename_i hempty
    rw [hstop]
    exact ⟨h.frames, h.spans, h.stretched.grow (List.isEmpty_iff.1 hempty) hw⟩
  · rename_i hopen
    have hopen : s.stack ≠ [] := by simpa using hopen
    exact ⟨h.frames, h.spans, h.stretched.inside hopen hopen rfl rfl rfl rfl⟩

/-- A span opens, outermost behind the present stretch or inside another. -/
theorem push (h : s.Gathered text i) :
    SweepState.Gathered text j { s.leaveRun with stack := ⟨i, none⟩ :: s.leaveRun.stack } := by
  have hbare := leaveRun_bare s
  refine ⟨?_, fun e he => h.spans e (closed_of_bare hbare ▸ he), ?_⟩
  · rw [stack_of_bare hbare]
    exact List.forall_mem_cons.2 ⟨nofun, h.frames⟩
  · rw [stack_of_bare hbare]
    unfold leaveRun
    split
    · rename_i hempty
      have hempty : s.stack = [] := List.isEmpty_iff.1 hempty
      rw [hempty]
      exact h.stretched.push hempty
    · rename_i hopen
      have hopen : s.stack ≠ [] := by simpa using hopen
      refine h.stretched.inside hopen (by simp) ?_ rfl rfl rfl
      simp [List.getLast?_cons, List.getLast?_eq_some_getLast hopen]

/-- The innermost span closes behind its last operand. -/
theorem pop (h : s.Gathered text i) (hstack : s.stack = top :: rest) (hlast : ∀ o ∈ top.operator, text.Filled o.stop i)
    (hcut : text.Cut (i + 1)) : SweepState.Gathered text (i + 1) { s with
      stack := rest
      closed := ⟨rest.length + 1, top.left, i, top.operator⟩ :: s.closed } := by
  have hframes := h.frames
  rw [hstack] at hframes
  obtain ⟨htop, hrest⟩ := List.forall_mem_cons.1 hframes
  refine ⟨hrest, List.forall_mem_cons.2 ⟨fun o ho => ⟨htop o ho, hlast o ho⟩, h.spans⟩, ?_⟩
  cases rest with
  | nil => exact h.stretched.pop hstack hcut
  | cons f fs =>
    refine h.stretched.inside (by simp [hstack]) (by simp) (by simp [hstack, List.getLast?_cons]) ?_ rfl rfl
    simp [outermost]

/-- The first operator of the innermost span is noted behind an operand. -/
theorem note (h : s.Gathered text i) (hstack : s.stack = top :: rest) (hfirst : text.Filled (top.left + 1) o.start) :
    SweepState.Gathered text j { s with stack := { top with operator := some o } :: rest } := by
  have hframes := h.frames
  rw [hstack] at hframes
  obtain ⟨-, hrest⟩ := List.forall_mem_cons.1 hframes
  refine ⟨List.forall_mem_cons.2 ⟨?_, hrest⟩, h.spans, ?_⟩
  · rintro _ ⟨⟩
    exact hfirst
  · refine h.stretched.inside (by simp [hstack]) (by simp) ?_ rfl rfl rfl
    rw [hstack]
    cases rest with
    | nil => rfl
    | cons f fs => simp [List.getLast?_cons]

end Gathered

end SweepState

/-! ## One token -/

/-- What one token adds is what stands there. -/
theorem sweepStep_gathered {s : SweepState} (h : s.Gathered text i) {m : Mark} {t : Token} (hstart : t.position.offset = i)
    (hstands : text.At i t.lexeme.written) (hstop : t.stop = i + t.lexeme.written.size) (hmeans : m.Means d t.lexeme) :
    Meets (fun _ => True) (·.Gathered text t.stop) (sweepStep d text s (m, t)) := by
  subst hstart
  have hstep := sweepStep_cases d text s m t
  generalize sweepStep d text s (m, t) = x at hstep ⊢
  cases hstep with
  | passes => exact h.addRun hstands hstop
  | opens => exact h.push
  | closes hstack hcheck =>
    have hlexeme : t.lexeme = .closing d := hmeans
    rw [hlexeme, Lexeme.written] at hstands hstop
    rw [size_closing] at hstop
    rw [hstop]
    exact h.pop hstack (checkLastOperand_filled hcheck) (cut_closing hstands)
  | notes hstack hcheck hnone => exact h.note hstack (checkOperand_filled hcheck hnone)
  | unopened | unended | outside | unled | repeats | mixes => trivial

/-- All tokens. -/
theorem run_gathered (d : Delimiters) (text : Text) :
    Meets (fun _ => True) (·.Gathered text text.size) ((marks d text).foldlM (sweepStep d text) .start) := by
  have hnothing : text.slices ([] ++ [(0, 0)]) = .ok ([] ++ [[]]) :=
    slices_concat.2 ⟨rfl, Text.slice_eq_ok.2 ⟨⟨[], text, rfl, rfl⟩, rfl⟩⟩
  exact Meets.run (P := fun i s => s.Gathered text i) ⟨nofun, nofun, [], [], hnothing, rfl, rfl⟩
    fun h => sweepStep_gathered h

/-! ## Tables -/

/-- The operator stands with its token between two operands that are not blank, inside the delimiters of the span. -/
structure PlacedOperator.Joins (text : Text) (s : Span) (o : PlacedOperator) : Prop extends
    o.Between text (s.left + 1) s.right where
  leftOperand : text.Filled (s.left + 1) o.start
  rightOperand : text.Filled o.stop s.right

/-- What a table says of its input can be read off there. -/
structure SpanTable.WellFormed (d : Delimiters) (table : SpanTable) : Prop where
  /-- On each level the spans are in order, and apart. -/
  order : ∀ k, (table.atLevel k).Pairwise fun before behind => before.right < behind.left
  delimiters : ∀ s ∈ table.spans, table.input.At s.left [d.opening] ∧ table.input.At s.right [d.closing] ∧ s.left < s.right
  /-- Below the outermost level, each span is in one span of the level above, which is the one found around it. -/
  around : ∀ s ∈ table.spans, s.level = 1 ∨ 1 < s.level ∧
    ∃ x, (table.atLevel (s.level - 1)).filter (·.contains s) = [x] ∧ table.parent? s = some x
  combination : ∀ s ∈ table.spans, s.isCombination = true ↔ ∃ o, s.operator = some o ∧ o.Joins table.input s
  plain : ∀ s ∈ table.spans, s.isCombination = false ↔ s.operator = none
  nonShared : ∃ parts, table.input.slices (gaps 0 (table.atLevel 1) table.input.size) = .ok parts ∧
    table.nonShared = trimmedStretches parts

/-- What a sweep that settles has gathered. -/
theorem sweep_gathered (h : sweep d text = .ok (.settled table)) :
    (∀ s ∈ table.spans, ∀ o ∈ s.operator, text.Filled (s.left + 1) o.start ∧ text.Filled o.stop s.right) ∧
      ∃ parts, text.slices (gaps 0 (table.atLevel 1) text.size) = .ok parts ∧ table.nonShared = trimmedStretches parts := by
  obtain ⟨s, hend, hstack, rfl⟩ := sweep_eq_settled.1 h
  obtain ⟨-, hspans, parts, p, hparts, hruns⟩ := (run_gathered d text).value hend
  simp only [SweepState.gapStop, hstack, List.isEmpty_nil, if_true, List.getLast?_nil, Option.map_none,
    Option.getD_none] at hparts hruns
  refine ⟨fun e he => hspans e (List.mem_reverse.1 he), parts ++ [p], ?_, ?_⟩
  · rw [SpanTable.atLevel, List.filter_reverse]
    exact hparts
  · rw [s.endRun_runs, hruns.1, hruns.2, trimmedStretches_concat]

/-- The only span of a level around a span below it. -/
theorem SpanTable.Placed.filter_contains (h : table.Placed d) {s x : Span} {k : Nat} (hx : x ∈ table.atLevel k)
    (hs : s.left < s.right) (hcontains : x.contains s = true) : (table.atLevel k).filter (·.contains s) = [x] := by
  -- of two spans that contain it, one would close before the other opens
  have hdisjoint : ((table.atLevel k).filter (·.contains s)).Pairwise fun _ _ => False := by
    refine List.Pairwise.imp_of_mem (fun ha hb hab => ?_) ((h.sound.atLevel_order k).sublist List.filter_sublist)
    have ha' := (List.mem_filter.1 ha).2
    have hb' := (List.mem_filter.1 hb).2
    simp only [Span.contains, Bool.and_eq_true, decide_eq_true_eq] at ha' hb'
    omega
  have hmem : x ∈ (table.atLevel k).filter (·.contains s) := List.mem_filter.2 ⟨hx, hcontains⟩
  generalize (table.atLevel k).filter (·.contains s) = around at hdisjoint hmem
  rcases around with _ | ⟨y, _ | ⟨z, rest⟩⟩
  · cases hmem
  · rw [List.mem_singleton.1 hmem]
  · exact ((List.pairwise_cons.1 hdisjoint).1 z List.mem_cons_self).elim

/-- The table of a text is well-formed. -/
theorem spanTable_wellFormed (h : spanTable d text = .ok table) : table.WellFormed d := by
  have hplaced := spanTable_placed h
  obtain ⟨-, hsweep⟩ := spanTable_settles h
  obtain ⟨hfilled, hnonShared⟩ := sweep_gathered hsweep
  have hsound := hplaced.sound.spans
  refine ⟨hplaced.sound.atLevel_order, ?_, ?_, ?_, ?_, hnonShared⟩
  · exact fun s hs => ⟨(hsound s hs).opens, (hsound s hs).closes, (hsound s hs).inside⟩
  · intro s hs
    rcases hplaced.parent hs with ⟨hfirst, -⟩ | ⟨x, hx, hparent, hlevel, hcontains⟩
    · exact .inl hfirst
    · have hpos := hplaced.level_pos hx
      refine .inr ⟨by omega, x, hplaced.filter_contains ?_ (hsound s hs).inside hcontains, hparent⟩
      exact List.mem_filter.2 ⟨hx, by simp; omega⟩
  · intro s hs
    constructor
    · intro hcombination
      obtain ⟨o, ho⟩ := Option.isSome_iff_exists.1 hcombination
      obtain ⟨hleft, hright⟩ := hfilled s hs o ho
      exact ⟨o, ho, (hsound s hs).operator o ho, hleft, hright⟩
    · rintro ⟨o, ho, -⟩
      simp [Span.isCombination, ho]
  · intro s _
    simp [Span.isCombination]

/-- Tagged blocks and parenthesised content beside and inside a combination in braces. -/
def blocksBesideCombination : Text := "a Cac{x} {p(x [AND] y) [AND] {Cac{y} [OR] q} [AND] r} b {} c".toList

theorem spanTable_wellFormed_blocksBesideCombination : ∃ table,
    spanTable .braces blocksBesideCombination = .ok table ∧ 0 < (table.spans.filter Span.isCombination).length ∧
      table.WellFormed .braces := by
  obtain ⟨table, htable, hcombination⟩ := exists_ok (x := spanTable .braces blocksBesideCombination)
    (p := fun table => decide (0 < (table.spans.filter Span.isCombination).length)) (by decide +kernel)
  exact ⟨table, htable, of_decide_eq_true hcombination, spanTable_wellFormed htable⟩

end InstitutionalGrammar
