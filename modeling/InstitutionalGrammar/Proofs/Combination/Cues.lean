/-
  InstitutionalGrammar.Proofs.Combination.Cues — the marks that a sweep acts on.

  Plain marks only extend the stretches outside all spans, so the spans of a text are decided by
  the other marks, its cues, alone.
  - `sweep_settled`, `sweep_repetition`: how a sweep ends, read off a fold over the cues.
-/

import InstitutionalGrammar.Proofs.Combination.Steps
import InstitutionalGrammar.Proofs.Header.Places
import InstitutionalGrammar.Proofs.Outcome
import InstitutionalGrammar.Proofs.Signs

namespace InstitutionalGrammar

def isCue (m : Mark × Token) : Bool := m.1 ≠ .plain

/-- The marks of a list of tokens, outside all content and blocks, that are not plain. -/
def cues (d : Delimiters) (shapes : List PlacedShape) (ts : List Token) : List (Mark × Token) :=
  match d with
  | .parentheses => (ts.map fun t => (Mark.ofLexeme .parentheses t.lexeme, t)).filter isCue
  | .braces => (fragmentMarks shapes 0 0 ts).filter isCue

@[simp] theorem cues_nil (d : Delimiters) (shapes : List PlacedShape) : cues d shapes [] = [] := by cases d <;> rfl

theorem cues_operator {d : Delimiters} {shapes : List PlacedShape} {t : Token} {o : Operator}
    (h : t.lexeme = .operator o) (ts : List Token) :
    cues d shapes (t :: ts) = (.operator o, t) :: cues d shapes ts := by
  cases d <;> simp [cues, fragmentMarks, Mark.ofLexeme, isCue, h]

theorem cues_closing {d : Delimiters} {shapes : List PlacedShape} {t : Token} (h : t.lexeme = .closing d)
    (ts : List Token) : cues d shapes (t :: ts) = (.closing, t) :: cues d shapes ts := by
  cases d <;> simp [cues, fragmentMarks, Mark.ofLexeme, isCue, h]

theorem cues_opening {d : Delimiters} {shapes : List PlacedShape} {t : Token} (h : t.lexeme = .opening d)
    (hbare : d = .braces → Header.among? shapes t.position.offset = none) (ts : List Token) :
    cues d shapes (t :: ts) = (.opening, t) :: cues d shapes ts := by
  cases d with
  | parentheses => simp [cues, Mark.ofLexeme, isCue, h]
  | braces => simp [cues, fragmentMarks, isCue, h, hbare rfl]

theorem fragmentMarks_signs (shapes : List PlacedShape) (block content : Nat) (ts : List Token) :
    (fragmentMarks shapes block content (ts.filter Token.isSign)).filter isCue =
      (fragmentMarks shapes block content ts).filter isCue := by
  induction ts generalizing block content with
  | nil => rfl
  | cons t ts ih =>
    obtain ⟨l, p, stop⟩ := t
    cases l with
    | text v =>
      cases block with
      | zero => simpa [Token.isSign, Lexeme.isText, fragmentMarks, Mark.ofLexeme, isCue] using ih 0 content
      | succ b => simpa [Token.isSign, Lexeme.isText, fragmentMarks, isCue] using ih (b + 1) content
    | operator o =>
      cases block <;> simp [Token.isSign, Lexeme.isText, fragmentMarks, List.filter_cons, ih]
    | opening e =>
      cases block with
      | zero =>
        cases e
        · simp [Token.isSign, Lexeme.isText, fragmentMarks, List.filter_cons, ih]
        · simp only [Token.isSign, Lexeme.isText, Bool.not_false, List.filter_cons, if_true, fragmentMarks]
          split
          · split <;> simp [List.filter_cons, ih]
          · simp [List.filter_cons, ih]
      | succ b => cases e <;> simp [Token.isSign, Lexeme.isText, fragmentMarks, List.filter_cons, ih]
    | closing e =>
      cases block with
      | zero => cases e <;> simp [Token.isSign, Lexeme.isText, fragmentMarks, List.filter_cons, ih]
      | succ b => cases e <;> simp [Token.isSign, Lexeme.isText, fragmentMarks, List.filter_cons, ih]

/-- The cues of a text are those of its signs. -/
theorem marks_cues (d : Delimiters) (text : Text) :
    (marks d text).filter isCue = cues d (PlacedShape.all text) (signs .start text) := by
  cases d with
  | parentheses =>
    simp only [marks, cues, signs, tokens]
    generalize place .start (lex text) = ts
    induction ts with
    | nil => rfl
    | cons t ts ih =>
      obtain ⟨l, p, stop⟩ := t
      cases l with
      | text v => simpa [Token.isSign, Lexeme.isText, Mark.ofLexeme, isCue] using ih
      | _ => simp [Token.isSign, Lexeme.isText, List.filter_cons, ih]
  | braces => exact (fragmentMarks_signs _ 0 0 _).symm

/-! ## Operands -/

/-- Behind an operand an operator is accepted, behind blanks it is not. -/
theorem checkOperand_eq_ok {text : Text} {top : Frame} {t : Token} : checkOperand text top t = .ok () ↔
    blankBetween text ((top.operator.map (·.stop)).getD (top.left + 1)) t.position.offset = .ok false := by
  obtain ⟨left, operator⟩ := top
  cases operator <;>
  · simp only [checkOperand, Option.map_none, Option.map_some, Option.getD_none, Option.getD_some]
    cases blankBetween text _ t.position.offset with
    | error cause => exact ⟨nofun, nofun⟩
    | ok blank =>
      cases blank with
      | false => exact ⟨fun _ => rfl, fun _ => rfl⟩
      | true =>
        refine ⟨fun h => ?_, nofun⟩
        rw [ok_bind, if_pos rfl] at h
        obtain ⟨_, _, hreject⟩ := bind_eq_ok.1 h
        cases hreject

theorem checkLastOperand_eq_ok {text : Text} {top : Frame} {right : Nat} : checkLastOperand text top right = .ok () ↔
    ∀ o ∈ top.operator, blankBetween text o.stop right = .ok false := by
  obtain ⟨left, operator⟩ := top
  cases operator with
  | none => exact ⟨fun _ => nofun, fun _ => rfl⟩
  | some o =>
    simp only [checkLastOperand, Option.mem_some_iff, forall_eq']
    cases blankBetween text o.stop right with
    | error cause => exact ⟨nofun, nofun⟩
    | ok blank =>
      cases blank with
      | false => exact ⟨fun _ => rfl, fun _ => rfl⟩
      | true =>
        refine ⟨fun h => ?_, nofun⟩
        rw [ok_bind, if_pos rfl] at h
        obtain ⟨_, _, hreject⟩ := bind_eq_ok.1 h
        cases hreject

/-! ## Sweeping over cues -/

/-- The state without the stretches outside all spans. -/
def SweepState.bare (s : SweepState) : SweepState := ⟨s.stack, s.closed, [], []⟩

theorem SweepState.stack_of_bare {s s' : SweepState} (h : s'.bare = s.bare) : s'.stack = s.stack := (mk.inj h).1

theorem SweepState.closed_of_bare {s s' : SweepState} (h : s'.bare = s.bare) : s'.closed = s.closed := (mk.inj h).2.1

theorem addRun_bare (s : SweepState) (t : Text) : (s.addRun t).bare = s.bare := by
  unfold SweepState.addRun
  split <;> rfl

theorem endRun_bare (s : SweepState) : s.endRun.bare = s.bare := by
  unfold SweepState.endRun
  split <;> rfl

theorem leaveRun_bare (s : SweepState) : s.leaveRun.bare = s.bare := by
  unfold SweepState.leaveRun
  split
  · exact endRun_bare s
  · rfl

/-- What a step does to spans does not depend on the stretches outside them. -/
theorem sweepStep_bare (d : Delimiters) (text : Text) (s : SweepState) {m : Mark × Token} (hm : isCue m = true) :
    (sweepStep d text s m).map SweepState.bare = sweepStep d text s.bare m := by
  obtain ⟨mark, t⟩ := m
  cases mark with
  | plain => exact absurd hm (by simp [isCue])
  | opening =>
    have hend : s.bare.endRun = s.bare := rfl
    have hbare : sweepStep d text s.bare (.opening, t) =
        .ok { s.bare with stack := ⟨t.position.offset, none⟩ :: s.bare.stack } := by
      simp only [sweepStep, hend, ite_self]
    rw [hbare, ← leaveRun_bare s]
    rfl
  | closing =>
    simp only [sweepStep]
    have hs : s.bare.stack = s.stack := rfl
    rw [hs]
    split
    · rfl
    · cases (checkLastOperand text _ _).mapError Interruption.failure <;> rfl
  | operator o =>
    simp only [sweepStep]
    have hs : s.bare.stack = s.stack := rfl
    rw [hs]
    split
    · rfl
    · rename_i top rest _
      cases (checkOperand text top t).mapError Interruption.failure with
      | error e => rfl
      | ok u =>
        simp only [bind, Except.bind]
        split
        · rfl
        · split <;> rfl

theorem foldlM_bare (d : Delimiters) (text : Text) (ms : List (Mark × Token)) (s : SweepState) :
    (ms.foldlM (sweepStep d text) s).map SweepState.bare = (ms.filter isCue).foldlM (sweepStep d text) s.bare := by
  induction ms generalizing s with
  | nil => rfl
  | cons m ms ih =>
    rw [List.foldlM_cons, List.filter_cons]
    by_cases hm : isCue m = true
    · rw [if_pos hm, List.foldlM_cons, ← sweepStep_bare d text s hm]
      cases sweepStep d text s m with
      | error e => rfl
      | ok s' => exact ih s'
    · rw [if_neg hm]
      obtain ⟨mark, t⟩ := m
      have hp : mark = .plain := by simpa [isCue] using hm
      subst hp
      rw [← addRun_bare s t.lexeme.written]
      exact ih _

/-- The cues of a text are swept like all its marks. -/
theorem foldlM_cues (d : Delimiters) (text : Text) :
    (cues d (PlacedShape.all text) (signs .start text)).foldlM (sweepStep d text) .start =
      ((marks d text).foldlM (sweepStep d text) .start).map SweepState.bare := by
  rw [← marks_cues, foldlM_bare]
  rfl

/-- How a sweep ends that meets no second operator in any span. -/
theorem sweep_settled {d : Delimiters} {text : Text} {closed : List Span}
    (h : (cues d (PlacedShape.all text) (signs .start text)).foldlM (sweepStep d text) .start =
      .ok ⟨[], closed, [], []⟩) :
    ∃ nonShared, sweep d text = .ok (.settled ⟨text, closed.reverse, nonShared⟩) := by
  rw [foldlM_cues] at h
  cases hrun : (marks d text).foldlM (sweepStep d text) .start with
  | error e => rw [hrun] at h; cases h
  | ok s =>
    rw [hrun] at h
    have hbare : s.bare = ⟨[], closed, [], []⟩ := Except.ok.inj h
    obtain ⟨hstack, hclosed, -⟩ := SweepState.mk.inj hbare
    exact ⟨_, sweep_eq_settled.2 ⟨s, hrun, hstack, by rw [hclosed]⟩⟩

/-- How a sweep ends that repeats an operator in a span. -/
theorem sweep_repetition {d : Delimiters} {text : Text} {left operator : Nat}
    (h : (cues d (PlacedShape.all text) (signs .start text)).foldlM (sweepStep d text) .start =
      .error (.repetition left operator)) : sweep d text = .ok (.repetition left operator) := by
  rw [foldlM_cues] at h
  refine sweep_eq_repetition.2 ?_
  cases hrun : (marks d text).foldlM (sweepStep d text) .start with
  | error e =>
    rw [hrun] at h
    exact h
  | ok s => rw [hrun] at h; cases h

/-- The spans of a sweep that settles, read off its cues. -/
theorem foldlM_of_settled {d : Delimiters} {text : Text} {table : SpanTable} (h : sweep d text = .ok (.settled table)) :
    table.input = text ∧ (cues d (PlacedShape.all text) (signs .start text)).foldlM (sweepStep d text) .start =
      .ok ⟨[], table.spans.reverse, [], []⟩ := by
  obtain ⟨s, hrun, hstack, rfl⟩ := sweep_eq_settled.1 h
  rw [foldlM_cues, hrun, List.reverse_reverse, ← hstack]
  exact ⟨rfl, rfl⟩

theorem foldlM_of_repetition {d : Delimiters} {text : Text} {left operator : Nat}
    (h : sweep d text = .ok (.repetition left operator)) :
    (cues d (PlacedShape.all text) (signs .start text)).foldlM (sweepStep d text) .start =
      .error (.repetition left operator) := by
  rw [foldlM_cues, sweep_eq_repetition.1 h]
  rfl

end InstitutionalGrammar
