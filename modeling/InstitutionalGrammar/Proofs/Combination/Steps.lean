/-
  InstitutionalGrammar.Proofs.Combination.Steps — what a sweep does at a token, and how it ends.

  A step takes the token in, refuses the text, or stops at a repeated operator. `SweepState.Step` lists its ways,
  each with all that the step has checked, so an invariant of sweeps is a case for each of them and nothing else
  opens a step.
  - `sweepStep_cases`: every step is one of these.
  - `Meets.run`: what each step keeps from token to token holds behind the last one.
  - `Meets.ends`, `sweep_eq_settled`, `sweep_eq_repetition`: how a sweep ends, told by its run.
  - `Meets.rounds`: what lasts through repeated sweeps.
-/

import InstitutionalGrammar.Combination.Sweep
import InstitutionalGrammar.Proofs.Combination.Marks
import InstitutionalGrammar.Proofs.Meets

namespace InstitutionalGrammar

variable {d : Delimiters} {text : Text} {s : SweepState} {t : Token} {table : SpanTable} {left operator : Nat}

/-! ## One token -/

namespace SweepState

/-- End the present stretch if it is outside all spans. -/
def leaveRun (s : SweepState) : SweepState := if s.stack.isEmpty then s.endRun else s

/-- How a sweep goes on at a token with a mark. -/
inductive Step (d : Delimiters) (text : Text) (s : SweepState) (t : Token) : Mark → Except Interruption SweepState → Prop
  | passes : Step d text s t .plain (.ok (s.addRun t.lexeme.written))
  | opens : Step d text s t .opening (.ok { s.leaveRun with stack := ⟨t.position.offset, none⟩ :: s.leaveRun.stack })
  | unopened : s.stack = [] → Step d text s t .closing (interrupt (.misorderedDelimiter d.closing t.position))
  | unended {top : Frame} {rest : List Frame} {cause : Failure} : s.stack = top :: rest →
      checkLastOperand text top t.position.offset = .error cause → Step d text s t .closing (.error (.failure cause))
  | closes {top : Frame} {rest : List Frame} : s.stack = top :: rest →
      checkLastOperand text top t.position.offset = .ok () → Step d text s t .closing (.ok { s with
        stack := rest
        closed := ⟨rest.length + 1, top.left, t.position.offset, top.operator⟩ :: s.closed })
  | outside {o : Operator} : s.stack = [] →
      Step d text s t (.operator o) (interrupt (.operatorOutsideCombination o.token t.position))
  | unled {o : Operator} {top : Frame} {rest : List Frame} {cause : Failure} : s.stack = top :: rest →
      checkOperand text top t = .error cause → Step d text s t (.operator o) (.error (.failure cause))
  | notes {o : Operator} {top : Frame} {rest : List Frame} : s.stack = top :: rest → checkOperand text top t = .ok () →
      top.operator = none → Step d text s t (.operator o) (.ok { s with
        stack := { top with operator := some ⟨o, t.position.offset, t.stop⟩ } :: rest })
  | repeats {o : Operator} {top : Frame} {rest : List Frame} {first : PlacedOperator} : s.stack = top :: rest →
      checkOperand text top t = .ok () → top.operator = some first → first.operator = o →
      Step d text s t (.operator o) (.error (.repetition top.left t.position.offset))
  | mixes {o : Operator} {top : Frame} {rest : List Frame} {first : PlacedOperator} : s.stack = top :: rest →
      checkOperand text top t = .ok () → top.operator = some first → first.operator ≠ o →
      Step d text s t (.operator o) (interrupt (.mixedOperators first.operator.token o.token t.position))

end SweepState

theorem sweepStep_cases (d : Delimiters) (text : Text) (s : SweepState) (m : Mark) (t : Token) :
    s.Step d text t m (sweepStep d text s (m, t)) := by
  cases m with
  | plain => exact .passes
  | opening => exact .opens
  | closing =>
    rw [sweepStep]
    split
    · exact .unopened ‹_›
    · cases hcheck : checkLastOperand text _ t.position.offset with
      | error cause => exact .unended ‹_› hcheck
      | ok _ => exact .closes ‹_› hcheck
  | operator o =>
    rw [sweepStep]
    split
    · exact .outside ‹_›
    · rename_i top rest hstack
      cases hcheck : checkOperand text top t with
      | error cause => exact .unled hstack hcheck
      | ok _ =>
        simp only [mapError_ok, ok_bind]
        split
        · exact .notes hstack hcheck ‹_›
        · split
          · exact .repeats hstack hcheck ‹_› ‹_›
          · exact .mixes hstack hcheck ‹_› ‹_›

/-! ## All tokens -/

/-- What each token keeps, from the byte where it starts to the byte where it stops, the whole text keeps. -/
theorem Meets.run {E : Interruption → Prop} {P : Nat → SweepState → Prop} (hstart : P 0 .start)
    (hstep : ∀ {i s m t}, P i s → t.position.offset = i → text.At i t.lexeme.written →
      t.stop = i + t.lexeme.written.size → m.Means d t.lexeme → Meets E (P t.stop) (sweepStep d text s (m, t))) :
    Meets E (P text.size) ((marks d text).foldlM (sweepStep d text) .start) := by
  have hmarks := marks_marked d text
  generalize marks d text = ms at hmarks ⊢
  generalize SweepState.start = s at hstart ⊢
  generalize 0 = i at hmarks hstart
  induction ms generalizing s i with
  | nil =>
    obtain rfl : i = text.size := hmarks.1
    exact hstart
  | cons x ms ih =>
    obtain ⟨⟨hoffset, hstands, hstop, htiled⟩, hmeans⟩ := hmarks
    rw [List.foldlM_cons]
    refine (hstep hstart hoffset hstands hstop (hmeans _ List.mem_cons_self)).bind fun s' hs' => ?_
    exact ih s' _ ⟨htiled, fun y hy => hmeans y (List.mem_cons_of_mem _ hy)⟩ hs'

/-! ## How a sweep ends -/

theorem Meets.ends {E : Interruption → Prop} {P : SweepState → Prop} {F : Failure → Prop} {Q : Sweep → Prop}
    (hrun : Meets E P ((marks d text).foldlM (sweepStep d text) .start))
    (hfailure : ∀ f, E (.failure f) → F f)
    (hrepetition : ∀ left operator, E (.repetition left operator) → Q (.repetition left operator))
    (hsettled : ∀ s, P s → s.stack = [] → Q (.settled ⟨text, s.closed.reverse, s.endRun.runs.reverse⟩))
    (hopen : ∀ s, P s → s.stack ≠ [] → F (.rejected (.imbalancedDelimiters d.opening d.closing s.stack.length 0))) :
    Meets F Q (sweep d text) := by
  unfold sweep
  cases h : (marks d text).foldlM (sweepStep d text) .start with
  | error e =>
    cases e with
    | failure f => exact hfailure f (hrun.failure h)
    | repetition left operator => exact hrepetition left operator (hrun.failure h)
  | ok s =>
    simp only
    split
    · exact hsettled s (hrun.value h) ‹_›
    · rename_i stack hstack
      exact hopen s (hrun.value h) hstack

theorem sweep_eq_settled : sweep d text = .ok (.settled table) ↔
    ∃ s, (marks d text).foldlM (sweepStep d text) .start = .ok s ∧ s.stack = [] ∧
      table = ⟨text, s.closed.reverse, s.endRun.runs.reverse⟩ := by
  unfold sweep
  constructor
  · intro h
    split at h
    · cases h
    · cases h
    · rename_i s hend
      split at h
      · exact ⟨s, hend, ‹_›, by cases h; rfl⟩
      · cases h
  · rintro ⟨s, hend, hstack, rfl⟩
    simp only [hend, hstack]

theorem sweep_eq_repetition : sweep d text = .ok (.repetition left operator) ↔
    (marks d text).foldlM (sweepStep d text) .start = .error (.repetition left operator) := by
  unfold sweep
  constructor
  · intro h
    split at h
    · cases h
    · rename_i hend
      cases h
      exact hend
    · split at h <;> cases h
  · intro hend
    rw [hend]

/-! ## Repeated sweeps -/

/-- What each round keeps while the fuel goes down lasts until a sweep settles. -/
theorem Meets.rounds {E : Failure → Prop} {I : Nat → Text → Prop} {Q : Text → Sweep → Prop} {P : SpanTable → Prop}
    {fuel : Nat} (hsweep : ∀ fuel text, I fuel text → Meets E (Q text) (sweep d text))
    (hsettled : ∀ fuel text table, I fuel text → Q text (.settled table) → P table)
    (hunsettled : ∀ text left operator, I 0 text → Q text (.repetition left operator) → E .unsettled)
    (hnext : ∀ fuel text left operator, I (fuel + 1) text → Q text (.repetition left operator) →
      Meets E (I fuel) (regroup d text left operator))
    (hstart : I fuel text) : Meets E P (settle d fuel text) := by
  induction fuel generalizing text with
  | zero =>
    unfold settle
    refine (hsweep 0 text hstart).bind fun found hfound => ?_
    cases found with
    | settled table => exact hsettled 0 text table hstart hfound
    | repetition left operator => exact hunsettled text left operator hstart hfound
  | succ fuel ih =>
    unfold settle
    refine (hsweep (fuel + 1) text hstart).bind fun found hfound => ?_
    cases found with
    | settled table => exact hsettled (fuel + 1) text table hstart hfound
    | repetition left operator => exact (hnext fuel text left operator hstart hfound).bind fun next hnext => ih hnext

end InstitutionalGrammar
