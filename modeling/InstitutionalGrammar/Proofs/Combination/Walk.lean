/-
  InstitutionalGrammar.Proofs.Combination.Walk — a sweep without its places.

  Where a sweep stops depends on the operators noted for the open spans, on how many blocks and
  parentheses are open, and on the text in front of each brace, which tells whether it is behind a
  header. A walk over the lexemes keeps nothing else, so it can be compared between two texts.
  - `walk_append`, `walk_blank`, `walk_doubled`: walks over changed texts.
  - `Opened`: where the open spans of a sweep were opened, and what a walk finds inside each.
  - `sweep_stops`: a sweep that stops at a repetition, as walks.
-/

import InstitutionalGrammar.Proofs.Combination.Spans
import InstitutionalGrammar.Proofs.Header.Leads

namespace InstitutionalGrammar

variable {d : Delimiters}

/-! ## Walks -/

/-- What a mark does to the operators noted for the open spans; nothing where a sweep stops. -/
def turn : Mark → List (Option Operator) → Option (List (Option Operator))
  | .plain, os => some os
  | .opening, os => some (none :: os)
  | .closing, _ :: os => some os
  | .operator o, none :: os => some (some o :: os)
  | _, _ => none

structure Stage where
  depths : Depths
  /-- The operators of the open spans, innermost first. -/
  noted : List (Option Operator)

def Stage.step (d : Delimiters) (isTagged : Bool) (σ : Stage) (l : Lexeme) : Option Stage :=
  (turn (σ.depths.mark d isTagged l) σ.noted).map (⟨σ.depths.next d isTagged l, ·⟩)

/-- The stage behind lexemes that stand behind the text `before`. -/
def walk (d : Delimiters) (before : Text) (σ : Stage) : List Lexeme → Option Stage
  | [] => some σ
  | l :: ls => (σ.step d (tagged before) l).bind fun τ => walk d (before ++ l.written) τ ls

/-- What is written with the lexemes. -/
abbrev writtenOf (ls : List Lexeme) : Text := ls.flatMap Lexeme.written

variable {before : Text} {σ τ : Stage} {ls ls' : List Lexeme}

theorem walk_append : walk d before σ (ls ++ ls') =
    (walk d before σ ls).bind fun τ => walk d (before ++ writtenOf ls) τ ls' := by
  induction ls generalizing before σ with
  | nil => simp [walk]
  | cons l ls ih =>
    rw [List.cons_append, walk, walk, Option.bind_assoc]
    congr 1
    funext τ
    rw [ih, List.append_assoc]
    rfl

theorem walk_trans (h : walk d before σ ls = some τ) :
    walk d before σ (ls ++ ls') = walk d (before ++ writtenOf ls) τ ls' := by
  rw [walk_append, h, Option.bind_some]

theorem step_text (isTagged : Bool) (σ : Stage) (v : Text) : σ.step d isTagged (.text v) = some σ := by
  obtain ⟨⟨block, content⟩, noted⟩ := σ
  cases d with
  | parentheses => rfl
  | braces =>
    have hmark : (Depths.mk block content).mark .braces isTagged (.text v) = .plain := by
      unfold Depths.mark
      simp only
      split <;> rfl
    have hnext : (Depths.mk block content).next .braces isTagged (.text v) = ⟨block, content⟩ := by
      cases block <;> rfl
    unfold Stage.step
    rw [hmark, hnext]
    rfl

theorem walk_text (before v : Text) (σ : Stage) (ls : List Lexeme) :
    walk d before σ (.text v :: ls) = walk d (before ++ v) σ ls := by
  rw [walk, step_text]
  rfl

theorem walk_consText (c : Char) (before : Text) (σ : Stage) (ls : List Lexeme) :
    walk d before σ (Lexeme.consText c ls) = walk d (before ++ [c]) σ ls := by
  unfold Lexeme.consText
  split
  · rw [walk_text, walk_text, List.append_assoc]
    rfl
  · rw [walk_text]

/-- Lexemes that lead to the same stages do so behind a character. -/
theorem walk_put (c : Char) (h : ∀ before σ, walk d before σ ls = walk d before σ ls') (before : Text) (σ : Stage) :
    walk d before σ (Lexeme.put c ls) = walk d before σ (Lexeme.put c ls') := by
  unfold Lexeme.put
  repeat' split
  all_goals simp only [walk, walk_consText, h]

theorem walk_allBlank {w : Text} (hw : w.allBlank = true) (before : Text) (σ : Stage) : walk d before σ (lex w) = some σ := by
  induction w generalizing before with
  | nil => rfl
  | cons c w ih =>
    obtain ⟨hc, hw⟩ : isBlank c = true ∧ Text.allBlank w = true := by simpa [Text.allBlank] using hw
    have hplain := isReserved_of_blank hc
    rw [lex_char (startsOperator_of_ne (ne_bracket hplain).1 w), Lexeme.put_plain (isDelimiter_of_reserved hplain),
      walk_consText, ih hw]

/-- Blanks at the end of a text lead nowhere. -/
theorem walk_blank {w : Text} (hw : w.allBlank = true) (t before : Text) (σ : Stage) :
    walk d before σ (lex (t ++ w)) = walk d before σ (lex t) := by
  induction t using lex_induction generalizing before σ with
  | nil => exact walk_allBlank hw before σ
  | token o t ho ih =>
    rw [List.append_assoc, lex_token ho, lex_token ho, walk, walk]
    simp only [ih]
  | char c t hc ih =>
    have hstart : startsOperator (c :: (t ++ w)) = false := by
      cases w with
      | nil => rwa [List.append_nil]
      | cons e w =>
        rw [startsOperator_break (isTokenTail_of_isBlank (List.all_eq_true.1 hw e List.mem_cons_self)), hc]
    rw [List.cons_append, lex_char hstart, lex_char hc, walk_put c ih]

theorem step_doubled (u v : Text) (σ : Stage) (l : Lexeme) :
    σ.step d (tagged (u ++ d.opening :: d.opening :: v)) l = σ.step d (tagged (u ++ d.opening :: v)) l := by
  cases d with
  | parentheses => rfl
  | braces => rw [tagged_doubled]

/-- A delimiter put behind another one changes nothing for what stands behind. -/
theorem walk_doubled (u v : Text) (σ : Stage) (ls : List Lexeme) :
    walk d (u ++ d.opening :: d.opening :: v) σ ls = walk d (u ++ d.opening :: v) σ ls := by
  induction ls generalizing v σ with
  | nil => rfl
  | cons l ls ih =>
    rw [walk, walk, step_doubled]
    congr 1
    funext τ
    rw [List.append_assoc, List.append_assoc]
    exact ih (v ++ l.written) τ

/-! ### Steps where spans open and close -/

namespace Depths

variable {n : Depths} {isTagged : Bool} {l : Lexeme} {noted : List (Option Operator)}

theorem step_opening (hn : n.Bare d) (ht : d = .braces → isTagged = false) :
    (⟨n, noted⟩ : Stage).step d isTagged (.opening d) = some ⟨n, none :: noted⟩ := by
  cases d with
  | parentheses => rfl
  | braces =>
    rw [hn rfl, ht rfl]
    rfl

theorem step_closing (hn : n.Bare d) (o : Option Operator) :
    (⟨n, o :: noted⟩ : Stage).step d isTagged (.closing d) = some ⟨n, noted⟩ := by
  cases d with
  | parentheses => rfl
  | braces =>
    rw [hn rfl]
    cases isTagged <;> rfl

theorem step_operator (hn : n.Bare d) (o : Operator) :
    (⟨n, none :: noted⟩ : Stage).step d isTagged (.operator o) = some ⟨n, some o :: noted⟩ := by
  cases d with
  | parentheses => rfl
  | braces =>
    rw [hn rfl]
    cases isTagged <;> rfl

/-- Where the span has an operator already, a sweep stops. -/
theorem step_second (hn : n.Bare d) (o first : Operator) :
    (⟨n, some first :: noted⟩ : Stage).step d isTagged (.operator o) = none := by
  cases d with
  | parentheses => rfl
  | braces =>
    rw [hn rfl]
    cases isTagged <;> rfl

end Depths

/-! ## Open spans -/

/-- The operator noted for an open span. -/
def Frame.noted (f : Frame) : Option Operator := f.operator.map (·.operator)

/-- The stage at the start of a text. -/
def Stage.start : Stage := ⟨.zero, []⟩

/-- The open spans, innermost first, that the lexemes so far have left: each was opened by one of them, and
    whatever is open around it, a walk from there on notes its operator and touches nothing else. -/
def Opened (d : Delimiters) : List Lexeme → Depths → List Frame → Prop
  | ls, n, [] => walk d [] .start ls = some ⟨n, []⟩
  | ls, n, f :: fs => ∃ ls₀ ls₁ n₀, ls = ls₀ ++ .opening d :: ls₁ ∧ f.left = (writtenOf ls₀).size ∧ n₀.Bare d ∧
    (d = .braces → tagged (writtenOf ls₀) = false) ∧
    (∀ noted, walk d (writtenOf ls₀ ++ [d.opening]) ⟨n₀, none :: noted⟩ ls₁ = some ⟨n, f.noted :: noted⟩) ∧
    Opened d ls₀ n₀ fs

namespace Opened

variable {n m : Depths} {fs : List Frame} {f : Frame}

theorem walk_eq (h : Opened d ls n fs) : walk d [] .start ls = some ⟨n, fs.map Frame.noted⟩ := by
  induction fs generalizing ls n with
  | nil => exact h
  | cons f fs ih =>
    obtain ⟨ls₀, ls₁, n₀, rfl, -, hbare, htagged, hinner, hrest⟩ := h
    rw [walk_trans (ih hrest), List.nil_append, walk, Depths.step_opening hbare htagged, Option.bind_some]
    exact hinner _

/-- Lexemes that leave all that is open as it is. -/
theorem extend (h : Opened d ls n fs) (hextend : ∀ noted, walk d (writtenOf ls) ⟨n, noted⟩ ls' = some ⟨m, noted⟩) :
    Opened d (ls ++ ls') m fs := by
  cases fs with
  | nil =>
    show walk d [] .start (ls ++ ls') = some ⟨m, []⟩
    rw [walk_trans h, List.nil_append]
    exact hextend []
  | cons f fs =>
    obtain ⟨ls₀, ls₁, n₀, rfl, hleft, hbare, htagged, hinner, hrest⟩ := h
    refine ⟨ls₀, ls₁ ++ ls', n₀, by simp, hleft, hbare, htagged, fun noted => ?_, hrest⟩
    have hbefore : writtenOf ls₀ ++ [d.opening] ++ writtenOf ls₁ = writtenOf (ls₀ ++ .opening d :: ls₁) := by
      simp [writtenOf, Lexeme.written]
    rw [walk_trans (hinner noted), hbefore]
    exact hextend _

theorem push (h : Opened d ls n fs) (hbare : n.Bare d) (htagged : d = .braces → tagged (writtenOf ls) = false)
    {left : Nat} (hleft : left = (writtenOf ls).size) : Opened d (ls ++ [.opening d]) n (⟨left, none⟩ :: fs) :=
  ⟨ls, [], n, rfl, hleft, hbare, htagged, fun _ => rfl, h⟩

theorem pop (h : Opened d ls n (f :: fs)) (hbare : n.Bare d) : Opened d (ls ++ [.closing d]) n fs := by
  obtain ⟨ls₀, ls₁, n₀, rfl, -, hbare₀, htagged, hinner, hrest⟩ := h
  rw [List.append_assoc, List.cons_append]
  refine hrest.extend fun noted => ?_
  rw [walk, Depths.step_opening hbare₀ htagged, Option.bind_some]
  show walk d (writtenOf ls₀ ++ [d.opening]) ⟨n₀, none :: noted⟩ (ls₁ ++ [.closing d]) = some ⟨n, noted⟩
  rw [walk_trans (hinner noted), walk, Depths.step_closing hbare]
  rfl

theorem note (h : Opened d ls n (f :: fs)) (hbare : n.Bare d) (hnone : f.operator = none) (o : PlacedOperator) :
    Opened d (ls ++ [.operator o.operator]) n ({ f with operator := some o } :: fs) := by
  obtain ⟨ls₀, ls₁, n₀, rfl, hleft, hbare₀, htagged, hinner, hrest⟩ := h
  refine ⟨ls₀, ls₁ ++ [.operator o.operator], n₀, by simp, hleft, hbare₀, htagged, fun noted => ?_, hrest⟩
  have hfirst : f.noted = none := by rw [Frame.noted, hnone]; rfl
  rw [walk_trans (hinner noted), walk, hfirst, Depths.step_operator hbare]
  rfl

end Opened

/-! ## Sweeps -/

/-- What a token does to the open spans. -/
inductive Turns (offset : Nat) : Mark → List Frame → List Frame → Prop
  | plain (fs : List Frame) : Turns offset .plain fs fs
  | opening (fs : List Frame) : Turns offset .opening fs (⟨offset, none⟩ :: fs)
  | closing (f : Frame) (fs : List Frame) : Turns offset .closing (f :: fs) fs
  | operator (f : Frame) (fs : List Frame) (o : PlacedOperator) : f.operator = none →
      Turns offset (.operator o.operator) (f :: fs) ({ f with operator := some o } :: fs)

/-- Where a sweep stops: if it does for a repetition, then at an operator that its span has noted. -/
def Interruption.Stops (offset : Nat) (m : Mark) (fs : List Frame) : Interruption → Prop
  | .failure _ => True
  | .repetition left operator =>
    operator = offset ∧ ∃ o f rest, m = .operator o ∧ fs = f :: rest ∧ f.noted = some o ∧ f.left = left

theorem sweepStep_turns (d : Delimiters) (text : Text) (s : SweepState) (m : Mark) (t : Token) :
    Meets (Interruption.Stops t.position.offset m s.stack) (fun s' => Turns t.position.offset m s.stack s'.stack)
      (sweepStep d text s (m, t)) := by
  have hstep := sweepStep_cases d text s m t
  generalize sweepStep d text s (m, t) = x at hstep ⊢
  cases hstep with
  | passes =>
    show Turns t.position.offset .plain s.stack (s.addRun _).stack
    rw [SweepState.stack_of_bare (addRun_bare s _)]
    exact .plain s.stack
  | opens =>
    show Turns t.position.offset .opening s.stack (_ :: s.leaveRun.stack)
    rw [SweepState.stack_of_bare (leaveRun_bare s)]
    exact .opening s.stack
  | closes hstack =>
    rw [hstack]
    exact .closing _ _
  | @notes o top rest hstack _ hnone =>
    rw [hstack]
    exact .operator top rest ⟨o, t.position.offset, t.stop⟩ hnone
  | @repeats o top rest first hstack _ hfirst hsame =>
    exact ⟨rfl, o, top, rest, rfl, hstack, by rw [Frame.noted, hfirst, ← hsame]; rfl, rfl⟩
  | unopened | unended | outside | unled | mixes => trivial

/-- Being behind a header matters to braces only. -/
theorem Stage.step_congr {isTagged isTagged' : Bool} {l : Lexeme} (h : l = .opening .braces → isTagged = isTagged')
    (σ : Stage) : σ.step d isTagged l = σ.step d isTagged' l := by
  unfold Stage.step
  rw [Depths.mark_congr h, Depths.next_congr h]

theorem Opened.turns {n : Depths} {fs fs' : List Frame} {offset : Nat} {isTagged : Bool} {l : Lexeme}
    (h : Opened d ls n fs) (hl : l.Writable) (hoffset : offset = (writtenOf ls).size)
    (htagged : l = .opening .braces → isTagged = tagged (writtenOf ls))
    (hturns : Turns offset (n.mark d isTagged l) fs fs') : Opened d (ls ++ [l]) (n.next d isTagged l) fs' := by
  have hmeans : (n.mark d isTagged l).Means d l := Depths.mark_means hl
  by_cases hplain : n.mark d isTagged l = .plain
  · rw [hplain] at hturns
    cases hturns
    refine h.extend fun noted => ?_
    rw [walk, ← Stage.step_congr htagged, Stage.step, hplain]
    rfl
  · obtain ⟨-, hbare, hfalse⟩ := Depths.mark_ne_plain hplain
    rw [Depths.next_of_ne_plain hplain]
    generalize n.mark d isTagged l = m at hturns hmeans hplain
    cases hturns with
    | plain => exact absurd rfl hplain
    | opening =>
      obtain rfl : l = .opening d := hmeans
      refine h.push hbare (fun hd => ?_) hoffset
      subst hd
      rw [← htagged rfl]
      exact hfalse rfl rfl
    | closing f =>
      obtain rfl : l = .closing d := hmeans
      exact h.pop hbare
    | operator f rest o hnone =>
      obtain rfl : l = .operator o.operator := hmeans.1
      exact h.note hbare hnone o

theorem writtenOf_split {t : Text} (hlex : lex t = ls ++ ls') : t = writtenOf ls ++ writtenOf ls' := by
  rw [← lex_written t, hlex]
  exact List.flatMap_append

theorem writtenOf_snoc (ls : List Lexeme) (l : Lexeme) : writtenOf (ls ++ [l]) = writtenOf ls ++ l.written := by
  simp [writtenOf]

theorem offset_past_snoc {p : Position} (hp : p.offset = (writtenOf ls).size) (l : Lexeme) :
    (p.past l.written).offset = (writtenOf (ls ++ [l])).size := by
  rw [Position.offset_past, hp, writtenOf_snoc, Text.size_append]

/-- The marks of the lexemes behind `ls`. -/
theorem marksFrom_place {t : Text} {p : Position} (ht : t = writtenOf ls ++ writtenOf (l :: ls'))
    (hp : p.offset = (writtenOf ls).size) (d : Delimiters) (n : Depths) :
    marksFrom d (PlacedShape.all t) n (place p (l :: ls')) =
      (n.mark d (tagged (writtenOf ls)) l, ⟨l, p, (p.past l.written).offset⟩) ::
        marksFrom d (PlacedShape.all t) (n.next d (tagged (writtenOf ls)) l) (place (p.past l.written) ls') := by
  have htagged : l = .opening .braces → (Header.among? (PlacedShape.all t) p.offset).isSome = tagged (writtenOf ls) := by
    rintro rfl
    rw [hp, ht]
    exact among?_isSome (writtenOf ls) (writtenOf ls')
  rw [place, marksFrom]
  simp only [Depths.mark_congr htagged, Depths.next_congr htagged]
  rfl

/-- A sweep that stops for a repetition does so at an operator that the innermost open span has noted. -/
theorem sweepAll_stops {text : Text} {n : Depths} {s : SweepState} {p : Position} {left operator : Nat}
    (htext : text = writtenOf ls ++ writtenOf ls') (hp : p.offset = (writtenOf ls).size)
    (hwritable : ∀ l ∈ ls', l.Writable) (hs : Opened d ls n s.stack)
    (h : (marksFrom d (PlacedShape.all text) n (place p ls')).foldlM (sweepStep d text) s =
      .error (.repetition left operator)) :
    ∃ ls₁ o ls₂ m f fs, ls ++ ls' = ls₁ ++ .operator o :: ls₂ ∧ Opened d ls₁ m (f :: fs) ∧ m.Bare d ∧
      f.noted = some o ∧ left = f.left ∧ operator = (writtenOf ls₁).size := by
  induction ls' generalizing ls n s p with
  | nil => cases h
  | cons l ls' ih =>
    rw [marksFrom_place htext hp, List.foldlM_cons] at h
    have hl := hwritable l List.mem_cons_self
    have hturns := sweepStep_turns d text s (n.mark d (tagged (writtenOf ls)) l) ⟨l, p, (p.past l.written).offset⟩
    cases hstep : sweepStep d text s (n.mark d (tagged (writtenOf ls)) l, ⟨l, p, (p.past l.written).offset⟩) with
    | error e =>
      rw [hstep] at h
      obtain rfl : e = .repetition left operator := Except.error.inj h
      obtain ⟨hoperator, o, f, fs, hm, hstack, hnoted, hleft⟩ := hturns.failure hstep
      have hmeans : (n.mark d (tagged (writtenOf ls)) l).Means d l := Depths.mark_means hl
      have hplain : n.mark d (tagged (writtenOf ls)) l ≠ .plain := by
        rw [hm]
        intro h
        cases h
      obtain ⟨-, hbare, -⟩ := Depths.mark_ne_plain hplain
      rw [hm] at hmeans
      obtain rfl : l = .operator o := hmeans.1
      rw [hstack] at hs
      exact ⟨ls, o, ls', n, f, fs, rfl, hs, hbare, hnoted, hleft.symm, hoperator.trans hp⟩
    | ok s' =>
      rw [hstep] at h
      have hnext := hs.turns hl hp (fun _ => rfl) (hturns.value hstep)
      rw [← List.singleton_append, ← List.append_assoc]
      refine ih ?_ (offset_past_snoc hp l) (fun x hx => hwritable x (List.mem_cons_of_mem _ hx)) hnext h
      rw [htext, writtenOf_snoc, List.append_assoc]
      rfl

/-- The text behind `a` opens a span, and the operator behind the operands repeats the one noted for it.
    What is noted for the spans around it does not matter inside. -/
structure Stop (d : Delimiters) (text a operands : Text) (o : Operator) (rest : Text) : Prop where
  text_eq : text = a ++ d.opening :: (operands ++ (o.token ++ rest))
  written : o.isSynthetic = false
  untagged : d = .braces → tagged a = false
  walks : ∃ n m noted, n.Bare d ∧ m.Bare d ∧ walk d [] .start (lex a) = some ⟨n, noted⟩ ∧
    ∀ noted, walk d (a ++ [d.opening]) ⟨n, none :: noted⟩ (lex operands) = some ⟨m, some o :: noted⟩

theorem sweep_stops {text : Text} {left operator : Nat} (h : sweep d text = .ok (.repetition left operator)) :
    ∃ a operands o rest, Stop d text a operands o rest ∧ left = a.size ∧ operator = a.size + 1 + operands.size := by
  have hstop := sweep_eq_repetition.1 h
  rw [marks_eq] at hstop
  have hwritable := writable_of_mem_lex text
  have hstart : Opened d [] .zero SweepState.start.stack := by
    show walk d [] .start [] = some ⟨.zero, []⟩
    rfl
  obtain ⟨ls₁, o, ls₂, m, f, fs, hlex, hopened, hm, hnoted, hleft, hoperator⟩ :=
    sweepAll_stops (lex_written text).symm rfl hwritable hstart hstop
  obtain ⟨ls₀, ls', n, rfl, hf, hn, huntagged, hinside, houtside⟩ := hopened
  have ho : o.isSynthetic = false :=
    (hwritable (.operator o) (by rw [← List.nil_append (lex text), hlex]; simp)).operator o rfl
  have htext : text = writtenOf ls₀ ++ d.opening :: (writtenOf ls' ++ (o.token ++ writtenOf ls₂)) := by
    rw [← lex_written text, ← List.nil_append (lex text), hlex]
    simp [writtenOf, Lexeme.written]
  -- the lexemes before and inside the span are those of its parts
  rw [List.nil_append, htext, List.append_assoc, List.cons_append] at hlex
  obtain ⟨hbefore, hrest⟩ := lex_split (Sharp.opening d _) rfl hlex
  rw [lex_opening] at hrest
  obtain ⟨hinner, -⟩ := lex_split (Sharp.token ho _) rfl (List.cons.inj hrest).2.symm
  refine ⟨writtenOf ls₀, writtenOf ls', o, writtenOf ls₂, ⟨htext, ho, huntagged, n, m, fs.map Frame.noted, hn, hm, ?_, ?_⟩,
    hleft.trans hf, ?_⟩
  · rw [← hbefore]
    exact houtside.walk_eq
  · rw [← hinner, ← hnoted]
    exact hinside
  · rw [hoperator]
    simp [writtenOf, Lexeme.written]
    omega

end InstitutionalGrammar
