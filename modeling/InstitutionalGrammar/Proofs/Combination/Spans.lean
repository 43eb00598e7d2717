/-
  InstitutionalGrammar.Proofs.Combination.Spans — where the spans of a sweep lie.

  The tokens of a text stand one behind another, so whatever a sweep notes of them lies inside the
  text, between characters: it never cuts in the wrong place, on any text.
  - `SweepState.Sound`: the delimiters and operators of open and closed spans stand where the state
    says, and of the spans on one level the one that closes first lies first.
  - `sweepStep_sound`, `sweep_sound`: one token and all tokens keep it.
  - `SpanTable.Sound`: what it says of a table.
-/

import InstitutionalGrammar.Proofs.Combination.Cues
import InstitutionalGrammar.Proofs.Combination.Marks
import InstitutionalGrammar.Proofs.Header.Stands

namespace InstitutionalGrammar

variable {d : Delimiters} {text : Text} {i : Nat}

/-! ## Ordinary failures -/

def ParseError.Ordinary (e : ParseError) : Prop := ∀ n, e ≠ .nestingTooDeep n

/-- The text is refused, and not because it nests too deep. -/
def Failure.Ordinary : Failure → Prop
  | .rejected e => e.Ordinary
  | .misplacedCut | .unsettled => False

/-- The result has `P`, or the text is refused for another reason than its depth. -/
abbrev Regular {α : Type} (P : α → Prop) (x : Outcome α) : Prop := Meets Failure.Ordinary P x

theorem Regular.lift {α : Type} {P : α → Prop} {x : Except ParseError α} (h : Meets ParseError.Ordinary P x) :
    Regular P (liftM x : Outcome α) := by
  cases x with
  | error e => exact h
  | ok a => exact h

theorem Regular.meets {α : Type} {E : Failure → Prop} {P : α → Prop} {x : Outcome α} (h : Regular P x)
    (hE : ∀ f : Failure, f.Ordinary → E f) : Meets E P x :=
  h.imp hE fun _ hp => hp

/-! ## What a sweep notes -/

/-- The token of the operator stands where the operator says, between the two bytes. -/
structure PlacedOperator.Between (text : Text) (start stop : Nat) (o : PlacedOperator) : Prop where
  written : o.operator.isSynthetic = false
  after : start ≤ o.start
  stands : text.At o.start o.operator.token
  ends : o.stop = o.start + o.operator.token.size
  before : o.stop ≤ stop

/-- An open span of a sweep that has come to byte `i`. -/
structure Frame.Sound (d : Delimiters) (text : Text) (i : Nat) (f : Frame) : Prop where
  opens : text.At f.left [d.opening]
  before : f.left + 1 ≤ i
  operator : ∀ o ∈ f.operator, o.Between text (f.left + 1) i

/-- A closed span. -/
structure Span.Sound (d : Delimiters) (text : Text) (s : Span) : Prop where
  opens : text.At s.left [d.opening]
  closes : text.At s.right [d.closing]
  inside : s.left + 1 ≤ s.right
  operator : ∀ o ∈ s.operator, o.Between text (s.left + 1) s.right

/-- A span on the level of an open one has closed before that one opened. -/
def Apart (closed : List Span) : List Frame → Prop
  | [] => True
  | f :: rest => (∀ e ∈ closed, e.level = rest.length + 1 → e.right < f.left) ∧ Apart closed rest

/-- A sweep that has come to byte `i`. -/
structure SweepState.Sound (d : Delimiters) (text : Text) (i : Nat) (s : SweepState) : Prop where
  frames : ∀ f ∈ s.stack, f.Sound d text i
  spans : ∀ e ∈ s.closed, e.Sound d text ∧ e.right + 1 ≤ i
  order : s.closed.Pairwise fun later earlier => earlier.level = later.level → earlier.right < later.left
  apart : Apart s.closed s.stack

/-- The spans of a table lie in its input, and those of one level behind one another. -/
structure SpanTable.Sound (d : Delimiters) (table : SpanTable) : Prop where
  spans : ∀ s ∈ table.spans, s.Sound d table.input
  order : table.spans.Pairwise fun earlier later => earlier.level = later.level → earlier.right < later.left

/-- A failure in an ordinary way, or a repetition. -/
def Interruption.Sound : Interruption → Prop
  | .failure f => f.Ordinary
  | .repetition _ _ => True

theorem PlacedOperator.Between.mono {start stop stop' : Nat} {o : PlacedOperator} (h : o.Between text start stop)
    (hle : stop ≤ stop') : o.Between text start stop' :=
  ⟨h.written, h.after, h.stands, h.ends, Nat.le_trans h.before hle⟩

theorem PlacedOperator.Between.cut_stop {start stop : Nat} {o : PlacedOperator} (h : o.Between text start stop) :
    text.Cut o.stop := by
  rw [h.ends]
  exact h.stands.cut_end

theorem Frame.Sound.mono {j : Nat} {f : Frame} (h : f.Sound d text i) (hij : i ≤ j) : f.Sound d text j :=
  ⟨h.opens, Nat.le_trans h.before hij, fun o ho => (h.operator o ho).mono hij⟩

theorem SweepState.Sound.mono {j : Nat} {s : SweepState} (h : s.Sound d text i) (hij : i ≤ j) : s.Sound d text j where
  frames := fun f hf => (h.frames f hf).mono hij
  spans := fun e he => ⟨(h.spans e he).1, Nat.le_trans (h.spans e he).2 hij⟩
  order := h.order
  apart := h.apart

/-- The stretches outside all spans play no part. -/
theorem SweepState.sound_bare {s s' : SweepState} (h : s'.bare = s.bare) (hs : s.Sound d text i) :
    s'.Sound d text i := by
  have hstack : s'.bare.stack = s.bare.stack := by rw [h]
  have hclosed : s'.bare.closed = s.bare.closed := by rw [h]
  simp only [SweepState.bare] at hstack hclosed
  exact ⟨hstack ▸ hs.frames, hclosed ▸ hs.spans, hclosed ▸ hs.order, by rw [hstack, hclosed]; exact hs.apart⟩

theorem Apart.closing {closed : List Span} {stack : List Frame} {s : Span} (h : Apart closed stack)
    (hlevel : stack.length < s.level) : Apart (s :: closed) stack := by
  induction stack with
  | nil => trivial
  | cons f rest ih =>
    rw [List.length_cons] at hlevel
    refine ⟨fun e he hle => ?_, ih h.2 (by omega)⟩
    rcases List.mem_cons.1 he with rfl | he
    · omega
    · exact h.1 e he hle

/-! ## One token -/

theorem checkLastOperand_regular {top : Frame} (htop : top.Sound d text i) (hclose : text.At i [d.closing]) :
    Regular (fun _ => True) (checkLastOperand text top i) := by
  unfold checkLastOperand
  split
  · trivial
  · rename_i o ho
    have hbetween := htop.operator o ho
    refine Meets.bind (P := fun _ => True) ?_ fun blank _ => ?_
    · exact (Meets.cut hbetween.cut_stop hclose.cut hbetween.before).bind fun _ _ => trivial
    · split
      · have hle := htop.before
        exact (Meets.cut htop.opens.cut (cut_closing hclose) (by omega)).bind fun _ _ => nofun
      · trivial

theorem checkOperand_regular {top : Frame} {t : Token} {o : Operator} (htop : top.Sound d text i)
    (hstart : t.position.offset = i) (hstands : text.At i o.token) (hstop : t.stop = i + o.token.size) :
    Regular (fun _ => True) (checkOperand text top t) := by
  have hcheck : ∀ start, text.Cut start → start ≤ i → Regular (fun _ => True) (do
      if ← blankBetween text start t.position.offset then
        reject (.emptyOperand (← text.slice top.left t.stop) t.position)) := by
    intro start hcut hle
    rw [hstart]
    refine Meets.bind (P := fun _ => True) ?_ fun blank _ => ?_
    · exact (Meets.cut hcut hstands.cut hle).bind fun _ _ => trivial
    · split
      · have hstop' : text.Cut t.stop := hstop ▸ hstands.cut_end
        have hbefore := htop.before
        exact (Meets.cut htop.opens.cut hstop' (by omega)).bind fun _ _ => nofun
      · trivial
  unfold checkOperand
  simp only
  split
  · rename_i first hfirst
    have hbetween := htop.operator first hfirst
    exact hcheck first.stop hbetween.cut_stop hbetween.before
  · exact hcheck (top.left + 1) (cut_opening htop.opens) htop.before

namespace SweepState.Sound

variable {s : SweepState} {top : Frame} {rest : List Frame}

/-- A span opens. -/
theorem push (hs : s.Sound d text i) (hopens : text.At i [d.opening]) :
    SweepState.Sound d text (i + 1) { s with stack := ⟨i, none⟩ :: s.stack } where
  frames := by
    intro f hf
    rcases List.mem_cons.1 hf with rfl | hf
    · exact ⟨hopens, Nat.le_refl _, nofun⟩
    · exact (hs.frames f hf).mono (Nat.le_succ i)
  spans := (hs.mono (Nat.le_succ i)).spans
  order := hs.order
  apart := ⟨fun e he _ => (hs.spans e he).2, hs.apart⟩

/-- The innermost span closes. -/
theorem pop (hs : s.Sound d text i) (hstack : s.stack = top :: rest) (hcloses : text.At i [d.closing]) :
    SweepState.Sound d text (i + 1)
      { s with stack := rest, closed := ⟨rest.length + 1, top.left, i, top.operator⟩ :: s.closed } := by
  have hframes := hs.frames
  have hapart := hs.apart
  rw [hstack] at hframes hapart
  have htop := hframes top List.mem_cons_self
  refine ⟨fun f hf => ?_, fun e he => ?_, ?_, ?_⟩
  · exact (hframes f (List.mem_cons_of_mem _ hf)).mono (Nat.le_succ i)
  · rcases List.mem_cons.1 he with rfl | he
    · exact ⟨⟨htop.opens, hcloses, htop.before, htop.operator⟩, Nat.le_refl _⟩
    · exact (hs.mono (Nat.le_succ i)).spans e he
  · exact List.pairwise_cons.2 ⟨fun e he hlevel => hapart.1 e he hlevel, hs.order⟩
  · exact hapart.2.closing (Nat.lt_succ_self _)

/-- The first operator of the innermost span is noted. -/
theorem note (hs : s.Sound d text i) (hstack : s.stack = top :: rest) {o : Operator} (ho : o.isSynthetic = false)
    (htoken : text.At i o.token) :
    SweepState.Sound d text (i + o.token.size)
      { s with stack := { top with operator := some ⟨o, i, i + o.token.size⟩ } :: rest } := by
  have hle : i ≤ i + o.token.size := Nat.le_add_right _ _
  have hframes := hs.frames
  have hapart := hs.apart
  rw [hstack] at hframes hapart
  have htop := hframes top List.mem_cons_self
  refine ⟨fun f hf => ?_, (hs.mono hle).spans, hs.order, fun e he hlevel => hapart.1 e he hlevel, hapart.2⟩
  rcases List.mem_cons.1 hf with rfl | hf
  · refine ⟨htop.opens, Nat.le_trans htop.before hle, ?_⟩
    rintro p ⟨⟩
    exact ⟨ho, htop.before, htoken, rfl, Nat.le_refl _⟩
  · exact (hframes f (List.mem_cons_of_mem _ hf)).mono hle

end SweepState.Sound

/-- What is noted of one token lies where the token stands. -/
theorem sweepStep_sound {s : SweepState} (hs : s.Sound d text i) {m : Mark} {t : Token}
    (hstart : t.position.offset = i) (hstands : text.At i t.lexeme.written)
    (hstop : t.stop = i + t.lexeme.written.size) (hmeans : m.Means d t.lexeme) :
    Meets Interruption.Sound (·.Sound d text t.stop) (sweepStep d text s (m, t)) := by
  subst hstart
  have hstep := sweepStep_cases d text s m t
  generalize sweepStep d text s (m, t) = x at hstep ⊢
  cases hstep with
  | passes => exact (SweepState.sound_bare (addRun_bare s _) hs).mono (by omega)
  | opens =>
    have hlexeme : t.lexeme = .opening d := hmeans
    rw [hlexeme, Lexeme.written] at hstands hstop
    rw [size_opening] at hstop
    rw [hstop]
    exact (SweepState.sound_bare (leaveRun_bare s) hs).push hstands
  | unended hstack hfail =>
    have hlexeme : t.lexeme = .closing d := hmeans
    rw [hlexeme, Lexeme.written] at hstands
    have htop := hs.frames _ (hstack ▸ List.mem_cons_self)
    exact (checkLastOperand_regular htop hstands).failure hfail
  | closes hstack =>
    have hlexeme : t.lexeme = .closing d := hmeans
    rw [hlexeme, Lexeme.written] at hstands hstop
    rw [size_closing] at hstop
    rw [hstop]
    exact hs.pop hstack hstands
  | unled hstack hfail =>
    rw [hmeans.1, Lexeme.written] at hstands hstop
    have htop := hs.frames _ (hstack ▸ List.mem_cons_self)
    exact (checkOperand_regular htop rfl hstands hstop).failure hfail
  | notes hstack =>
    rw [hmeans.1, Lexeme.written] at hstands hstop
    rw [hstop]
    exact hs.note hstack hmeans.2 hstands
  | repeats => trivial
  | unopened | outside | mixes =>
    intro n hn
    cases hn

/-! ## All tokens -/

theorem run_sound (d : Delimiters) (text : Text) :
    Meets Interruption.Sound (·.Sound d text text.size) ((marks d text).foldlM (sweepStep d text) .start) :=
  Meets.run (P := fun i s => s.Sound d text i) ⟨nofun, nofun, .nil, trivial⟩ fun hs => sweepStep_sound hs

/-- A sweep that settles does so with a table of spans where they are. -/
def Sweep.Sound (d : Delimiters) (text : Text) : Sweep → Prop
  | .settled table => table.input = text ∧ table.Sound d
  | .repetition _ _ => True

theorem sweep_sound (d : Delimiters) (text : Text) : Regular (Sweep.Sound d text) (sweep d text) := by
  refine (run_sound d text).ends (fun f hf => hf) (fun _ _ _ => trivial) (fun s hs _ => ⟨rfl, ?_, ?_⟩) fun _ _ _ => nofun
  · exact fun e he => (hs.spans e (List.mem_reverse.1 he)).1
  · exact List.pairwise_reverse.2 hs.order

end InstitutionalGrammar
