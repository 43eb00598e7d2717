/-
  InstitutionalGrammar.Proofs.Combination.Embedded — a part of a text is swept as if it stood alone.

  Spans that are open around a balanced part are not touched in it: each delimiter in it that opens a span is closed
  in it. What a sweep of the part alone notes, it notes in the whole too, further on and further in. Only that
  nothing reaches into the part has to be known, in front a header and behind a token of an operator.
  - `signs_behind`, `signs_append_loose`: the tokens of the part, in the whole.
  - `after_balanced`: no block and no content is left open by it.
  - `sweepStep_within`: one cue.
  - `sweepFrom_settled`, `sweepFrom_repetition`: how a sweep of the whole gets over the part.
-/

import Mathlib.Data.List.Forall2
import InstitutionalGrammar.Proofs.Combination.Table
import InstitutionalGrammar.Proofs.Combination.Walk
import InstitutionalGrammar.Proofs.Text.Pairs

namespace InstitutionalGrammar

variable {d : Delimiters} {a b x : Text} {p q : Position} {i j k : Nat} {c : Char}

/-! ## Tokens further on -/

/-- The same lexeme, `k` bytes further on. -/
structure Token.Behind (k : Nat) (t t' : Token) : Prop where
  lexeme : t'.lexeme = t.lexeme
  start : t'.position.offset = k + t.position.offset
  stop : t'.stop = k + t.stop

theorem place_behind (h : q.offset = k + p.offset) (ls : List Lexeme) :
    List.Forall₂ (Token.Behind k) (place p ls) (place q ls) := by
  induction ls generalizing p q with
  | nil => exact .nil
  | cons l ls ih =>
    have hstop : (q.past l.written).offset = k + (p.past l.written).offset := by
      rw [Position.offset_past, Position.offset_past, h, Nat.add_assoc]
    exact .cons ⟨rfl, h, hstop⟩ (ih hstop)

theorem signs_behind (h : q.offset = k + p.offset) (x : Text) :
    List.Forall₂ (Token.Behind k) (signs p x) (signs q x) := by
  refine List.rel_filter (fun t t' ht => ?_) (place_behind h (lex x))
  simp only [Token.isSign, ht.lexeme]

/-! ## Tokens of parts -/

/-- No token of an operator reaches into the text. -/
def Loose (b : Text) : Prop := ∀ c ∈ b.head?, isTokenTail c = false

theorem Sharp.loose (h : Sharp b) : Loose b := by
  obtain ⟨c, u, rfl, hc⟩ := h.head
  rintro _ ⟨⟩
  exact hc

theorem Loose.of_allBlank {w : Text} (hw : Text.allBlank w = true) (hb : Loose b) : Loose (w ++ b) := by
  cases w with
  | nil => exact hb
  | cons c w =>
    rintro _ ⟨⟩
    exact isTokenTail_of_isBlank (List.all_eq_true.1 hw c List.mem_cons_self)

theorem Loose.startsOperator (h : Loose b) (c : Char) (t : Text) : startsOperator (c :: (t ++ b)) = startsOperator (c :: t) := by
  cases b with
  | nil => rw [List.append_nil]
  | cons e b => rw [startsOperator_break (h e rfl)]

theorem delimiter_cases (c : Char) : (∃ e : Delimiters, c = e.opening) ∨ (∃ e : Delimiters, c = e.closing) ∨
    ∀ e : Delimiters, c ≠ e.opening ∧ c ≠ e.closing := by
  by_cases hopening : ∃ e : Delimiters, c = e.opening
  · exact .inl hopening
  · by_cases hclosing : ∃ e : Delimiters, c = e.closing
    · exact .inr (.inl hclosing)
    · exact .inr (.inr fun e => ⟨fun h => hopening ⟨e, h⟩, fun h => hclosing ⟨e, h⟩⟩)

/-- A character of text is no sign. -/
theorem signs_other {t : Text} (hstart : startsOperator (c :: t) = false)
    (hc : ∀ e : Delimiters, c ≠ e.opening ∧ c ≠ e.closing) (p : Position) : signs p (c :: t) = signs (p.after c) t := by
  have hput : Lexeme.put c (lex t) = Lexeme.consText c (lex t) := by
    simp [Lexeme.put, hc .parentheses, hc .braces]
  rw [signs, lex_char hstart, hput, signs_consText]
  rfl

/-- The signs of a text, one part after the other. -/
theorem signs_append_loose (hb : Loose b) (x : Text) (p : Position) :
    signs p (x ++ b) = signs p x ++ signs (p.past x) b := by
  induction x using lex_induction generalizing p with
  | nil => rfl
  | token o t ho ih => rw [List.append_assoc, signs_operator ho, signs_operator ho, ih, Position.past_append, List.cons_append]
  | char c t hc ih =>
    have hc' : startsOperator (c :: (t ++ b)) = false := by rw [hb.startsOperator, hc]
    rw [List.cons_append, Position.past_cons]
    rcases delimiter_cases c with ⟨e, rfl⟩ | ⟨e, rfl⟩ | hother
    · rw [signs_opening, signs_opening, ih, List.cons_append]
    · rw [signs_closing, signs_closing, ih, List.cons_append]
    · rw [signs_other hc' hother, signs_other hc hother, ih]

/-! ## Depths behind a part -/

/-- The depths behind some tokens. -/
def Depths.after (d : Delimiters) (shapes : List PlacedShape) (n : Depths) (ts : List Token) : Depths :=
  ts.foldl (fun n t => n.next d (Header.among? shapes t.position.offset).isSome t.lexeme) n

theorem marksFrom_append (shapes : List PlacedShape) (n : Depths) (ts us : List Token) :
    marksFrom d shapes n (ts ++ us) = marksFrom d shapes n ts ++ marksFrom d shapes (n.after d shapes ts) us := by
  induction ts generalizing n with
  | nil => rfl
  | cons t ts ih => rw [List.cons_append, marksFrom, marksFrom, ih]; rfl

theorem cues_eq (d : Delimiters) (shapes : List PlacedShape) (ts : List Token) :
    cues d shapes ts = (marksFrom d shapes .zero ts).filter isCue := by
  cases d with
  | parentheses => rw [cues, marksFrom_parentheses]
  | braces => rw [cues, ← fragmentMarks_eq]; rfl

theorem Depths.next_operator (n : Depths) (d : Delimiters) (isTagged : Bool) (o : Operator) :
    n.next d isTagged (.operator o) = n := by
  obtain ⟨block, content⟩ := n
  cases d <;> cases block <;> rfl

theorem depthFrom_either_opening (d e : Delimiters) (k : Nat) (t : Text) :
    depthFrom d k (e.opening :: t) = depthFrom d (if e = d then k + 1 else k) t := by
  by_cases h : e = d
  · rw [if_pos h, h, depthFrom_opening]
  · rw [if_neg h, depthFrom_char] <;> cases d <;> cases e <;> simp_all <;> decide

theorem depthFrom_either_closing {e : Delimiters} {t : Text} {m : Nat} (h : depthFrom d k (e.closing :: t) = some m) :
    depthFrom d (if e = d then k - 1 else k) t = some m := by
  by_cases he : e = d
  · subst he
    cases k with
    | zero =>
      rw [depthFrom_zero_closing] at h
      cases h
    | succ k =>
      rw [depthFrom_closing] at h
      simpa using h
  · rw [depthFrom_char] at h
    · rwa [if_neg he]
    all_goals cases d <;> cases e <;> simp_all <;> decide

/-- No more blocks and content are open than delimiters of their kind, and no content is looked for in a block. -/
structure Depths.Under (n : Depths) (braces parentheses : Nat) : Prop where
  block : n.block ≤ braces
  content : n.content ≤ parentheses
  apart : 0 < n.block → n.content = 0

namespace Depths.Under

variable {n : Depths} {m r : Nat} {isTagged : Bool}

theorem opening (h : n.Under m r) (e : Delimiters) : (n.next .braces isTagged (.opening e)).Under
    (if e = .braces then m + 1 else m) (if e = .parentheses then r + 1 else r) := by
  obtain ⟨block, content⟩ := n
  obtain ⟨hblock, hcontent, hapart⟩ := h
  cases e with
  | parentheses => cases block <;> constructor <;> simp_all [Depths.next]
  | braces =>
    cases block with
    | zero =>
      simp only [Depths.next]
      split <;> constructor <;> simp_all
    | succ block => constructor <;> simp_all [Depths.next]

theorem closing (h : n.Under m r) (e : Delimiters) : (n.next .braces isTagged (.closing e)).Under
    (if e = .braces then m - 1 else m) (if e = .parentheses then r - 1 else r) := by
  obtain ⟨block, content⟩ := n
  obtain ⟨hblock, hcontent, hapart⟩ := h
  cases e <;> cases block <;> constructor <;> simp_all [Depths.next] <;> omega

/-- The depths behind a text in which nothing closes that has not opened. -/
theorem after {m' r' : Nat} (h : n.Under m r) (shapes : List PlacedShape) (p : Position) (hm : depthFrom .braces m x = some m')
    (hr : depthFrom .parentheses r x = some r') : (n.after .braces shapes (signs p x)).Under m' r' := by
  induction x using lex_induction generalizing n p m r with
  | nil =>
    cases hm
    cases hr
    exact h
  | token o t ho ih =>
    rw [depthFrom_append, depthFrom_plain (token_plain _), Option.bind_some] at hm hr
    rw [signs_operator ho, Depths.after, List.foldl_cons, Depths.next_operator]
    exact ih h _ hm hr
  | char c t hc ih =>
    rcases delimiter_cases c with ⟨e, rfl⟩ | ⟨e, rfl⟩ | hother
    · rw [signs_opening, Depths.after, List.foldl_cons]
      rw [depthFrom_either_opening] at hm hr
      exact ih (h.opening e) _ hm hr
    · rw [signs_closing, Depths.after, List.foldl_cons]
      exact ih (h.closing e) _ (depthFrom_either_closing hm) (depthFrom_either_closing hr)
    · rw [depthFrom_char (hother _).1 (hother _).2] at hm hr
      rw [signs_other hc hother]
      exact ih h _ hm hr

end Depths.Under

/-- Behind a text in which the delimiters of both kinds pair up, no block and no content is open. -/
theorem after_balanced (hx : ∀ e, Balanced e x) (d : Delimiters) (shapes : List PlacedShape) (p : Position) :
    Depths.zero.after d shapes (signs p x) = .zero := by
  cases d with
  | parentheses =>
    unfold Depths.after
    induction signs p x with
    | nil => rfl
    | cons t ts ih => exact ih
  | braces =>
    have hstart : Depths.zero.Under 0 0 := ⟨Nat.le_refl _, Nat.le_refl _, nofun⟩
    obtain ⟨hblock, hcontent, -⟩ := hstart.after shapes p (balanced_iff.1 (hx .braces)) (balanced_iff.1 (hx .parentheses))
    generalize Depths.zero.after .braces shapes (signs p x) = n at hblock hcontent ⊢
    obtain ⟨block, content⟩ := n
    obtain rfl : block = 0 := Nat.le_zero.1 hblock
    obtain rfl : content = 0 := Nat.le_zero.1 hcontent
    rfl

/-! ## Cues of a part -/

/-- What stands behind a balanced part is marked as if the part were not there. -/
theorem cues_append (hx : ∀ e, Balanced e x) (shapes : List PlacedShape) (p : Position) (ts : List Token) :
    cues d shapes (signs p x ++ ts) = cues d shapes (signs p x) ++ cues d shapes ts := by
  rw [cues_eq, cues_eq, cues_eq, marksFrom_append, after_balanced hx, List.filter_append]

/-- The same mark of the same lexeme, `k` bytes further on. -/
def CueBehind (k : Nat) (m m' : Mark × Token) : Prop := m'.1 = m.1 ∧ m.2.Behind k m'.2

theorem marksFrom_behind {shapes shapes' : List PlacedShape} {ts ts' : List Token} (h : List.Forall₂ (Token.Behind k) ts ts')
    (hshapes : d = .braces → ∀ t ∈ ts, t.lexeme = .opening .braces →
      (Header.among? shapes' (k + t.position.offset)).isSome = (Header.among? shapes t.position.offset).isSome)
    (n : Depths) : List.Forall₂ (CueBehind k) (marksFrom d shapes n ts) (marksFrom d shapes' n ts') := by
  induction h generalizing n with
  | nil => exact .nil
  | @cons t t' ts ts' ht _ ih =>
    have hstep : n.mark d (Header.among? shapes' t'.position.offset).isSome t'.lexeme =
          n.mark d (Header.among? shapes t.position.offset).isSome t.lexeme ∧
        n.next d (Header.among? shapes' t'.position.offset).isSome t'.lexeme =
          n.next d (Header.among? shapes t.position.offset).isSome t.lexeme := by
      rw [ht.lexeme, ht.start]
      cases d with
      | parentheses => exact ⟨rfl, rfl⟩
      | braces =>
        have hsame := hshapes rfl t List.mem_cons_self
        exact ⟨Depths.mark_congr hsame n _, Depths.next_congr hsame n _⟩
    rw [marksFrom, marksFrom]
    simp only [hstep.1, hstep.2]
    exact .cons ⟨rfl, ht⟩ (ih (fun hd u hu => hshapes hd u (List.mem_cons_of_mem _ hu)) _)

/-- A part is marked as if it stood alone, if no header reaches into it. -/
theorem cues_behind (htagged : d = .braces → ∀ u, tagged (a ++ u) = tagged u) (x b : Text) :
    List.Forall₂ (CueBehind a.size) (cues d (PlacedShape.all x) (signs .start x))
      (cues d (PlacedShape.all (a ++ (x ++ b))) (signs (Position.start.past a) x)) := by
  have hbehind := signs_behind (p := .start) (q := Position.start.past a) (k := a.size) (by simp [Position.start]) x
  rw [cues_eq, cues_eq]
  refine List.rel_filter (fun m m' hm => ?_) (marksFrom_behind hbehind (fun hd t ht hbrace => ?_) .zero)
  · simp only [isCue, hm.1]
  · -- the brace is behind a header in both texts or in none
    obtain ⟨hat, -⟩ := (tokens_tiled x).stands (List.mem_filter.1 ht).1
    rw [hbrace, Lexeme.written] at hat
    obtain ⟨u, r, rfl, hu⟩ := hat
    have hwhole := among?_isSome (a ++ u) (r ++ b)
    rw [htagged hd, ← among?_isSome u r, Text.size_append] at hwhole
    have hparts : a ++ (u ++ ([brace] ++ r) ++ b) = a ++ u ++ brace :: (r ++ b) := by simp
    rw [← hu, hparts]
    exact hwhole

/-! ## The state of a sweep, further on and further in -/

def PlacedOperator.behind (k : Nat) (o : PlacedOperator) : PlacedOperator := ⟨o.operator, k + o.start, k + o.stop⟩

def Frame.behind (k : Nat) (f : Frame) : Frame := ⟨k + f.left, f.operator.map (·.behind k)⟩

/-- The span `k` bytes further on and `deep` levels further in. -/
def Span.behind (k deep : Nat) (s : Span) : Span := ⟨s.level + deep, k + s.left, k + s.right, s.operator.map (·.behind k)⟩

/-- The state of a sweep over a part that stands `k` bytes further on, where the spans `outer` are open and `closed`
    are closed already. -/
def SweepState.within (k : Nat) (outer : List Frame) (closed : List Span) (s : SweepState) : SweepState :=
  ⟨s.stack.map (·.behind k) ++ outer, s.closed.map (·.behind k outer.length) ++ closed, [], []⟩

/-- A sweep of the whole goes like one of a part in it, unless that fails. -/
def Mirrors (k : Nat) (outer : List Frame) (closed : List Span) :
    Except Interruption SweepState → Except Interruption SweepState → Prop
  | .ok s, y => y = .ok (s.within k outer closed)
  | .error (.repetition left operator), y => y = .error (.repetition (k + left) (k + operator))
  | .error (.failure _), _ => True

section Steps

variable {outer : List Frame} {closed : List Span}

theorem Mirrors.bind {m m' : Except Interruption SweepState} {f g : SweepState → Except Interruption SweepState}
    (h : Mirrors k outer closed m m') (hf : ∀ s, Mirrors k outer closed (f s) (g (s.within k outer closed))) :
    Mirrors k outer closed (m >>= f) (m' >>= g) := by
  match m, h with
  | .ok s, h =>
    obtain rfl : m' = .ok (s.within k outer closed) := h
    exact hf s
  | .error (.repetition left operator), h =>
    obtain rfl : m' = .error (.repetition (k + left) (k + operator)) := h
    rfl
  | .error (.failure cause), _ => trivial

theorem Text.At.around {part : Text} (h : x.At i part) (a b : Text) : (a ++ (x ++ b)).At (a.size + i) part :=
  (h.extend b).prepend a

theorem Text.slice_within {part : Text} (h : x.slice i j = .ok part) (a b : Text) :
    (a ++ (x ++ b)).slice (a.size + i) (a.size + j) = .ok part := by
  obtain ⟨hat, hsize⟩ := Text.slice_eq_ok.1 h
  exact Text.slice_eq_ok.2 ⟨hat.around a b, by omega⟩

theorem blankBetween_within {blank : Bool} (h : blankBetween x i j = .ok blank) (a b : Text) :
    blankBetween (a ++ (x ++ b)) (a.size + i) (a.size + j) = .ok blank := by
  obtain ⟨part, hpart, hblank⟩ := bind_eq_ok.1 h
  unfold blankBetween
  rw [Text.slice_within hpart a b]
  exact hblank

theorem checkOperand_within {top : Frame} {t t' : Token} (h : checkOperand x top t = .ok ()) (ht : t.Behind a.size t')
    (b : Text) : checkOperand (a ++ (x ++ b)) (top.behind a.size) t' = .ok () := by
  have hblank := blankBetween_within (checkOperand_eq_ok.1 h) a b
  rw [checkOperand_eq_ok, ht.start, ← hblank]
  obtain ⟨left, operator⟩ := top
  cases operator <;> rfl

theorem checkLastOperand_within {top : Frame} (h : checkLastOperand x top i = .ok ()) (a b : Text) :
    checkLastOperand (a ++ (x ++ b)) (top.behind a.size) (a.size + i) = .ok () := by
  refine checkLastOperand_eq_ok.2 fun o ho => ?_
  obtain ⟨first, hfirst, rfl⟩ := Option.map_eq_some_iff.1 ho
  exact blankBetween_within (checkLastOperand_eq_ok.1 h first hfirst) a b

/-- One cue of the part. -/
theorem sweepStep_within {m m' : Mark × Token} (hm : CueBehind a.size m m') (hcue : isCue m = true) (s : SweepState)
    (b : Text) : Mirrors a.size outer closed (sweepStep d x s m)
      (sweepStep d (a ++ (x ++ b)) (s.within a.size outer closed) m') := by
  obtain ⟨mark, t⟩ := m
  obtain ⟨mark', t'⟩ := m'
  obtain ⟨rfl, ht⟩ : mark' = mark ∧ t.Behind a.size t' := hm
  cases mark' with
  | plain => cases hcue
  | opening =>
    have hbare := leaveRun_bare s
    show Mirrors a.size outer closed (.ok { s.leaveRun with stack := ⟨t.position.offset, none⟩ :: s.leaveRun.stack }) _
    rw [SweepState.within, sweepStep_opening, ht.start]
    simp only [Mirrors, SweepState.within, SweepState.stack_of_bare hbare, SweepState.closed_of_bare hbare]
    rfl
  | closing =>
    obtain ⟨stack, closed', runs, run⟩ := s
    cases stack with
    | nil => trivial
    | cons top rest =>
      simp only [sweepStep, SweepState.within, List.map_cons, List.cons_append]
      cases hcheck : checkLastOperand x top t.position.offset with
      | error cause => trivial
      | ok _ =>
        rw [ht.start, checkLastOperand_within hcheck]
        simp [Mirrors, SweepState.within, Span.behind, Frame.behind]
        omega
  | operator o =>
    obtain ⟨stack, closed', runs, run⟩ := s
    cases stack with
    | nil => trivial
    | cons top rest =>
      simp only [sweepStep, SweepState.within, List.map_cons, List.cons_append]
      cases hcheck : checkOperand x top t with
      | error cause => trivial
      | ok _ =>
        rw [checkOperand_within hcheck ht]
        obtain ⟨left, operator⟩ := top
        cases operator with
        | none => simp [Mirrors, SweepState.within, PlacedOperator.behind, Frame.behind, ht.start, ht.stop]
        | some first =>
          by_cases hsame : first.operator = o
          · simp [Mirrors, PlacedOperator.behind, Frame.behind, ht.start, hsame]
          · simp [Mirrors, hsame, interrupt]

/-- All cues of the part. -/
theorem foldlM_within {ms ms' : List (Mark × Token)} (h : List.Forall₂ (CueBehind a.size) ms ms')
    (hcues : ∀ m ∈ ms, isCue m = true) (s : SweepState) (b : Text) : Mirrors a.size outer closed
      (ms.foldlM (sweepStep d x) s) (ms'.foldlM (sweepStep d (a ++ (x ++ b))) (s.within a.size outer closed)) := by
  induction h generalizing s with
  | nil => exact rfl
  | @cons m m' ms ms' hm _ ih =>
    rw [List.foldlM_cons, List.foldlM_cons]
    exact (sweepStep_within hm (hcues m List.mem_cons_self) s b).bind
      (ih fun u hu => hcues u (List.mem_cons_of_mem _ hu))

end Steps

/-! ## Sweeps -/

/-- A part that can be cut out of the whole: what is open around it is open behind it, and nothing reaches into it. -/
structure Embedded (d : Delimiters) (a x b : Text) : Prop where
  balanced : ∀ e, Balanced e x
  untagged : d = .braces → ∀ u, tagged (a ++ u) = tagged u
  loose : Loose b

theorem isCue_of_mem_cues {shapes : List PlacedShape} {ts : List Token} : ∀ m ∈ cues d shapes ts, isCue m = true := by
  intro m hm
  rw [cues_eq] at hm
  exact (List.mem_filter.1 hm).2

namespace Embedded

variable {table : SpanTable} {left operator : Nat}

/-- A sweep of the whole over the part and on. -/
theorem sweepFrom_eq (h : Embedded d a x b) (stack : List Frame) (closed : List Span) : ∃ m,
    Mirrors a.size stack closed ((cues d (PlacedShape.all x) (signs .start x)).foldlM (sweepStep d x) .start) m ∧
      sweepFrom d a (x ++ b) ⟨stack, closed, [], []⟩ = m >>= sweepFrom d (a ++ x) b := by
  refine ⟨_, foldlM_within (cues_behind h.untagged x b) isCue_of_mem_cues .start b, ?_⟩
  unfold sweepFrom
  rw [signs_append_loose h.loose, cues_append h.balanced, List.foldlM_append, ← Position.past_append, List.append_assoc]
  rfl

/-- A part that is swept to its end leaves its spans, further on and further in. -/
theorem sweepFrom_settled (h : Embedded d a x b) (stack : List Frame) (closed : List Span) (hsweep : sweep d x = .ok (.settled table)) :
    sweepFrom d a (x ++ b) ⟨stack, closed, [], []⟩ = sweepFrom d (a ++ x) b
      ⟨stack, (table.spans.map (·.behind a.size stack.length)).reverse ++ closed, [], []⟩ := by
  obtain ⟨m, hmirrors, hrun⟩ := h.sweepFrom_eq stack closed
  rw [(foldlM_of_settled hsweep).2] at hmirrors
  rw [hrun, hmirrors, ok_bind, List.map_reverse.symm]
  rfl

/-- A part that repeats an operator stops the sweep of the whole there. -/
theorem sweepFrom_repetition (h : Embedded d a x b) (stack : List Frame) (closed : List Span) (hsweep : sweep d x = .ok (.repetition left operator)) :
    sweepFrom d a (x ++ b) ⟨stack, closed, [], []⟩ = .error (.repetition (a.size + left) (a.size + operator)) := by
  obtain ⟨m, hmirrors, hrun⟩ := h.sweepFrom_eq stack closed
  rw [foldlM_of_repetition hsweep] at hmirrors
  rw [hrun, hmirrors]
  rfl

end Embedded

end InstitutionalGrammar
