/-
  InstitutionalGrammar.Proofs.Combination.Nesting — the spans of a nested text.

  In a nested text the inside of every span is nested, and so is what stands on either side of its
  operator. The open spans of a sweep are the layers of the text so far, and the spans of a table lie in
  spans of the level above. Where a sweep stops, the operands are nested, so the regrouped text is too.
  - `sweepStep_nests`, `sweepAll_nests`: what one lexeme keeps, and all of them.
  - `Repeats`: where a sweep stops; `settle_nests`: what lasts until a sweep settles.
  - `SpanTable.Nests.shares`: the stretch in which a span shares text.
-/

import InstitutionalGrammar.Proofs.Combination.Layers

namespace InstitutionalGrammar

variable {fs : List Frame} {a g p q r t text w : Text} {n : Depths} {l : Lexeme} {o : Operator} {st : List Delimiters}
  {e : Span} {s s' : SweepState}

/-! ## Closed spans -/

/-- The closed span stands in the text, behind one layer for each level further out. -/
def Span.In (t : Text) (e : Span) : Prop :=
  ∃ (fs : List Frame) (a g b : Text), t = a ++ brace :: (g ++ endBrace :: b) ∧ Layered fs a ∧ a.size = e.left ∧ e.left + 1 + g.size = e.right ∧
    fs.length + 1 = e.level ∧ Noted (e.left + 1) g e.operator

theorem Span.In.extend (h : e.In t) (w : Text) : e.In (t ++ w) := by
  obtain ⟨fs, a, g, b, rfl, hspan⟩ := h
  exact ⟨fs, a, g, b ++ w, by simp, hspan⟩

theorem Span.In.right_lt (h : e.In t) : e.right < t.size := by
  obtain ⟨fs, a, g, b, rfl, -, hleft, hright, -, -⟩ := h
  simp only [Text.size_append, Text.size_cons, Delimiters.utf8Size_opening, Delimiters.utf8Size_closing]
  omega

/-- If the span is not outermost, then the span around it has closed or is open, at one of the bytes `lefts`. -/
def Span.Sheltered (lefts : List Nat) (closed : List Span) (e : Span) : Prop :=
  e.level = 1 ∨ (∃ x ∈ closed, x.level + 1 = e.level ∧ x.contains e = true) ∨
    ∃ inner left outer, lefts = inner ++ left :: outer ∧ outer.length + 2 = e.level ∧ left < e.left

theorem Span.Sheltered.push {lefts : List Nat} {closed : List Span} (h : e.Sheltered lefts closed) (left : Nat) :
    e.Sheltered (left :: lefts) closed := by
  rcases h with hfirst | hclosed | ⟨inner, x, outer, rfl, hopen⟩
  · exact Or.inl hfirst
  · exact Or.inr (Or.inl hclosed)
  · exact Or.inr (Or.inr ⟨left :: inner, x, outer, rfl, hopen⟩)

/-- The innermost open span closes. -/
theorem Span.Sheltered.pop {left : Nat} {lefts : List Nat} {closed : List Span} {x : Span}
    (h : e.Sheltered (left :: lefts) closed) (hleft : x.left = left) (hlevel : x.level = lefts.length + 1)
    (hright : e.right < x.right) : e.Sheltered lefts (x :: closed) := by
  rcases h with hfirst | ⟨y, hy, hcontains⟩ | ⟨inner, y, outer, heq, hsize, hlt⟩
  · exact Or.inl hfirst
  · exact Or.inr (Or.inl ⟨y, List.mem_cons_of_mem _ hy, hcontains⟩)
  · cases inner with
    | nil =>
      obtain ⟨rfl, rfl⟩ := List.cons.inj heq
      refine Or.inr (Or.inl ⟨x, List.mem_cons_self, by omega, ?_⟩)
      simp only [Span.contains, Bool.and_eq_true, decide_eq_true_eq]
      omega
    | cons z inner =>
      obtain ⟨-, rfl⟩ := List.cons.inj heq
      exact Or.inr (Or.inr ⟨inner, y, outer, rfl, hsize, hlt⟩)

/-! ## One sweep -/

/-- The open spans are the layers of the text so far, and the closed ones stand in it. -/
structure SweepState.Nests (q : Text) (n : Depths) (s : SweepState) : Prop where
  reached : Reached s.stack q n
  spans : ∀ e ∈ s.closed, e.In q ∧ e.Sheltered (s.stack.map Frame.left) s.closed

/-- An operator behind the operands repeats one between them, in a span that opened behind `a`. -/
structure Repeats (a operands : Text) (o : Operator) : Prop where
  layers : ∃ fs, Layered fs a
  untagged : tagged a = false
  nested : WellNested operands
  first : ∃ l r first, operands = l ++ (Operator.token first ++ r) ∧ WellNested l ∧ first.isSynthetic = false
  written : o.isSynthetic = false

/-- Where a sweep stops, it does for a repeated operator or for a fault of the text. -/
def Interruption.Repeats (text : Text) : Interruption → Prop
  | .failure _ => True
  | .repetition left operator => ∃ (a operands : Text) (o : Operator) (rest : Text),
      text = a ++ brace :: (operands ++ (o.token ++ rest)) ∧ left = a.size ∧ operator = a.size + 1 + operands.size ∧
      InstitutionalGrammar.Repeats a operands o

namespace SweepState.Nests

/-- The stretches outside all spans play no part. -/
theorem of_bare (h : s.Nests q n) (hbare : s'.bare = s.bare) : s'.Nests q n := by
  have hstack : s'.bare.stack = s.bare.stack := by rw [hbare]
  have hclosed : s'.bare.closed = s.bare.closed := by rw [hbare]
  simp only [SweepState.bare] at hstack hclosed
  exact ⟨hstack ▸ h.reached, by rw [hstack, hclosed]; exact h.spans⟩

/-- The open spans stay open where they are. -/
theorem extend {m : Depths} (h : s.Nests q n) (hreached : Reached s.stack (q ++ w) m) : s.Nests (q ++ w) m where
  reached := hreached
  spans := fun e he => ⟨(h.spans e he).1.extend w, (h.spans e he).2⟩

theorem push (h : s.Nests q .zero) (htagged : tagged q = false) :
    SweepState.Nests (q ++ [brace]) .zero { s with stack := ⟨q.size, none⟩ :: s.stack } where
  reached := .of_layered (h.reached.layered.push htagged)
  spans := fun e he => ⟨(h.spans e he).1.extend _, (h.spans e he).2.push _⟩

theorem pop {top : Frame} {rest : List Frame} (h : s.Nests q .zero) (hstack : s.stack = top :: rest)
    (hopen : leftOpen [] (q ++ [endBrace]) = some st) :
    SweepState.Nests (q ++ [endBrace]) .zero
      { s with stack := rest, closed := ⟨rest.length + 1, top.left, q.size, top.operator⟩ :: s.closed } := by
  have hlayers := h.reached.layered
  rw [hstack] at hlayers
  obtain ⟨f, fs, a, g, heq, rfl, ha, hleft, hg⟩ := hlayers.exists_open hopen
  obtain ⟨rfl, rfl⟩ := List.cons.inj heq
  have hsize : (a ++ brace :: g).size = a.size + 1 + g.size := by
    rw [Text.size_append, Text.size_cons, Delimiters.utf8Size_opening]
    omega
  refine ⟨.of_layered (ha.close hg.nested), fun e he => ?_⟩
  rcases List.mem_cons.1 he with rfl | he
  · refine ⟨⟨rest, a, g, [], by simp, ha, hleft.symm, ?_, rfl, ?_⟩, ?_⟩
    · show top.left + 1 + g.size = (a ++ brace :: g).size
      omega
    · show Noted (top.left + 1) g top.operator
      rw [hleft]
      exact hg
    · -- the next layer is the span around
      cases ha with
      | nested _ => exact Or.inl rfl
      | @opened outer f' a' g' _ _ hleft' _ =>
        refine Or.inr (Or.inr ⟨[], f'.left, outer.map Frame.left, rfl, by simp, ?_⟩)
        show f'.left < top.left
        rw [hleft', hleft, Text.size_append, Text.size_cons, Delimiters.utf8Size_opening]
        omega
  · obtain ⟨hin, hsheltered⟩ := h.spans e he
    rw [hstack] at hsheltered
    exact ⟨hin.extend _, hsheltered.pop rfl (by simp) hin.right_lt⟩

theorem note {top : Frame} {rest : List Frame} (h : s.Nests q .zero) (hstack : s.stack = top :: rest)
    (ho : o.isSynthetic = false) {start stop : Nat} (hstart : start = q.size) (hstop : stop = q.size + o.token.size) :
    SweepState.Nests (q ++ o.token) .zero { s with stack := { top with operator := some ⟨o, start, stop⟩ } :: rest } := by
  have hlayers := h.reached.layered
  rw [hstack] at hlayers
  refine ⟨.of_layered (hlayers.note ⟨o, start, stop⟩ hstart (by rw [hstop, ← hstart]) ho), fun e he => ?_⟩
  obtain ⟨hin, hsheltered⟩ := h.spans e he
  rw [hstack] at hsheltered
  exact ⟨hin.extend _, hsheltered⟩

/-- The operator that the innermost span has noted comes again. -/
theorem repeats {top : Frame} {rest : List Frame} (h : s.Nests q .zero) (hstack : s.stack = top :: rest)
    {first : PlacedOperator} (hfirst : top.operator = some first) (ho : o.isSynthetic = false) (w : Text) :
    Interruption.Repeats (q ++ (o.token ++ w)) (.repetition top.left q.size) := by
  have hlayers := h.reached.layered
  rw [hstack] at hlayers
  cases hlayers with
  | @opened _ _ a g ha htagged hleft hg =>
    obtain ⟨l, r, hparts, hl, -, -, -, hwritten⟩ := hg.halves first (Option.mem_def.2 hfirst)
    refine ⟨a, g, o, w, by simp, hleft, ?_, ⟨_, ha⟩, htagged, hg.nested, ⟨l, r, _, hparts, hl, hwritten⟩, ho⟩
    rw [Text.size_append, Text.size_cons, Delimiters.utf8Size_opening]
    omega

end SweepState.Nests

/-- One lexeme further. -/
theorem sweepStep_nests {x : Token} (h : s.Nests q n) (hwritable : x.lexeme.Writable)
    (hword : ∀ v, x.lexeme = .text v → WellNested v) (hoffset : x.position.offset = q.size)
    (hstop : x.stop = q.size + x.lexeme.written.size) (htext : text = q ++ (x.lexeme.written ++ w))
    (hopen : leftOpen [] (q ++ x.lexeme.written) = some st) :
    Meets (Interruption.Repeats text)
      (SweepState.Nests (q ++ x.lexeme.written) (n.next .braces (tagged q) x.lexeme))
      (sweepStep .braces text s (n.mark .braces (tagged q) x.lexeme, x)) := by
  have hmeans : (n.mark .braces (tagged q) x.lexeme).Means .braces x.lexeme := Depths.mark_means hwritable
  have hstep := sweepStep_cases .braces text s (n.mark .braces (tagged q) x.lexeme) x
  generalize sweepStep .braces text s (n.mark .braces (tagged q) x.lexeme, x) = y at hstep ⊢
  by_cases hplain : n.mark .braces (tagged q) x.lexeme = .plain
  · rw [hplain] at hstep
    cases hstep with
    | passes => exact (h.extend (h.reached.pass hword hplain hopen)).of_bare (addRun_bare s _)
  · obtain ⟨-, hbare, hfalse⟩ := Depths.mark_ne_plain hplain
    rw [Depths.next_of_ne_plain hplain]
    obtain rfl := hbare rfl
    generalize Depths.zero.mark .braces (tagged q) x.lexeme = m at hstep hmeans hplain
    cases hstep with
    | passes => exact absurd rfl hplain
    | opens =>
      have hlexeme : x.lexeme = .opening .braces := hmeans
      rw [hoffset, hlexeme]
      exact (h.of_bare (leaveRun_bare s)).push (hfalse rfl hlexeme)
    | closes hstack =>
      have hlexeme : x.lexeme = .closing .braces := hmeans
      rw [hlexeme] at hopen ⊢
      rw [hoffset]
      exact h.pop hstack hopen
    | notes hstack =>
      rw [hmeans.1] at hstop ⊢
      exact h.note hstack hmeans.2 hoffset hstop
    | repeats hstack _ hfirst hsame =>
      rw [hoffset, htext, hmeans.1]
      subst hsame
      exact h.repeats hstack hfirst hmeans.2 w
    | unopened | unended | outside | unled | mixes => trivial

/-! ## Tables -/

variable {ls ls' : List Lexeme} {p : Position} {found : Sweep} {table : SpanTable} {fuel : Nat}

theorem sweepAll_nests (ht : WellNested text) (hlex : lex text = ls ++ ls') (hp : p.offset = (writtenOf ls).size)
    (hs : s.Nests (writtenOf ls) n) :
    Meets (Interruption.Repeats text) (fun s' => ∃ m, s'.Nests text m)
      ((marksFrom .braces (PlacedShape.all text) n (place p ls')).foldlM (sweepStep .braces text) s) := by
  induction ls' generalizing ls n s p with
  | nil =>
    have hall : text = writtenOf ls := by simpa using writtenOf_split hlex
    rw [← hall] at hs
    exact ⟨n, hs⟩
  | cons l ls' ih =>
    have hnext := ht.nextLexeme hlex
    obtain ⟨st, hst⟩ := hnext.opens
    have hstop : (p.past l.written).offset = (writtenOf ls).size + l.written.size := by rw [Position.offset_past, hp]
    rw [marksFrom_place (writtenOf_split hlex) hp, List.foldlM_cons]
    refine (sweepStep_nests (x := ⟨l, p, (p.past l.written).offset⟩) hs hnext.writable hnext.nested hp hstop hnext.written
      hst).bind fun s' hs' => ?_
    rw [← writtenOf_snoc] at hs'
    exact ih (by rw [hlex]; simp) (offset_past_snoc hp l) hs'

/-- The spans of a nested text stand in it, each below level 1 in one of the level above. -/
structure SpanTable.Nests (table : SpanTable) : Prop where
  nested : WellNested table.input
  spans : ∀ e ∈ table.spans, e.In table.input ∧
    (e.level = 1 ∨ ∃ x ∈ table.spans, x.level + 1 = e.level ∧ x.contains e = true)

/-- How a sweep over a nested text ends. -/
def Sweep.Nests (text : Text) : Sweep → Prop
  | .settled table => table.input = text ∧ table.Nests
  | .repetition left operator => Interruption.Repeats text (.repetition left operator)

theorem sweep_nests (ht : WellNested text) (h : sweep .braces text = .ok found) : found.Nests text := by
  have hrun : Meets (Interruption.Repeats text) (fun s' => ∃ m, s'.Nests text m)
      ((marks .braces text).foldlM (sweepStep .braces text) .start) := by
    rw [marks_eq]
    exact sweepAll_nests ht (List.nil_append (lex text)).symm rfl ⟨.start, nofun⟩
  cases found with
  | repetition left operator => exact hrun.failure (sweep_eq_repetition.1 h)
  | settled table =>
    obtain ⟨s, hend, hstack, rfl⟩ := sweep_eq_settled.1 h
    obtain ⟨m, hs⟩ := hrun.value hend
    refine ⟨rfl, ht, fun e he => ?_⟩
    obtain ⟨hin, hsheltered⟩ := hs.spans e (List.mem_reverse.1 he)
    rw [hstack] at hsheltered
    refine ⟨hin, ?_⟩
    rcases hsheltered with hfirst | ⟨x, hx, hclosed⟩ | ⟨inner, left, outer, heq, -⟩
    · exact Or.inl hfirst
    · exact Or.inr ⟨x, List.mem_reverse.2 hx, hclosed⟩
    · simp at heq

namespace Repeats

variable (h : Repeats a g o)
include h

theorem trimmed : WellNested g.trimEnd := by
  obtain ⟨blank, hblank, hall⟩ := Text.stripEnd_append isBlank g
  have hg := h.nested
  rw [hblank] at hg
  exact hg.left fun c hc => isDelimiter_of_reserved (isReserved_of_blank (List.all_eq_true.1 hall c hc))

/-- The operands in braces of their own. -/
theorem wrapped : WellNested (brace :: (g.trimEnd ++ endBrace :: [' '])) :=
  .enclosed (d := .braces) h.trimmed (.of_all (Text.forall_of_all (by decide)))

/-- What is open behind them is what was open in front. -/
theorem layers_wrapped : ∃ fs, Layered fs (a ++ [brace] ++ brace :: (g.trimEnd ++ endBrace :: [' '])) := by
  obtain ⟨fs, ha⟩ := h.layers
  exact ⟨_, (ha.push h.untagged).extend h.wrapped⟩

theorem regrouped_nested (ht : WellNested (a ++ brace :: (g ++ (o.token ++ r)))) : WellNested (regrouped .braces a g o r) := by
  have hparts : WellNested ((a ++ [brace]) ++ (g ++ (o.token ++ r))) := by simpa using ht
  have hexchanged := hparts.exchange h.nested h.wrapped
  simpa [regrouped] using hexchanged

end Repeats

/-- The table of a nested text nests, and its input has what regrouping keeps. -/
theorem settle_nests {P : Text → Prop}
    (hP : ∀ a g o r, Repeats a g o → WellNested (a ++ brace :: (g ++ (o.token ++ r))) →
      P (a ++ brace :: (g ++ (o.token ++ r))) → P (regrouped .braces a g o r))
    (ht : WellNested text) (htext : P text) (h : settle .braces fuel text = .ok table) : table.Nests ∧ P table.input := by
  have hrounds : Meets (fun _ => True) (fun table : SpanTable => table.Nests ∧ P table.input) (settle .braces fuel text) := by
    refine Meets.rounds (I := fun _ t => WellNested t ∧ P t) (Q := Sweep.Nests) ?_ ?_ (fun _ _ _ _ _ => trivial) ?_ ⟨ht, htext⟩
    · exact fun _ t ht => .of_ok fun found hfound => sweep_nests ht.1 hfound
    · rintro - t table ⟨-, ht⟩ ⟨rfl, hnests⟩
      exact ⟨hnests, ht⟩
    · rintro - _ _ _ ⟨hnested, ht⟩ ⟨a, g, o, r, rfl, rfl, rfl, hrepeats⟩
      rw [regroup_parts .braces a g o r]
      exact ⟨hrepeats.regrouped_nested hnested, hP a g o r hrepeats hnested ht⟩
  exact hrounds.value h

theorem spanTable_nests {P : Text → Prop}
    (hP : ∀ a g o r, Repeats a g o → WellNested (a ++ brace :: (g ++ (o.token ++ r))) →
      P (a ++ brace :: (g ++ (o.token ++ r))) → P (regrouped .braces a g o r))
    (ht : WellNested text) (htext : P text) (h : spanTable .braces text = .ok table) : table.Nests ∧ P table.input := by
  unfold spanTable at h
  obtain ⟨-, -, h⟩ := bind_eq_ok.1 h
  exact settle_nests hP ht htext h

/-! ## Shared text -/

/-- A span in the stretch in which it shares text: what stands in front of the stretch and in it before the span,
    inside the span, behind it in the stretch, and behind the stretch. -/
structure SpanTable.Shares (table : SpanTable) (e : Span) (a q g r b : Text) : Prop where
  stands : table.input = a ++ (q ++ brace :: (g ++ endBrace :: (r ++ b)))
  before : WellNested q
  inside : Noted (e.left + 1) g e.operator
  after : WellNested r
  starts : (table.scope e).1 = a.size
  opens : e.left = a.size + q.size
  closes : e.right = e.left + 1 + g.size
  stops : (table.scope e).2 = e.right + 1 + r.size
  edge : a = [] ∨ ∃ a', a = a' ++ [brace]

/-- An outermost span shares text with all of the input. -/
theorem Span.In.shares_outermost (h : e.In table.input) (ht : WellNested table.input) (hlevel : e.level = 1)
    (hparent : table.parent? e = none) : ∃ q g r, table.Shares e [] q g r [] := by
  obtain ⟨fs, q, g, r, htext, hlayers, hleft, hright, hlevel', hinside⟩ := h
  obtain rfl : fs = [] := List.eq_nil_of_length_eq_zero (by omega)
  have hq : WellNested q := wellNested_iff.2 hlayers.leftOpen_eq
  have hbehind : WellNested (brace :: (g ++ endBrace :: r)) := by
    rw [htext] at ht
    exact ht.behind hq
  have hspan : WellNested (brace :: (g ++ [endBrace])) := .enclosed (d := .braces) hinside.nested .nil
  have hr : WellNested r := by
    refine WellNested.behind ?_ hspan
    simpa using hbehind
  have hscope : table.scope e = (0, table.input.size) := by rw [SpanTable.scope, hparent]
  refine ⟨q, g, r, by simpa using htext, hq, hinside, hr, by rw [hscope]; rfl, by simpa using hleft.symm, hright.symm, ?_,
    Or.inl rfl⟩
  rw [hscope, htext]
  simp only [Text.size_append, Text.size_cons, Delimiters.utf8Size_opening, Delimiters.utf8Size_closing]
  omega

/-- A span inside another one stands between nested texts there. -/
theorem Span.In.inside {x : Span} (h : e.In t) (hx : x.In t) (hlevel : x.level + 1 = e.level)
    (hcontains : x.contains e = true) :
    ∃ (a q g r b : Text), t = a ++ brace :: (q ++ brace :: (g ++ endBrace :: (r ++ endBrace :: b))) ∧ WellNested q ∧
      WellNested r ∧ Noted (e.left + 1) g e.operator ∧ x.left = a.size ∧ e.left = a.size + 1 + q.size ∧
      e.right = e.left + 1 + g.size ∧ x.right = e.right + 1 + r.size := by
  obtain ⟨fs, u, g, v, htext, hlayers, hleft, hright, hdepth, hinside⟩ := h
  obtain ⟨gs, a, g', b, htext', hlayers', hleft', hright', hdepth', hinside'⟩ := hx
  obtain ⟨hopens, hcloses⟩ : x.left < e.left ∧ e.right < x.right := by simpa [Span.contains] using hcontains
  -- the outer span opens first
  obtain ⟨q, rfl, hrest⟩ : ∃ q, u = a ++ brace :: q ∧ g' ++ endBrace :: b = q ++ brace :: (g ++ endBrace :: v) := by
    rcases List.append_eq_append_iff.1 (htext.symm.trans htext') with ⟨w, rfl, -⟩ | ⟨w, rfl, hw⟩
    · rw [Text.size_append] at hleft'
      omega
    · cases w with
      | nil =>
        rw [List.append_nil] at hleft
        omega
      | cons c q =>
        obtain ⟨rfl, hq⟩ := List.cons.inj hw
        exact ⟨q, rfl, hq⟩
  -- and closes last
  rcases hinside'.nested.apart (e := .braces) (d := .braces) hinside.nested hrest with ⟨r, rfl, rfl⟩ | ⟨w, rfl, -⟩
  · have hbefore := hinside'.nested
    obtain ⟨st, hst⟩ := hbefore.exists_leftOpen
    have hopen := hlayers.leftOpen_eq
    rw [leftOpen_append, hlayers'.leftOpen_eq, Option.bind_some] at hopen
    have hdeeper := leftOpen_deeper hst (.braces :: List.replicate gs.length .braces)
    have hsame := (leftOpen_opening .braces (List.replicate gs.length .braces) q).symm.trans hopen
    rw [List.nil_append, hsame] at hdeeper
    have hlength := congrArg List.length (Option.some.inj hdeeper)
    simp only [List.length_replicate, List.length_append, List.length_cons] at hlength
    obtain rfl : st = [] := List.eq_nil_of_length_eq_zero (by omega)
    have hq : WellNested q := wellNested_iff.2 hst
    have hspan : WellNested (brace :: (g ++ [endBrace])) := .enclosed (d := .braces) hinside.nested .nil
    have hr : WellNested r := by
      refine WellNested.behind ?_ (hq.append hspan)
      simpa using hbefore
    rw [Text.size_append, Text.size_cons, Delimiters.utf8Size_opening] at hleft
    rw [Text.size_append, Text.size_cons, Text.size_append, Text.size_cons, Delimiters.utf8Size_opening,
      Delimiters.utf8Size_closing] at hright'
    exact ⟨a, q, g, r, b, by rw [htext]; simp, hq, hr, hinside, hleft'.symm, by omega, hright.symm, by omega⟩
  · rw [Text.size_append, Text.size_cons, Text.size_append, Text.size_cons, Delimiters.utf8Size_opening,
      Delimiters.utf8Size_closing] at hleft
    omega

theorem SpanTable.Nests.shares (h : table.Nests) (he : e ∈ table.spans) : ∃ a q g r b, table.Shares e a q g r b := by
  obtain ⟨hin, hparent⟩ := h.spans e he
  cases hscope : table.parent? e with
  | none =>
    have hfirst : e.level = 1 := by
      rcases hparent with hfirst | ⟨x, hx, hup, hcontains⟩
      · exact hfirst
      · have hat : x ∈ table.atLevel (e.level - 1) := List.mem_filter.2 ⟨hx, by simp; omega⟩
        exact absurd hcontains (List.find?_eq_none.1 hscope x hat)
    obtain ⟨q, g, r, hshares⟩ := hin.shares_outermost h.nested hfirst hscope
    exact ⟨[], q, g, r, [], hshares⟩
  | some x =>
    obtain ⟨hx, hat⟩ := List.mem_filter.1 (List.mem_of_find?_eq_some hscope)
    have hx' := (h.spans x hx).1
    have hlevel : x.level + 1 = e.level := by
      obtain ⟨fs, -, -, -, -, -, -, -, hfs, -⟩ := hx'
      have hsame : x.level = e.level - 1 := of_decide_eq_true hat
      omega
    have hcontains : x.contains e = true := List.find?_some (p := fun x : Span => x.contains e) hscope
    obtain ⟨a, q, g, r, b, htext, hq, hr, hinside, hleft, hopens, hcloses, hstops⟩ := hin.inside hx' hlevel hcontains
    have hscope' : table.scope e = (x.left + 1, x.right) := by rw [SpanTable.scope, hscope]
    have hsize : (a ++ [brace]).size = a.size + 1 := by
      rw [Text.size_append, Text.size_cons, Text.size_nil, Delimiters.utf8Size_opening]
    refine ⟨a ++ [brace], q, g, r, endBrace :: b, by simpa using htext, hq, hinside, hr, ?_, ?_, hcloses, ?_,
      Or.inr ⟨a, rfl⟩⟩
    · rw [hscope', hleft, hsize]
    · rw [hopens, hsize]
    · rw [hscope']
      exact hstops

end InstitutionalGrammar
