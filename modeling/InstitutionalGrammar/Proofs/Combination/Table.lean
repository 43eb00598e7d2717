/-
  InstitutionalGrammar.Proofs.Combination.Table — the spans of a written tree.

  Each combination of a written tree becomes one span, with its operator directly inside
  (`Node.spans`).
  - `sweepFrom_write`: sweeping over a written tree closes the spans of the tree.
  - `spanTable_write`, `spanTable_enclosed`: the table of a written tree, between white space and
    in one more pair of delimiters.
-/

import InstitutionalGrammar.Proofs.Combination.Written
import InstitutionalGrammar.Proofs.Outcome

namespace InstitutionalGrammar

/-- The spans of a tree written from byte `off` on, its own at `level`, in the order in which they
    close. -/
def Node.spans (d : Delimiters) (off level : Nat) : Node → List Span
  | .leaf .. => []
  | .combination o l r m _ =>
    let left := off + m.lead.size
    let opStart := left + 1 + (l.write d).size + 1
    let opStop := opStart + o.token.size
    let right := opStop + 1 + (r.write d).size
    l.spans d (left + 1) (level + 1) ++ r.spans d (opStop + 1) (level + 1) ++
      [⟨level, left, right, some ⟨o, opStart, opStop⟩⟩]

theorem level_le_of_mem_spans {d : Delimiters} {t : Node} {off level : Nat} {s : Span}
    (h : s ∈ t.spans d off level) : level ≤ s.level := by
  induction t using Node.write.induct generalizing off level with
  | case2 => simp [Node.spans] at h
  | case1 o l r m p ihl ihr =>
    simp only [Node.spans, List.mem_append, List.mem_singleton] at h
    rcases h with (h | h) | h
    · have := ihl h; omega
    · have := ihr h; omega
    · subst h; exact Nat.le_refl _

/-! ## Steps of a sweep -/

/-- The rest of a sweep over `u ++ v`, from the state `s` at the end of `u`. -/
def sweepFrom (d : Delimiters) (u v : Text) (s : SweepState) : Except Interruption SweepState :=
  (cues d (PlacedShape.all (u ++ v)) (signs (Position.start.past u) v)).foldlM (sweepStep d (u ++ v)) s

theorem offset_past_start (u : Text) : (Position.start.past u).offset = u.size := by
  simp [Position.start]

theorem blankBetween_parts {text a b c : Text} {start stop : Nat} (ht : text = a ++ b ++ c) (hs : a.size = start)
    (he : a.size + b.size = stop) (hb : b.trim ≠ []) : blankBetween text start stop = .ok false := by
  unfold blankBetween
  rw [Text.slice_parts ht hs he]
  cases hbt : b.trim with
  | nil => exact absurd hbt hb
  | cons c t => simp [bind, Except.bind, pure, Except.pure, hbt]

section Steps

variable {d : Delimiters} {text : Text} {stack : List Frame} {closed : List Span} {left : Nat} {t : Token}

theorem sweepStep_opening :
    sweepStep d text ⟨stack, closed, [], []⟩ (.opening, t) =
      .ok ⟨⟨t.position.offset, none⟩ :: stack, closed, [], []⟩ := by
  cases stack <;> rfl

theorem sweepStep_operator {o : Operator} (h : blankBetween text (left + 1) t.position.offset = .ok false) :
    sweepStep d text ⟨⟨left, none⟩ :: stack, closed, [], []⟩ (.operator o, t) =
      .ok ⟨⟨left, some ⟨o, t.position.offset, t.stop⟩⟩ :: stack, closed, [], []⟩ := by
  simp [sweepStep, checkOperand, h]

theorem sweepStep_repeated {o : PlacedOperator} (h : blankBetween text o.stop t.position.offset = .ok false) :
    sweepStep d text ⟨⟨left, some o⟩ :: stack, closed, [], []⟩ (.operator o.operator, t) =
      .error (.repetition left t.position.offset) := by
  simp [sweepStep, checkOperand, h]

theorem sweepStep_closing {o : PlacedOperator} (h : blankBetween text o.stop t.position.offset = .ok false) :
    sweepStep d text ⟨⟨left, some o⟩ :: stack, closed, [], []⟩ (.closing, t) =
      .ok ⟨stack, ⟨stack.length + 1, left, t.position.offset, some o⟩ :: closed, [], []⟩ := by
  simp [sweepStep, checkLastOperand, h]

end Steps

variable {d : Delimiters} {u v : Text} {stack : List Frame} {closed : List Span}

theorem sweepFrom_nil (s : SweepState) : sweepFrom d u [] s = .ok s := by
  unfold sweepFrom
  rw [signs_nil, cues_nil]
  rfl

theorem sweepFrom_silent {x : Text} (hx : Silent d x) (hu : Clear u) (s : SweepState) :
    sweepFrom d u (x ++ v) s = sweepFrom d (u ++ x) v s := by
  unfold sweepFrom
  rw [hx.tidy.signs_append, hx.cues_signs hu (offset_past_start u), List.append_assoc, Position.past_append]

theorem sweepFrom_plain {x : Text} (hx : ∀ c ∈ x, isReserved c = false) (s : SweepState) :
    sweepFrom d u (x ++ v) s = sweepFrom d (u ++ x) v s := by
  unfold sweepFrom
  rw [signs_plain hx, Position.past_append, List.append_assoc]

theorem sweepFrom_space (s : SweepState) : sweepFrom d u (' ' :: v) s = sweepFrom d (u ++ [' ']) v s :=
  sweepFrom_plain (x := [' ']) (List.forall_mem_singleton.2 (by decide)) s

theorem sweepFrom_opening (hu : Clear u) :
    sweepFrom d u (d.opening :: v) ⟨stack, closed, [], []⟩ =
      sweepFrom d (u ++ [d.opening]) v ⟨⟨u.size, none⟩ :: stack, closed, [], []⟩ := by
  have hbare : Header.among? (PlacedShape.all (u ++ d.opening :: v)) (Position.start.past u).offset = none := by
    rw [offset_past_start, Header.among?_clear hu]
  unfold sweepFrom
  rw [signs_opening, cues_opening rfl fun _ => hbare, List.foldlM_cons, sweepStep_opening, Position.past_append,
    List.append_assoc]
  simp only [offset_past_start]
  rfl

/-- The first operator of a span. -/
theorem sweepFrom_operator {o : Operator} (ho : o.isSynthetic = false) {left : Nat} {a b : Text} (hu : u = a ++ b)
    (ha : a.size = left + 1) (hb : b.trim ≠ []) :
    sweepFrom d u (o.token ++ v) ⟨⟨left, none⟩ :: stack, closed, [], []⟩ =
      sweepFrom d (u ++ o.token) v ⟨⟨left, some ⟨o, u.size, u.size + o.token.size⟩⟩ :: stack, closed, [], []⟩ := by
  have hblank : blankBetween (u ++ (o.token ++ v)) (left + 1) (Position.start.past u).offset = .ok false := by
    rw [offset_past_start]
    exact blankBetween_parts (by rw [hu]) ha (by rw [hu, Text.size_append]) hb
  unfold sweepFrom
  rw [signs_operator ho, cues_operator rfl, List.foldlM_cons, sweepStep_operator hblank, Position.past_append,
    List.append_assoc]
  simp only [offset_past_start]
  rfl

/-- A second operator of the same kind in a span. -/
theorem sweepFrom_repeated {o : PlacedOperator} (ho : o.operator.isSynthetic = false) {left : Nat} {a b : Text}
    (hu : u = a ++ b) (ha : a.size = o.stop) (hb : b.trim ≠ []) :
    sweepFrom d u (o.operator.token ++ v) ⟨⟨left, some o⟩ :: stack, closed, [], []⟩ =
      .error (.repetition left u.size) := by
  have hblank : blankBetween (u ++ (o.operator.token ++ v)) o.stop (Position.start.past u).offset = .ok false := by
    rw [offset_past_start]
    exact blankBetween_parts (by rw [hu]) ha (by rw [hu, Text.size_append]) hb
  unfold sweepFrom
  rw [signs_operator ho, cues_operator rfl, List.foldlM_cons, sweepStep_repeated hblank]
  simp only [offset_past_start]
  rfl

/-- The end of a span with an operator. -/
theorem sweepFrom_closing {o : PlacedOperator} {left : Nat} {a b : Text} (hu : u = a ++ b) (ha : a.size = o.stop)
    (hb : b.trim ≠ []) :
    sweepFrom d u (d.closing :: v) ⟨⟨left, some o⟩ :: stack, closed, [], []⟩ =
      sweepFrom d (u ++ [d.closing]) v ⟨stack, ⟨stack.length + 1, left, u.size, some o⟩ :: closed, [], []⟩ := by
  have hblank : blankBetween (u ++ d.closing :: v) o.stop (Position.start.past u).offset = .ok false := by
    rw [offset_past_start]
    exact blankBetween_parts (by rw [hu]) ha (by rw [hu, Text.size_append]) hb
  unfold sweepFrom
  rw [signs_closing, cues_closing rfl, List.foldlM_cons, sweepStep_closing hblank, Position.past_append,
    List.append_assoc]
  simp only [offset_past_start]
  rfl

/-- The end of a span without one. -/
theorem sweepFrom_closing_bare {left : Nat} :
    sweepFrom d u (d.closing :: v) ⟨⟨left, none⟩ :: stack, closed, [], []⟩ =
      sweepFrom d (u ++ [d.closing]) v ⟨stack, ⟨stack.length + 1, left, u.size, none⟩ :: closed, [], []⟩ := by
  unfold sweepFrom
  rw [signs_closing, cues_closing rfl, List.foldlM_cons, Position.past_append, List.append_assoc]
  simp only [sweepStep, checkLastOperand, offset_past_start]
  rfl

/-! ## Sweeping over a written tree -/

/-- Sweeping over a written tree closes its spans and leaves the open ones as they were. -/
theorem sweepFrom_write {t : Node} (ht : t.Coded (Atom d)) (hu : Clear u) :
    sweepFrom d u (t.write d ++ v) ⟨stack, closed, [], []⟩ =
      sweepFrom d (u ++ t.write d) v ⟨stack, (t.spans d u.size (stack.length + 1)).reverse ++ closed, [], []⟩ := by
  induction ht generalizing u v stack closed with
  | leaf h =>
    rw [write_leaf, sweepFrom_silent h.toSilent hu]
    rfl
  | @combination o l r before after ho hl hr hb ha ihl ihr =>
    have hlead : Silent d (Marks.lead { sharedLeft := before.toList, sharedRight := after.toList }) :=
      .lead rfl fun t h => (hb t h).toSilent
    have htrail : Silent d (Marks.trail { sharedLeft := before.toList, sharedRight := after.toList }) :=
      .trail rfl fun t h => (ha t h).toSilent
    have hclear : Clear (Marks.lead { sharedLeft := before.toList, sharedRight := after.toList }) := .lead rfl
    simp only [Node.spans]
    rw [write_combination]
    generalize Marks.lead { sharedLeft := before.toList, sharedRight := after.toList } = lead at *
    generalize Marks.trail { sharedLeft := before.toList, sharedRight := after.toList } = trail at *
    have hleft : (l.write d ++ [' ']).trim ≠ [] := by
      simpa using Text.trim_ne_nil hl.trimmed.1 hl.trimmed.2 [] [' ']
    have hright : Text.trim (' ' :: r.write d) ≠ [] := by
      simpa using Text.trim_ne_nil hr.trimmed.1 hr.trimmed.2 [' '] []
    simp only [List.append_assoc, List.cons_append]
    rw [sweepFrom_silent hlead hu, sweepFrom_opening (hu.append hclear), ihl (.opening _ d), sweepFrom_space,
      sweepFrom_operator ho (a := u ++ lead ++ [d.opening]) (b := l.write d ++ [' ']) (by simp) (by simp; omega)
        hleft,
      sweepFrom_space, ihr (.space _),
      sweepFrom_closing (a := u ++ lead ++ [d.opening] ++ l.write d ++ [' '] ++ o.token) (b := ' ' :: r.write d)
        (by simp) (by simp only [Text.size_append]) hright,
      sweepFrom_silent htrail (.closing _ d)]
    simp only [Text.size_append, Text.size_cons, Text.size_nil, Delimiters.utf8Size_opening, utf8Size_space,
      List.length_cons, List.reverse_append, List.append_assoc, List.reverse_cons, List.reverse_nil, List.nil_append, List.cons_append, Nat.add_zero,
      Nat.add_assoc]

/-! ## Tables -/

/-- A text that settles in its first sweep needs no regrouping. -/
theorem settle_of_sweep {text : Text} {table : SpanTable} (h : sweep d text = .ok (.settled table)) (fuel : Nat) :
    settle d fuel text = .ok table := by
  unfold settle
  rw [h]
  rfl

theorem spanTable_of_sweep {text : Text} {table : SpanTable} (hbalanced : requireBalanced text = .ok ())
    (h : sweep d text = .ok (.settled table)) : spanTable d text = .ok table := by
  unfold spanTable
  rw [hbalanced]
  exact settle_of_sweep h _

theorem spanTable_settled {text : Text} {table : SpanTable} (ht : Tidy text) (h : sweep d text = .ok (.settled table)) :
    spanTable d text = .ok table :=
  spanTable_of_sweep ht.nested.requireBalanced h

theorem plain_of_allBlank {t : Text} (h : Text.allBlank t = true) : ∀ c ∈ t, isReserved c = false :=
  fun c hc => isReserved_of_blank (List.all_eq_true.1 h c hc)

/-- The sweep of a written tree between white space. -/
theorem sweep_write {t : Node} (ht : t.Coded (Atom d)) (before after : Text) (hb : Text.allBlank before = true)
    (ha : Text.allBlank after = true) :
    ∃ nonShared, sweep d (before ++ (t.write d ++ after)) =
      .ok (.settled ⟨before ++ (t.write d ++ after), t.spans d before.size 1, nonShared⟩) := by
  have hsweep : sweepFrom d [] (before ++ (t.write d ++ (after ++ []))) .start =
      .ok ⟨[], (t.spans d before.size 1).reverse, [], []⟩ := by
    unfold SweepState.start
    rw [sweepFrom_plain (plain_of_allBlank hb), List.nil_append, sweepFrom_write ht (.of_allBlank hb),
      sweepFrom_plain (plain_of_allBlank ha), sweepFrom_nil]
    simp
  rw [List.append_nil] at hsweep
  obtain ⟨nonShared, hs⟩ := sweep_settled hsweep
  rw [List.reverse_reverse] at hs
  exact ⟨nonShared, hs⟩

/-- The table of a written tree between white space. -/
theorem spanTable_write {t : Node} (ht : t.Coded (Atom d)) {before after : Text} (hb : Text.allBlank before = true)
    (ha : Text.allBlank after = true) :
    ∃ nonShared, spanTable d (before ++ (t.write d ++ after)) =
      .ok ⟨before ++ (t.write d ++ after), t.spans d before.size 1, nonShared⟩ := by
  obtain ⟨nonShared, hs⟩ := sweep_write ht before after hb ha
  exact ⟨nonShared, spanTable_settled ((Tidy.of_allBlank hb).append (ht.tidy.append (.of_allBlank ha))) hs⟩

/-- The table of a written tree in one more pair of delimiters. -/
theorem spanTable_enclosed {t : Node} (ht : t.Coded (Atom d)) :
    ∃ nonShared, spanTable d (d.opening :: (t.write d ++ [d.closing])) =
      .ok ⟨d.opening :: (t.write d ++ [d.closing]),
        t.spans d 1 2 ++ [⟨1, 0, 1 + (t.write d).size, none⟩], nonShared⟩ := by
  have hsweep : sweepFrom d [] (d.opening :: (t.write d ++ [d.closing])) .start =
      .ok ⟨[], ⟨1, 0, 1 + (t.write d).size, none⟩ :: (t.spans d 1 2).reverse, [], []⟩ := by
    unfold SweepState.start
    rw [sweepFrom_opening .nil, sweepFrom_write ht (.opening [] d), sweepFrom_closing_bare, sweepFrom_nil]
    simp
  obtain ⟨nonShared, hs⟩ := sweep_settled hsweep
  rw [List.reverse_cons, List.reverse_reverse] at hs
  exact ⟨nonShared, spanTable_settled (ht.tidy.wrap d) hs⟩

end InstitutionalGrammar
