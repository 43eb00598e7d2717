/-
  InstitutionalGrammar.Proofs.Combination.Building — a written tree is built again from its text.

  - `treeWithin_write`, `treeWithin_enclosed`: a tree no higher than the budget allows is what its
    written form codes, between white space and in one more pair of delimiters.
-/

import InstitutionalGrammar.Proofs.Combination.Table
import InstitutionalGrammar.Proofs.Outcome
import InstitutionalGrammar.Proofs.Text.Matching

namespace InstitutionalGrammar

/-- The greatest number of combinations on a way from the root to a leaf. -/
def Node.height : Node → Nat
  | .combination _ l r _ _ => max l.height r.height + 1
  | .leaf .. => 0

/-! ## The outermost level with a combination -/

namespace SpanTable

theorem level_le_foldl {spans : List Span} (m : Nat) {s : Span} (hs : s ∈ spans) :
    s.level ≤ spans.foldl (fun m s => max m s.level) m := by
  have hge : ∀ (spans : List Span) (m : Nat), m ≤ spans.foldl (fun m s => max m s.level) m := by
    intro spans
    induction spans with
    | nil => intro m; exact Nat.le_refl _
    | cons s spans ih => intro m; exact Nat.le_trans (Nat.le_max_left _ _) (ih _)
  induction spans generalizing m with
  | nil => cases hs
  | cons e spans ih =>
    rcases List.mem_cons.1 hs with h | h
    · subst h; exact Nat.le_trans (Nat.le_max_right _ _) (hge _ _)
    · exact ih _ h

variable {table : SpanTable}

theorem outermostLevel?_eq_some {s : Span} (hs : s ∈ table.spans) (hc : s.isCombination = true)
    (hmin : ∀ e ∈ table.spans, e.isCombination = true → s.level ≤ e.level) :
    table.outermostLevel? = some s.level := by
  unfold outermostLevel? levels
  rw [List.find?_filter, List.find?_range_eq_some]
  have hmem : s ∈ table.atLevel s.level := by simp [atLevel, hs]
  refine ⟨?_, ?_, ?_⟩
  · have hne : (table.atLevel s.level).isEmpty = false := by simpa using List.ne_nil_of_mem hmem
    have hany : (table.atLevel s.level).any Span.isCombination = true := List.any_eq_true.2 ⟨s, hmem, hc⟩
    simp [hne, hany]
  · have := level_le_foldl 0 hs
    simp only [List.mem_range]
    omega
  · intro j hj
    have hnone : (table.atLevel j).any Span.isCombination = false := by
      rw [List.any_eq_false]
      intro e he hec
      simp only [atLevel, List.mem_filter, decide_eq_true_eq] at he
      have := hmin e he.1 hec
      omega
    simp [hnone]

theorem outermostLevel?_eq_none (h : ∀ e ∈ table.spans, e.isCombination = false) : table.outermostLevel? = none := by
  unfold outermostLevel?
  rw [List.find?_eq_none]
  intro k _ hk
  obtain ⟨e, he, hc⟩ := List.any_eq_true.1 hk
  rw [h e (List.mem_filter.1 he).1] at hc
  cases hc

end SpanTable

/-! ## Shared text -/

theorem shared?_blank {t : Text} (h : Text.allBlank t = true) : shared? t = none := by
  unfold shared?
  rw [Text.trim_of_allBlank h]
  rfl

theorem shared?_atom {d : Delimiters} {t : Text} (ht : Atom d t) {a b : Text} (ha : Text.allBlank a = true)
    (hb : Text.allBlank b = true) : shared? (a ++ t ++ b) = some t := by
  have hstart : Text.stripStart isClosing t = t := Text.stripStart_eq_self_iff.2 fun c hc => (ht.head c hc).1
  have hend : Text.stripEnd isOpening t = t := Text.stripEnd_eq_self_iff.2 ht.last
  unfold shared?
  rw [Text.trim_padded ha ht.trimmed hb, hstart, hend, ht.trimmed]
  cases h : t with
  | nil => exact absurd h ht.ne_nil
  | cons c u => rfl

/-- The texts shared by a written combination are found beside it. -/
theorem shared?_lead {d : Delimiters} {shared : Option Text} {right : List Text} (hs : ∀ t ∈ shared, Atom d t)
    {before : Text} (hb : Text.allBlank before = true) :
    (shared? (before ++ Marks.lead { sharedLeft := shared.toList, sharedRight := right })).toList = shared.toList := by
  cases shared with
  | none => simp [Marks.lead, shared?_blank hb]
  | some t =>
    have := shared?_atom (hs t rfl) hb (b := [' ']) rfl
    simpa [Marks.lead] using congrArg Option.toList this

theorem shared?_trail {d : Delimiters} {shared : Option Text} {left : List Text} (hs : ∀ t ∈ shared, Atom d t)
    {after : Text} (ha : Text.allBlank after = true) :
    (shared? (Marks.trail { sharedLeft := left, sharedRight := shared.toList } ++ after)).toList = shared.toList := by
  cases shared with
  | none => simp [Marks.trail, shared?_blank ha]
  | some t =>
    have := shared?_atom (hs t rfl) (a := [' ']) rfl ha
    simpa [Marks.trail] using congrArg Option.toList this

theorem Node.Coded.component? {atom : Text → Prop} {t : Node} (ht : t.Coded atom) : t.component? = none := by
  cases ht <;> rfl

/-! ## One combination -/

/-- Between the delimiters of a written combination its operands stand on both sides of the operator. -/
theorem written_operands {d : Delimiters} {o : Operator} {l r : Node} {m : Marks} {input a c : Text}
    (hinput : input = a ++ ((Node.combination o l r m []).write d ++ c)) {s : Span} {p : PlacedOperator}
    (hleft : s.left = a.size + m.lead.size)
    (hp : p = ⟨o, s.left + 1 + (l.write d).size + 1, s.left + 1 + (l.write d).size + 1 + o.token.size⟩)
    (hright : s.right = p.stop + 1 + (r.write d).size) :
    input.slice (s.left + 1) p.start = .ok (l.write d ++ [' ']) ∧
      input.slice p.stop s.right = .ok (' ' :: r.write d) := by
  rw [write_combination] at hinput
  constructor
  · refine Text.slice_parts (a := a ++ (m.lead ++ [d.opening]))
      (c := o.token ++ ' ' :: (r.write d ++ d.closing :: (m.trail ++ c))) ?_ ?_ ?_
    · simp [hinput]
    · simp only [Text.size_append, Text.size_cons, Text.size_nil, Delimiters.utf8Size_opening]; omega
    · simp only [Text.size_append, Text.size_cons, Text.size_nil, Delimiters.utf8Size_opening, utf8Size_space, hp]
      omega
  · refine Text.slice_parts (a := a ++ (m.lead ++ d.opening :: (l.write d ++ ' ' :: o.token)))
      (c := d.closing :: (m.trail ++ c)) ?_ ?_ ?_
    · simp [hinput]
    · simp only [Text.size_append, Text.size_cons, Delimiters.utf8Size_opening, utf8Size_space, hp]; omega
    · simp only [Text.size_append, Text.size_cons, Delimiters.utf8Size_opening, utf8Size_space, hp, hright]; omega

/-- A combination of the outermost level is built again from its two operands and the text around
    it, when the span around it is `before`, the written tree and `after`. -/
theorem combinationOf_write {d : Delimiters} {o : Operator} {l r : Node} {sharedLeft sharedRight : Option Text}
    (hl : l.Coded (Atom d)) (hr : r.Coded (Atom d)) (hsl : ∀ t ∈ sharedLeft, Atom d t)
    (hsr : ∀ t ∈ sharedRight, Atom d t)
    {build : Text → Outcome Node} (hbl : build (l.write d ++ [' ']) = .ok l) (hbr : build (' ' :: r.write d) = .ok r)
    {table : SpanTable} {pre before after post : Text} (hb : Text.allBlank before = true)
    (ha : Text.allBlank after = true) {s : Span} {p : PlacedOperator} {m : Marks}
    (hm : m = { sharedLeft := sharedLeft.toList, sharedRight := sharedRight.toList })
    (hinput : table.input = pre ++ (before ++ ((Node.combination o l r m []).write d ++ (after ++ post))))
    (hleft : s.left = pre.size + before.size + m.lead.size)
    (hp : p = ⟨o, s.left + 1 + (l.write d).size + 1, s.left + 1 + (l.write d).size + 1 + o.token.size⟩)
    (hright : s.right = p.stop + 1 + (r.write d).size)
    (hscope : table.scope s = (pre.size, s.right + 1 + m.trail.size + after.size)) :
    combinationOf build table [] s p [] = .ok (.combination o l r m []) := by
  obtain ⟨h1, h2⟩ := written_operands (a := pre ++ before) (hinput.trans (List.append_assoc ..).symm)
    (by simpa using hleft) hp hright
  rw [write_combination] at hinput
  have h3 : table.input.slice pre.size s.left = .ok (before ++ m.lead) := by
    refine Text.slice_parts (a := pre) (c := d.opening ::
      (l.write d ++ ' ' :: (o.token ++ ' ' :: (r.write d ++ d.closing :: (m.trail ++ (after ++ post)))))) ?_ ?_ ?_
    · simp [hinput]
    · rfl
    · simp only [Text.size_append]; omega
  have h4 : table.input.slice (s.right + 1) (s.right + 1 + m.trail.size + after.size) = .ok (m.trail ++ after) := by
    refine Text.slice_parts (c := post) (a := pre ++ (before ++ (m.lead ++ d.opening ::
      (l.write d ++ ' ' :: (o.token ++ ' ' :: (r.write d ++ [d.closing])))))) ?_ ?_ ?_
    · simp [hinput]
    · simp only [Text.size_append, Text.size_cons, Text.size_nil, Delimiters.utf8Size_opening, utf8Size_space,
        Delimiters.utf8Size_closing, hp, hright]
      omega
    · simp only [Text.size_append, Text.size_cons, Text.size_nil, Delimiters.utf8Size_opening, utf8Size_space,
        Delimiters.utf8Size_closing, hp, hright]
      omega
  have h5 : (shared? (before ++ m.lead)).toList = m.sharedLeft := hm ▸ shared?_lead hsl hb
  have h6 : (shared? (m.trail ++ after)).toList = m.sharedRight := hm ▸ shared?_trail hsr ha
  have hcombine : Node.combine o l r = .ok (.combination o l r {} []) := by
    unfold Node.combine
    rw [hl.component?, hr.component?]
  have hpo : p.operator = o := by rw [hp]
  unfold combinationOf
  rw [h1, h2, hpo, hscope]
  simp only [ok_bind, hbl, hbr, hcombine, liftM_ok, List.find?_nil, h3, List.any_nil, Bool.false_eq_true, if_false, h4,
    h5, h6, pure_eq_ok]
  rw [hm]
  rfl

/-! ## Whole trees -/

theorem leafOf_bare {d : Delimiters} {before v after : Text} (hv : Atom d v) (hb : Text.allBlank before = true)
    (ha : Text.allBlank after = true) : leafOf d (before ++ (v ++ after)) = .ok (.leaf (.text v) {} []) := by
  have htrim : Text.trim (before ++ (v ++ after)) = v := by
    rw [← List.append_assoc]; exact Text.trim_padded hb hv.trimmed ha
  have hhead : v.head? ≠ some d.opening := fun h => (hv.head _ h).2 rfl
  unfold leafOf isEnclosed
  simp [htrim, hhead, hv.ne_nil, Node.text, hv.trimmed]

theorem leafOf_enclosed {d : Delimiters} {v : Text} (hv : Atom d v) :
    leafOf d (d.opening :: (v ++ [d.closing])) = .ok (.leaf (.text v) {} []) := by
  have htrim : Text.trim (d.opening :: (v ++ [d.closing])) = d.opening :: (v ++ [d.closing]) := by
    refine Text.trim_eq_self_iff.2 ⟨?_, ?_⟩
    · intro c hc; cases hc; cases d <;> decide
    · intro c hc
      simp [List.getLast?_cons] at hc
      subst hc
      cases d <;> decide
  have hclose : closeOf (d.opening :: (v ++ [d.closing])) 0 d = .ok (some (1 + v.size)) := by
    simpa using hv.tidy.nested.closeOf d [] []
  have hsize : Text.size (d.opening :: (v ++ [d.closing])) = 1 + v.size + 1 := by
    simp; omega
  have hslice : Text.slice (d.opening :: (v ++ [d.closing])) 1 (1 + v.size) = .ok v :=
    Text.slice_parts (a := [d.opening]) (c := [d.closing]) (by simp) (by simp) (by simp)
  unfold leafOf isEnclosed
  simp [htrim, hclose, hsize, hslice, hv.ne_nil, Node.text, hv.trimmed]

/-- The only combination of its level, when the spans before it lie deeper and those behind it are
    plain and farther out. -/
theorem SpanTable.only_span {table : SpanTable} {inside outer : List Span} {s : Span} {k : Nat}
    (hspans : table.spans = inside ++ [s] ++ outer) (hlevel : s.level = k) (hs : s.isCombination = true)
    (hinside : ∀ e ∈ inside, k < e.level) (houter : ∀ e ∈ outer, e.level < k ∧ e.isCombination = false) :
    table.outermostLevel? = some k ∧ (table.atLevel k).filter Span.isCombination = [s] := by
  constructor
  · rw [← hlevel]
    refine SpanTable.outermostLevel?_eq_some (by rw [hspans]; simp) hs ?_
    intro e he hec
    rw [hspans] at he
    rcases List.mem_append.1 he with he | he
    · rcases List.mem_append.1 he with he | he
      · have := hinside e he
        omega
      · exact Nat.le_of_eq (by rw [List.mem_singleton.1 he])
    · rw [(houter e he).2] at hec
      cases hec
  · have h1 : inside.filter (·.level = k) = [] := by
      rw [List.filter_eq_nil_iff]
      intro e he
      have := hinside e he
      simp
      omega
    have h2 : outer.filter (·.level = k) = [] := by
      rw [List.filter_eq_nil_iff]
      intro e he
      have := (houter e he).1
      simp
      omega
    have h3 : table.spans.filter (·.level = k) = [s] := by
      rw [hspans, List.filter_append, List.filter_append, h1, h2]
      simp [hlevel]
    rw [SpanTable.atLevel, h3]
    simp [hs]

/-- A combination alone on the outermost level is the whole tree. -/
theorem treeStep_single {d : Delimiters} {build : Text → Outcome Node} {text : Text} {table : SpanTable}
    (htable : spanTable d text = .ok table) {k : Nat} (hk : table.outermostLevel? = some k) {s : Span}
    (honly : (table.atLevel k).filter Span.isCombination = [s]) {p : PlacedOperator} (hp : s.operator = some p) :
    treeStep d build text = combinationOf build table [] s p [] := by
  unfold treeStep
  rw [htable]
  simp only [ok_bind, hk, honly, combinationsOf, hp]
  cases combinationOf build table [] s p [] <;> rfl

/-- The span of a written combination closes last, behind those of its operands. -/
theorem spans_combination (d : Delimiters) (o : Operator) (l r : Node) (m : Marks) (off k : Nat) :
    ∃ (s : Span) (p : PlacedOperator), s.operator = some p ∧ s.level = k ∧ s.left = off + m.lead.size ∧
      p = ⟨o, s.left + 1 + (l.write d).size + 1, s.left + 1 + (l.write d).size + 1 + o.token.size⟩ ∧
      s.right = p.stop + 1 + (r.write d).size ∧
      (Node.combination o l r m []).spans d off k =
        l.spans d (s.left + 1) (k + 1) ++ r.spans d (p.stop + 1) (k + 1) ++ [s] := by
  let left := off + m.lead.size
  let p : PlacedOperator :=
    ⟨o, left + 1 + (l.write d).size + 1, left + 1 + (l.write d).size + 1 + o.token.size⟩
  exact ⟨⟨k, left, p.stop + 1 + (r.write d).size, some p⟩, p, rfl, rfl, rfl, rfl, rfl, rfl⟩

/-- A written combination whose spans are all those from level `k` on decides the tree of its text. -/
theorem treeStep_root {d : Delimiters} {o : Operator} {l r : Node} {m : Marks} {text : Text} {table : SpanTable}
    (htable : spanTable d text = .ok table) {off k : Nat} {outer : List Span}
    (hspans : table.spans = (Node.combination o l r m []).spans d off k ++ outer)
    (houter : ∀ e ∈ outer, e.level < k ∧ e.isCombination = false) :
    ∃ (s : Span) (p : PlacedOperator), s.level = k ∧ s.left = off + m.lead.size ∧
      p = ⟨o, s.left + 1 + (l.write d).size + 1, s.left + 1 + (l.write d).size + 1 + o.token.size⟩ ∧
      s.right = p.stop + 1 + (r.write d).size ∧
      ∀ build, treeStep d build text = combinationOf build table [] s p [] := by
  obtain ⟨s, p, hop, hlevel, hleft, hp, hright, hspan⟩ := spans_combination d o l r m off k
  have hcomb : s.isCombination = true := by simp [Span.isCombination, hop]
  have hdeeper : ∀ e ∈ l.spans d (s.left + 1) (k + 1) ++ r.spans d (p.stop + 1) (k + 1), k < e.level := by
    intro e he
    rcases List.mem_append.1 he with h | h <;> exact level_le_of_mem_spans h
  obtain ⟨houtermost, honly⟩ := SpanTable.only_span (by rw [hspans, hspan]) hlevel hcomb hdeeper houter
  exact ⟨s, p, hlevel, hleft, hp, hright, fun _ => treeStep_single htable houtermost honly hop⟩

/-- One step builds a combination whose spans are all those from level `k` on. -/
theorem treeStep_combination (pre before after post : Text) (outer : List Span) {d : Delimiters} {o : Operator}
    {l r : Node} {sharedLeft sharedRight : Option Text}
    (hl : l.Coded (Atom d)) (hr : r.Coded (Atom d)) (hsl : ∀ t ∈ sharedLeft, Atom d t)
    (hsr : ∀ t ∈ sharedRight, Atom d t)
    {build : Text → Outcome Node} (hbl : build (l.write d ++ [' ']) = .ok l) (hbr : build (' ' :: r.write d) = .ok r)
    {text : Text} {table : SpanTable} (htable : spanTable d text = .ok table)
    (hb : Text.allBlank before = true) (ha : Text.allBlank after = true) {t : Node}
    (ht : t = .combination o l r { sharedLeft := sharedLeft.toList, sharedRight := sharedRight.toList } [])
    (hinput : table.input = pre ++ (before ++ (t.write d ++ (after ++ post)))) {k : Nat}
    (hspans : table.spans = t.spans d (pre.size + before.size) k ++ outer)
    (houter : ∀ e ∈ outer, e.level < k ∧ e.isCombination = false)
    (hscope : ∀ s, s.level = k → pre.size ≤ s.left → s.right < pre.size + before.size + (t.write d).size + after.size →
      table.scope s = (pre.size, pre.size + before.size + (t.write d).size + after.size)) :
    treeStep d build text = .ok t := by
  generalize hm : ({ sharedLeft := sharedLeft.toList, sharedRight := sharedRight.toList } : Marks) = m at ht
  obtain ⟨s, p, hlevel, hleft, hp, hright, hstep⟩ := treeStep_root htable (ht ▸ hspans) houter
  have hsize : pre.size + before.size + (t.write d).size = s.right + 1 + m.trail.size := by
    rw [ht, write_combination]
    simp only [Text.size_append, Text.size_cons, Delimiters.utf8Size_opening, Delimiters.utf8Size_closing,
      utf8Size_space, hright, hp, hleft]
    omega
  have hsc := hscope s hlevel (by omega) (by omega)
  rw [hsize] at hsc
  rw [hstep]
  rw [ht] at hinput ⊢
  exact combinationOf_write hl hr hsl hsr hbl hbr hb ha hm.symm hinput hleft hp hright hsc

/-- One step makes a leaf of a text without combinations. -/
theorem treeStep_leaf {d : Delimiters} {build : Text → Outcome Node} {text : Text} {table : SpanTable} {leaf : Node}
    (htable : spanTable d text = .ok table) (hbare : ∀ e ∈ table.spans, e.isCombination = false)
    (hleaf : leafOf d table.input = .ok leaf) : treeStep d build text = .ok leaf := by
  unfold treeStep
  rw [htable]
  simp only [ok_bind, SpanTable.outermostLevel?_eq_none hbare, hleaf]

/-- An outermost span of a written tree shares text with all of the input. -/
theorem SpanTable.scope_outermost {table : SpanTable} {d : Delimiters} {t : Node} {off : Nat}
    (hspans : table.spans = t.spans d off 1) {s : Span} (hs : s.level = 1) : table.scope s = (0, table.input.size) := by
  have hnone : (t.spans d off 1).filter (·.level = 0) = [] := by
    rw [List.filter_eq_nil_iff]
    intro e he
    have := level_le_of_mem_spans he
    simp; omega
  unfold scope parent? atLevel
  rw [hs, hspans, hnone]
  rfl

/-- A written tree between white space is built again, when the budget allows for its height. -/
theorem treeWithin_write {d : Delimiters} {t : Node} (ht : t.Coded (Atom d)) {limit budget : Nat}
    (hbudget : t.height < budget) {before after : Text} (hb : Text.allBlank before = true)
    (ha : Text.allBlank after = true) : treeWithin d limit budget (before ++ (t.write d ++ after)) = .ok t := by
  obtain ⟨n, rfl⟩ : ∃ n, budget = n + 1 := ⟨budget - 1, by omega⟩
  induction ht generalizing n before after with
  | leaf hv =>
    obtain ⟨nonShared, htable⟩ := spanTable_write (Node.Coded.leaf hv) hb ha
    refine treeStep_leaf htable (by simp [Node.spans]) ?_
    rw [write_leaf]
    exact leafOf_bare hv hb ha
  | @combination o l r sharedLeft sharedRight ho hl hr hsl hsr ihl ihr =>
    obtain ⟨nonShared, htable⟩ := spanTable_write (Node.Coded.combination ho hl hr hsl hsr) hb ha
    simp only [Node.height] at hbudget
    obtain ⟨k, rfl⟩ : ∃ k, n = k + 1 := ⟨n - 1, by omega⟩
    have hbl : treeWithin d limit (k + 1) ([] ++ (l.write d ++ [' '])) = .ok l := ihl rfl rfl k (by omega)
    have hbr : treeWithin d limit (k + 1) ([' '] ++ (r.write d ++ [])) = .ok r := ihr rfl rfl k (by omega)
    rw [List.append_nil] at hbr
    refine treeStep_combination [] before after [] [] hl hr hsl hsr hbl hbr htable hb ha rfl (k := 1) (by simp)
      (by simp) (by intro s hs; cases hs) ?_
    intro s hs _ _
    rw [SpanTable.scope_outermost rfl hs]
    simp [Nat.add_assoc]

/-- A written tree in one pair of delimiters is built again, when the budget allows for its height. -/
theorem treeWithin_enclosed {d : Delimiters} {t : Node} (ht : t.Coded (Atom d)) {limit budget : Nat}
    (hbudget : t.height < budget) : treeWithin d limit budget (d.opening :: (t.write d ++ [d.closing])) = .ok t := by
  obtain ⟨nonShared, htable⟩ := spanTable_enclosed ht
  obtain ⟨n, rfl⟩ : ∃ n, budget = n + 1 := ⟨budget - 1, by omega⟩
  cases ht with
  | leaf hv =>
    refine treeStep_leaf htable (by simp [Node.spans, Span.isCombination]) ?_
    rw [write_leaf]
    exact leafOf_enclosed hv
  | @combination o l r sharedLeft sharedRight ho hl hr hsl hsr =>
    simp only [Node.height] at hbudget
    have hbl : treeWithin d limit n ([] ++ (l.write d ++ [' '])) = .ok l := treeWithin_write hl (by omega) rfl rfl
    have hbr : treeWithin d limit n ([' '] ++ (r.write d ++ [])) = .ok r := treeWithin_write hr (by omega) rfl rfl
    rw [List.append_nil] at hbr
    refine treeStep_combination [d.opening] [] [] [d.closing] _ hl hr hsl hsr hbl hbr htable (k := 2) rfl rfl rfl
      (by simp) (by simp only [Text.size_cons, Text.size_nil, Delimiters.utf8Size_opening]; rfl)
      (by simp [Span.isCombination]) ?_
    intro s hs hleft hright
    generalize Node.combination o l r { sharedLeft := sharedLeft.toList, sharedRight := sharedRight.toList } [] = t at *
    simp only [Text.size_cons, Text.size_nil, Delimiters.utf8Size_opening] at hleft hright ⊢
    generalize he : (⟨1, 0, 1 + (t.write d).size, none⟩ : Span) = e at *
    have houter : (t.spans d 1 2 ++ [e]).filter (·.level = 1) = [e] := by
      have hnil : (t.spans d 1 2).filter (·.level = 1) = [] := by
        rw [List.filter_eq_nil_iff]
        intro e he
        have := level_le_of_mem_spans he
        simp; omega
      rw [List.filter_append, hnil, ← he]
      rfl
    have hin : e.contains s = true := by
      rw [← he]
      simp only [Span.contains, Bool.and_eq_true, decide_eq_true_eq]
      omega
    unfold SpanTable.scope SpanTable.parent? SpanTable.atLevel
    rw [hs, houter, List.find?_cons, hin, ← he]
    simp

end InstitutionalGrammar
