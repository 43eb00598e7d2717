/-
  InstitutionalGrammar.Proofs.Combination.Drawn — what a tree takes from its text.

  The operands of a combination and what it shares stand in the text beside its operator, and none of
  them overlap. So building a tree never cuts in the wrong place, and the texts on one way down a tree
  weigh no more together than the text it is built from, or less where an operator is left out.
  - `spanTable_regular`: sweeping settles for every text.
  - `Node.heaviest`: the weight of the texts on one way down.
  - `combinationOf_drawn`: the pieces of one combination.
  - `treeWithin_drawn`: a budget of more than the operators of a text suffices to build its tree.
-/

import InstitutionalGrammar.Proofs.Combination.Levels
import InstitutionalGrammar.Proofs.Combination.Rounds

namespace InstitutionalGrammar

variable {d : Delimiters} {text : Text} {E : Failure → Prop}

/-! ## Tables -/

theorem requireBalanced_ordinary (text : Text) : Meets ParseError.Ordinary (fun _ => True) (requireBalanced text) :=
  requireBalanced_meets (fun _ _ _ _ => nofun) (fun _ _ => nofun) text

/-- The spans of a text stand in a text of the same weight. -/
def SpanTable.Of (d : Delimiters) (text : Text) (table : SpanTable) : Prop :=
  table.Sound d ∧ SameWeight table.input text

/-- If there is fuel for every operator from the one on at which a sweep can stop, the sweeps settle. -/
theorem settle_regular {fuel : Nat} {text : Text}
    (hfuel : ∀ a operands o rest, Stop d text a operands o rest → operatorCount (o.token ++ rest) ≤ fuel) :
    Regular (SpanTable.Of d text) (settle d fuel text) := by
  refine Meets.rounds (Q := fun t found => Sweep.Sound d t found ∧ sweep d t = .ok found)
    (I := fun fuel t => SameWeight t text ∧ ∀ a operands o rest, Stop d t a operands o rest →
      operatorCount (o.token ++ rest) ≤ fuel)
    (fun _ t _ => (sweep_sound d t).and_eq) ?_ ?_ ?_ ⟨fun _ _ _ => rfl, hfuel⟩
  · rintro - t table ⟨hsame, -⟩ ⟨⟨rfl, hsound⟩, -⟩
    exact ⟨hsound, hsame⟩
  · rintro t left operator ⟨-, hfuel⟩ ⟨-, hsweep⟩
    obtain ⟨a, operands, o, rest, hstop, -⟩ := sweep_stops hsweep
    have hcount := hfuel a operands o rest hstop
    rw [operatorCount_token hstop.written] at hcount
    omega
  · rintro fuel t left operator ⟨hsame, hfuel⟩ ⟨-, hsweep⟩
    obtain ⟨a, operands, o, rest, hstop, rfl, rfl⟩ := sweep_stops hsweep
    rw [hstop.regroup_eq]
    refine ⟨hstop.sameWeight.trans hsame, fun a' operands' o' rest' hstop' => ?_⟩
    have hcount := hfuel a operands o rest hstop
    have hfewer := hstop.fewer hstop'
    omega

theorem spanTable_regular (d : Delimiters) (text : Text) : Regular (SpanTable.Of d text) (spanTable d text) := by
  refine (Regular.lift (requireBalanced_ordinary text)).bind fun _ _ => settle_regular ?_
  intro a operands o rest hstop
  have hpart : o.token ++ rest <:+: text := by
    rw [hstop.text_eq]
    exact ⟨a ++ d.opening :: operands, [], by simp⟩
  exact operatorCount_part hpart

/-! ## The pieces of a combination -/

/-- A combination in its text: what stands before it, its operands, and what stands behind it. -/
structure Span.Parts (d : Delimiters) (text : Text) (s : Span) (o : PlacedOperator) (before left right after : Text) :
    Prop where
  written : o.operator.isSynthetic = false
  stands : text = before ++ d.opening :: (left ++ (o.operator.token ++ (right ++ d.closing :: after)))
  opens : before.size = s.left
  reaches : s.left + 1 + left.size = o.start
  leaves : o.stop = o.start + o.operator.token.size
  closes : o.stop + right.size = s.right

theorem Span.Sound.parts {s : Span} (hs : s.Sound d text) {o : PlacedOperator} (ho : s.operator = some o) :
    ∃ before left right after, s.Parts d text o before left right after := by
  have hbetween := hs.operator o ho
  obtain ⟨a, l, rest, ht, ha, hl⟩ := hs.opens.between hbetween.stands (by rw [size_opening]; exact hbetween.after)
  obtain ⟨a', r, b, ht', ha', hr⟩ := hbetween.stands.between hs.closes (by rw [← hbetween.ends]; exact hbetween.before)
  rw [size_opening] at hl
  rw [← hbetween.ends] at hr
  -- the operator stands behind the same part of the text both times
  have hsame : (a ++ d.opening :: l) ++ (o.operator.token ++ rest) =
      a' ++ (o.operator.token ++ (r ++ ([d.closing] ++ b))) := by
    rw [← ht', ht]
    simp
  have hsize : (a ++ d.opening :: l).size = a'.size := by
    rw [Text.size_append, Text.size_cons, Delimiters.utf8Size_opening]
    omega
  obtain ⟨-, hrest⟩ := Text.append_inj_size hsame hsize
  refine ⟨a, l, r, b, hbetween.written, ?_, ha, hl, hbetween.ends, hr⟩
  rw [ht, hrest]
  simp

namespace Span.Parts

variable {s : Span} {o : PlacedOperator} {before left right after : Text}
  (h : s.Parts d text o before left right after)
include h

theorem slice_left : text.slice (s.left + 1) o.start = .ok left := by
  obtain ⟨-, ht, hopens, hreaches, -, -⟩ := h
  have hopening := Delimiters.utf8Size_opening d
  refine Text.slice_parts (a := before ++ [d.opening])
    (c := o.operator.token ++ (right ++ d.closing :: after)) (by rw [ht]; simp) ?_ ?_
  · rw [Text.size_append, Text.size_cons, Text.size_nil]
    omega
  · rw [Text.size_append, Text.size_cons, Text.size_nil]
    omega

theorem slice_right : text.slice o.stop s.right = .ok right := by
  obtain ⟨-, ht, hopens, hreaches, hleaves, hcloses⟩ := h
  have hopening := Delimiters.utf8Size_opening d
  refine Text.slice_parts (a := before ++ d.opening :: (left ++ o.operator.token)) (c := d.closing :: after)
    (by rw [ht]; simp) ?_ ?_
  · rw [Text.size_append, Text.size_cons, Text.size_append]
    omega
  · rw [Text.size_append, Text.size_cons, Text.size_append]
    omega

variable {w : Text → Nat} {unit : Nat} (hw : Weight w unit)
include hw

theorem weight : w text = w before + w left + w right + w after + unit := by
  rw [h.stands, hw.around (separates_opening d), hw.operator h.written, hw.around (separates_closing d)]
  omega

/-- A stretch that reaches up to the combination. -/
theorem weight_before {p : Text} {i : Nat} (hp : text.At i p) (hsize : i + p.size = s.left) : w p ≤ w before := by
  rw [h.stands] at hp
  obtain ⟨c, rfl⟩ := hp.suffix (by rw [hsize, h.opens])
  exact hw.behind c p

/-- A stretch that starts behind the combination, and ends at the end or at a closing delimiter. -/
theorem weight_after {p : Text} (hp : text.At (s.right + 1) p)
    (hstop : s.right + 1 + p.size = text.size ∨ text.At (s.right + 1 + p.size) [d.closing]) : w p ≤ w after := by
  obtain ⟨-, ht, hopens, hreaches, hleaves, hcloses⟩ := h
  have hopening := Delimiters.utf8Size_opening d
  have hclosing := Delimiters.utf8Size_closing d
  obtain ⟨lead, htext, hsize⟩ : ∃ lead : Text, text = lead ++ after ∧ lead.size = s.right + 1 := by
    refine ⟨before ++ d.opening :: (left ++ (o.operator.token ++ (right ++ [d.closing]))), by rw [ht]; simp, ?_⟩
    simp only [Text.size_append, Text.size_cons, Text.size_nil]
    omega
  rw [htext, ← hsize] at hp hstop
  refine hw.part (d := d) (i := 0) (Text.At.shift (a := lead) hp) ?_
  rcases hstop with hend | hat
  · left
    rw [Text.size_append] at hend
    omega
  · right
    rw [Nat.zero_add]
    exact hat.shift

end Span.Parts

/-- The stretch in which a span shares text reaches around it, to the end or to a closing delimiter. -/
theorem SpanTable.Sound.scope {table : SpanTable} (htable : table.Sound d) {s : Span} (hs : s ∈ table.spans) :
    table.input.Cut (table.scope s).1 ∧ (table.scope s).1 ≤ s.left ∧ s.right + 1 ≤ (table.scope s).2 ∧
      ((table.scope s).2 = table.input.size ∨ table.input.At (table.scope s).2 [d.closing]) := by
  unfold SpanTable.scope
  split
  · rename_i outer houter
    have hmem : outer ∈ table.spans := (List.mem_filter.1 (List.mem_of_find?_eq_some houter)).1
    have hcontains := List.find?_some houter
    simp only [Span.contains, Bool.and_eq_true, decide_eq_true_eq] at hcontains
    have houter := htable.spans outer hmem
    exact ⟨cut_opening houter.opens, hcontains.1, hcontains.2, Or.inr houter.closes⟩
  · have hright := (cut_closing (htable.spans s hs).closes).le
    exact ⟨.zero _, Nat.zero_le _, hright, Or.inl rfl⟩

/-- The spans of one level stand one behind the other. -/
theorem SpanTable.Sound.atLevel_order {table : SpanTable} (htable : table.Sound d) (level : Nat) :
    (table.atLevel level).Pairwise fun before behind => before.right < behind.left := by
  have hlevels : ∀ s ∈ table.atLevel level, s.level = level :=
    fun s hs => of_decide_eq_true (List.mem_filter.1 hs).2
  refine List.Pairwise.imp_of_mem (fun ha hb hab => hab ?_) (htable.order.sublist List.filter_sublist)
  rw [hlevels _ ha, hlevels _ hb]

/-- So do the combinations of one level. -/
theorem SpanTable.Sound.level_order {table : SpanTable} (htable : table.Sound d) (level : Nat) :
    ((table.atLevel level).filter Span.isCombination).Pairwise fun before behind => before.right < behind.left :=
  (htable.atLevel_order level).sublist List.filter_sublist

/-- A combination in its level: the ones before it close before it opens. -/
theorem SpanTable.Sound.passed {table : SpanTable} (htable : table.Sound d) {level : Nat} {s : Span} {earlier later : List Span}
    (hlevel : (earlier.reverse ++ s :: later).Sublist ((table.atLevel level).filter Span.isCombination)) :
    s ∈ table.spans ∧ ∀ e ∈ earlier, e ∈ table.spans ∧ e.right < s.left := by
  have hmem : ∀ x ∈ earlier.reverse ++ s :: later, x ∈ table.spans :=
    fun x hx => (List.mem_filter.1 (List.mem_filter.1 (hlevel.subset hx)).1).1
  have horder := (htable.level_order level).sublist hlevel
  refine ⟨hmem s (by simp), fun e he => ⟨hmem e (by simp [he]), ?_⟩⟩
  exact (List.pairwise_append.1 horder).2.2 e (List.mem_reverse.2 he) s List.mem_cons_self

/-! ## Trees -/

/-- The weight of the shared texts and of the leaf on the heaviest way from the root to a leaf. -/
def Node.heaviest (w : Text → Nat) : Node → Nat
  | .combination _ l r m _ => (m.sharedLeft.map w).sum + max (l.heaviest w) (r.heaviest w) + (m.sharedRight.map w).sum
  | .leaf (.text v) _ _ => w v
  | .leaf .. => 0

/-- On no way down the tree the texts weigh more than the text does; a combination leaves an operator out. -/
def Node.Drawn (text : Text) (n : Node) : Prop :=
  ∀ w unit, Weight w unit → n.heaviest w + (if n.isLeaf then 0 else unit) ≤ w text

/-- A combination that is drawn from the text. -/
def Node.Joins (text : Text) (n : Node) : Prop := n.isLeaf = false ∧ n.Drawn text

theorem Node.combine_ordinary (o : Operator) (l r : Node) :
    Meets ParseError.Ordinary (fun n => ∃ component, n = .combination o l r { component } []) (combine o l r) := by
  cases h : combine o l r with
  | ok n => exact combine_eq h
  | error e =>
    unfold combine at h
    split at h
    · split at h
      · cases h
      · cases h
        exact nofun
    · cases h
    · cases h

/-- What a combination shares and its operands stand apart in the text. -/
theorem combinationOf_drawn (hE : ∀ f : Failure, f.Ordinary → E f) {build : Text → Outcome Node} {table : SpanTable}
    (htable : table.Sound d) (hbuild : ∀ t, operatorCount t < operatorCount table.input → Meets E (·.Drawn t) (build t))
    {s : Span} (hs : s ∈ table.spans) {o : PlacedOperator} (ho : s.operator = some o)
    {earlier : List Span} (hearlier : ∀ e ∈ earlier, e ∈ table.spans ∧ e.right < s.left) (later : List Span) :
    Meets E (·.Joins table.input) (combinationOf build table earlier s o later) := by
  have hsound := htable.spans s hs
  obtain ⟨a, l, r, b, hparts⟩ := hsound.parts ho
  have hcount := hparts.weight operatorCount_weight
  unfold combinationOf
  rw [hparts.slice_left, ok_bind]
  refine (hbuild l (by omega)).bind fun left hleft => ?_
  rw [hparts.slice_right, ok_bind]
  refine (hbuild r (by omega)).bind fun right hright => ?_
  refine ((Regular.lift (Node.combine_ordinary o.operator left right)).meets hE).bind fun node hnode => ?_
  obtain ⟨component, rfl⟩ := hnode
  obtain ⟨hcut, hbefore, hbehind, hend⟩ := htable.scope hs
  extract_lets scope start
  have hstart : table.input.Cut start ∧ start ≤ s.left := by
    simp only [start]
    split
    · rename_i before hfind
      obtain ⟨hmem, hlt⟩ := hearlier before (List.mem_of_find?_eq_some hfind)
      exact ⟨cut_closing (htable.spans before hmem).closes, hlt⟩
    · exact ⟨hcut, hbefore⟩
  refine (Meets.cut hstart.1 hsound.opens.cut hstart.2).bind fun before hbefore => ?_
  -- the pieces weigh no more together than the text without the operator
  have hjoins : ∀ shared : List Text, (∀ w unit, Weight w unit → (shared.map w).sum ≤ w b) →
      ((Node.combination o.operator left right { component } []).withMarks
        { component, sharedLeft := (shared? before).toList, sharedRight := shared }).Joins table.input := by
    intro shared hshared
    refine ⟨rfl, fun w unit hw => ?_⟩
    have hall := hparts.weight hw
    have hl := hleft w unit hw
    have hr := hright w unit hw
    have hbeforeLight := hparts.weight_before hw hbefore.1 hbefore.2
    have hafterLight := hshared w unit hw
    rw [← hw.shared? before] at hbeforeLight
    show ((shared? before).toList.map w).sum + max (left.heaviest w) (right.heaviest w) + (shared.map w).sum + unit ≤
      w table.input
    omega
  split
  · exact hjoins [] fun w unit _ => Nat.zero_le _
  · have hstop : table.input.Cut scope.2 := by
      rcases hend with hend | hat
      · show table.input.Cut (table.scope s).2
        rw [hend]
        exact .all _
      · exact hat.cut
    refine (Meets.cut (cut_closing hsound.closes) hstop hbehind).bind fun after hafter => ?_
    refine hjoins _ fun w unit hw => ?_
    rw [hw.shared? after]
    refine hparts.weight_after hw hafter.1 ?_
    rw [hafter.2]
    exact hend

/-! ## Whole trees -/

/-- Trees are folded into one that has what joining keeps. -/
theorem Node.fold?_ordinary {P : Node → Prop} {o : Operator}
    (hP : ∀ l r component, P l → P r → P (.combination o l r { component } [])) {ns : List Node} (hns : ∀ n ∈ ns, P n) :
    Meets ParseError.Ordinary (fun t => ∀ n ∈ t, P n) (fold? o ns) := by
  refine (Meets.fold? (fun l r hl hr => (combine_ordinary o l r).weaken fun n hn => ?_) hns).weaken fun t ht => ht.1
  obtain ⟨component, rfl⟩ := hn
  exact hP l r component hl hr

/-- The synthetic conjunction shares nothing. -/
theorem Node.Joins.combine {l r : Node} (hl : l.Joins text) (hr : r.Joins text) (component : Option Component) :
    (Node.combination .syntheticAnd l r { component } []).Joins text := by
  refine ⟨rfl, fun w unit hw => ?_⟩
  have hl' := hl.2 w unit hw
  have hr' := hr.2 w unit hw
  rw [hl.1] at hl'
  rw [hr.1] at hr'
  show ([].map w).sum + max (l.heaviest w) (r.heaviest w) + ([].map w).sum + unit ≤ w text
  simp only [Bool.false_eq_true, if_false] at hl' hr'
  simp only [List.map_nil, List.sum_nil]
  omega

/-! ## Leaves -/

theorem isEnclosed_regular (d : Delimiters) (t : Text) :
    Regular (fun enclosed => enclosed = true → t.At 0 [d.opening] ∧ t.At (t.size - 1) [d.closing] ∧ 1 ≤ t.size - 1)
      (isEnclosed d t) := by
  unfold isEnclosed
  split
  · rename_i hhead
    have hopens : t.At 0 [d.opening] := by
      obtain ⟨rest, rfl⟩ := List.head?_eq_some_iff.1 hhead
      exact ⟨[], rest, rfl, rfl⟩
    refine (closeOf_at hopens).bind fun close hclose henclosed => ?_
    have hclose := hclose _ (of_decide_eq_true henclosed)
    exact ⟨hopens, hclose.1, by omega⟩
  · exact nofun

/-- A leaf holds all of its text but white space and a pair of delimiters around it. -/
theorem leafOf_drawn (d : Delimiters) (text : Text) : Regular (·.Drawn text) (leafOf d text) := by
  have hvalue : ∀ value : Text, (∀ w unit, Weight w unit → w value ≤ w text) → Regular (·.Drawn text) (do
      if value.isEmpty then reject (.emptyOperand text (Position.locate text 0))
      return Node.text value) := by
    intro value hlight
    split
    · exact nofun
    · intro w unit hw
      show w value.trim + 0 ≤ w text
      rw [hw.trim]
      exact hlight w unit hw
  unfold leafOf
  refine (isEnclosed_regular d text.trim).bind fun enclosed henclosed => ?_
  cases enclosed with
  | true =>
    obtain ⟨hopens, hcloses, hle⟩ := henclosed rfl
    refine (Meets.cut (cut_opening hopens) hcloses.cut hle).bind fun part hpart => ?_
    refine hvalue part.trim fun w unit hw => ?_
    rw [hw.trim, ← hw.trim text]
    exact hw.part (d := d) hpart.1 (Or.inr (by rw [hpart.2]; exact hcloses))
  | false => exact hvalue text.trim fun w unit hw => (hw.trim text).le

/-! ## Whole trees -/

section Trees

variable (hE : ∀ f : Failure, f.Ordinary → E f)
include hE

theorem treeStep_drawn {build : Text → Outcome Node}
    (hbuild : ∀ t, operatorCount t < operatorCount text → Meets E (·.Drawn t) (build t)) :
    Meets E (·.Drawn text) (treeStep d build text) := by
  have hdrawn : ∀ table : SpanTable, table.Of d text → ∀ n : Node, n.Drawn table.input → n.Drawn text :=
    fun table htable n hn w unit hw => htable.2 w unit hw ▸ hn w unit hw
  refine Meets.tree (T := SpanTable.Of d text) (Q := Node.Joins text) ((spanTable_regular d text).meets hE) ?_ ?_ ?_
    fun n hn => hn.2
  · exact fun table htable _ => ((leafOf_drawn d table.input).meets hE).weaken (hdrawn table htable)
  · intro table htable level earlier s o later hlevel ho
    obtain ⟨hs, hearlier⟩ := htable.1.passed hlevel
    have hoperand : ∀ t, operatorCount t < operatorCount table.input → Meets E (·.Drawn t) (build t) := by
      rw [htable.2 operatorCount 1 operatorCount_weight]
      exact hbuild
    exact (combinationOf_drawn hE htable.1 hoperand hs ho hearlier later).weaken
      fun n hn => ⟨hn.1, hdrawn table htable n hn.2⟩
  · intro l r hl hr
    refine (Node.combine_ordinary .syntheticAnd l r).imp (fun e he => hE _ he) fun n hn => ?_
    obtain ⟨component, rfl⟩ := hn
    exact hl.combine hr component

/-- A budget of more than the operators of the text lasts for its tree. -/
theorem treeWithin_drawn (d : Delimiters) {limit budget : Nat} {text : Text}
    (hbudget : E (.rejected (.nestingTooDeep limit)) ∨ operatorCount text < budget) :
    Meets E (·.Drawn text) (treeWithin d limit budget text) := by
  induction budget generalizing text with
  | zero =>
    rcases hbudget with hdeep | hlt
    · exact hdeep
    · omega
  | succ budget ih =>
    refine treeStep_drawn hE fun t ht => ih ?_
    rcases hbudget with hdeep | hlt
    · exact Or.inl hdeep
    · right
      omega

end Trees

end InstitutionalGrammar
