/-
  InstitutionalGrammar.Proofs.Combination.Surrounded — texts that change nothing when they are put around another.

  Blanks around a text, and one more pair of delimiters around a text with a combination, move all spans, the pair
  also one level further in. The tree of a text does not depend on that: which level decides, which span is
  around another and which text is shared is all told by spans that have moved alike.
  - `SpanTable.Surrounds`: the table of a text in that of a longer one.
  - `Surrounds.treeStep_eq`: both have the same tree, if there is a combination.
  - `combinationTree_delimited`: one more pair of delimiters.
-/

import InstitutionalGrammar.Proofs.Combination.Replaced
import InstitutionalGrammar.Proofs.Combination.Scopes

namespace InstitutionalGrammar

variable {d : Delimiters} {a b u v w w' x text : Text} {i j k deep : Nat} {table whole : SpanTable} {s e : Span}
  {o : PlacedOperator} {build : Text → Outcome Node} {earlier later spans : List Span}

/-! ## Parts of a longer text -/

/-- A cut of a part is a cut of the whole. -/
theorem Text.slice_part_eq (hj : j ≤ x.size) (a b : Text) (i : Nat) :
    (a ++ (x ++ b)).slice (a.size + i) (a.size + j) = x.slice i j := by
  cases hpart : x.slice i j with
  | ok part => exact Text.slice_within hpart a b
  | error cause =>
    cases hwhole : (a ++ (x ++ b)).slice (a.size + i) (a.size + j) with
    | ok part =>
      obtain ⟨hat, hsize⟩ := Text.slice_eq_ok.1 hwhole
      have hinside : i + part.size = j := by omega
      rw [Text.slice_eq_ok.2 ⟨hat.shift.front (by omega), hinside⟩] at hpart
      cases hpart
    | error cause' =>
      unfold Text.slice at hpart hwhole
      split at hpart <;> split at hwhole <;> cases hpart <;> cases hwhole
      rfl

theorem shared?_pad (hw : Text.allBlank w = true) (hw' : Text.allBlank w' = true) (t : Text) :
    shared? (w ++ t ++ w') = shared? t := by
  unfold shared?
  rw [Text.trim_pad hw hw']

/-- A combination, with the texts that it shares read at once. -/
theorem combinationOf_eq (build : Text → Outcome Node) (table : SpanTable) (earlier : List Span) (s : Span)
    (o : PlacedOperator) (later : List Span) : combinationOf build table earlier s o later = (do
      let left ← build (← table.input.slice (s.left + 1) o.start)
      let right ← build (← table.input.slice o.stop s.right)
      let node ← Node.combine o.operator left right
      let sharedLeft ← shared? <$> table.input.slice (table.shareStart earlier s) s.left
      let sharedRight ← if later.any (table.scope · = table.scope s) then pure none
        else shared? <$> table.input.slice (s.right + 1) (table.scope s).2
      return node.withMarks { node.marks with sharedLeft := sharedLeft.toList, sharedRight := sharedRight.toList }) := by
  unfold combinationOf SpanTable.shareStart
  simp only [map_eq_pure_bind, bind_assoc, pure_bind]
  generalize later.any (table.scope · = table.scope s) = shared
  cases shared <;> rfl

/-! ## A table in another one -/

namespace Span

@[simp] theorem behind_level (k deep : Nat) (s : Span) : (s.behind k deep).level = s.level + deep := rfl

@[simp] theorem behind_left (k deep : Nat) (s : Span) : (s.behind k deep).left = k + s.left := rfl

@[simp] theorem behind_right (k deep : Nat) (s : Span) : (s.behind k deep).right = k + s.right := rfl

@[simp] theorem behind_operator (k deep : Nat) (s : Span) : (s.behind k deep).operator = s.operator.map (·.behind k) := rfl

@[simp] theorem isCombination_behind (k deep : Nat) (s : Span) : (s.behind k deep).isCombination = s.isCombination := by
  simp [isCombination]

@[simp] theorem contains_behind (k deep : Nat) (s e : Span) : (s.behind k deep).contains (e.behind k deep) = s.contains e := by
  simp [contains]

end Span

/-- The longer text has, around a text with this table, only spans without an operator, and what shares the outermost
    scope of the text shares with it only blanks, `w` and `w'`, that stand beside the text. -/
structure SpanTable.Surrounds (d : Delimiters) (u w w' v : Text) (deep : Nat) (table whole : SpanTable) : Prop where
  placed : table.Placed d
  blank : Text.allBlank w = true ∧ Text.allBlank w' = true
  input : whole.input = (u ++ w) ++ (table.input ++ (w' ++ v))
  spans : ∃ around, whole.spans = table.spans.map (·.behind (u ++ w).size deep) ++ around ∧
    ∀ e ∈ around, e.isCombination = false ∧ e.level ≤ deep
  scope : ∀ s ∈ table.spans, s.level = 1 →
    whole.scope (s.behind (u ++ w).size deep) = (u.size, (u ++ w).size + table.input.size + w'.size)

theorem SpanTable.Placed.scope_outer (h : table.Placed d) (hs : s ∈ table.spans) (hlevel : s.level = 1) :
    table.scope s = (0, table.input.size) := by
  rcases h.parent hs with ⟨-, hnone⟩ | ⟨x, hx, -, hup, -⟩
  · rw [SpanTable.scope, hnone]
  · have hpos := h.level_pos hx
    omega

namespace SpanTable.Surrounds

variable (h : SpanTable.Surrounds d u w w' v deep table whole)
include h

/-- The spans of a level of the text, in the longer one. -/
theorem atLevel_eq (hlevel : 0 < k) :
    whole.atLevel (k + deep) = (table.atLevel k).map (·.behind (u ++ w).size deep) := by
  obtain ⟨around, hspans, haround⟩ := h.spans
  have hnone : around.filter (·.level = k + deep) = [] := by
    rw [List.filter_eq_nil_iff]
    intro e he
    have hle := (haround e he).2
    simp
    omega
  rw [atLevel, atLevel, hspans, List.filter_append, hnone, List.append_nil, List.filter_map]
  congr 1
  exact List.filter_congr fun e _ => by simp

theorem outermostLevel?_eq (hk : table.outermostLevel? = some k) : whole.outermostLevel? = some (k + deep) := by
  obtain ⟨around, hspans, haround⟩ := h.spans
  obtain ⟨s, hs⟩ := List.exists_mem_of_ne_nil _ (combinations_ne_nil hk)
  obtain ⟨hlevel, hcombination⟩ := List.mem_filter.1 hs
  obtain ⟨hmem, hlevel⟩ := List.mem_filter.1 hlevel
  obtain rfl : s.level = k := of_decide_eq_true hlevel
  have hmem' : s.behind (u ++ w).size deep ∈ whole.spans := by
    rw [hspans]
    exact List.mem_append_left _ (List.mem_map_of_mem hmem)
  refine outermostLevel?_eq_some hmem' (by simpa using hcombination) fun e he hc => ?_
  rw [hspans] at he
  rcases List.mem_append.1 he with he | he
  · obtain ⟨x, hx, rfl⟩ := List.mem_map.1 he
    have hle := level_le_of_outermostLevel? hk hx (by simpa using hc)
    simpa using hle
  · rw [(haround e he).1] at hc
    cases hc

/-- The span around a span further in. -/
theorem parent?_eq (hs : s ∈ table.spans) (hlevel : s.level ≠ 1) :
    whole.parent? (s.behind (u ++ w).size deep) = (table.parent? s).map (·.behind (u ++ w).size deep) := by
  have hpos := h.placed.level_pos hs
  have hup : (s.behind (u ++ w).size deep).level - 1 = s.level - 1 + deep := by
    rw [Span.behind_level]
    omega
  rw [parent?, hup, h.atLevel_eq (by omega), List.find?_map, parent?]
  congr 2
  funext e
  simp

/-- The scope of a span further in moves like the span. -/
theorem scope_inner (hs : s ∈ table.spans) (hlevel : s.level ≠ 1) : whole.scope (s.behind (u ++ w).size deep) =
    ((u ++ w).size + (table.scope s).1, (u ++ w).size + (table.scope s).2) := by
  rcases h.placed.parent hs with ⟨hfirst, -⟩ | ⟨x, -, hparent, -, -⟩
  · exact absurd hfirst hlevel
  · rw [SpanTable.scope, SpanTable.scope, h.parent?_eq hs hlevel, hparent]
    rfl

theorem scope_eq_iff (hs : s ∈ table.spans) (he : e ∈ table.spans) (hlevel : e.level = s.level) :
    whole.scope (e.behind (u ++ w).size deep) = whole.scope (s.behind (u ++ w).size deep) ↔ table.scope e = table.scope s := by
  by_cases hfirst : s.level = 1
  · have hfirst' : e.level = 1 := hlevel.trans hfirst
    rw [h.scope s hs hfirst, h.scope e he hfirst', h.placed.scope_outer hs hfirst, h.placed.scope_outer he hfirst']
    simp
  · rw [h.scope_inner hs hfirst, h.scope_inner he (hlevel ▸ hfirst), Prod.ext_iff, Prod.ext_iff]
    simp

theorem slice_eq (hj : j ≤ table.input.size) (i : Nat) :
    whole.input.slice ((u ++ w).size + i) ((u ++ w).size + j) = table.input.slice i j := by
  rw [h.input]
  exact Text.slice_part_eq hj _ _ i

/-- What stands in the scope before an outermost span, with the blanks before the text. -/
theorem shared?_first (hs : s ∈ table.spans) : shared? <$> whole.input.slice u.size ((u ++ w).size + s.left) =
    shared? <$> table.input.slice 0 s.left := by
  have hsound := h.placed.sound.spans s hs
  obtain ⟨p, hp⟩ := Text.exists_slice (.zero table.input) hsound.opens.cut (Nat.zero_le _)
  obtain ⟨⟨y, z, hyz, hy⟩, hsize⟩ := Text.slice_eq_ok.1 hp
  obtain rfl : y = [] := Text.size_eq_zero.1 hy
  have hwhole : whole.input.slice u.size ((u ++ w).size + s.left) = .ok (w ++ p) := by
    refine Text.slice_eq_ok.2 ⟨⟨u, z ++ (w' ++ v), ?_, rfl⟩, ?_⟩
    · rw [h.input, hyz]
      simp
    · rw [Text.size_append, Text.size_append]
      omega
  have hpad : shared? (w ++ p ++ []) = shared? p := shared?_pad h.blank.1 rfl p
  rw [List.append_nil] at hpad
  rw [hp, hwhole]
  exact congrArg Except.ok hpad

/-- What stands in the scope behind an outermost span, with the blanks behind the text. -/
theorem shared?_last (hs : s ∈ table.spans) :
    shared? <$> whole.input.slice ((u ++ w).size + s.right + 1) ((u ++ w).size + table.input.size + w'.size) =
      shared? <$> table.input.slice (s.right + 1) table.input.size := by
  have hcut := cut_closing (h.placed.sound.spans s hs).closes
  obtain ⟨p, hp⟩ := Text.exists_slice hcut (.all table.input) hcut.le
  obtain ⟨⟨y, z, hyz, hy⟩, hsize⟩ := Text.slice_eq_ok.1 hp
  obtain rfl : z = [] := by
    have htotal := congrArg Text.size hyz
    rw [Text.size_append, Text.size_append] at htotal
    exact Text.size_eq_zero.1 (by omega)
  have hwhole : whole.input.slice ((u ++ w).size + s.right + 1) ((u ++ w).size + table.input.size + w'.size) =
      .ok (p ++ w') := by
    refine Text.slice_eq_ok.2 ⟨⟨u ++ w ++ y, v, ?_, ?_⟩, ?_⟩
    · rw [h.input, hyz]
      simp
    · rw [Text.size_append, hy, Nat.add_assoc]
    · rw [Text.size_append p w']
      omega
  have hpad := shared?_pad (w := []) rfl h.blank.2 p
  rw [List.nil_append] at hpad
  rw [hp, hwhole]
  exact congrArg Except.ok hpad

/-- The combinations that share the scope are the same ones. -/
theorem same_scope (hs : s ∈ table.spans) (hspans : ∀ e ∈ spans, e ∈ table.spans ∧ e.level = s.level) : ∀ e ∈ spans,
    decide (whole.scope (e.behind (u ++ w).size deep) = whole.scope (s.behind (u ++ w).size deep)) =
      decide (table.scope e = table.scope s) :=
  fun e he => decide_eq_decide.2 (h.scope_eq_iff hs (hspans e he).1 (hspans e he).2)

/-- What a combination shares in front of it. -/
theorem shared?_before (hs : s ∈ table.spans) (hearlier : ∀ e ∈ earlier, e ∈ table.spans ∧ e.level = s.level) :
    shared? <$> whole.input.slice (whole.shareStart (earlier.map (·.behind (u ++ w).size deep)) (s.behind (u ++ w).size deep))
        ((u ++ w).size + s.left) =
      shared? <$> table.input.slice (table.shareStart earlier s) s.left := by
  have hleft : s.left ≤ table.input.size := (h.placed.sound.spans s hs).opens.cut.le
  have hfind : (earlier.map (·.behind (u ++ w).size deep)).find?
      (whole.scope · = whole.scope (s.behind (u ++ w).size deep)) =
        (earlier.find? (table.scope · = table.scope s)).map (·.behind (u ++ w).size deep) := by
    rw [List.find?_map]
    exact congrArg _ (List.find?_congr (h.same_scope hs hearlier))
  rw [shareStart, hfind, shareStart]
  cases earlier.find? (table.scope · = table.scope s) with
  | some before => exact congrArg (shared? <$> ·) (h.slice_eq hleft (before.right + 1))
  | none =>
    by_cases hfirst : s.level = 1
    · rw [h.placed.scope_outer hs hfirst, h.scope s hs hfirst]
      exact h.shared?_first hs
    · rw [h.scope_inner hs hfirst]
      exact congrArg (shared? <$> ·) (h.slice_eq hleft _)

/-- What the last combination in a scope shares behind it. -/
theorem shared?_behind (hs : s ∈ table.spans) : shared? <$> whole.input.slice ((u ++ w).size + s.right + 1)
      (whole.scope (s.behind (u ++ w).size deep)).2 = shared? <$> table.input.slice (s.right + 1) (table.scope s).2 := by
  by_cases hfirst : s.level = 1
  · rw [h.placed.scope_outer hs hfirst, h.scope s hs hfirst]
    exact h.shared?_last hs
  · rw [h.scope_inner hs hfirst]
    have hend : (table.scope s).2 ≤ table.input.size := by
      obtain ⟨-, -, -, hend | hat⟩ := h.placed.sound.scope hs
      · exact Nat.le_of_eq hend
      · exact hat.cut.le
    exact congrArg (shared? <$> ·) (h.slice_eq hend (s.right + 1))

/-- A combination is built alike in both texts. -/
theorem combinationOf_eq (build : Text → Outcome Node) (hs : s ∈ table.spans) (ho : s.operator = some o)
    (hearlier : ∀ e ∈ earlier, e ∈ table.spans ∧ e.level = s.level) (hlater : ∀ e ∈ later, e ∈ table.spans ∧ e.level = s.level) :
    combinationOf build whole (earlier.map (·.behind (u ++ w).size deep)) (s.behind (u ++ w).size deep)
        (o.behind (u ++ w).size) (later.map (·.behind (u ++ w).size deep)) =
      combinationOf build table earlier s o later := by
  have hsound := h.placed.sound.spans s hs
  have hbetween := hsound.operator o ho
  have hright : s.right + 1 ≤ table.input.size := (cut_closing hsound.closes).le
  have hstop := hbetween.before
  have hends := hbetween.ends
  have hleftOperand : whole.input.slice ((u ++ w).size + s.left + 1) ((u ++ w).size + o.start) =
      table.input.slice (s.left + 1) o.start := h.slice_eq (j := o.start) (by omega) (s.left + 1)
  have hrightOperand : whole.input.slice ((u ++ w).size + o.stop) ((u ++ w).size + s.right) =
      table.input.slice o.stop s.right := h.slice_eq (j := s.right) (by omega) o.stop
  have hany : (later.map (·.behind (u ++ w).size deep)).any
      (whole.scope · = whole.scope (s.behind (u ++ w).size deep)) = later.any (table.scope · = table.scope s) := by
    rw [List.any_map, Bool.eq_iff_iff, List.any_eq_true, List.any_eq_true]
    refine exists_congr fun e => and_congr_right fun he => ?_
    rw [Function.comp, h.same_scope hs hlater e he]
  rw [InstitutionalGrammar.combinationOf_eq, InstitutionalGrammar.combinationOf_eq]
  simp only [Span.behind_left, Span.behind_right, PlacedOperator.behind, hleftOperand, hrightOperand, hany,
    h.shared?_before hs hearlier, h.shared?_behind hs]

theorem combinationsOf_eq (build : Text → Outcome Node) (hspans : ∀ e ∈ spans, e ∈ table.spans ∧ e.level = k)
    (hearlier : ∀ e ∈ earlier, e ∈ table.spans ∧ e.level = k) :
    combinationsOf build whole (earlier.map (·.behind (u ++ w).size deep)) (spans.map (·.behind (u ++ w).size deep)) =
      combinationsOf build table earlier spans := by
  induction spans generalizing earlier with
  | nil => rfl
  | cons s later ih =>
    obtain ⟨⟨hs, hlevel⟩, hlater⟩ := List.forall_mem_cons.1 hspans
    rw [List.map_cons, combinationsOf, combinationsOf, Span.behind_operator]
    cases ho : s.operator with
    | none => exact ih hlater hearlier
    | some o =>
      have hrest := ih hlater (List.forall_mem_cons.2 ⟨⟨hs, hlevel⟩, hearlier⟩)
      rw [List.map_cons] at hrest
      have hnode := h.combinationOf_eq build hs ho
        (fun e he => ⟨(hearlier e he).1, (hearlier e he).2.trans hlevel.symm⟩)
        fun e he => ⟨(hlater e he).1, (hlater e he).2.trans hlevel.symm⟩
      simp only [Option.map_some, hnode, hrest]

/-- Both texts have the same tree, or are refused for the same reason, if there is a combination. -/
theorem treeStep_eq {text' : Text} (htable : spanTable d text = .ok table) (hwhole : spanTable d text' = .ok whole)
    (hcombination : ∃ s ∈ table.spans, s.isCombination = true) : treeStep d build text' = treeStep d build text := by
  obtain ⟨k, hk⟩ : ∃ k, table.outermostLevel? = some k := by
    cases hk : table.outermostLevel? with
    | some k => exact ⟨k, rfl⟩
    | none =>
      obtain ⟨s, hs, hc⟩ := hcombination
      rw [isCombination_of_outermostLevel?_none hk hs] at hc
      cases hc
  have hlevel : ∀ e ∈ (table.atLevel k).filter Span.isCombination, e ∈ table.spans ∧ e.level = k := by
    intro e he
    obtain ⟨hmem, hlevel⟩ := List.mem_filter.1 (List.mem_filter.1 he).1
    exact ⟨hmem, of_decide_eq_true hlevel⟩
  have hnone : ∀ e ∈ ([] : List Span), e ∈ table.spans ∧ e.level = k := nofun
  have hnodes := h.combinationsOf_eq build hlevel hnone
  have hlevel' : (whole.atLevel (k + deep)).filter Span.isCombination =
      ((table.atLevel k).filter Span.isCombination).map (·.behind (u ++ w).size deep) := by
    obtain ⟨e, he⟩ := List.exists_mem_of_ne_nil _ (combinations_ne_nil hk)
    have hpos := h.placed.level_pos (hlevel e he).1
    rw [(hlevel e he).2] at hpos
    rw [h.atLevel_eq hpos, List.filter_map]
    congr 1
    exact List.filter_congr fun x _ => by simp
  unfold treeStep
  rw [htable, hwhole]
  simp only [ok_bind, hk, h.outermostLevel?_eq hk, hlevel']
  rw [List.map_nil] at hnodes
  rw [hnodes]
  cases hns : combinationsOf build table [] ((table.atLevel k).filter Span.isCombination) with
  | error cause => rfl
  | ok ns =>
    have hbuilt := combinationsOf_built h.placed.sound (fun s hs => ⟨(hlevel s hs).1, (List.mem_filter.1 hs).2⟩) hns
    cases ns with
    | nil => exact absurd (List.forall₂_nil_right_iff.1 hbuilt) (combinations_ne_nil hk)
    | cons n ns =>
      -- what is joined does not come to nothing
      simp only [ok_bind, Node.fold?]
      cases ns.foldlM (Node.combine .syntheticAnd) n <;> rfl

end SpanTable.Surrounds

/-! ## One more pair of delimiters -/

theorem tagged_first (t : Text) : tagged (brace :: t) = tagged t := by
  have hword : isWord brace = false := by decide
  rw [tagged, Shape.firstLead?, hword, if_neg Bool.false_ne_true, show Shape.lead? (brace :: t) = none from rfl, tagged]

theorem sweptTo_opening (d : Delimiters) : SweptTo d [d.opening] [⟨0, none⟩] [] := fun _ => sweepFrom_opening .nil

/-- In one more pair of delimiters, a text has the table that it has without, and the pair around it. -/
theorem spanTable_delimited (h : spanTable d text = .ok table) : ∃ whole,
    spanTable d (d.opening :: (text ++ [d.closing])) = .ok whole ∧
      SpanTable.Surrounds d [d.opening] [] [] [d.closing] 1 table whole := by
  have hbalanced := (spanTable_settles h).1
  have hplaced := spanTable_placed h
  have hembedded : Embedded d [d.opening] text [d.closing] :=
    ⟨hbalanced, fun hd t => hd ▸ tagged_first t, (Sharp.closing d []).loose⟩
  have hpair : ∀ e, Balanced e ([d.opening] ++ (text ++ [d.closing])) := fun e =>
    Balanced.wrap_part (a := []) (b := []) (by simpa using hbalanced e) d
  have hsize : Text.size [d.opening] = 1 := by simp [Delimiters.utf8Size_opening]
  obtain ⟨nonShared, htable⟩ := spanTable_past h (sweptTo_opening d) hembedded hpair
    (table.spans.map (·.behind 1 1) ++ [⟨1, 0, 1 + table.input.size, none⟩]) (by
      rw [sweepFrom_closing_bare, sweepFrom_nil]
      simp [hsize])
  refine ⟨_, htable, hplaced, ⟨rfl, rfl⟩, rfl, ⟨[⟨1, 0, 1 + table.input.size, none⟩], ?_, ?_⟩, fun s hs hfirst => ?_⟩
  · rw [List.append_nil, hsize]
  · simp [Span.isCombination]
  · have hright := (cut_closing (hplaced.sound.spans s hs).closes).le
    -- on level 1 there is nothing but the pair
    have hdeeper : (table.spans.map fun x : Span => x.behind 1 1).filter (fun x : Span => x.level = 1) = [] := by
      rw [List.filter_eq_nil_iff]
      intro e he
      obtain ⟨x, hx, rfl⟩ := List.mem_map.1 he
      have hpos := hplaced.level_pos hx
      simp
      omega
    have hin : Span.contains ⟨1, 0, 1 + table.input.size, none⟩ (s.behind 1 1) = true := by
      refine Bool.and_eq_true_iff.2 ⟨decide_eq_true ?_, decide_eq_true ?_⟩
      · exact Nat.lt_add_right s.left Nat.zero_lt_one
      · exact Nat.add_lt_add_left hright 1
    simp only [List.append_nil, hsize, SpanTable.scope, SpanTable.parent?, SpanTable.atLevel, Span.behind_level, hfirst,
      Nat.add_sub_cancel, List.filter_append, hdeeper, List.nil_append]
    simp [hin]

/-- One more pair of delimiters around a text with a combination makes no difference. -/
theorem combinationTree_delimited (h : spanTable d text = .ok table)
    (hcombination : ∃ s ∈ table.spans, s.isCombination = true) (limit : Nat) :
    combinationTree d limit (d.opening :: (text ++ [d.closing])) = combinationTree d limit text := by
  obtain ⟨whole, hwhole, hsurrounds⟩ := spanTable_delimited h
  exact hsurrounds.treeStep_eq h hwhole hcombination

/-- A chain of fragments, one of them with a nested statement, and text that they share. -/
def chainOfFragments : Text := "when {Cac{x [AND] y} [OR] A(z) [OR] w} (at once)".toList

theorem combinationTree_delimited_chainOfFragments : ∃ table tree,
    spanTable .braces chainOfFragments = .ok table ∧ (∃ s ∈ table.spans, s.isCombination = true) ∧
      combinationTree .braces 2 chainOfFragments = .ok tree ∧
      combinationTree .braces 2 (Delimiters.braces.opening :: (chainOfFragments ++ [Delimiters.braces.closing])) = .ok tree := by
  obtain ⟨table, htable, hcombination⟩ := exists_ok (x := spanTable .braces chainOfFragments)
    (p := fun table => table.spans.any Span.isCombination) (by decide +kernel)
  obtain ⟨tree, htree, -⟩ := exists_ok (x := combinationTree .braces 2 chainOfFragments) (p := fun _ => true) (by decide +kernel)
  have hcombination := List.any_eq_true.1 hcombination
  exact ⟨table, tree, htable, hcombination, htree, (combinationTree_delimited htable hcombination 2).trans htree⟩

end InstitutionalGrammar
