/-
  InstitutionalGrammar.Proofs.Combination.Lossless — what the tree of a text leaves out of it.

  Read in order, a tree gives characters and operators of its text in their order, blanks and delimiters aside. It
  need not give all of them: only the combinations of one level are built, with the text in their scopes. What stands
  around the scopes is lost, and an operator beside the combinations is no operator of the tree.
  - `Misses`: something in a text that none of its combinations reaches.
  - `treeStep_reads`: one step; `treeWithin_reads`: whole trees.
  - `combinationTree_inOrder`: a tree loses nothing exactly if no operand in it, nor its text, misses anything.
-/

import InstitutionalGrammar.Proofs.Combination.InOrder

namespace InstitutionalGrammar

variable {α : Type} {d : Delimiters} {build : Text → Outcome Node} {μ : Text → List α} {words : Bool} {table : SpanTable}
  {text : Text} {tree : Node}

/-! ## What a text misses -/

/-- `μ` finds something in a stretch of the text that is not in reach of any of its combinations. -/
def Misses (d : Delimiters) (reach : SpanTable → Span → Nat × Nat) (μ : Text → List α) (text : Text) : Prop :=
  ∃ table, spanTable d text = .ok table ∧ table.outermost ≠ [] ∧ ∃ i j part, table.input.slice i j = .ok part ∧
    (∀ s ∈ table.outermost, (reach table s).2 ≤ i ∨ j ≤ (reach table s).1) ∧ μ part ≠ []

/-- Text around the scopes of the combinations. -/
def LosesText (d : Delimiters) (text : Text) : Prop := Misses d SpanTable.scope (Text.without isGap) text

/-- An operator beside the combinations. -/
def LosesOperator (d : Delimiters) (text : Text) : Prop :=
  Misses d (fun _ s => (s.left, s.right + 1)) operatorsOf text

/-- What a combination reaches: its scope, or only its span if texts are not read. -/
def reachOf (words : Bool) : SpanTable → Span → Nat × Nat :=
  if words then SpanTable.scope else fun _ s => (s.left, s.right + 1)

/-- A way to read texts: part by part, and texts without operators give nothing if only operators are read. -/
structure Legible (words : Bool) (μ : Text → List α) : Prop where
  trace : Trace isGap μ
  inner : ∀ a p b : Text, μ (a ++ (p ++ b)) = [] → μ p = []
  leaf : words = false → ∀ t, OperatorFree t → μ t = []

namespace SpanTable

/-- A stretch is out of reach of the combinations of a level if it is in none of the stretches they account for. -/
theorem Sound.free_iff (h : table.Sound d) {spans : List Span} (hspans : ∀ s ∈ spans, s ∈ table.spans)
    (horder : spans.Pairwise fun before behind => before.right < behind.left) {i j : Nat} (hij : i < j) :
    (∀ x ∈ table.stretches words [] spans, x.2 ≤ i ∨ j ≤ x.1) ↔
      ∀ s ∈ spans, (reachOf words table s).2 ≤ i ∨ j ≤ (reachOf words table s).1 := by
  cases words with
  | false => exact List.forall_mem_map
  | true =>
    constructor
    · exact fun hfree s hs => shares_cover hij hfree s hs
    · intro hfree x hx
      obtain ⟨s, hs, hstart, hstop⟩ := h.mem_shares hspans horder (fun e he => absurd he List.not_mem_nil) x hx
      exact (hfree s hs).imp (Nat.le_trans hstop) fun hle => Nat.le_trans hle hstart

end SpanTable

/-- Nothing is missed where the stretches of the combinations leave nothing. -/
theorem vacant_iff (hμ : Trace isGap μ) (h : table.Sound d) {spans : List Span} (hspans : ∀ s ∈ spans, s ∈ table.spans)
    (horder : spans.Pairwise fun before behind => before.right < behind.left) {es : List (Extent α)}
    (hes : es.map (fun e => (e.start, e.stop)) = table.stretches words [] spans) :
    Vacant μ table.input 0 es ↔ ∀ i j part, table.input.slice i j = .ok part →
      (∀ s ∈ spans, (reachOf words table s).2 ≤ i ∨ j ≤ (reachOf words table s).1) → μ part = [] := by
  have hfree : ∀ {i j : Nat}, i < j → ((∀ e ∈ es, e.stop ≤ i ∨ j ≤ e.start) ↔
      ∀ s ∈ spans, (reachOf words table s).2 ≤ i ∨ j ≤ (reachOf words table s).1) := by
    intro i j hij
    rw [← h.free_iff hspans horder hij, ← hes, List.forall_mem_map]
  have hpart : ∀ {i j : Nat} {part : Text}, table.input.slice i j = .ok part → i < j ∨ part = [] := by
    intro i j part hslice
    obtain ⟨-, hsize⟩ := Text.slice_eq_ok.1 hslice
    by_cases hpos : part.size = 0
    · exact Or.inr (Text.size_eq_zero.1 hpos)
    · exact Or.inl (by omega)
  constructor
  · intro hvacant i j part hslice hout
    rcases hpart hslice with hij | rfl
    · exact hvacant i j part hslice (Nat.zero_le i) ((hfree hij).2 hout)
    · exact hμ.nil
  · intro hnone i j part hslice _ hout
    rcases hpart hslice with hij | rfl
    · exact hnone i j part hslice ((hfree hij).1 hout)
    · exact hμ.nil

/-! ## One step -/

/-- The table of a text refers to a text with the same trace. -/
theorem spanTable_trace (hμ : Trace isGap μ) (h : spanTable d text = .ok table) : μ table.input = μ text := by
  obtain ⟨-, htrace, -⟩ := spanTable_lasts (P := fun t => μ t = μ text) (fun {t a operands o rest} hstop ht => by
    rw [hμ.regrouped (isGap_opening d) (isGap_closing d) hstop.written, ← hstop.text_eq, ht]) rfl h
  exact htrace

/-- A leaf holds all of its text but blanks and delimiters. -/
theorem leafOf_trace (hμ : Trace isGap μ) (h : leafOf d text = .ok tree) : ∃ v, tree = .leaf (.text v) {} [] ∧ μ v = μ text := by
  have hvalue : ∀ {value : Text}, μ value = μ text → ∀ {n : Node}, (do
      if value.isEmpty then reject (.emptyOperand text (Position.locate text 0))
      return Node.text value : Outcome Node) = .ok n → ∃ v, n = .leaf (.text v) {} [] ∧ μ v = μ text := by
    intro value hvalue n hn
    split at hn
    · cases hn
    · cases hn
      exact ⟨value.trim, rfl, (hμ.trim value).trans hvalue⟩
  unfold leafOf at h
  obtain ⟨enclosed, henclosed, h⟩ := bind_eq_ok.1 h
  cases enclosed with
  | false => exact hvalue (hμ.trim text) h
  | true =>
    obtain ⟨hopens, hcloses, hle⟩ := (isEnclosed_regular d text.trim).value henclosed rfl
    obtain ⟨part, hpart, h⟩ := bind_eq_ok.1 h
    refine hvalue ?_ h
    obtain ⟨hat, hsize⟩ := Text.slice_eq_ok.1 hpart
    have hone : text.trim.At (0 + Text.size [d.opening]) part := by rwa [size_opening]
    have hall := hopens.append (hone.append (q := [d.closing]) (by rwa [size_opening, Nat.zero_add, hsize]))
    have htrim : d.opening :: (part ++ [d.closing]) = text.trim := by
      refine hall.unique (q := text.trim) ⟨[], [], by simp, rfl⟩ ?_
      rw [Text.size_append, Text.size_append, size_opening, size_closing]
      omega
    rw [hμ.trim, ← hμ.trim text, ← htrim, hμ.char (isGap_opening d), hμ.append_gaps]
    simp [isGap_closing]

theorem Misses.iff_of_table {reach : SpanTable → Span → Nat × Nat} (htable : spanTable d text = .ok table) :
    ¬ Misses d reach μ text ↔ (table.outermost ≠ [] → ∀ i j part, table.input.slice i j = .ok part →
      (∀ s ∈ table.outermost, (reach table s).2 ≤ i ∨ j ≤ (reach table s).1) → μ part = []) := by
  constructor
  · intro hnot hne i j part hslice hout
    by_contra hfound
    exact hnot ⟨table, htable, hne, i, j, part, hslice, hout, hfound⟩
  · rintro hnone ⟨table', htable', hne, i, j, part, hslice, hout, hfound⟩
    cases htable.symm.trans htable'
    exact hfound (hnone hne i j part hslice hout)

theorem isOperand_iff (htable : spanTable d text = .ok table) {part : Text} :
    IsOperand d text part ↔ ∃ s ∈ table.outermost, table.Operand s part := by
  constructor
  · rintro ⟨table', s, o, htable', hs, ho, hpart⟩
    cases htable.symm.trans htable'
    exact ⟨s, hs, o, ho, hpart⟩
  · rintro ⟨s, hs, o, ho, hpart⟩
    exact ⟨table, s, o, htable, hs, ho, hpart⟩

/-- The leaf of a text without operators gives all of it. -/
theorem leafOf_reads (hμ : Legible words μ) (hfree : OperatorFree text) (h : leafOf d text = .ok tree) :
    tree.given μ words = μ text := by
  obtain ⟨v, rfl, hv⟩ := leafOf_trace hμ.trace h
  cases words with
  | true => simpa [Node.given, Node.read, counted] using hv
  | false =>
    rw [hμ.leaf rfl text hfree]
    simp [Node.given, Node.read, counted, hμ.trace.nil]

section Build

variable (hμ : Legible words μ) {Q : Text → Prop}
  (hbuild : ∀ part n, build part = .ok n → (n.given μ words).Sublist (μ part) ∧ (n.given μ words = μ part ↔ Q part))
include hμ hbuild

/-- The nodes of the outermost level give no more than the text, and all of it if nothing is out of their reach and
    the operands give all of theirs. -/
theorem level_reads {ns : List Node} {level : Nat} (htable : table.Placed d) (hlevel : table.outermostLevel? = some level)
    (h : combinationsOf build table [] table.outermost = .ok ns) :
    (ns.flatMap (Node.given μ words)).Sublist (μ table.input) ∧
      (ns.flatMap (Node.given μ words) = μ table.input ↔
        (∀ i j part, table.input.slice i j = .ok part →
          (∀ s ∈ table.outermost, (reachOf words table s).2 ≤ i ∨ j ≤ (reachOf words table s).1) → μ part = []) ∧
        ∀ s ∈ table.outermost, ∀ part, table.Operand s part → Q part) := by
  have horder : table.outermost.Pairwise fun before behind => before.right < behind.left := by
    rw [SpanTable.outermost_eq hlevel]
    exact htable.sound.level_order level
  have hspans : ∀ s ∈ table.outermost, s ∈ table.spans ∧ s.isCombination = true ∧ s.level = level := by
    intro s hs
    obtain ⟨hmem, hc⟩ := SpanTable.mem_outermost hs
    rw [SpanTable.outermost_eq hlevel] at hs
    exact ⟨hmem, hc, of_decide_eq_true (List.mem_filter.1 (List.mem_filter.1 hs).1).2⟩
  obtain ⟨es, hes, hgiven, hstretches, hall⟩ := combinationsOf_reads (k := 0) hμ.trace htable hspans horder
    (fun e he => absurd he List.not_mem_nil) (fun s _ => Nat.zero_le _) hbuild h
  have hstands : table.input.At 0 table.input := ⟨[], [], by simp, rfl⟩
  rw [← hgiven, hes.eq_iff hμ.inner hstands (Nat.zero_add _), hall,
    vacant_iff hμ.trace htable.sound (fun s hs => (hspans s hs).1) horder hstretches]
  exact ⟨hes.sublist hstands (Nat.zero_add _), and_comm⟩

/-- One step gives no more than its text, and all of it if the text misses nothing and the operands give all of theirs. -/
theorem treeStep_reads (h : treeStep .parentheses build text = .ok tree) : (tree.given μ words).Sublist (μ text) ∧
    (tree.given μ words = μ text ↔
      ¬ Misses .parentheses (reachOf words) μ text ∧ ∀ part, IsOperand .parentheses text part → Q part) := by
  obtain ⟨table, htable, hbuilt⟩ := treeStep_eq_ok h
  rw [← spanTable_trace hμ.trace htable, Misses.iff_of_table htable]
  simp only [isOperand_iff htable]
  rcases hbuilt with ⟨hlevel, hleaf⟩ | ⟨level, ns, hlevel, hns, hfold⟩
  · have hnothing : table.outermost = [] := by rw [SpanTable.outermost, hlevel]
    rw [leafOf_reads hμ (((spanTable_meets .parentheses text).value htable).operatorFree hlevel) hleaf, hnothing]
    exact ⟨List.Sublist.refl _, by simp⟩
  · have hne : table.outermost ≠ [] := SpanTable.outermost_eq hlevel ▸ SpanTable.combinations_ne_nil hlevel
    rw [← SpanTable.outermost_eq hlevel] at hns
    obtain ⟨hsub, hiff⟩ := level_reads hμ hbuild (spanTable_placed htable) hlevel hns
    have htree : tree.given μ words = ns.flatMap (Node.given μ words) := Node.read_fold? hfold
    rw [htree, hiff]
    exact ⟨hsub, by simp only [hne, ne_eq, not_false_eq_true, true_implies, forall_exists_index, and_imp]; tauto⟩

end Build

/-! ## Whole trees -/

/-- A tree gives all of its text exactly if neither the text nor any operand in it misses anything. -/
theorem treeWithin_reads (hμ : Legible words μ) {limit budget : Nat} (h : treeWithin .parentheses limit budget text = .ok tree) :
    (tree.given μ words).Sublist (μ text) ∧ (tree.given μ words = μ text ↔
      ∀ part, Relation.ReflTransGen (IsOperand .parentheses) text part → ¬ Misses .parentheses (reachOf words) μ part) := by
  induction budget generalizing text tree with
  | zero => cases h
  | succ budget ih =>
    rw [forall_operands]
    exact treeStep_reads hμ (fun part n hn => ih hn) h

theorem solid_legible : Legible true (Text.without isGap) where
  trace := solid_trace
  inner := fun a p b h => by
    rw [Text.without_append, Text.without_append] at h
    exact (List.append_eq_nil_iff.1 (List.append_eq_nil_iff.1 h).2).1
  leaf := nofun

theorem operatorsOf_legible : Legible false operatorsOf where
  trace := operatorsOf_trace
  inner := fun a p b h => by
    have hle := operatorCount_part (p := p) (t := a ++ (p ++ b)) ⟨a, b, by simp⟩
    rw [← length_operatorsOf, ← length_operatorsOf, h] at hle
    exact List.eq_nil_of_length_eq_zero (Nat.le_zero.1 hle)
  leaf := fun _ t h => operatorsOf_free h

theorem Node.inOrder_without (tree : Node) : tree.inOrder.without isGap = tree.given (Text.without isGap) true :=
  map_read rfl (Text.without_append isGap) id Operator.token tree

theorem Node.operators_eq (tree : Node) : tree.operators = tree.given operatorsOf false :=
  read_congr (fun _ => rfl) (fun _ ho => (operatorsOf_written ho).symm) tree

/-- Read in order, a tree gives characters and operators of its text in their order, blanks and delimiters aside. It
    gives all characters exactly if neither the text nor any operand in the tree has text around the scopes of its
    combinations, and all operators exactly if none has an operator beside them. -/
theorem combinationTree_inOrder {limit : Nat} (h : combinationTree .parentheses limit text = .ok tree) :
    (tree.inOrder.without isGap).Sublist (text.without isGap) ∧ tree.operators.Sublist (operatorsOf text) ∧
      (tree.inOrder.without isGap = text.without isGap ↔
        ∀ part, Relation.ReflTransGen (IsOperand .parentheses) text part → ¬ LosesText .parentheses part) ∧
      (tree.operators = operatorsOf text ↔
        ∀ part, Relation.ReflTransGen (IsOperand .parentheses) text part → ¬ LosesOperator .parentheses part) := by
  obtain ⟨htext, hwhole⟩ := treeWithin_reads solid_legible h
  obtain ⟨hoperators, hevery⟩ := treeWithin_reads operatorsOf_legible h
  rw [tree.inOrder_without, tree.operators_eq]
  exact ⟨htext, hoperators, hwhole, hevery⟩

/-- Text around two combinations in one scope. -/
def twoInScope : Text := "(x (a [AND] b) y (c [OR] d) z)".toList

theorem combinationTree_inOrder_twoInScope : ∃ tree, combinationTree .parentheses 5 twoInScope = .ok tree ∧
    tree.inOrder.without isGap = twoInScope.without isGap ∧ tree.operators = operatorsOf twoInScope ∧
    (∀ part, Relation.ReflTransGen (IsOperand .parentheses) twoInScope part → ¬ LosesText .parentheses part) ∧
    ∀ part, Relation.ReflTransGen (IsOperand .parentheses) twoInScope part → ¬ LosesOperator .parentheses part := by
  obtain ⟨tree, htree, hwhole⟩ := exists_ok (x := combinationTree .parentheses 5 twoInScope)
    (p := fun tree => decide (tree.inOrder.without isGap = twoInScope.without isGap ∧
      tree.operators = operatorsOf twoInScope)) (by decide +kernel)
  obtain ⟨hinOrder, hoperators⟩ := of_decide_eq_true hwhole
  obtain ⟨-, -, htext, hevery⟩ := combinationTree_inOrder htree
  exact ⟨tree, htree, hinOrder, hoperators, htext.1 hinOrder, hevery.1 hoperators⟩

/-- Two combinations, of which one is a level further in. -/
def unevenSiblings : Text := "((a [AND] b)) (((c [OR] d)))".toList

theorem deeper_sibling_lost : ¬ ∀ (limit : Nat) (text : Text) (tree : Node),
    combinationTree .parentheses limit text = .ok tree →
      tree.inOrder.without isGap = text.without isGap ∧ tree.operators = operatorsOf text := by
  intro hall
  obtain ⟨tree, htree, hlost⟩ := exists_ok (x := combinationTree .parentheses 5 unevenSiblings)
    (p := fun tree => decide (tree.operators ≠ operatorsOf unevenSiblings)) (by decide +kernel)
  exact of_decide_eq_true hlost (hall 5 unevenSiblings tree htree).2

end InstitutionalGrammar
