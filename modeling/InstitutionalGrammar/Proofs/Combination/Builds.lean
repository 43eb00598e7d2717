/-
  InstitutionalGrammar.Proofs.Combination.Builds — the tree of a content, apart from limits.

  A limit can stop the building of a tree but does not change it, and one of as many combinations as there are operators
  stops nothing. So it can be said what is built from a text without a limit. That depends on the table of the text
  alone, and not on blanks at its ends.
  - `Builds`: the tree that is built from a content; `builds_iff`: under any limit that lasts.
  - `Builds.congr`: texts with the same table.
  - `builds_pad`: blanks at the ends.
-/

import InstitutionalGrammar.Proofs.Combination.Accepted
import InstitutionalGrammar.Proofs.Combination.Surrounded
import InstitutionalGrammar.Proofs.Depth.Guard

namespace InstitutionalGrammar

variable {text text' w w' x : Text} {tree : Node} {limit budget : Nat} {table : SpanTable} {σ : List Scope}

/-- The tree is built from the content under some limit. -/
def Builds (text : Text) (tree : Node) : Prop := ∃ limit budget, treeWithin .parentheses limit budget text = .ok tree

theorem Builds.within (h : treeWithin .parentheses limit budget text = .ok tree) : Builds text tree := ⟨limit, budget, h⟩

/-- It is built under any budget of more than the operators of the text. -/
theorem builds_iff (hbudget : operatorCount text < budget) (limit : Nat) :
    Builds text tree ↔ treeWithin .parentheses limit budget text = .ok tree := by
  refine ⟨?_, Builds.within⟩
  rintro ⟨limit', budget', htree⟩
  have hlasts : Meets Failure.Ordinary (·.Drawn text) (treeWithin .parentheses limit budget text) :=
    treeWithin_drawn (fun _ h => h) .parentheses (Or.inr hbudget)
  rcases Nat.le_total budget budget' with hle | hle
  · rcases treeWithin_guarded .parentheses hle text with hstop | hsame
    · exact absurd rfl (hlasts.failure hstop limit)
    · rw [← hsame, htree]
  · have hguarded : Guarded limit' (treeWithin .parentheses limit' budget' text)
        (treeWithin .parentheses limit budget text) := treeWithin_guarded .parentheses hle text
    rcases hguarded with hstop | hsame
    · rw [hstop] at htree
      cases htree
    · rw [hsame, htree]

theorem Builds.spanTable (h : Builds text tree) : ∃ table, spanTable .parentheses text = .ok table := by
  obtain ⟨limit, budget, h⟩ := h
  cases budget with
  | zero => cases h
  | succ budget =>
    obtain ⟨table, htable, -⟩ := bind_eq_ok.1 h
    exact ⟨table, htable⟩

/-- No header has labelled the tree. -/
theorem Builds.unlabelled (h : Builds text tree) : tree.Unlabelled Node.Coding := by
  obtain ⟨limit, budget, h⟩ := h
  refine (treeWithin_meets (fun table _ _ => ?_) limit budget text).value h
  refine (leafOf_meets .parentheses table.input).weaken fun n hn => ?_
  obtain ⟨v, rfl, -⟩ := hn
  exact ⟨⟨⟨v, rfl⟩, nofun, rfl⟩, nofun⟩

theorem builds_of_step (h : ∀ build, treeStep .parentheses build text = .ok tree ↔ treeStep .parentheses build text' = .ok tree) :
    Builds text tree ↔ Builds text' tree := by
  constructor
  · rintro ⟨limit, budget, htree⟩
    cases budget with
    | zero => cases htree
    | succ budget => exact ⟨limit, budget + 1, (h _).1 htree⟩
  · rintro ⟨limit, budget, htree⟩
    cases budget with
    | zero => cases htree
    | succ budget => exact ⟨limit, budget + 1, (h _).2 htree⟩

/-- Only the table of the text counts. -/
theorem Builds.congr (h : InstitutionalGrammar.spanTable .parentheses text = InstitutionalGrammar.spanTable .parentheses text') :
    Builds text tree ↔ Builds text' tree :=
  builds_of_step fun build => by rw [treeStep, treeStep, h]

/-! ## Blanks at the ends -/

/-- A leaf is that of the trimmed text; only the error tells whose text is blank. -/
theorem leafOf_of_trim {d : Delimiters} (h : leafOf d x = .ok tree) (htrim : text.trim = x.trim) :
    leafOf d text = .ok tree := by
  have hvalue : ∀ value : Text,
      (do if value.isEmpty then reject (.emptyOperand x (Position.locate x 0))
          return Node.text value : Outcome Node) = .ok tree →
      (do if value.isEmpty then reject (.emptyOperand text (Position.locate text 0))
          return Node.text value : Outcome Node) = .ok tree := by
    intro value hvalue
    cases hempty : value.isEmpty with
    | true =>
      rw [hempty] at hvalue
      cases hvalue
    | false =>
      rw [hempty] at hvalue
      exact hvalue
  unfold leafOf at h ⊢
  obtain ⟨enclosed, henclosed, h⟩ := bind_eq_ok.1 h
  rw [htrim]
  refine bind_eq_ok.2 ⟨enclosed, henclosed, ?_⟩
  cases enclosed with
  | false => exact hvalue x.trim h
  | true =>
    obtain ⟨part, hpart, h⟩ := bind_eq_ok.1 h
    exact bind_eq_ok.2 ⟨part, hpart, hvalue part.trim h⟩

theorem gauge_pad (hw : Text.allBlank w = true) (hw' : Text.allBlank w' = true) :
    gauge σ (lex (w ++ (x ++ w'))) = gauge σ (lex x) := by
  rw [gauge_behind_blank hw, gauge_blank hw']

theorem balanced_pad (hw : Text.allBlank w = true) (hw' : Text.allBlank w' = true) {e : Delimiters} :
    Balanced e (w ++ (x ++ w')) ↔ Balanced e x := by
  have hend := Balanced.insert_iff (a := x) (b := []) (Balanced.of_allBlank (e := e) hw')
  rw [List.append_nil, List.append_nil] at hend
  rw [← hend]
  exact Balanced.insert_iff (a := []) (Balanced.of_allBlank hw)

/-- With blanks at its ends, a text has the table that it has without. -/
theorem spanTable_pad (h : spanTable .parentheses x = .ok table) (hw : Text.allBlank w = true)
    (hw' : Text.allBlank w' = true) : ∃ whole, spanTable .parentheses (w ++ (x ++ w')) = .ok whole ∧
      SpanTable.Surrounds .parentheses [] w w' [] 0 table whole := by
  have hbalanced := (spanTable_settles h).1
  have hplaced := spanTable_placed h
  have hloose := Loose.of_allBlank hw' (b := []) nofun
  rw [List.append_nil] at hloose
  have hembedded : Embedded .parentheses w x w' := ⟨hbalanced, nofun, hloose⟩
  have hswept : SweptTo .parentheses w [] [] := fun v => sweepFrom_plain (plain_of_allBlank hw) _
  obtain ⟨nonShared, htable⟩ := spanTable_past h hswept hembedded (fun e => (balanced_pad hw hw').2 (hbalanced e))
    (table.spans.map (·.behind w.size 0)) (by
      rw [← List.append_nil w', sweepFrom_plain (plain_of_allBlank hw'), sweepFrom_nil, List.append_nil]
      rfl)
  refine ⟨_, htable, hplaced, ⟨hw, hw'⟩, by simp, ⟨[], by simp, nofun⟩, fun s hs hfirst => ?_⟩
  have hmem : s.behind w.size 0 ∈ table.spans.map (·.behind w.size 0) := List.mem_map_of_mem hs
  refine ((spanTable_placed htable).scope_outer hmem hfirst).trans ?_
  simp only [List.nil_append, Text.size_append, Text.size_nil, Nat.add_assoc]

/-- Blanks at the ends do not matter to the tree. -/
theorem builds_pad (hx : requireBalanced x = .ok ()) (hw : Text.allBlank w = true) (hw' : Text.allBlank w' = true) :
    Builds (w ++ (x ++ w')) tree ↔ Builds x tree := by
  by_cases h : ∃ table, spanTable .parentheses x = .ok table
  · obtain ⟨table, htable⟩ := h
    obtain ⟨whole, hwhole, hsurrounds⟩ := spanTable_pad htable hw hw'
    refine builds_of_step fun build => ?_
    by_cases hcombination : ∃ s ∈ table.spans, s.isCombination = true
    · rw [hsurrounds.treeStep_eq htable hwhole hcombination]
    · -- both are leaves
      have hnone : ∀ s ∈ table.spans, s.isCombination = false := by simpa using hcombination
      have hnone' : ∀ s ∈ whole.spans, s.isCombination = false := by
        obtain ⟨around, hspans, haround⟩ := hsurrounds.spans
        rw [hspans]
        intro s hs
        rcases List.mem_append.1 hs with hs | hs
        · obtain ⟨e, he, rfl⟩ := List.mem_map.1 hs
          rw [Span.isCombination_behind, hnone e he]
        · exact (haround s hs).1
      unfold treeStep
      rw [htable, hwhole, ok_bind, ok_bind, SpanTable.outermostLevel?_eq_none hnone, SpanTable.outermostLevel?_eq_none hnone',
        hsurrounds.input, List.nil_append, List.append_nil, ← List.append_assoc]
      have htrim := Text.trim_pad (t := table.input) hw hw'
      exact ⟨fun h => leafOf_of_trim h htrim.symm, fun h => leafOf_of_trim h htrim⟩
  · have hpadded : requireBalanced (w ++ (x ++ w')) = .ok () :=
      requireBalanced_iff.2 fun e => (balanced_pad hw hw').2 (requireBalanced_iff.1 hx e)
    refine iff_of_false (fun hbuilds => h ?_) fun hbuilds => h hbuilds.spanTable
    rw [exists_spanTable_iff hx, ← gauge_pad hw hw']
    exact (exists_spanTable_iff hpadded).1 hbuilds.spanTable

end InstitutionalGrammar
