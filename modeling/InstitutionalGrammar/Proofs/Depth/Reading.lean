/-
  InstitutionalGrammar.Proofs.Depth.Reading — one text read under two limits.

  Whatever reads the texts inside a text is guarded if it is guarded on those texts; so reading is, by
  induction on the depth, unless a combination in one of these texts is overlooked.
  - `Reading.step_guarded`, `Reading.within_guarded`: a text, and what is inside it at any depth.
  - `parse_deeper`: a larger limit changes a result only where a combination was overlooked.
  - `combination_overlooked`: one that is.
-/

import Mathlib.Logic.Relation
import InstitutionalGrammar.Proofs.Depth.Guard
import InstitutionalGrammar.Proofs.Ownership.Pairs

namespace InstitutionalGrammar

open Node

/-- The guard stopped the first computation, or the second one is the same. -/
def Report.Guarded {α : Type} (limit : Nat) (x y : Report α) : Prop :=
  x.result = reject (.nestingTooDeep limit) ∨ y = x

/-- The same of computations that go on from any state. -/
def RunsGuarded {σ α : Type} (limit : Nat) (x y : StateT σ Report α) : Prop :=
  ∀ s, Report.Guarded limit (x.run s) (y.run s)

namespace Report.Guarded

variable {α β : Type} {limit : Nat} {x y : Report α}

theorem refl (x : Report α) : Guarded limit x x := Or.inr rfl

theorem bind {f g : α → Report β} (h : Guarded limit x y) (hf : ∀ a, x.result = .ok a → Guarded limit (f a) (g a)) :
    Guarded limit (x >>= f) (y >>= g) := by
  obtain ⟨ignored, result⟩ := x
  rcases h with rfl | rfl
  · exact Or.inl rfl
  · cases result with
    | error e => exact refl _
    | ok a =>
      rcases hf a rfl with hstop | hsame
      · exact Or.inl hstop
      · exact Or.inr (congrArg (fun r : Report β => Report.mk (ignored ++ r.ignored) r.result) hsame)

end Report.Guarded

namespace RunsGuarded

variable {σ α β : Type} {limit : Nat}

theorem refl (x : StateT σ Report α) : RunsGuarded limit x x := fun _ => .refl _

theorem bind {x y : StateT σ Report α} {f g : α → StateT σ Report β} (h : RunsGuarded limit x y)
    (hf : ∀ a, RunsGuarded limit (f a) (g a)) : RunsGuarded limit (x >>= f) (y >>= g) :=
  fun s => (h s).bind fun r _ => hf r.1 r.2

theorem lift {x y : Report α} (h : Report.Guarded limit x y) : RunsGuarded limit (liftM x : StateT σ Report α) (liftM y) :=
  fun _ => h.bind fun _ _ => .refl _

/-- Going on from a value that does not depend on the state. -/
theorem lift_bind {x : Outcome α} {f g : α → StateT σ Report β} (hf : ∀ a, x = .ok a → RunsGuarded limit (f a) (g a)) :
    RunsGuarded limit (liftM x >>= f) (liftM x >>= g) := by
  intro s
  refine Report.Guarded.bind (.refl ((liftM x : StateT σ Report α).run s)) fun r hr => ?_
  cases x with
  | error e => cases hr
  | ok a =>
    cases hr
    exact hf a rfl s

end RunsGuarded

/-- Replacing leaves in some monad by computations that are related. -/
theorem Node.mapLeavesM_related {M : Type → Type} [Monad M] (Rel : M Node → M Node → Prop)
    (hbind : ∀ {x y : M Node} {f g : Node → M Node}, Rel x y → (∀ a, Rel (f a) (g a)) → Rel (x >>= f) (y >>= g))
    (hpure : ∀ a, Rel (pure a) (pure a)) {f g : Node → M Node} {tree : Node}
    (h : ∀ leaf ∈ tree.leaves, Rel (f leaf) (g leaf)) : Rel (tree.mapLeavesM f) (tree.mapLeavesM g) := by
  induction tree with
  | leaf e m p => exact h _ (List.mem_singleton_self _)
  | combination o l r m p ihl ihr =>
    rw [leaves] at h
    rw [mapLeavesM, mapLeavesM]
    refine hbind (ihl fun leaf hleaf => h leaf (List.mem_append_left _ hleaf)) fun l' => ?_
    refine hbind (ihr fun leaf hleaf => h leaf (List.mem_append_right _ hleaf)) fun r' => ?_
    exact hpure _

variable {options : Options} {limit deeper : Nat} {read read' : Text → Report Node} {text : Text}

/-! ## Nested statements -/

theorem nestedLeaf_guarded (raw : Text) {leaf : Node}
    (hread : ∀ header inner, TaggedBlock.read (leaf.text?.getD []) = .ok (some ⟨header, inner⟩) →
      Report.Guarded limit (read inner) (read' inner)) :
    RunsGuarded limit (nestedLeaf read raw leaf) (nestedLeaf read' raw leaf) := by
  unfold nestedLeaf
  refine RunsGuarded.lift_bind fun found hfound => ?_
  cases found with
  | none => exact .refl _
  | some block =>
    obtain ⟨header, inner⟩ := block
    have hlift : RunsGuarded limit (liftM (read inner) : StateT (Option Component) Report Node) (liftM (read' inner)) :=
      .lift (hread header inner hfound)
    have hend := hlift.bind fun n => .refl (pure (header.label n))
    refine (RunsGuarded.refl _).bind fun tag => ?_
    cases tag with
    | none => exact (RunsGuarded.refl _).bind fun _ => hend
    | some c =>
      by_cases hc : c = header.component
      · simp only [hc, ne_eq, not_true_eq_false, if_false]
        exact hend
      · simp only [hc, ne_eq, not_false_eq_true, if_true]
        exact (RunsGuarded.refl _).bind fun _ => hend

theorem attachCombination_guarded (raw : Text) (header : Header) {tree : Node} (s : Statement)
    (hread : ∀ inner, (BlockContent.combined header tree).Holds inner → Report.Guarded limit (read inner) (read' inner)) :
    Report.Guarded limit (attachCombination read raw header tree s) (attachCombination read' raw header tree s) := by
  have htree : RunsGuarded limit (tree.mapLeavesM (nestedLeaf read raw)) (tree.mapLeavesM (nestedLeaf read' raw)) := by
    refine mapLeavesM_related (RunsGuarded limit) RunsGuarded.bind (fun _ => .refl _) fun leaf hleaf => ?_
    exact nestedLeaf_guarded raw fun header' inner hinner => hread inner ⟨leaf, hleaf, header', hinner⟩
  exact (htree none).bind fun _ _ => .refl _

section Blocks

variable {blocks : List Block} (hread : ∀ b ∈ blocks, ∀ inner, b.content.Holds inner →
  Report.Guarded limit (read inner) (read' inner))
include hread

theorem attachCombinations_guarded (s : Statement) :
    Report.Guarded limit (attachCombinations read s blocks) (attachCombinations read' s blocks) := by
  induction blocks generalizing s with
  | nil => exact .refl _
  | cons b blocks ih =>
    have hrest := fun s => ih (fun x hx => hread x (by simp [hx])) s
    have hb := hread b (by simp)
    rw [attachCombinations, attachCombinations]
    split
    · exact (Report.Guarded.refl _).bind fun _ _ => hrest s
    · rename_i header tree hcontent
      rw [hcontent] at hb
      exact (attachCombination_guarded b.raw header s hb).bind fun t _ => hrest t
    · exact hrest s

theorem nestedGroups_guarded (groups : List NestedGroup) :
    Report.Guarded limit (nestedGroups read groups blocks) (nestedGroups read' groups blocks) := by
  induction blocks generalizing groups with
  | nil => exact .refl _
  | cons b blocks ih =>
    have hrest := fun groups => ih (fun x hx => hread x (by simp [hx])) groups
    have hb := hread b (by simp)
    rw [nestedGroups, nestedGroups]
    split
    · rename_i header inner hcontent
      rw [hcontent] at hb
      exact (hb inner rfl).bind fun n _ => hrest _
    · exact hrest groups

end Blocks

theorem attachBlocks_guarded {outline : Outline} (s : Statement)
    (hread : ∀ b ∈ outline.blocks, ∀ inner, b.content.Holds inner → Report.Guarded limit (read inner) (read' inner)) :
    Report.Guarded limit (attachBlocks options read outline s)
      (attachBlocks { options with depthLimit := deeper } read' outline s) := by
  unfold attachBlocks
  refine (attachCombinations_guarded hread s).bind fun t _ => ?_
  exact (nestedGroups_guarded hread []).bind fun groups _ => .refl _

/-! ## Pairs -/

theorem elementOutput_guarded (outer : Statement) (raw : Text) (leaf : Node)
    (hread : Report.Guarded limit (read (leaf.text?.getD [])) (read' (leaf.text?.getD []))) :
    Report.Guarded limit (elementOutput options read outer raw leaf)
      (elementOutput { options with depthLimit := deeper } read' outer raw leaf) := by
  unfold elementOutput
  simp only
  split
  · exact .refl _
  · split
    · exact .refl _
    · exact hread.bind fun tree _ => .refl _

theorem pairOutput_guarded (outer : Statement) (raw : Text) {tree : Node}
    (hread : ∀ inner, (BlockContent.pair tree).Holds inner → Report.Guarded limit (read inner) (read' inner)) :
    Report.Guarded limit (pairOutput options read outer raw tree)
      (pairOutput { options with depthLimit := deeper } read' outer raw tree) := by
  unfold pairOutput
  refine Report.Guarded.bind ?_ fun expanded _ => .refl _
  refine mapLeavesM_related (Report.Guarded limit) (fun hx hf => hx.bind fun a _ => hf a) (fun _ => .refl _) ?_
  exact fun leaf hleaf => elementOutput_guarded outer raw leaf (hread _ ⟨leaf, hleaf, rfl⟩)

/-! ## Texts -/

namespace Reading

theorem output_guarded {outline : Outline} (s : Statement)
    (hread : ∀ b ∈ outline.blocks, ∀ inner, b.content.Holds inner → Report.Guarded limit (read inner) (read' inner)) :
    Report.Guarded limit (output options read outline s)
      (output { options with depthLimit := deeper } read' outline s) := by
  unfold output
  split
  · exact .refl _
  · rename_i raw tree hpairs
    obtain ⟨b, hb, -, hcontent⟩ := mem_pairs (hpairs ▸ List.mem_singleton_self (raw, tree))
    exact pairOutput_guarded s raw (hcontent ▸ hread b hb)
  · exact .refl _

variable (h : options.depthLimit ≤ deeper)
include h

theorem draft_guarded (hall : ¬ Outline.Overlooks options.depthLimit deeper text) :
    Guarded options.depthLimit (draft options text) (draft { options with depthLimit := deeper } text) := by
  unfold draft
  refine (Guarded.refl _).bind fun _ _ => ?_
  refine (Outline.of_guarded h hall).bind fun outline _ => ?_
  exact (atomicStatement_guarded h outline.atomic).bind fun s _ => .refl _

/-- Under the larger limit a text is read the same, unless the guard stops the reading under the other or
    a combination in the text is overlooked there. -/
theorem step_guarded (hall : ¬ Outline.Overlooks options.depthLimit deeper text)
    (hread : ∀ inner, Inside options text inner → Report.Guarded options.depthLimit (read inner) (read' inner)) :
    (step options read text).result = reject (.nestingTooDeep options.depthLimit) ∨
      step { options with depthLimit := deeper } read' text = step options read text := by
  unfold step
  rcases draft_guarded h hall with hstop | hsame
  · rw [hstop]
    exact Or.inl rfl
  · rw [hsame]
    cases hdraft : draft options text with
    | error cause => exact Or.inr rfl
    | ok d =>
      obtain ⟨outline, s⟩ := d
      have hblocks : ∀ b ∈ outline.blocks, ∀ inner, b.content.Holds inner →
          Report.Guarded options.depthLimit (read inner) (read' inner) :=
        fun b hb inner hinner => hread inner ⟨outline, outline_of_draft hdraft, b, hb, hinner⟩
      have hcomplete : Report.Guarded options.depthLimit (complete options read outline s)
          (complete { options with depthLimit := deeper } read' outline s) :=
        (attachBlocks_guarded s hblocks).bind fun t _ => .refl _
      simp only
      rcases hcomplete with hstop | hsame
      · rw [hstop]
        exact Or.inl rfl
      · rw [hsame]
        cases (complete options read outline s).result with
        | error cause => exact Or.inr rfl
        | ok t =>
          have houtput : Report.Guarded options.depthLimit (output options read outline t)
              (output { options with depthLimit := deeper } read' outline t) := output_guarded t hblocks
          rcases houtput with hstop | hsame
          · exact Or.inl hstop
          · exact Or.inr (by simp only [hsame])

/-- Nothing in the text, at whatever depth, is overlooked. -/
def Clear (options : Options) (deeper : Nat) (text : Text) : Prop :=
  ∀ inner, Relation.ReflTransGen (Inside options) text inner → ¬ Outline.Overlooks options.depthLimit deeper inner

omit h in
theorem Clear.inside {inner : Text} (hclear : Clear options deeper text) (hinner : Inside options text inner) :
    Clear options deeper inner :=
  fun text' htext' => hclear text' (Relation.ReflTransGen.head hinner htext')

theorem within_guarded {budget more : Nat} (hbudget : budget ≤ more) (hclear : Clear options deeper text) :
    Report.Guarded options.depthLimit (within options budget text)
      (within { options with depthLimit := deeper } more text) := by
  induction budget generalizing more text with
  | zero => exact Or.inl rfl
  | succ budget ih =>
    obtain ⟨more, rfl⟩ := Nat.exists_eq_add_of_lt hbudget
    have hread : ∀ inner, Inside options text inner → Report.Guarded options.depthLimit (within options budget inner)
        (within { options with depthLimit := deeper } (budget + more) inner) :=
      fun inner hinner => ih (by omega) (hclear.inside hinner)
    exact (step_guarded h (hclear text .refl) hread).imp_right (congrArg report)

end Reading

/-- Under a larger limit a parse ends as it does under the smaller one, whichever way that is, unless the
    guard stops it under the smaller one or a combination inside the text is overlooked there. -/
theorem parse_deeper (h : options.depthLimit ≤ deeper) (text : Text) :
    (∃ r, parse options text = .error r ∧ r.cause = .rejected (.nestingTooDeep options.depthLimit)) ∨
    parse { options with depthLimit := deeper } text = parse options text ∨
    ∃ inner, Relation.ReflTransGen (Reading.Inside options) text inner ∧
      Outline.Overlooks options.depthLimit deeper inner := by
  by_cases hclear : Reading.Clear options deeper text
  · have hread : ∀ inner, Reading.Inside options text inner → Report.Guarded options.depthLimit
        (Reading.within options options.depthLimit inner)
        (Reading.within { options with depthLimit := deeper } deeper inner) :=
      fun inner hinner => Reading.within_guarded h h (hclear.inside hinner)
    rcases Reading.step_guarded h (hclear text .refl) hread with hstop | hsame
    · exact Or.inl (exists_refusal hstop)
    · refine Or.inr (Or.inl ?_)
      unfold parse Reading.of
      rw [hsame]
  · unfold Reading.Clear at hclear
    simp only [not_forall, not_not] at hclear
    obtain ⟨inner, hwithin, hoverlooks⟩ := hclear
    exact Or.inr (Or.inr ⟨inner, hwithin, hoverlooks⟩)

/-- Four nested statements, joined into three combinations, each inside the next. -/
def fourNested : Text :=
  "Cac\x7bCac\x7bI(a)\x7d [AND] Cac\x7bI(b)\x7d [AND] Cac\x7bI(c)\x7d [AND] Cac\x7bI(d)\x7d\x7d".toList

/-- Whether some output statement has a single nested statement as its condition. -/
def nestsOne (p : Parsed) : Bool :=
  p.statements.any fun s => (s.get? .activationCondition .complex).any Node.isLeaf

/-- Under the limit 2 the block is one nested statement that holds the combination, under the limit 3 it
    is the combination. -/
theorem fourNested_differs : ∃ parsed deep, parse { depthLimit := 2 } fourNested = .ok parsed ∧
    parse { depthLimit := 3 } fourNested = .ok deep ∧ deep.tree ≠ parsed.tree := by
  obtain ⟨parsed, hparsed, hone⟩ := exists_ok (x := parse { depthLimit := 2 } fourNested) (p := nestsOne)
    (by decide +kernel)
  obtain ⟨deep, hdeep, hmany⟩ := exists_ok (x := parse { depthLimit := 3 } fourNested) (p := (!nestsOne ·))
    (by decide +kernel)
  refine ⟨parsed, deep, hparsed, hdeep, fun htree => ?_⟩
  have hsame : nestsOne deep = nestsOne parsed := by
    unfold nestsOne Parsed.statements
    rw [htree]
  rw [hsame, hone] at hmany
  cases hmany

theorem parse_deeper_fourNested : 2 ≤ 3 ∧ (∃ parsed, parse { depthLimit := 2 } fourNested = .ok parsed) ∧
    ∃ inner, Relation.ReflTransGen (Reading.Inside { depthLimit := 2 }) fourNested inner ∧
      Outline.Overlooks 2 3 inner := by
  obtain ⟨parsed, deep, hparsed, hdeep, hother⟩ := fourNested_differs
  refine ⟨by decide, ⟨parsed, hparsed⟩, ?_⟩
  rcases @parse_deeper { depthLimit := 2 } 3 (by decide) fourNested with hstop | hsame | hinner
  · obtain ⟨r, hr, -⟩ := hstop
    cases hparsed.symm.trans hr
  · cases hdeep.symm.trans (hsame.trans hparsed)
    exact absurd rfl hother
  · exact hinner

/-- So a larger limit can change what is read. -/
theorem combination_overlooked : ¬ ∀ (options : Options) (deeper : Nat) (text : Text) (parsed : Parsed),
    options.depthLimit ≤ deeper → parse options text = .ok parsed →
    ∃ deep, parse { options with depthLimit := deeper } text = .ok deep ∧
      deep.tree = parsed.tree ∧ deep.warnings = parsed.warnings := by
  intro hsame
  obtain ⟨parsed, deep, hparsed, hdeep, hother⟩ := fourNested_differs
  obtain ⟨deep', hdeep', htree, -⟩ := hsame { depthLimit := 2 } 3 fourNested parsed (by decide) hparsed
  cases hdeep.symm.trans hdeep'
  exact hother htree

end InstitutionalGrammar
