/-
  InstitutionalGrammar.Proofs.Plain.Combined — nested statements combined inside one block.

  - `TaggedTree`: statements in blocks behind tags, joined by operators.
  - `mapLeavesM_tagged`: the leaves are read one after another, as long as all tags are the first one.
  - `attachCombination_tagged`, `attachCombination_foreign`: a combination fills the complex slot of the
    block around it if all its tags are the component of that block, and is refused otherwise.
  - `parse_combined`: the parse of one such block.
-/

import InstitutionalGrammar.Proofs.Combination.Chain
import InstitutionalGrammar.Proofs.Plain.Blocks

namespace InstitutionalGrammar

/-- Statements joined by operators, each in a block behind its tag. -/
inductive TaggedTree where
  | leaf (tag : Component) (statement : Statement)
  | combination (operator : Operator) (left right : TaggedTree)

namespace TaggedTree

/-- Leaves are written as tagged blocks, combinations in braces of their own. -/
def body : TaggedTree → Text
  | leaf tag s => blockText tag s.render
  | combination o l r => Piece.braced (l.body ++ ' ' :: (o.token ++ ' ' :: r.body))

/-- The tree of the text, before the leaves are read. -/
def coded : TaggedTree → Node
  | leaf tag s => .coded (blockText tag s.render)
  | combination o l r => .combination o l.coded r.coded {} []

/-- The tree of the statements. -/
def tree : TaggedTree → Node
  | leaf tag s => (Node.nested s).withComponent tag
  | combination o l r => .combination o l.tree r.tree {} []

def height : TaggedTree → Nat
  | leaf .. => 0
  | combination _ l r => max l.height r.height + 1

/-- The tags with their statements, from left to right. -/
def leaves : TaggedTree → List (Component × Statement)
  | leaf tag s => [(tag, s)]
  | combination _ l r => l.leaves ++ r.leaves

/-- The tag of the leftmost leaf. -/
def first : TaggedTree → Component
  | leaf tag _ => tag
  | combination _ l _ => l.first

/-- All operators are written and all statements are plain. -/
inductive Plain : TaggedTree → Prop
  | leaf {tag : Component} {s : Statement} : s.Plain → (leaf tag s).Plain
  | combination {o : Operator} {l r : TaggedTree} : o.isSynthetic = false → l.Plain → r.Plain →
      (combination o l r).Plain

variable {t : TaggedTree}

theorem first_mem (t : TaggedTree) : ∃ s, (t.first, s) ∈ t.leaves := by
  induction t with
  | leaf tag s => exact ⟨s, by simp [leaves, first]⟩
  | combination o l r ihl _ =>
    obtain ⟨s, hs⟩ := ihl
    exact ⟨s, by simp [leaves, first, hs]⟩

theorem height_coded (t : TaggedTree) : t.coded.height = t.height := by
  induction t with
  | leaf tag s => rfl
  | combination o l r ihl ihr => rw [coded, Node.height, ihl, ihr, height]

theorem write_coded (t : TaggedTree) : t.coded.write .braces = t.body := by
  induction t with
  | leaf tag s => exact Node.write_coded _ _
  | combination o l r ihl ihr =>
    rw [coded, write_combination, ihl, ihr, body, Piece.braced]
    simp [Marks.lead, Marks.trail]

theorem hasShared_coded (t : TaggedTree) : t.coded.hasShared = false := by
  induction t with
  | leaf tag s => rfl
  | combination o l r ihl ihr => simp [coded, Node.hasShared, ihl, ihr]

theorem unsuffixed_tree (t : TaggedTree) : t.tree.Unsuffixed := by
  induction t with
  | leaf tag s => rfl
  | combination o l r ihl ihr => exact ⟨rfl, ihl, ihr⟩

theorem isLeaf_coded (h : 1 ≤ t.height) : t.coded.isLeaf = false := by
  cases t with
  | leaf tag s => cases h
  | combination o l r => rfl

namespace Plain

theorem statement (h : t.Plain) : ∀ x ∈ t.leaves, x.2.Plain := by
  induction h with
  | leaf hs =>
    intro x hx
    rw [List.mem_singleton.1 hx]
    exact hs
  | combination _ _ _ ihl ihr =>
    intro x hx
    rcases List.mem_append.1 hx with hx | hx
    · exact ihl x hx
    · exact ihr x hx

/-- The tree of the text is a coded one. -/
theorem coded (h : t.Plain) : t.coded.Coded (Atom .braces) := by
  induction h with
  | @leaf tag s hs => exact .leaf (blockText_atom tag (hs.arranged_render.atom hs).tidy)
  | @combination o l r ho _ _ ihl ihr => exact @Node.Coded.combination _ o _ _ none none ho ihl ihr nofun nofun

theorem tidy_body (h : t.Plain) : Tidy t.body := by
  rw [← t.write_coded]
  exact h.coded.tidy

/-- The braces of a combination enclose all of it. -/
theorem exists_inner (h : t.Plain) (hcomb : 1 ≤ t.height) : ∃ inner, t.body = Piece.braced inner ∧ Tidy inner := by
  cases h with
  | leaf hs => cases hcomb
  | combination ho hl hr =>
    exact ⟨_, rfl, hl.tidy_body.append (.char (by decide) (.operator ho (.char (by decide) hr.tidy_body)))⟩

/-- All leaves of the tree of the text are tagged blocks. -/
theorem allM_leaves (h : t.Plain) : t.coded.leaves.allM isTaggedLeaf = .ok true := by
  have hall : ∀ n ∈ t.coded.leaves, isTaggedLeaf n = .ok true := by
    induction h with
    | @leaf tag s hs =>
      intro n hn
      rw [List.mem_singleton.1 hn]
      have hread := TaggedBlock.read_blockText tag (hs.arranged_render.atom hs).tidy
      unfold isTaggedLeaf
      simp only [TaggedTree.coded, Node.coded, Node.text?, hread, ok_bind]
      rfl
    | combination _ _ _ ihl ihr =>
      intro n hn
      rcases List.mem_append.1 hn with hn | hn
      · exact ihl n hn
      · exact ihr n hn
  generalize t.coded.leaves = ns at hall
  induction ns with
  | nil => rfl
  | cons n ns ih =>
    rw [List.allM, hall n (by simp), ok_bind]
    exact ih fun m hm => hall m (by simp [hm])

/-- A block whose tree is one of tagged blocks is a combination of nested statements. -/
theorem taggedContent_eq (h : t.Plain) (hheight : 1 ≤ t.height) {limit : Nat} {inner : Text}
    (htree : combinationTree .braces limit (Piece.braced inner) = .ok t.coded) (header : Header)
    (hn : header.component.nests = true) :
    taggedContent limit header inner (Piece.braced inner) = .ok (.combined header t.coded) := by
  unfold taggedContent taggedTree?
  simp only [hn, htree, isLeaf_coded hheight, t.hasShared_coded, h.allM_leaves, ok_bind]
  rfl

end Plain

end TaggedTree

/-! ## Reading the leaves -/

theorem lift_ok_bind {σ α β : Type} (a : α) (f : α → StateT σ Report β) :
    ((liftM (Except.ok a : Outcome α) : StateT σ Report α) >>= f) = f a := rfl

section Leaf

variable {read : Text → Report Node} {raw inner : Text} {c : Component} {n : Node}

/-- The first tagged block, or one with the tag of those before it, is read. -/
theorem nestedLeaf_same (h : Tidy inner) (hread : read inner = .done n) {tag : Option Component}
    (htag : tag.getD c = c) :
    (nestedLeaf read raw (.coded (blockText c inner))).run tag = .done (n.label c none none, some c) := by
  have hblock := TaggedBlock.read_blockText c h
  unfold nestedLeaf
  simp only [Node.coded, Node.text?, Option.getD_some, hblock, lift_ok_bind, Component.headerAt, hread]
  cases tag with
  | none => rfl
  | some d =>
    obtain rfl : d = c := htag
    simp only [StateT.run_bind, StateT.run_get, pure_bind, ne_eq, not_true_eq_false, if_false]
    rfl

/-- A block with another tag than those before it is refused. -/
theorem nestedLeaf_foreign (h : Tidy inner) {d : Component} (hd : d ≠ c) :
    (nestedLeaf read raw (.coded (blockText c inner))).run (some d) =
      .failed (.invalidNestedCombination raw (mixedReason d c)) := by
  have hblock := TaggedBlock.read_blockText c h
  unfold nestedLeaf
  simp only [Node.coded, Node.text?, Option.getD_some, hblock, lift_ok_bind, Component.headerAt]
  simp only [StateT.run_bind, StateT.run_get, pure_bind, ne_eq, hd, not_false_eq_true, if_true]
  rfl

end Leaf

section Leaves

variable {read : Text → Report Node} {t : TaggedTree}

/-- The leaves are read from left to right; one is refused if its tag is not that of the first. -/
theorem mapLeavesM_tagged (raw : Text) (h : t.Plain) (hread : ∀ x ∈ t.leaves, read x.2.render = .done (.nested x.2))
    (tag : Option Component) :
    ((∀ x ∈ t.leaves, x.1 = tag.getD t.first) →
      (t.coded.mapLeavesM (nestedLeaf read raw)).run tag = .done (t.tree, some (tag.getD t.first))) ∧
    ((¬ ∀ x ∈ t.leaves, x.1 = tag.getD t.first) →
      ∃ reason, (t.coded.mapLeavesM (nestedLeaf read raw)).run tag =
        .failed (.invalidNestedCombination raw reason)) := by
  induction h generalizing tag with
  | @leaf c s hs =>
    have htidy := (hs.arranged_render.atom hs).tidy
    have hdone : read s.render = .done (.nested s) := hread (c, s) (by simp [TaggedTree.leaves])
    have hmap : (TaggedTree.leaf c s).coded.mapLeavesM (nestedLeaf read raw) =
        nestedLeaf read raw (.coded (blockText c s.render)) := rfl
    rw [hmap]
    constructor
    · intro hsame
      have htag : tag.getD c = c := (hsame (c, s) (by simp [TaggedTree.leaves])).symm
      rw [nestedLeaf_same htidy hdone htag]
      simp only [TaggedTree.first, htag]
      rfl
    · intro hmixed
      cases tag with
      | none => exact absurd (by simp [TaggedTree.leaves, TaggedTree.first]) hmixed
      | some d =>
        have hd : d ≠ c := by
          intro e
          exact hmixed (by simp [TaggedTree.leaves, e])
        exact ⟨_, nestedLeaf_foreign htidy hd⟩
  | @combination o l r ho hl hr ihl ihr =>
    let first := tag.getD l.first
    obtain ⟨hleft, hleft'⟩ := ihl (fun x hx => hread x (by simp [TaggedTree.leaves, hx])) tag
    obtain ⟨hright, hright'⟩ := ihr (fun x hx => hread x (by simp [TaggedTree.leaves, hx])) (some first)
    have hmap : ((TaggedTree.combination o l r).coded.mapLeavesM (nestedLeaf read raw)).run tag =
        (l.coded.mapLeavesM (nestedLeaf read raw)).run tag >>= fun a =>
          (r.coded.mapLeavesM (nestedLeaf read raw)).run a.2 >>= fun b =>
            .done (.combination o a.1 b.1 {} [], b.2) := by
      simp only [TaggedTree.coded, Node.mapLeavesM, StateT.run_bind]
      rfl
    have hfirst : tag.getD (TaggedTree.combination o l r).first = first := rfl
    rw [hmap, hfirst]
    by_cases hl' : ∀ x ∈ l.leaves, x.1 = first
    · rw [hleft hl', Report.done_bind]
      by_cases hr' : ∀ x ∈ r.leaves, x.1 = first
      · rw [hright hr', Report.done_bind]
        refine ⟨fun _ => rfl, fun hmixed => absurd ?_ hmixed⟩
        intro x hx
        rcases List.mem_append.1 hx with hx | hx
        · exact hl' x hx
        · exact hr' x hx
      · obtain ⟨reason, hfail⟩ := hright' hr'
        rw [hfail, Report.failed_bind]
        refine ⟨fun hsame => absurd (fun x hx => hsame x ?_) hr', fun _ => ⟨reason, rfl⟩⟩
        simp [TaggedTree.leaves, hx]
    · obtain ⟨reason, hfail⟩ := hleft' hl'
      rw [hfail, Report.failed_bind]
      refine ⟨fun hsame => absurd (fun x hx => hsame x ?_) hl', fun _ => ⟨reason, rfl⟩⟩
      simp [TaggedTree.leaves, hx]

/-- A combination under one tag goes into the complex slot of that component. -/
theorem attachCombination_tagged (raw : Text) (h : t.Plain) (hread : ∀ x ∈ t.leaves, read x.2.render = .done (.nested x.2))
    {header : Header} (hsame : ∀ x ∈ t.leaves, x.1 = header.component) (s : Statement) :
    attachCombination read raw header t.coded s = liftM (s.nest header.component (header.label t.tree)) := by
  obtain ⟨u, hu⟩ := t.first_mem
  have hfirst : t.first = header.component := hsame _ hu
  have hrun := (mapLeavesM_tagged raw h hread none).1 (by simpa [hfirst] using hsame)
  unfold attachCombination
  simp only [hrun, Report.done_bind, Option.getD_some, Option.getD_none, hfirst, ne_eq, not_true_eq_false, if_false]

/-- A combination with another tag than that of the block around it is refused. -/
theorem attachCombination_foreign (raw : Text) (h : t.Plain) (hread : ∀ x ∈ t.leaves, read x.2.render = .done (.nested x.2))
    {header : Header} (hother : ¬ ∀ x ∈ t.leaves, x.1 = header.component) (s : Statement) :
    ∃ reason, attachCombination read raw header t.coded s = .failed (.invalidNestedCombination raw reason) := by
  obtain ⟨hrun, hmixed⟩ := mapLeavesM_tagged raw h hread none
  unfold attachCombination
  by_cases hsame : ∀ x ∈ t.leaves, x.1 = t.first
  · have hne : t.first ≠ header.component := fun e => hother (e ▸ hsame)
    refine ⟨foreignReason t.first header.component, ?_⟩
    simp only [hrun hsame, Report.done_bind, Option.getD_some, Option.getD_none, ne_eq, hne, not_false_eq_true, if_true]
    rfl
  · obtain ⟨reason, hfail⟩ := hmixed hsame
    refine ⟨reason, ?_⟩
    rw [hfail, Report.failed_bind]

end Leaves

/-! ## One block -/

section Block

variable {read : Text → Report Node} {t : TaggedTree} {c : Component} {b : Block} {off : Nat}

theorem attachBlocks_tagged (options : Options) (h : t.Plain) (hread : ∀ x ∈ t.leaves, read x.2.render = .done (.nested x.2))
    (hsame : ∀ x ∈ t.leaves, x.1 = c) (hc : c.nests = true) (hb : b.content = .combined (c.headerAt off .braces) t.coded)
    (atomic : Text) :
    attachBlocks options read ⟨atomic, [b]⟩ .empty = .done (.single (.complex c hc) (t.tree.label c none none)) := by
  have hattach : attachCombination read b.raw (c.headerAt off .braces) t.coded .empty =
      .done (.single (.complex c hc) (t.tree.label c none none)) := by
    have hnest := Statement.nest_fresh (s := .empty) hc (t.tree.label c none none) rfl
    rw [attachCombination_tagged b.raw h hread hsame]
    exact congrArg liftM hnest
  unfold attachBlocks
  simp only [attachCombinations, nestedGroups, hb, hattach, Report.done_bind]
  rfl

theorem attachBlocks_foreign (options : Options) (h : t.Plain) (hread : ∀ x ∈ t.leaves, read x.2.render = .done (.nested x.2))
    (hother : ¬ ∀ x ∈ t.leaves, x.1 = c) (hb : b.content = .combined (c.headerAt off .braces) t.coded)
    (atomic : Text) :
    ∃ reason, attachBlocks options read ⟨atomic, [b]⟩ .empty =
      .failed (.invalidNestedCombination b.raw reason) := by
  have hother' : ¬ ∀ x ∈ t.leaves, x.1 = (c.headerAt off .braces).component := hother
  obtain ⟨reason, hattach⟩ := attachCombination_foreign b.raw h hread hother' .empty
  refine ⟨reason, ?_⟩
  unfold attachBlocks
  simp only [attachCombinations, hb, hattach, Report.failed_bind]

end Block

/-- A combination of nested statements inside one block is read exactly if every tag in it is the
    component of the block, and refused otherwise. -/
theorem parse_combined {c : Component} (hc : c.nests = true) {t : TaggedTree} (ht : t.Plain) (hcomb : 1 ≤ t.height)
    {options : Options} (hlimit : t.height ≤ options.depthLimit)
    (hnesting : ∀ x ∈ t.leaves, x.2.nesting + 1 ≤ options.depthLimit)
    (hheight : ∀ x ∈ t.leaves, ∀ u ∈ x.2.statements, ∀ p ∈ u.populated, p.2.height ≤ options.depthLimit) :
    ((∀ x ∈ t.leaves, x.1 = c) → parse options (c.symbol ++ t.body) =
      .ok ⟨.nested (.single (.complex c hc) (t.tree.withComponent c)), []⟩) ∧
    ((¬ ∀ x ∈ t.leaves, x.1 = c) → ∃ r x, parse options (c.symbol ++ t.body) = .error r ∧
      r.cause = .rejected x ∧ x.code = "INVALID_NESTED_COMBINATION") := by
  have hread : ∀ x ∈ t.leaves, Reading.within options options.depthLimit x.2.render = .done (.nested x.2) := by
    intro x hx
    have hx' := ht.statement x hx
    exact within_arranged hx'.arranged_render hx' (hnesting x hx) (hheight x hx)
  obtain ⟨inner, hinner, htidy⟩ := ht.exists_inner hcomb
  have htree : combinationTree .braces options.depthLimit (Piece.braced inner) = .ok t.coded := by
    rw [← hinner, ← t.write_coded]
    have hbudget : t.coded.height < options.depthLimit + 1 := by
      rw [t.height_coded]
      omega
    have hbuilt : treeWithin .braces options.depthLimit (options.depthLimit + 1)
        ([] ++ (t.coded.write .braces ++ [])) = .ok t.coded := treeWithin_write ht.coded hbudget rfl rfl
    rw [List.append_nil] at hbuilt
    exact hbuilt
  let b : Block := ⟨0, 0 + (blockText c inner).size, blockText c inner, .combined (c.headerAt 0 .braces) t.coded⟩
  have hbs : blocksOf options.depthLimit 0 [.block (some c) inner] = .ok [b] := by
    simp only [blocksOf, Piece.blocks, Piece.meaning, ht.taggedContent_eq hcomb htree (c.headerAt 0 .braces) hc, ok_bind]
    rfl
  have hsound : ∀ x ∈ [Piece.block (some c) inner], x.Sound ∧ x.isContent = false := by
    intro x hx
    rw [List.mem_singleton.1 hx]
    exact ⟨htidy, rfl⟩
  have htext : c.symbol ++ t.body = [Piece.block (some c) inner].flatMap Piece.written := by
    simp [written_block, blockText, hinner]
  unfold parse Reading.of
  rw [htext]
  constructor
  · intro hsame
    have hattach := attachBlocks_tagged options (b := b) ht hread hsame hc rfl
      (atomicOf [.block (some c) inner])
    have hlabel : t.tree.label c none none = t.tree.withComponent c := by
      cases t with
      | leaf tag s => rfl
      | combination o l r => rfl
    rw [Reading.step_blocks hsound hbs rfl hattach (Statement.unsuffixed_single (t.unsuffixed_tree.label c))
      (Statement.isEmpty_eq_false (Statement.get_single_self _ _)), hlabel]
    rfl
  · intro hother
    obtain ⟨reason, hattach⟩ := attachBlocks_foreign options (b := b) ht hread hother rfl
      (atomicOf [.block (some c) inner])
    rw [Reading.step_refused hsound hbs hattach]
    exact ⟨_, _, rfl, rfl, rfl⟩

/-- Conditions under two operators. -/
def TaggedTree.twoOperators (c : Component) : TaggedTree :=
  let block (c : Component) (v : Char) := leaf c (.only .aim [v])
  .combination .or (.combination .and (block .activationCondition 'x') (block c 'y')) (block .activationCondition 'z')

theorem parse_combined_twoOperators :
    parse {} ("Cac".toList ++ (TaggedTree.twoOperators .activationCondition).body) =
      .ok ⟨.nested (.single (.complex .activationCondition rfl)
        ((TaggedTree.twoOperators .activationCondition).tree.withComponent .activationCondition)), []⟩ ∧
    ∃ r x, parse {} ("Cac".toList ++ (TaggedTree.twoOperators .executionConstraint).body) = .error r ∧
      r.cause = .rejected x ∧ x.code = "INVALID_NESTED_COMBINATION" := by
  have hplain : ∀ c, (TaggedTree.twoOperators c).Plain := by
    intro c
    have hblock : ∀ e v, PlainText [v] → (TaggedTree.leaf e (.only .aim [v])).Plain :=
      fun e v hv => .leaf (Statement.plain_only .aim hv)
    exact .combination rfl (.combination rfl (hblock _ _ (by decide)) (hblock _ _ (by decide))) (hblock _ _ (by decide))
  constructor
  · exact (parse_combined (c := .activationCondition) rfl (hplain _) (by decide) (by decide) (by decide +kernel)
      (by decide +kernel)).1 (by decide +kernel)
  · exact (parse_combined (c := .activationCondition) rfl (hplain _) (by decide) (by decide) (by decide +kernel)
      (by decide +kernel)).2 (by decide +kernel)

end InstitutionalGrammar
