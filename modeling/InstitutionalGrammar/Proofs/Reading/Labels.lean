/-
  InstitutionalGrammar.Proofs.Reading.Labels — the components that the nodes of a tree are marked with.

  Building marks no node with a component, a header then marks the root. So trees that are joined
  never disagree, and joining them cannot fail.
  - `Node.Composed`: the components of all nodes of a tree.
  - `Unlabelled.combine`, `Labelled.combine`: trees of one component join.
  - `treeWithin_meets`, `componentTree?_meets`: what building a tree ends with.
-/

import InstitutionalGrammar.Proofs.Combination.Settled
import InstitutionalGrammar.Proofs.Reading.Trees

namespace InstitutionalGrammar

namespace Node

/-- Every component that a node of the tree is marked with is one of those. -/
def Composed (C : Component → Prop) : Node → Prop
  | leaf _ m _ => ∀ c ∈ m.component, C c
  | combination _ l r m _ => (∀ c ∈ m.component, C c) ∧ l.Composed C ∧ r.Composed C

namespace Composed

variable {C C' : Component → Prop} {n : Node}

theorem root (h : n.Composed C) : ∀ c ∈ n.component?, C c := by
  cases n with
  | leaf => exact h
  | combination => exact h.1

theorem mono (h : n.Composed C) (hC : ∀ c, C c → C' c) : n.Composed C' := by
  induction n with
  | leaf => exact fun c hc => hC c (h c hc)
  | combination o l r m p ihl ihr => exact ⟨fun c hc => hC c (h.1 c hc), ihl h.2.1, ihr h.2.2⟩

theorem withMarks (h : n.Composed C) {marks : Marks} (hm : ∀ c ∈ marks.component, C c) :
    (n.withMarks marks).Composed C := by
  cases n with
  | leaf => exact hm
  | combination => exact ⟨hm, h.2⟩

end Composed

/-- A tree that no header has labelled. -/
structure Unlabelled (L : Entry → Prop) (n : Node) : Prop where
  built : n.Built L
  composed : n.Composed fun _ => False

/-- A tree that is marked with the component at its root, and with no other anywhere. -/
structure Typed (c : Component) (n : Node) : Prop where
  component : n.component? = some c
  composed : n.Composed (· = c)

/-- A tree that a header of the component has labelled. -/
structure Labelled (L : Entry → Prop) (c : Component) (n : Node) : Prop extends n.Typed c where
  built : n.Built L

variable {L : Entry → Prop} {c : Component} {n l r : Node}

/-- Trees that are marked with no component but `c` join. -/
theorem combine_composed (o : Operator) (hl : l.Composed (· = c)) (hr : r.Composed (· = c)) :
    combine o l r = .ok (combination o l r { component := l.component?.or r.component? } []) := by
  unfold combine
  cases hlc : l.component? with
  | none => rfl
  | some a =>
    cases hrc : r.component? with
    | none => rfl
    | some b =>
      obtain rfl : a = c := hl.root a hlc
      obtain rfl : b = a := hr.root b hrc
      simp

namespace Unlabelled

theorem mono {L' : Entry → Prop} (h : n.Unlabelled L) (hL : ∀ e, L e → L' e) : n.Unlabelled L' :=
  ⟨h.built.mono hL, h.composed⟩

theorem component? (h : n.Unlabelled L) : n.component? = none := by
  cases hc : n.component? with
  | none => rfl
  | some c => exact (h.composed.root c hc).elim

theorem label (h : n.Unlabelled L) (c : Component) {suffix : Option Text} (hs : KeyedSuffix suffix)
    (remark : Option Text) : (n.label c suffix remark).Labelled L c where
  built := h.built.label c hs remark
  composed := (h.composed.mono nofun).withMarks fun _ hd => (Option.some.inj hd).symm
  component := by cases n <;> rfl

theorem combine (o : Operator) (hl : l.Unlabelled L) (hr : r.Unlabelled L) :
    Node.combine o l r = .ok (combination o l r {} []) ∧ (combination o l r {} []).Unlabelled L := by
  have h := combine_composed (c := .aim) o (hl.composed.mono nofun) (hr.composed.mono nofun)
  rw [hl.component?, hr.component?] at h
  exact ⟨h, ⟨hl.built, hr.built, nofun, rfl⟩, nofun, hl.composed, hr.composed⟩

end Unlabelled

namespace Labelled

theorem combine (o : Operator) (hl : l.Labelled L c) (hr : r.Labelled L c) :
    ∃ n, Node.combine o l r = .ok n ∧ n.Labelled L c := by
  refine ⟨_, combine_composed o hl.composed hr.composed, ⟨?_, ?_, hl.composed, hr.composed⟩,
    ⟨hl.built, hr.built, nofun, rfl⟩⟩
  · show l.component?.or r.component? = some c
    rw [hl.component]
    rfl
  · rw [hl.component]
    exact fun _ hd => (Option.some.inj hd).symm

/-- A header labels a tree of its component once more. -/
theorem relabel (h : n.Composed (· = c)) (hb : n.Built L) {suffix : Option Text} (hs : KeyedSuffix suffix)
    (remark : Option Text) : (n.label c suffix remark).Labelled L c where
  built := hb.label c hs remark
  composed := h.withMarks fun _ hd => (Option.some.inj hd).symm
  component := by cases n <;> rfl

end Labelled

/-- Trees of which two always join are folded into one. -/
theorem fold?_meets {F : Node → Prop} {o : Operator} (hF : ∀ l r, F l → F r → ∃ n, combine o l r = .ok n ∧ F n)
    {ns : List Node} (hns : ∀ n ∈ ns, F n) : Meets (fun _ => False) (fun t => (∀ n ∈ t, F n) ∧ (t = none → ns = []))
      (fold? o ns) := by
  refine Meets.fold? (fun l r hl hr => ?_) hns
  obtain ⟨m, hm, hFm⟩ := hF l r hl hr
  rw [hm]
  exact hFm

end Node

open Node

variable {L : Entry → Prop} {d : Delimiters}

/-! ## Leaves -/

theorem closeOf_meets (text : Text) (start : Nat) (d : Delimiters) : Fair (fun _ => True) (closeOf text start d) := by
  unfold closeOf
  split <;> trivial

/-- A leaf holds a part of its text, trimmed and not empty. -/
theorem leafOf_meets (d : Delimiters) (text : Text) :
    Fair (fun n : Node => ∃ v : Text, n = .leaf (.text v) {} [] ∧ v ≠ [] ∧ v.trim = v ∧ v <:+: text) (leafOf d text) := by
  have hvalue : ∀ part : Text, part <:+: text →
      Fair (fun n : Node => ∃ v : Text, n = .leaf (.text v) {} [] ∧ v ≠ [] ∧ v.trim = v ∧ v <:+: text) (do
        if part.trim.isEmpty then reject (.emptyOperand text (Position.locate text 0))
        return Node.text part.trim) := by
    intro part hpart
    split
    · exact rfl
    · rename_i hne
      refine ⟨part.trim, ?_, by simpa using hne, part.trim_trim, part.trim_part.trans hpart⟩
      rw [Node.text, part.trim_trim]
  unfold leafOf
  refine Meets.bind (P := fun _ => True) ?_ fun enclosed _ => ?_
  · unfold isEnclosed
    split
    · exact (closeOf_meets _ _ _).bind fun _ _ => trivial
    · trivial
  · cases enclosed with
    | true => exact (Meets.slice text.trim _ _).bind fun part hpart => hvalue part (hpart.trans text.trim_part)
    | false => exact hvalue text (List.infix_refl text)

/-! ## Trees -/

/-- Text shared at the root changes no label. -/
theorem Node.Unlabelled.share {n : Node} (h : n.Unlabelled L) (sharedLeft sharedRight : List Text) :
    (n.withMarks { n.marks with sharedLeft, sharedRight }).Unlabelled L :=
  ⟨h.built.withMarks h.built.suffix, h.composed.withMarks h.composed.root⟩

section Step

variable {build : Text → Outcome Node} (hbuild : ∀ t, Fair (·.Unlabelled L) (build t))
include hbuild

theorem combinationOf_meets (table : SpanTable) (earlier later : List Span) (s : Span) (o : PlacedOperator) :
    Fair (·.Unlabelled L) (combinationOf build table earlier s o later) := by
  unfold combinationOf
  refine (Meets.slice _ _ _).bind fun tl _ => (hbuild tl).bind fun l hl => ?_
  refine (Meets.slice _ _ _).bind fun tr _ => (hbuild tr).bind fun r hr => ?_
  obtain ⟨hjoin, hnode⟩ := hl.combine o.operator hr
  rw [hjoin, liftM_ok, ok_bind]
  refine (Meets.slice _ _ _).bind fun before _ => ?_
  split
  · exact hnode.share _ _
  · exact (Meets.slice _ _ _).bind fun after _ => hnode.share _ _

variable (hleaf : ∀ table : SpanTable, table.Settled d → table.outermostLevel? = none →
  Fair (·.Unlabelled L) (leafOf d table.input))
include hleaf

theorem treeStep_meets (text : Text) : Fair (·.Unlabelled L) (treeStep d build text) := by
  refine Meets.tree (T := SpanTable.Settled d) (Q := Node.Unlabelled L) (spanTable_meets d text) hleaf ?_ ?_ fun n hn => hn
  · exact fun table _ _ earlier s o later _ _ => combinationOf_meets hbuild table earlier later s o
  · intro l r hl hr
    obtain ⟨hjoin, hnode⟩ := hl.combine .syntheticAnd hr
    rw [hjoin]
    exact hnode

end Step

variable (hleaf : ∀ table : SpanTable, table.Settled d → table.outermostLevel? = none →
  Fair (·.Unlabelled L) (leafOf d table.input))
include hleaf in
theorem treeWithin_meets (limit budget : Nat) (text : Text) : Fair (·.Unlabelled L) (treeWithin d limit budget text) := by
  induction budget generalizing text with
  | zero => exact rfl
  | succ budget ih => exact treeStep_meets ih hleaf text

/-- Across fragments all that is known of a leaf is that it holds text. -/
theorem fragmentTree_meets (limit : Nat) (text : Text) :
    Fair (·.Unlabelled Coding) (combinationTree .braces limit text) := by
  refine treeWithin_meets (fun table _ _ => ?_) _ _ _
  refine (leafOf_meets .braces table.input).weaken fun n hn => ?_
  obtain ⟨v, rfl, -⟩ := hn
  exact ⟨⟨⟨v, rfl⟩, nofun, rfl⟩, nofun⟩

/-! ## Components -/

/-- The text of a leaf that codes a component. -/
structure CodedText (v : Text) : Prop where
  ne_nil : v ≠ []
  trimmed : v.trim = v
  operatorFree : OperatorFree v

def Entry.Coded (e : Entry) : Prop := ∃ v, e = .text v ∧ CodedText v

theorem contentTree_meets (limit : Nat) (text : Text) :
    Fair (·.Unlabelled Entry.Coded) (combinationTree .parentheses limit text) := by
  refine treeWithin_meets (fun table htable hnone => ?_) _ _ _
  refine (leafOf_meets .parentheses table.input).weaken fun n hn => ?_
  obtain ⟨v, rfl, hne, htrim, hpart⟩ := hn
  exact ⟨⟨⟨v, rfl, hne, htrim, (htable.operatorFree hnone).part hpart⟩, nofun, rfl⟩, nofun⟩

/-- The occurrence is one of the component, and its header has a key if it has a suffix. -/
def Occurrence.IsOf (c : Component) (o : Occurrence) : Prop := o.header.component = c ∧ KeyedSuffix o.header.suffix

theorem Occurrence.all_meets (text : Text) (c : Component) (d : Delimiters) :
    Fair (fun os => ∀ o ∈ os, o.IsOf c) (Occurrence.all text c d) := by
  refine Meets.mapM fun header hheader => ?_
  obtain ⟨hall, hc⟩ := List.mem_filter.1 hheader
  have hc : header.component = c := by
    simp only [Bool.and_eq_true, decide_eq_true_eq] at hc
    exact hc.1
  unfold ofHeader
  refine (closeOf_meets _ _ _).bind fun close _ => ?_
  cases close with
  | none => exact rfl
  | some close =>
    refine (Meets.slice _ _ _).bind fun raw _ => (Meets.slice _ _ _).bind fun body _ => ?_
    exact ⟨hc, Header.all_keyed hall⟩

theorem occurrenceTrees_meets {c : Component} (limit : Nat) (seen : List Text) {os : List Occurrence}
    (hos : ∀ o ∈ os, o.IsOf c) :
    Fair (fun ns => ∀ n ∈ ns, n.Labelled Entry.Coded c) (occurrenceTrees limit seen os) := by
  induction os generalizing seen with
  | nil => exact (nofun : ∀ n ∈ ([] : List Node), n.Labelled Entry.Coded c)
  | cons o os ih =>
    have htree : Fair (·.Labelled Entry.Coded c) (occurrenceTree limit o) := by
      refine (contentTree_meets limit o.body).bind fun tree htree => ?_
      obtain ⟨hc, hkeyed⟩ := hos o (by simp)
      rw [hc]
      exact htree.label c hkeyed _
    rw [occurrenceTrees]
    split
    · exact rfl
    · refine htree.bind fun n hn => (ih _ fun x hx => hos x (by simp [hx])).bind fun ns hns => ?_
      intro m hm
      rcases List.mem_cons.1 hm with rfl | hm
      · exact hn
      · exact hns m hm

/-- The tree of a component is labelled with it; the component may be absent. -/
theorem componentTree_meets (limit : Nat) (c : Component) (text : Text) :
    Meets (Failure.Within fun e => e.ofInput = true ∨ e = .componentNotFound c.symbol) (·.Labelled Entry.Coded c)
      (componentTree limit c text) := by
  have hweaken : ∀ f : Failure, f.Within (·.ofInput = true) →
      f.Within fun e => e.ofInput = true ∨ e = .componentNotFound c.symbol := by
    intro f hf
    cases f with
    | rejected e => exact Or.inl hf
    | _ => trivial
  unfold componentTree
  refine ((Occurrence.all_meets text c .parentheses).imp hweaken fun _ h => h).bind fun os hos => ?_
  refine ((occurrenceTrees_meets limit [] hos).imp hweaken fun _ h => h).bind fun trees htrees => ?_
  refine ((fold?_meets (fun l r => Labelled.combine .syntheticAnd) htrees).imp nofun fun _ h => h).lift.bind
    fun tree htree => ?_
  cases tree with
  | none => exact Or.inr rfl
  | some tree =>
    have htree := htree.1 tree rfl
    exact ⟨⟨by cases tree <;> rfl, htree.composed.withMarks fun _ hd => (Option.some.inj hd).symm⟩,
      htree.built.withComponent c⟩

/-- An absent component is no error. -/
theorem componentTree?_meets (limit : Nat) (c : Component) (text : Text) :
    Fair (fun t => ∀ n ∈ t, n.Labelled Entry.Coded c) (componentTree? limit c text) := by
  have htree := componentTree_meets limit c text
  unfold componentTree?
  split
  · rename_i tree h
    exact fun n hn => Option.some.inj hn ▸ htree.value h
  · exact (nofun : ∀ n ∈ (none : Option Node), n.Labelled Entry.Coded c)
  · rename_i cause hcause h
    have hcause' := htree.failure h
    cases cause with
    | rejected e =>
      rcases hcause' with he | rfl
      · exact he
      · exact absurd rfl (hcause c.symbol)
    | _ => trivial

end InstitutionalGrammar
