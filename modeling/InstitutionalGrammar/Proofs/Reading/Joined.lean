/-
  InstitutionalGrammar.Proofs.Reading.Joined — the operators between output statements.

  The tree of a result is the tree of a pair with the statements of its elements for leaves, and
  theirs are the same again. Combinations side by side are refused at the top of a pair; the check
  does not look into operands, so there a guessed operator can join output statements.
  - `Crowded`, `step_crowded`: the refusal.
  - `step_explicit`: from the texts inside a text to the text itself.
  - `parse_explicit`: when the operators of a result are all written, and what is refused.
  - `guessed_operator_joins`: one that is not.
-/

import InstitutionalGrammar.Proofs.Combination.SideBySide
import InstitutionalGrammar.Proofs.Depth.Reading

namespace InstitutionalGrammar

open Node

variable {options : Options} {limit : Nat} {read : Text → Report Node} {raw text inner : Text} {tree out leaf : Node}

/-! ## Pairs -/

/-- A combination built from a text whose outermost level has no other beside it. -/
structure Single (limit : Nat) (raw : Text) (tree : Node) : Prop where
  built : combinationTree .braces limit raw = .ok tree
  combination : tree.isCombination = true
  alone : ¬ SideBySide .braces raw

/-- If the block is a pair, it is a single combination. -/
def Block.SinglePair (limit : Nat) (b : Block) : Prop := ∀ tree, b.content = .pair tree → Single limit b.raw tree

theorem untaggedContent_single (limit : Nat) (inner braced : Text) :
    Fair (fun content => ∀ tree, content = .pair tree → Single limit braced tree) (untaggedContent limit inner braced) := by
  refine Meets.headless (fragmentTree_meets limit braced).and_eq (fun _ => rfl) ?_ (fun _ => nofun) fun _ _ _ => nofun
  rintro tree ⟨-, hbuilt⟩ hfew hcombination _ ⟨⟩
  exact ⟨hbuilt, hcombination, fun hside => Nat.not_lt.2 hfew ((treeWithin_sideBySide hbuilt).1 hside)⟩

theorem taggedContent_noPair (limit : Nat) (header : Header) (inner braced : Text) :
    Fair (fun content => ∀ tree, content ≠ .pair tree) (taggedContent limit header inner braced) :=
  Meets.headed (taggedTree?_meets limit braced) nofun (fun _ _ _ => nofun) fun _ => nofun

theorem blockAt_single (limit : Nat) (text : Text) (shapes : List PlacedShape) (bounds : Nat × Nat) :
    Fair (Block.SinglePair limit) (blockAt limit text shapes bounds) := by
  unfold blockAt
  refine (Meets.slice _ _ _).bind fun inner _ => ?_
  split
  · rename_i header _
    refine (Meets.slice _ _ _).bind fun raw _ => (Meets.slice _ _ _).bind fun braced _ => ?_
    exact (taggedContent_noPair limit header inner braced).bind fun content hcontent tree htree =>
      absurd htree (hcontent tree)
  · refine (Meets.slice _ _ _).bind fun raw _ => ?_
    exact (untaggedContent_single limit inner raw).bind fun content hcontent => hcontent

/-- Every pair of a text that is laid out is a single combination. -/
theorem outline_single (limit : Nat) (text : Text) :
    Fair (fun outline => ∀ b ∈ outline.blocks, b.SinglePair limit) (Outline.of limit text) :=
  Meets.laidOut trivial fun bounds _ => blockAt_single limit text _ bounds

/-! ## Combinations side by side -/

/-- Combinations side by side in a block without a header are refused, and the refusal shows them. -/
theorem untaggedContent_sideBySide {braced : Text} (hinner : inner.trim ≠ [])
    (htree : combinationTree .braces limit braced = .ok tree) (hside : SideBySide .braces braced) :
    untaggedContent limit inner braced = reject (.multipleComponentPairs ((writtenCombinations tree).map Node.render)) := by
  have hmany : (writtenCombinations tree).length > 1 := (treeWithin_sideBySide htree).1 hside
  unfold untaggedContent
  rw [if_neg (by simpa using hinner), htree]
  simp only [ok_bind]
  rw [if_pos hmany]
  rfl

/-- The first failure of a run through a list is that of the run. -/
theorem mapM_stops {α β ε : Type} {f : α → Except ε β} {before after : List α} {a : α} {e : ε}
    (hbefore : ∀ x ∈ before, ∃ b, f x = .ok b) (ha : f a = .error e) : (before ++ a :: after).mapM f = .error e := by
  induction before with
  | nil =>
    rw [List.nil_append, List.mapM_cons, ha]
    rfl
  | cons x before ih =>
    obtain ⟨b, hb⟩ := hbefore x List.mem_cons_self
    rw [List.cons_append, List.mapM_cons, hb, ok_bind, ih fun y hy => hbefore y (List.mem_cons_of_mem _ hy)]
    rfl

/-- The text is balanced and has a block without a header whose combinations stand side by side; the
    blocks before it are laid out, and it is built as `tree`. -/
structure Crowded (limit : Nat) (text : Text) (tree : Node) : Prop where
  balanced : requireBalanced text = .ok ()
  block : ∃ before after left right inner raw,
    braceBounds 0 0 none (tokens text) = before ++ (left, right) :: after ∧
    (∀ x ∈ before, ∃ b, blockAt limit text (PlacedShape.all text) x = .ok b) ∧
    Header.among? (PlacedShape.all text) left = none ∧
    text.slice (left + 1) right = .ok inner ∧ inner.trim ≠ [] ∧ text.slice left (right + 1) = .ok raw ∧
    combinationTree .braces limit raw = .ok tree ∧ SideBySide .braces raw

theorem Crowded.outline (h : Crowded limit text tree) :
    Outline.of limit text = reject (.multipleComponentPairs ((writtenCombinations tree).map Node.render)) := by
  obtain ⟨before, after, left, right, inner, raw, hbounds, hbefore, hheader, hinner, hnonblank, hraw, htree, hside⟩ :=
    h.block
  have hblock : blockAt limit text (PlacedShape.all text) (left, right) =
      reject (.multipleComponentPairs ((writtenCombinations tree).map Node.render)) := by
    unfold blockAt
    simp only [hinner, ok_bind, hheader, hraw, untaggedContent_sideBySide hnonblank htree hside]
    rfl
  unfold Outline.of
  rw [hbounds]
  show List.mapM (blockAt limit text (PlacedShape.all text)) _ >>= _ = _
  rw [mapM_stops hbefore hblock]
  rfl

/-- Such a text is refused, be it the whole or one inside it. -/
theorem Reading.step_crowded (h : Crowded options.depthLimit text tree) : (step options read text).result =
    .error (.rejected (.multipleComponentPairs ((writtenCombinations tree).map Node.render))) := by
  have hdraft : draft options text = reject (.multipleComponentPairs ((writtenCombinations tree).map Node.render)) := by
    unfold draft
    rw [h.balanced]
    show Outline.of options.depthLimit text >>= _ = _
    rw [h.outline]
    rfl
  unfold step
  rw [hdraft]
  rfl

/-! ## Trees with replaced leaves -/

theorem explicit_spreadShared (before after : List Text) : (tree.spreadShared before after).Explicit ↔ tree.Explicit := by
  induction tree generalizing before after with
  | leaf e m p => cases e <;> exact Iff.rfl
  | combination o l r m p ihl ihr =>
    rw [Node.spreadShared]
    show o.isSynthetic = false ∧ _ ∧ _ ↔ o.isSynthetic = false ∧ _ ∧ _
    rw [ihl, ihr]

theorem Node.Mapped.explicit {R : Node → Node → Prop} (P : Node → Prop) {n m : Node} (h : n.Mapped R m)
    (hR : ∀ e ms p k, R (.leaf e ms p) k → (k.Explicit ↔ P (.leaf e ms p))) :
    m.Explicit ↔ n.Explicit ∧ ∀ leaf ∈ n.leaves, P leaf := by
  induction h with
  | leaf hk =>
    rw [hR _ _ _ _ hk]
    exact ⟨fun hP => ⟨trivial, fun leaf hleaf => List.mem_singleton.1 hleaf ▸ hP⟩,
      fun hall => hall.2 _ (List.mem_singleton_self _)⟩
  | combination _ _ ihl ihr =>
    simp only [Explicit, leaves, ihl, ihr, List.mem_append, or_imp, forall_and]
    tauto

theorem Node.Mapped.of_leaf {R : Node → Node → Prop} {n m : Node} (h : n.Mapped R m) (hleaf : leaf ∈ n.leaves) :
    ∃ k, R leaf k := by
  induction h with
  | leaf hk => exact ⟨_, List.mem_singleton.1 hleaf ▸ hk⟩
  | combination _ _ ihl ihr =>
    rw [leaves, List.mem_append] at hleaf
    rcases hleaf with hleaf | hleaf
    · exact ihl hleaf
    · exact ihr hleaf

/-- The second tree has leaves for the leaves of the first. -/
abbrev Node.SameShape (n m : Node) : Prop := n.Mapped (fun _ k => k.isLeaf = true) m

theorem Node.SameShape.refl (n : Node) : n.SameShape n :=
  Mapped.refl (fun e m p => show (Node.leaf e m p).isLeaf = true from rfl) n

theorem Node.SameShape.explicit (h : tree.SameShape out) : out.Explicit ↔ tree.Explicit := by
  have hleaf : ∀ e m p (k : Node), k.isLeaf = true → (k.Explicit ↔ (fun _ => True) (Node.leaf e m p)) := by
    intro e m p k hk
    cases k with
    | leaf => exact Iff.rfl
    | combination => cases hk
  rw [Mapped.explicit (fun _ => True) h hleaf]
  simp

theorem Node.Mapped.root {R : Node → Node → Prop} {o : Operator} {l r : Node} {m : Marks} {p : List Node}
    (h : (Node.combination o l r m p).Mapped R out) : ∃ l' r', out = .combination o l' r' m p := by
  cases h
  exact ⟨_, _, rfl⟩

/-- Statements are changed leaf by leaf. -/
theorem Node.Mapped.sameShape {R : Node → Node → Prop} (h : tree.Mapped R out)
    (hR : ∀ leaf k, R leaf k → ∃ f, onStatement f leaf = .ok k) : tree.SameShape out := by
  induction h with
  | @leaf e m p k hk =>
    refine .leaf ?_
    obtain ⟨f, hf⟩ := hR _ _ hk
    cases e with
    | nested s =>
      obtain ⟨t, -, rfl⟩ := onStatement_nested hf
      rfl
    | _ =>
      cases hf
      rfl
  | combination _ _ ihl ihr => exact .combination ihl ihr

/-- The tree of a pair with the output of its elements in place of its leaves. -/
theorem pairOutput_shape {outer : Statement} (h : (pairOutput options read outer raw tree).result = .ok out) :
    ∃ expanded, (tree.spreadShared [] []).Mapped
        (fun leaf k => (elementOutput options read outer raw leaf).result = .ok k) expanded ∧ expanded.SameShape out := by
  obtain ⟨expanded, hexpanded, hout⟩ := pairOutput_expanded h
  refine ⟨expanded, hexpanded, ?_⟩
  by_cases hlinks : options.linksProperties = true
  · rw [if_pos hlinks] at hout
    exact (eraseForeign_mapped hout).sameShape fun _ _ h => h
  · rw [if_neg hlinks] at hout
    cases hout
    exact SameShape.refl out

/-- The operator of a pair stays at its root. -/
theorem pairOutput_root {outer : Statement} {o : Operator} {l r : Node} {m : Marks} {p : List Node}
    (h : (pairOutput options read outer raw (.combination o l r m p)).result = .ok out) :
    ∃ l r m p, out = .combination o l r m p := by
  obtain ⟨expanded, hexpanded, hshape⟩ := pairOutput_shape h
  rw [Node.spreadShared] at hexpanded
  obtain ⟨l', r', rfl⟩ := hexpanded.root
  obtain ⟨l'', r'', rfl⟩ := Mapped.root hshape
  exact ⟨_, _, _, _, rfl⟩

theorem pairOutput_explicit {outer : Statement} (h : (pairOutput options read outer raw tree).result = .ok out) :
    out.Explicit ↔ tree.Explicit ∧ ∀ inner, (BlockContent.pair tree).Holds inner →
      ∀ n, (read inner).result = .ok n → n.Explicit := by
  obtain ⟨expanded, hexpanded, hshape⟩ := pairOutput_shape h
  have helement : ∀ e m p k, (elementOutput options read outer raw (.leaf e m p)).result = .ok k →
      (k.Explicit ↔ ∀ n, (read ((Node.leaf e m p).text?.getD [])).result = .ok n → n.Explicit) := by
    intro e m p k hk
    obtain ⟨n, hn, hmapped⟩ := elementOutput_mapped hk
    rw [(hmapped.sameShape fun _ _ h => ⟨_, h⟩).explicit]
    refine ⟨fun hexplicit n' hn' => ?_, fun hall => hall n hn⟩
    cases hn.symm.trans hn'
    exact hexplicit
  rw [hshape.explicit, hexpanded.explicit (fun leaf => ∀ n, (read (leaf.text?.getD [])).result = .ok n → n.Explicit) helement,
    explicit_spreadShared]
  constructor
  · rintro ⟨htree, hall⟩
    refine ⟨htree, ?_⟩
    rintro _ ⟨leaf, hleaf, rfl⟩
    exact hall leaf hleaf
  · rintro ⟨htree, hall⟩
    exact ⟨htree, fun leaf hleaf => hall _ ⟨leaf, hleaf, rfl⟩⟩

/-- Every element of a pair with an output was read. -/
theorem pairOutput_reads {outer : Statement} (h : (pairOutput options read outer raw tree).result = .ok out)
    (hinner : (BlockContent.pair tree).Holds inner) : ∃ n, (read inner).result = .ok n := by
  obtain ⟨expanded, hexpanded, -⟩ := pairOutput_expanded h
  obtain ⟨leaf, hleaf, rfl⟩ := hinner
  obtain ⟨k, hk⟩ := hexpanded.of_leaf hleaf
  obtain ⟨n, hn, -⟩ := elementOutput_mapped hk
  exact ⟨n, hn⟩

/-! ## Texts -/

/-- `raw` is a pair of the text whose elements become its output, or such a pair of the text of an element. -/
inductive Expands (options : Options) : Text → Text → Prop
  | own {text raw : Text} {outline : Outline} {tree : Node} : Outline.of options.depthLimit text = .ok outline →
      (raw, tree) ∈ Reading.pairs outline.blocks → Expands options text raw
  | element {text raw inner : Text} {outline : Outline} {first : Text} {tree : Node} :
      Outline.of options.depthLimit text = .ok outline → (first, tree) ∈ Reading.pairs outline.blocks →
      (BlockContent.pair tree).Holds inner → Expands options inner raw → Expands options text raw

/-- No text that an operand of the text is built from has combinations side by side. -/
def WrittenThrough (text : Text) : Prop :=
  ∀ part, Relation.ReflTransGen (IsOperand .braces) text part → ¬ SideBySide .braces part

theorem Single.explicit (h : Single limit raw tree) : tree.Explicit ↔ WrittenThrough raw := treeWithin_explicit h.built

namespace Reading

theorem pairs_single {outline : Outline} (h : Outline.of limit text = .ok outline)
    (hpair : (raw, tree) ∈ pairs outline.blocks) : Single limit raw tree := by
  obtain ⟨b, hb, rfl, hcontent⟩ := mem_pairs hpair
  exact (outline_single limit text).value h b hb tree hcontent

/-- The output of a text has no guessed operator exactly if no pair that it is expanded from has combinations
    side by side in its operands, when that is so of the texts inside. -/
theorem step_explicit (hread : ∀ inner n, (read inner).result = .ok n →
      (n.Explicit ↔ ∀ raw, Expands options inner raw → WrittenThrough raw))
    (h : (step options read text).result = .ok out) :
    out.Explicit ↔ ∀ raw, Expands options text raw → WrittenThrough raw := by
  obtain ⟨outline, s, t, hdraft, -, -, hout⟩ := step_ok h
  have houtline := outline_of_draft hdraft
  rcases output_cases hout with ⟨hnone, rfl⟩ | ⟨raw, tree, hpair, hout⟩
  · refine iff_of_true trivial fun raw hraw => ?_
    have hno : ∀ raw tree outline', Outline.of options.depthLimit text = .ok outline' →
        (raw, tree) ∉ pairs outline'.blocks := by
      intro raw tree outline' ho hmem
      cases houtline.symm.trans ho
      rw [hnone] at hmem
      cases hmem
    cases hraw with
    | own ho hmem => exact absurd hmem (hno _ _ _ ho)
    | element ho hmem => exact absurd hmem (hno _ _ _ ho)
  · have hmem : (raw, tree) ∈ pairs outline.blocks := hpair ▸ List.mem_singleton_self (raw, tree)
    have honly : ∀ raw' tree' outline', Outline.of options.depthLimit text = .ok outline' →
        (raw', tree') ∈ pairs outline'.blocks → raw' = raw ∧ tree' = tree := by
      intro raw' tree' outline' ho hmem'
      cases houtline.symm.trans ho
      rw [hpair, List.mem_singleton, Prod.mk.injEq] at hmem'
      exact hmem'
    rw [pairOutput_explicit hout, (pairs_single houtline hmem).explicit]
    constructor
    · rintro ⟨hraw, helements⟩ raw' hexpands
      cases hexpands with
      | own ho hmem' =>
        obtain ⟨rfl, -⟩ := honly _ _ _ ho hmem'
        exact hraw
      | element ho hmem' hinner hrest =>
        obtain ⟨-, rfl⟩ := honly _ _ _ ho hmem'
        obtain ⟨n, hn⟩ := pairOutput_reads hout hinner
        exact (hread _ n hn).1 (helements _ hinner n hn) raw' hrest
    · intro hall
      refine ⟨hall raw (.own houtline hmem), fun inner hinner n hn => (hread inner n hn).2 fun raw' hrest => ?_⟩
      exact hall raw' (.element houtline hmem hinner hrest)

theorem within_explicit (budget : Nat) (h : (within options budget text).result = .ok out) :
    out.Explicit ↔ ∀ raw, Expands options text raw → WrittenThrough raw := by
  induction budget generalizing text out with
  | zero => cases h
  | succ budget ih => exact step_explicit (fun inner n hn => ih hn) h

end Reading

/-! ## Parses -/

theorem Expands.single (h : Expands options text raw) : ∃ tree, Single options.depthLimit raw tree := by
  induction h with
  | own ho hmem => exact ⟨_, Reading.pairs_single ho hmem⟩
  | element _ _ _ _ ih => exact ih

/-- The root of a result is the root of a pair. -/
theorem Reading.step_root {o : Operator} {l r : Node} {m : Marks} {p : List Node}
    (h : (Reading.step options read text).result = .ok (.combination o l r m p)) : o.isSynthetic = false := by
  obtain ⟨outline, s, t, hdraft, -, -, hout⟩ := Reading.step_ok h
  rcases Reading.output_cases hout with ⟨-, hnested⟩ | ⟨raw, tree, hpair, hout⟩
  · cases hnested
  · have hsingle := Reading.pairs_single (Reading.outline_of_draft hdraft) (hpair ▸ List.mem_singleton_self (raw, tree))
    cases tree with
    | leaf => cases hsingle.combination
    | combination o' l' r' m' p' =>
      obtain ⟨_, _, _, _, hroot⟩ := pairOutput_root hout
      cases hroot
      have hnot := mt (treeWithin_root hsingle.built).1 hsingle.alone
      simpa using hnot

/-- The operator at the root of a result is written. The others are too exactly if no pair that the result
    is expanded from has combinations side by side in an operand. On its outermost level no pair has:
    such a block without a header is refused, and the refusal shows its combinations. -/
theorem parse_explicit (options : Options) (text : Text) :
    (∀ p, parse options text = .ok p →
      (∀ o l r m q, p.tree = .combination o l r m q → o.isSynthetic = false) ∧
      (∀ raw, Expands options text raw → ¬ SideBySide .braces raw) ∧
      (p.tree.Explicit ↔ ∀ raw, Expands options text raw → WrittenThrough raw)) ∧
    ∀ tree, Crowded options.depthLimit text tree → ∃ r, parse options text = .error r ∧
      r.cause = .rejected (.multipleComponentPairs ((writtenCombinations tree).map Node.render)) := by
  refine ⟨fun p hp => ?_, fun tree htree => exists_refusal (Reading.step_crowded htree)⟩
  have hstep := Reading.step_of_parse hp
  refine ⟨fun o l r m q htree => ?_, fun raw hraw => ?_, ?_⟩
  · rw [htree] at hstep
    exact Reading.step_root hstep
  · obtain ⟨tree, hsingle⟩ := hraw.single
    exact hsingle.alone
  · exact Reading.step_explicit (fun inner n hn => Reading.within_explicit _ hn) hstep

instance decidableExplicit : (n : Node) → Decidable n.Explicit
  | .leaf .. => .isTrue trivial
  | .combination o l r _ _ =>
    have := decidableExplicit l
    have := decidableExplicit r
    inferInstanceAs (Decidable (o.isSynthetic = false ∧ l.Explicit ∧ r.Explicit))

/-- Two combinations side by side in an operand of a pair. -/
def sideBySideOperand : Text := "\x7b\x7bI(a) [AND] I(b)\x7d \x7bI(c) [AND] I(d)\x7d [OR] I(e)\x7d".toList

/-- The same combinations as a block of their own. -/
def sideBySideBlock : Text := "\x7b\x7bI(a) [AND] I(b)\x7d \x7bI(c) [AND] I(d)\x7d\x7d".toList

theorem crowded_sideBySideBlock : ∃ tree, Crowded 64 sideBySideBlock tree := by
  obtain ⟨tree, htree, hmany⟩ := exists_ok (x := combinationTree .braces 64 sideBySideBlock)
    (p := fun tree => decide ((writtenCombinations tree).length > 1)) (by decide +kernel)
  have hside : SideBySide .braces sideBySideBlock := (treeWithin_sideBySide htree).2 (of_decide_eq_true hmany)
  obtain ⟨inner, hinner, hnonblank⟩ := exists_ok (x := sideBySideBlock.slice 1 36)
    (p := fun inner => decide (inner.trim ≠ [])) (by decide +kernel)
  refine ⟨tree, by decide +kernel, [], [], 0, 36, inner, sideBySideBlock, by decide +kernel, ?_, by decide +kernel, hinner,
    of_decide_eq_true hnonblank, by decide +kernel, htree, hside⟩
  exact fun x hx => absurd hx List.not_mem_nil

theorem parse_explicit_sideBySide :
    (∃ p, parse {} sideBySideOperand = .ok p ∧ ∃ raw, Expands {} sideBySideOperand raw ∧ ¬ WrittenThrough raw) ∧
    ∃ tree r, Crowded 64 sideBySideBlock tree ∧ parse {} sideBySideBlock = .error r ∧
      r.cause = .rejected (.multipleComponentPairs ((writtenCombinations tree).map Node.render)) := by
  constructor
  · obtain ⟨p, hp, hguessed⟩ := exists_ok (x := parse {} sideBySideOperand) (p := fun p => !decide p.tree.Explicit)
      (by decide +kernel)
    obtain ⟨-, -, hexplicit⟩ := (parse_explicit {} sideBySideOperand).1 p hp
    have hnot := mt hexplicit.2 (by simpa using hguessed)
    simp only [not_forall] at hnot
    obtain ⟨raw, hraw, hside⟩ := hnot
    exact ⟨p, hp, raw, hraw, hside⟩
  · obtain ⟨tree, htree⟩ := crowded_sideBySideBlock
    obtain ⟨r, hr, hcause⟩ := (parse_explicit {} sideBySideBlock).2 tree htree
    exact ⟨tree, r, htree, hr, hcause⟩

theorem guessed_operator_joins : ¬ ∀ (options : Options) (text : Text) (p : Parsed),
    parse options text = .ok p → p.tree.Explicit := by
  intro hall
  obtain ⟨p, hp, hguessed⟩ := exists_ok (x := parse {} sideBySideOperand) (p := fun p => !decide p.tree.Explicit)
    (by decide +kernel)
  have hexplicit := hall {} sideBySideOperand p hp
  simp [hexplicit] at hguessed

end InstitutionalGrammar
