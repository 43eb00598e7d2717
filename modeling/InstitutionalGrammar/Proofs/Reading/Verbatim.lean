/-
  InstitutionalGrammar.Proofs.Reading.Verbatim — ignored blocks stand in the text.

  Whatever is read as a statement inside a text is made of stretches of the text, regrouped or joined by
  spaces, so it has no other blocks that can be ignored. That needs every closing bracket to end a
  pair that holds no delimiter: else an annotation can reach from one joined part into the next.
  - `Node.Carries.spreadShared`: the texts of elements, with what they share.
  - `outline_traced`: the blocks of a faithful text hold faithful texts.
  - `parse_verbatim`: what the warnings of a parse name.
  - `joined_annotation_ignored`: an annotation that reaches over a join.
-/

import InstitutionalGrammar.Proofs.Combination.Faithful
import InstitutionalGrammar.Proofs.Layout.Gaps
import InstitutionalGrammar.Proofs.Reading.Balance
import InstitutionalGrammar.Proofs.Reading.Strays

namespace InstitutionalGrammar

variable {a b e inner text top x : Text} {header : Header} {left limit right : Nat} {leaf tree : Node} {P : Text → Prop}

/-! ## Texts of a tree -/

theorem Node.Carries.leaves (hnil : P []) (h : tree.Carries P) : ∀ leaf ∈ tree.leaves, P (leaf.text?.getD []) := by
  induction tree with
  | leaf e m p =>
    intro leaf hleaf
    rw [List.mem_singleton.1 hleaf]
    cases e with
    | text v => exact h
    | _ => exact hnil
  | combination o l r m p ihl ihr =>
    intro leaf hleaf
    rcases List.mem_append.1 hleaf with hleaf | hleaf
    · exact ihl h.2.1 leaf hleaf
    · exact ihr h.2.2 leaf hleaf

theorem Node.Carries.spreadShared (hjoin : ∀ parts : List Text, (∀ t ∈ parts, P t) → P (joinSpaced parts))
    (h : tree.Carries P) {before after : List Text} (hbefore : ∀ t ∈ before, P t) (hafter : ∀ t ∈ after, P t) :
    (tree.spreadShared before after).Carries P := by
  induction tree generalizing before after with
  | leaf e m p =>
    cases e with
    | text v =>
      refine hjoin _ fun t ht => ?_
      simp only [List.mem_append, List.mem_singleton] at ht
      rcases ht with (ht | rfl) | ht
      · exact hbefore t ht
      · exact h
      · exact hafter t ht
    | _ => trivial
  | combination o l r m p ihl ihr =>
    obtain ⟨hshared, hl, hr⟩ := h
    obtain ⟨hleft, hright⟩ := List.forall_mem_append.1 hshared
    have hbefore' := List.forall_mem_append.2 ⟨hbefore, hleft⟩
    have hafter' := List.forall_mem_append.2 ⟨hright, hafter⟩
    exact ⟨List.forall_mem_nil _, ihl hl hbefore' hafter', ihr hr hbefore' hafter'⟩

/-- The inside of a tagged block. -/
theorem Faithful.tagged (h : Faithful top text) (hread : TaggedBlock.read text = .ok (some ⟨header, inner⟩)) :
    Faithful top inner := by
  have htrim := (faithful_inherited top).trim h
  unfold TaggedBlock.read at hread
  simp only at hread
  split at hread
  · cases hread
  · rename_i found hfound
    obtain ⟨s, hs, hheader⟩ := Option.bind_eq_some_iff.1 hfound
    obtain ⟨hstands, -⟩ := PlacedShape.header?_stands (p := ⟨s, 0⟩) (Shape.read?_written hs) hheader
    have hopens := hstands.opens
    by_cases hbraces : found.delimiter = .braces
    · rw [if_neg (by simpa using hbraces)] at hread
      rw [hbraces] at hopens
      obtain ⟨a, w, ht, hsize⟩ := hopens
      have hnested := htrim.nested
      rw [ht] at hnested
      obtain ⟨x, b, rfl, hx⟩ := hnested.behind_opening (d := .braces)
      have hparts : text.trim = a ++ brace :: (x ++ endBrace :: b) := ht
      have hclose := hx.closeOf .braces a b
      rw [← hsize, hparts, hclose, ok_bind] at hread
      simp only at hread
      split at hread
      · cases hread
      · obtain ⟨part, hpart, hread⟩ := bind_eq_ok.1 hread
        have hslice := slice_stretch (t := a ++ brace :: (x ++ endBrace :: b)) (a := a ++ [brace]) (u := x)
          (b := endBrace :: b) (i := a.size + 1) (j := a.size + 1 + x.size) (by simp) (by simp) (by simp) hx (.opening a)
        cases hslice.1.symm.trans hpart
        cases hread
        exact htrim.inside hparts hx
    · rw [if_pos hbraces] at hread
      cases hread

/-! ## Blocks -/

theorem combinationTree_carries (h : Faithful top text) (htree : combinationTree .braces limit text = .ok tree) :
    tree.Carries (Faithful top) :=
  treeWithin_carries (faithful_inherited top) h htree

theorem taggedTree?_carries (h : Faithful top text) (limit : Nat) :
    Meets (fun _ => True) (fun found => ∀ tree ∈ found, tree.Carries (Faithful top)) (taggedTree? limit text) :=
  (Meets.trial (.of_ok fun _ => combinationTree_carries h) fun _ hf _ => hf).weaken
    fun _ hfound tree htree => (hfound tree htree).1

section Contents

variable (h : Faithful top text) (htext : text = a ++ brace :: (x ++ endBrace :: b)) (hx : WellNested x)
include h htext hx

theorem taggedContent_traced (limit : Nat) (header : Header) :
    Meets (fun _ => True) (fun content : BlockContent => ∀ inner, content.Holds inner → Faithful top inner)
      (taggedContent limit header x (brace :: (x ++ [endBrace]))) := by
  refine Meets.headed (taggedTree?_carries (h.braced htext hx) limit) (fun _ => nofun) ?_ fun _ => ?_
  · rintro tree - htree inner ⟨leaf, hleaf, header', hread⟩
    exact (htree.leaves faithful_nil leaf hleaf).tagged hread
  · rintro inner rfl
    exact h.inside htext hx

theorem untaggedContent_traced (limit : Nat) :
    Meets (fun _ => True) (fun content : BlockContent => (content = .stray → Idle x) ∧
      ∀ inner, content.Holds inner → Faithful top inner) (untaggedContent limit x (brace :: (x ++ [endBrace]))) := by
  have htree : Meets (fun _ => True) (fun tree : Node => combinationTree .braces limit (brace :: (x ++ [endBrace])) = .ok tree)
      (combinationTree .braces limit (brace :: (x ++ [endBrace]))) := .of_ok fun _ htree => htree
  refine Meets.headless htree (fun _ => trivial) (fun tree htree _ _ => ⟨nofun, ?_⟩)
    (fun hblank => ⟨fun _ => idle_of_blank (Text.trim_eq_nil_iff.1 hblank), fun _ => nofun⟩)
    fun tree htree hleaf => ⟨fun _ => idle_of_leaf hx htree hleaf, fun _ => nofun⟩
  rintro inner ⟨leaf, hleaf, rfl⟩
  have hspread : (tree.spreadShared [] []).Carries (Faithful top) :=
    (combinationTree_carries (h.braced htext hx) htree).spreadShared (fun _ => Faithful.joinSpaced) nofun nofun
  exact hspread.leaves faithful_nil leaf hleaf

end Contents

/-- If the block is stray, it is one that can be ignored; the texts that it has read are faithful. -/
structure Block.Traced (top text : Text) (b : Block) : Prop where
  stray : b.content = .stray → Ignorable text b.raw
  holds : ∀ inner, b.content.Holds inner → Faithful top inner

theorem blockAt_traced (h : Faithful top text) (hmem : (left, right) ∈ braceBounds 0 0 none (tokens text)) :
    Meets (fun _ => True) (Block.Traced top text) (blockAt limit text (PlacedShape.all text) (left, right)) := by
  obtain ⟨a, x, b, htext, hx, rfl, rfl⟩ := h.nested.bounds hmem
  have hinner : text.slice (a.size + 1) (a.size + 1 + x.size) = .ok x :=
    Text.slice_parts (a := a ++ [brace]) (c := endBrace :: b) (by rw [htext]; simp) (by simp) (by simp)
  have hbraced : text.slice a.size (a.size + 1 + x.size + 1) = .ok (brace :: (x ++ [endBrace])) :=
    Text.slice_parts (a := a) (c := b) (by rw [htext]; simp) rfl (by simp; omega)
  unfold blockAt
  simp only [hinner, ok_bind]
  cases hheader : Header.among? (PlacedShape.all text) a.size with
  | none =>
    simp only [hbraced, ok_bind]
    exact (untaggedContent_traced h htext hx limit).bind fun content hcontent =>
      ⟨fun hstray => .idle a b htext hx (hcontent.1 hstray), hcontent.2⟩
  | some header =>
    have hlead := hheader
    rw [htext] at hlead
    obtain ⟨u, lead, rfl, hstart, hends, htagged⟩ := among?_lead hlead
    have hraw : text.slice header.start ((u ++ lead).size + 1 + x.size + 1) = .ok (lead ++ brace :: (x ++ [endBrace])) :=
      Text.slice_parts (a := u) (c := b) (by rw [htext]; simp) hstart.symm (by simp; omega)
    simp only [hraw, hbraced, ok_bind]
    exact (taggedContent_traced h htext hx limit header).bind fun content hcontent =>
      ⟨fun _ => .headed u b htext hx hends htagged, hcontent⟩

theorem outline_traced (h : Faithful top text) (limit : Nat) :
    Meets (fun _ => True) (fun outline => ∀ b ∈ outline.blocks, b.Traced top text) (Outline.of limit text) :=
  Meets.laidOut trivial fun _ hbounds => blockAt_traced h hbounds

/-! ## Whole readings -/

namespace Reading

variable {options : Options}

theorem Inside.faithful (hinner : Inside options text inner) (h : Faithful top text) : Faithful top inner := by
  obtain ⟨outline, houtline, b, hb, hholds⟩ := hinner
  exact ((outline_traced h _).value houtline b hb).holds inner hholds

theorem Stray.part (he : Stray options text e) (h : Faithful top text) : e <:+: top := by
  obtain ⟨outline, houtline, b, hb, hcontent, rfl⟩ := he
  exact h.ignorable _ (((outline_traced h _).value houtline b hb).stray hcontent)

end Reading

theorem ignored_unbalanced {options : Options} {cause : ParseError} (h : requireBalanced text = .error cause) :
    (Reading.of options text).ignored = [] := by
  rw [Reading.of_unbalanced options h]

/-- The warnings of a parse, whichever way it ends. -/
def warningsFor (options : Options) (text : Text) : List ParseError :=
  match parse options text with
  | .ok parsed => parsed.warnings
  | .error refusal => refusal.warnings

theorem warningsFor_eq (options : Options) (text : Text) :
    warningsFor options text = warningsOf (Reading.of options text).ignored := by
  unfold warningsFor parse
  cases h : (Reading.of options text).result with
  | ok tree => simp only [h]
  | error cause => simp only [h]

theorem mem_warningsOf {blocks : List Text} {warning : ParseError} (h : warning ∈ warningsOf blocks) (he : e ∈ warning.elements) :
    e ∈ blocks := by
  cases blocks with
  | nil => cases h
  | cons block blocks =>
    rw [List.mem_singleton.1 h] at he
    exact he

/-- If the delimiters of a text are nested, or not even balanced, and every closing bracket ends a pair
    that holds neither brackets nor delimiters, then all that the warnings name stands in the text. -/
theorem parse_verbatim (options : Options) (hnested : requireBalanced text = .ok () → WellNested text)
    (hbracketed : Bracketed text) : ∀ warning ∈ warningsFor options text, ∀ e ∈ warning.elements, e <:+: text := by
  intro warning hwarning e he
  rw [warningsFor_eq] at hwarning
  have hignored := mem_warningsOf hwarning he
  cases hbalanced : requireBalanced text with
  | error cause =>
    rw [ignored_unbalanced hbalanced] at hignored
    cases hignored
  | ok _ =>
    have hfaithful : ∀ {inner}, Relation.ReflTransGen (Reading.Inside options) text inner → Faithful text inner := by
      intro inner hinside
      induction hinside with
      | refl => exact faithful_self (hnested hbalanced) hbracketed
      | tail _ hstep ih => exact hstep.faithful ih
    obtain ⟨inner, hinside, hstray⟩ := Reading.of_ignores options text e hignored
    exact hstray.part (hfaithful hinside)

/-- An annotated block that both elements of a pair share. -/
def sharedBlock : Text :=
  "\x7bA(p) D".toList ++ '[' :: ("x".toList ++ [']']) ++
    ("\x7by\x7d \x7bI(a) ".toList ++ (Operator.and.token ++ " I(b)\x7d\x7d".toList))

theorem parse_verbatim_sharedBlock : (warningsFor {} sharedBlock).flatMap ParseError.elements =
      ["D[x]\x7by\x7d".toList, "D[x]\x7by\x7d".toList] ∧
    ∀ warning ∈ warningsFor {} sharedBlock, ∀ e ∈ warning.elements, e <:+: sharedBlock := by
  have hnested : WellNested sharedBlock := wellNested_iff.2 (by decide +kernel)
  have hbracketed : Bracketed sharedBlock :=
    ((Bracketed.of_not_mem (by decide)).append (.pair (Text.forall_of_all (by decide)))).append
      ((Bracketed.of_not_mem (by decide)).append ((Bracketed.token .and).append (.of_not_mem (by decide))))
  exact ⟨by decide +kernel, parse_verbatim {} (fun _ => hnested) hbracketed⟩

/-- The annotation starts before the inner pair and ends behind it, next to a stray block. -/
def joinedAnnotation : Text := "\x7bD[x \x7by]\x7bz\x7d I(a) [AND] I(b)\x7d\x7d".toList

theorem joined_annotation_ignored : ¬ ∀ (options : Options) (text : Text),
    ∀ warning ∈ warningsFor options text, ∀ e ∈ warning.elements, e <:+: text := by
  intro hall
  have hjoined : (warningsFor {} joinedAnnotation).flatMap ParseError.elements = ["D[x y]\x7bz\x7d".toList] := by
    decide +kernel
  have hmem : "D[x y]\x7bz\x7d".toList ∈ (warningsFor {} joinedAnnotation).flatMap ParseError.elements := by
    rw [hjoined]
    exact List.mem_cons_self
  obtain ⟨warning, hwarning, he⟩ := List.mem_flatMap.1 hmem
  have hpart := hall {} joinedAnnotation warning hwarning _ he
  exact absurd hpart (by decide +kernel)

end InstitutionalGrammar
