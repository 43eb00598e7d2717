/-
  InstitutionalGrammar.Proofs.Reading.Stages — the way from a text to its statements.

  A text is laid out, its atomic text makes a statement, the statements nested in it are attached, and
  a pair makes several statements of it. What stands in its blocks is read the same way, one level deeper.
  - `outline_meets`: the blocks of a text have headers and trees that reading can build on.
  - `Inside`, `Reaches`: the texts that are read inside a text, right below it or at any depth.
  - `step_ok`, `output_cases`: the stages of a reading that ends well.
-/

import Mathlib.Logic.Relation
import InstitutionalGrammar.Parse
import InstitutionalGrammar.Proofs.Reading.Contents
import InstitutionalGrammar.Proofs.Reading.Labels

namespace InstitutionalGrammar

open Node

/-! ## Blocks -/

/-- A nested statement belongs to a component that nests; combined texts are not labelled yet. -/
def BlockContent.Fit : BlockContent → Prop
  | .nested header _ => header.component.nests = true ∧ KeyedSuffix header.suffix
  | .combined header tree => header.component.nests = true ∧ KeyedSuffix header.suffix ∧ tree.Unlabelled Coding
  | .pair tree => tree.Unlabelled Coding
  | .stray => True

/-- The texts that a block has read as statements. -/
def BlockContent.Holds : BlockContent → Text → Prop
  | .nested _ inner, text => text = inner
  | .combined _ tree, text =>
    ∃ leaf ∈ tree.leaves, ∃ header, TaggedBlock.read (leaf.text?.getD []) = .ok (some ⟨header, text⟩)
  | .pair tree, text => ∃ leaf ∈ (tree.spreadShared [] []).leaves, text = leaf.text?.getD []
  | .stray, _ => False

/-- A trial that fails makes no combination. -/
theorem taggedTree?_meets (limit : Nat) (braced : Text) :
    Fair (fun t => ∀ n ∈ t, n.Unlabelled Coding) (taggedTree? limit braced) :=
  (Meets.trial (fragmentTree_meets limit braced) fun _ hf _ => hf).weaken fun _ h n hn => (h n hn).1

theorem taggedContent_meets (limit : Nat) {header : Header} (hheader : KeyedSuffix header.suffix) (inner braced : Text) :
    Fair BlockContent.Fit (taggedContent limit header inner braced) :=
  Meets.headed (taggedTree?_meets limit braced) trivial (fun _ hnests htree => ⟨hnests, hheader, htree⟩)
    fun hnests => ⟨hnests, hheader⟩

theorem untaggedContent_meets (limit : Nat) (inner braced : Text) :
    Fair BlockContent.Fit (untaggedContent limit inner braced) :=
  Meets.headless (fragmentTree_meets limit braced) (fun _ => rfl) (fun _ htree _ _ => htree) (fun _ => trivial)
    fun _ _ _ => trivial

theorem blockAt_meets (limit : Nat) (text : Text) (bounds : Nat × Nat) :
    Fair (·.content.Fit) (blockAt limit text (PlacedShape.all text) bounds) := by
  unfold blockAt
  refine (Meets.slice _ _ _).bind fun inner _ => ?_
  split
  · rename_i header hheader
    refine (Meets.slice _ _ _).bind fun raw _ => (Meets.slice _ _ _).bind fun braced _ => ?_
    exact (taggedContent_meets limit (Header.among?_keyed hheader) inner braced).bind fun content hcontent => hcontent
  · refine (Meets.slice _ _ _).bind fun raw _ => ?_
    exact (untaggedContent_meets limit inner raw).bind fun content hcontent => hcontent

theorem outline_meets (limit : Nat) (text : Text) :
    Fair (fun outline => ∀ b ∈ outline.blocks, b.content.Fit) (Outline.of limit text) :=
  Meets.laidOut trivial fun bounds _ => blockAt_meets limit text bounds

namespace Reading

variable {options : Options} {read : Text → Report Node} {text inner raw : Text} {s t : Statement} {tree out : Node}
  {outline : Outline}

theorem mem_pairs {blocks : List Block} (h : (raw, tree) ∈ pairs blocks) :
    ∃ b ∈ blocks, b.raw = raw ∧ b.content = .pair tree := by
  obtain ⟨b, hb, h⟩ := List.mem_filterMap.1 h
  split at h
  · rename_i hcontent
    cases h
    exact ⟨b, hb, rfl, hcontent⟩
  · cases h

theorem pair_unlabelled {blocks : List Block} (hblocks : ∀ b ∈ blocks, b.content.Fit) (h : (raw, tree) ∈ pairs blocks) :
    tree.Unlabelled Coding := by
  obtain ⟨b, hb, -, hcontent⟩ := mem_pairs h
  have hfit := hblocks b hb
  rw [hcontent] at hfit
  exact hfit

/-! ## Texts inside a text -/

/-- The text `inner` is read as a statement right inside the text. -/
def Inside (options : Options) (text inner : Text) : Prop :=
  ∃ outline, Outline.of options.depthLimit text = .ok outline ∧ ∃ b ∈ outline.blocks, b.content.Holds inner

/-- Where the texts inside `text` are read `within` that budget, those inside `inner` are, with what is
    `left` of it; `inner` is `text` or stands inside it. -/
inductive Reaches (options : Options) : (budget : Nat) → (text : Text) → (left : Nat) → (inner : Text) → Prop
  | self {budget : Nat} {text : Text} : Reaches options budget text budget text
  | inside {budget left : Nat} {text inner deepest : Text} : Inside options text inner →
      Reaches options budget inner left deepest → Reaches options (budget + 1) text left deepest

theorem Reaches.reflTransGen {budget left : Nat} (h : Reaches options budget text left inner) :
    Relation.ReflTransGen (Inside options) text inner := by
  induction h with
  | self => exact .refl
  | inside hinner _ ih => exact .head hinner ih

/-! ## Statements -/

theorem draft_ok (h : draft options text = .ok (outline, s)) : Outline.of options.depthLimit text = .ok outline ∧
    ∃ a, atomicStatement options.depthLimit outline.atomic = .ok a ∧ linked options .simple a = .ok s := by
  unfold draft at h
  obtain ⟨-, -, h⟩ := bind_eq_ok.1 h
  obtain ⟨o, ho, h⟩ := bind_eq_ok.1 h
  obtain ⟨a, ha, h⟩ := bind_eq_ok.1 h
  obtain ⟨d, hd, h⟩ := bind_eq_ok.1 h
  cases h
  exact ⟨ho, a, ha, liftM_eq_ok.1 hd⟩

theorem outline_of_draft (h : draft options text = .ok (outline, s)) : Outline.of options.depthLimit text = .ok outline :=
  (draft_ok h).1

theorem complete_ok (h : (complete options read outline s).result = .ok t) :
    ∃ u, (attachBlocks options read outline s).result = .ok u ∧ linked options .complex u = .ok t := by
  unfold complete at h
  obtain ⟨u, hu, h⟩ := Report.bind_result_ok.1 h
  exact ⟨u, hu, Report.liftM_result_ok.1 h⟩

theorem step_ok (h : (step options read text).result = .ok out) :
    ∃ outline s t, draft options text = .ok (outline, s) ∧ (complete options read outline s).result = .ok t ∧
      (step options read text).outer = some t ∧ (output options read outline t).result = .ok out := by
  unfold step at h ⊢
  cases hdraft : draft options text with
  | error e => simp [hdraft] at h
  | ok d =>
    obtain ⟨outline, s⟩ := d
    simp only [hdraft] at h ⊢
    cases hcomplete : (complete options read outline s).result with
    | error e => simp [hcomplete] at h
    | ok t =>
      simp only [hcomplete] at h ⊢
      exact ⟨outline, s, t, rfl, hcomplete, rfl, h⟩

/-- Without a pair the statement itself is the output, with one those of its elements are. -/
theorem output_cases (h : (output options read outline t).result = .ok out) :
    (pairs outline.blocks = [] ∧ out = .nested t) ∨
      ∃ raw tree, pairs outline.blocks = [(raw, tree)] ∧ (pairOutput options read t raw tree).result = .ok out := by
  unfold output at h
  split at h
  · rename_i hpairs
    split at h
    · cases h
    · cases h
      exact Or.inl ⟨hpairs, rfl⟩
  · rename_i raw tree hpairs
    exact Or.inr ⟨raw, tree, hpairs, h⟩
  · cases h

/-- It is not empty then. -/
theorem output_populated (hnone : pairs outline.blocks = []) (h : (output options read outline t).result = .ok out) :
    t.isEmpty = false := by
  unfold output at h
  rw [hnone] at h
  simp only at h
  split at h
  · cases h
  · rename_i hpopulated
    simpa using hpopulated

/-! ## Parses -/

/-- A parse reads the text with the whole budget. -/
theorem step_of_parse {p : Parsed} (h : parse options text = .ok p) :
    (step options (within options options.depthLimit) text).result = .ok p.tree := by
  unfold parse at h
  simp only at h
  split at h
  · rename_i htree
    cases h
    exact htree
  · cases h

end Reading

theorem exists_refusal {options : Options} {text : Text} {cause : Failure}
    (h : (Reading.of options text).result = .error cause) : ∃ r, parse options text = .error r ∧ r.cause = cause := by
  refine ⟨⟨cause, (Reading.of options text).outer.map .nested, warningsOf (Reading.of options text).ignored⟩, ?_, rfl⟩
  unfold parse
  simp only [h]

end InstitutionalGrammar
