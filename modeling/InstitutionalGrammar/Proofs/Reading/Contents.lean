/-
  InstitutionalGrammar.Proofs.Reading.Contents — what is laid out of a text, in rules.

  A block behind a header is a combination if the trial shows that its tree is one of tagged blocks alone, and a
  nested statement otherwise. A block without a header is a pair if its tree is one combination, and stray otherwise.
  So a property of blocks is shown for their trees and, of these, for each kind of block that they can make.
  - `Meets.trial`: the tree of a block behind a header.
  - `Meets.headed`, `Meets.headless`: what the block is.
  - `Meets.laidOut`: all blocks of a text.
-/

import InstitutionalGrammar.Reading.Basic
import InstitutionalGrammar.Proofs.Header.Stands

namespace InstitutionalGrammar

variable {E F : Failure → Prop} {T : Node → Prop} {P : BlockContent → Prop} {limit : Nat} {header : Header}
  {text inner braced : Text}

/-! ## Trials -/

theorem isTaggedLeaf_meets (leaf : Node) : Meets E (fun _ => True) (isTaggedLeaf leaf) := by
  unfold isTaggedLeaf
  split
  · trivial
  · exact (TaggedBlock.read_part _).bind fun _ _ => trivial

theorem allTagged_meets (leaves : List Node) : Meets E (fun _ => True) (leaves.allM isTaggedLeaf) := by
  induction leaves with
  | nil => trivial
  | cons leaf leaves ih =>
    rw [List.allM_cons]
    refine (isTaggedLeaf_meets leaf).bind fun tagged _ => ?_
    cases tagged
    · trivial
    · exact ih

/-- A tree that cannot be built makes no combination, whatever its text is rejected for. -/
theorem Meets.trial (htree : Meets F T (combinationTree .braces limit braced))
    (hF : ∀ f, F f → (∀ e, f ≠ .rejected e) → E f) :
    Meets E (fun found => ∀ tree ∈ found, T tree ∧ tree.isLeaf = false) (taggedTree? limit braced) := by
  have hnone : ∀ tree ∈ (none : Option Node), T tree ∧ tree.isLeaf = false := nofun
  unfold taggedTree?
  split
  · exact hnone
  · rename_i cause hcause h
    exact hF cause (htree.failure h) hcause
  · rename_i tree h
    split
    · exact hnone
    · rename_i hshown
      simp only [Bool.or_eq_true, not_or, Bool.not_eq_true] at hshown
      refine (allTagged_meets tree.leaves).bind fun tagged _ => ?_
      cases tagged
      · exact hnone
      · rintro _ ⟨⟩
        exact ⟨htree.value h, hshown.1⟩

/-! ## Blocks -/

theorem Meets.headed (htrial : Meets E (fun found => ∀ tree ∈ found, T tree) (taggedTree? limit braced)) (hstray : P .stray)
    (hcombined : ∀ tree, header.component.nests = true → T tree → P (.combined header tree))
    (hnested : header.component.nests = true → P (.nested header inner)) :
    Meets E P (taggedContent limit header inner braced) := by
  unfold taggedContent
  split
  · exact hstray
  · rename_i hnests
    have hnests : header.component.nests = true := by simpa using hnests
    refine htrial.bind fun found hfound => ?_
    cases found with
    | none => exact hnested hnests
    | some tree => exact hcombined tree hnests (hfound tree rfl)

theorem Meets.headless (htree : Meets E T (combinationTree .braces limit braced))
    (hmany : ∀ tree, E (.rejected (.multipleComponentPairs ((writtenCombinations tree).map Node.render))))
    (hpair : ∀ tree, T tree → (writtenCombinations tree).length ≤ 1 → tree.isCombination = true → P (.pair tree))
    (hblank : inner.trim = [] → P .stray) (hleaf : ∀ tree, T tree → tree.isCombination = false → P .stray) :
    Meets E P (untaggedContent limit inner braced) := by
  unfold untaggedContent
  split
  · exact hblank (List.isEmpty_iff.1 ‹_›)
  · refine htree.bind fun tree htree => ?_
    simp only
    split
    · exact hmany tree
    · rename_i hfew
      show P (if tree.isCombination then .pair tree else .stray)
      split
      · exact hpair tree htree (Nat.le_of_not_lt hfew) ‹_›
      · exact hleaf tree htree (Bool.not_eq_true _ ▸ ‹_›)

/-! ## Outlines -/

/-- Blanking out fails for nothing but a cut in the wrong place. -/
theorem blankOut_meets (hE : E .misplacedCut) (text : Text) (cursor : Nat) (blocks : List Block) :
    Meets E (fun _ => True) (blankOut text cursor blocks) := by
  have hslice : ∀ i j, Meets E (fun _ => True) (text.slice i j) := by
    intro i j
    unfold Text.slice
    split
    · trivial
    · exact hE
  induction blocks generalizing cursor with
  | nil => exact hslice _ _
  | cons b blocks ih => exact (hslice _ _).bind fun _ _ => (ih b.stop).bind fun _ _ => trivial

theorem Meets.laidOut {P : Block → Prop} (hE : E .misplacedCut) (hblock : ∀ bounds ∈ braceBounds 0 0 none (tokens text),
      Meets E P (blockAt limit text (PlacedShape.all text) bounds)) :
    Meets E (fun outline => ∀ b ∈ outline.blocks, P b) (Outline.of limit text) := by
  unfold Outline.of
  refine (Meets.mapM hblock).bind fun blocks hblocks => ?_
  exact (blankOut_meets hE text 0 blocks).bind fun atomic _ => hblocks

end InstitutionalGrammar
