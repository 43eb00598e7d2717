/-
  InstitutionalGrammar.Proofs.Depth.Guard — one text under two limits, as far as its blocks.

  A limit stops a computation that goes too deep and has no part in it otherwise: `Guarded limit x y`
  says that the guard stopped `x`, or that `y`, the computation under a larger limit, is the same. Every
  function that takes a limit is guarded but one, which tries a block as a combination of nested
  statements: where it is stopped, it takes the block for a nested statement.
  - `combinationTree_guarded`, `atomicStatement_guarded`: combinations and components.
  - `Outline.of_guarded`: the blocks of a text, unless one of them is overlooked that way.
-/

import InstitutionalGrammar.Reading.Basic
import InstitutionalGrammar.Proofs.Outcome

namespace InstitutionalGrammar

/-- The guard stopped the first computation, or the second one is the same. -/
def Guarded {α : Type} (limit : Nat) (x y : Outcome α) : Prop := x = reject (.nestingTooDeep limit) ∨ y = x

namespace Guarded

variable {α β : Type} {limit : Nat} {x y : Outcome α}

theorem refl (x : Outcome α) : Guarded limit x x := Or.inr rfl

theorem bind {f g : α → Outcome β} (h : Guarded limit x y) (hf : ∀ a, x = .ok a → Guarded limit (f a) (g a)) :
    Guarded limit (x >>= f) (y >>= g) := by
  rcases h with rfl | rfl
  · exact Or.inl rfl
  · cases y with
    | error e => exact refl _
    | ok a => exact hf a rfl

theorem mapM {f g : α → Outcome β} {l : List α} (h : ∀ a ∈ l, Guarded limit (f a) (g a)) :
    Guarded limit (l.mapM f) (l.mapM g) := by
  induction l with
  | nil => exact refl _
  | cons a l ih =>
    rw [List.mapM_cons, List.mapM_cons]
    refine (h a (by simp)).bind fun b _ => ?_
    exact (ih fun x hx => h x (by simp [hx])).bind fun bs _ => refl _

theorem foldlM {f g : β → α → Outcome β} {l : List α} (h : ∀ a b, Guarded limit (f b a) (g b a)) (b : β) :
    Guarded limit (l.foldlM f b) (l.foldlM g b) := by
  induction l generalizing b with
  | nil => exact refl _
  | cons a l ih =>
    rw [List.foldlM_cons, List.foldlM_cons]
    exact (h a b).bind fun c _ => ih c

end Guarded

variable {limit deeper : Nat}

/-! ## Combinations and components -/

section Build

variable {build build' : Text → Outcome Node} (hbuild : ∀ text, Guarded limit (build text) (build' text))
include hbuild

theorem combinationOf_guarded (table : SpanTable) (earlier : List Span) (s : Span) (o : PlacedOperator)
    (later : List Span) :
    Guarded limit (combinationOf build table earlier s o later) (combinationOf build' table earlier s o later) := by
  unfold combinationOf
  refine (Guarded.refl _).bind fun before _ => ?_
  refine (hbuild before).bind fun left _ => ?_
  refine (Guarded.refl _).bind fun behind _ => ?_
  exact (hbuild behind).bind fun right _ => .refl _

theorem combinationsOf_guarded (table : SpanTable) (earlier spans : List Span) :
    Guarded limit (combinationsOf build table earlier spans) (combinationsOf build' table earlier spans) := by
  induction spans generalizing earlier with
  | nil => exact .refl _
  | cons s later ih =>
    rw [combinationsOf, combinationsOf]
    split
    · exact ih earlier
    · refine (combinationOf_guarded hbuild table earlier s _ later).bind fun node _ => ?_
      exact (ih _).bind fun nodes _ => .refl _

theorem treeStep_guarded (d : Delimiters) (text : Text) :
    Guarded limit (treeStep d build text) (treeStep d build' text) := by
  unfold treeStep
  refine (Guarded.refl _).bind fun table _ => ?_
  split
  · exact .refl _
  · exact (combinationsOf_guarded hbuild table [] _).bind fun nodes _ => .refl _

end Build

theorem treeWithin_guarded (d : Delimiters) {budget more : Nat} (h : budget ≤ more) (text : Text) :
    Guarded limit (treeWithin d limit budget text) (treeWithin d deeper more text) := by
  induction budget generalizing more text with
  | zero => exact Or.inl rfl
  | succ budget ih =>
    obtain ⟨more, rfl⟩ := Nat.exists_eq_add_of_lt h
    exact treeStep_guarded (ih (by omega)) d text

variable (h : limit ≤ deeper)
include h

theorem combinationTree_guarded (d : Delimiters) (text : Text) :
    Guarded limit (combinationTree d limit text) (combinationTree d deeper text) :=
  treeWithin_guarded d (Nat.succ_le_succ h) text

theorem occurrenceTree_guarded (o : Occurrence) : Guarded limit (occurrenceTree limit o) (occurrenceTree deeper o) :=
  (combinationTree_guarded h .parentheses o.body).bind fun _ _ => .refl _

theorem occurrenceTrees_guarded (seen : List Text) (os : List Occurrence) :
    Guarded limit (occurrenceTrees limit seen os) (occurrenceTrees deeper seen os) := by
  induction os generalizing seen with
  | nil => exact .refl _
  | cons o os ih =>
    rw [occurrenceTrees, occurrenceTrees]
    split
    · exact .refl _
    · refine (occurrenceTree_guarded h o).bind fun tree _ => ?_
      exact (ih _).bind fun trees _ => .refl _

theorem componentTree_guarded (c : Component) (text : Text) :
    Guarded limit (componentTree limit c text) (componentTree deeper c text) := by
  unfold componentTree
  refine (Guarded.refl _).bind fun os _ => ?_
  exact (occurrenceTrees_guarded h [] os).bind fun trees _ => .refl _

/-- A component that is not found is no failure, but reaching the guard is one. -/
theorem componentTree?_guarded (c : Component) (text : Text) :
    Guarded limit (componentTree? limit c text) (componentTree? deeper c text) := by
  unfold componentTree?
  rcases componentTree_guarded h c text with hstop | hsame
  · rw [hstop]
    exact Or.inl rfl
  · rw [hsame]
    exact .refl _

theorem atomicStatement_guarded (atomic : Text) :
    Guarded limit (Reading.atomicStatement limit atomic) (Reading.atomicStatement deeper atomic) :=
  Guarded.foldlM (fun c _ => (componentTree?_guarded h c atomic).bind fun _ _ => .refl _) _

/-! ## Blocks -/

/-- Behind a header in the text stands a block that is a nested statement under the one limit, because
    the guard stops the trial of a combination, and something else under the other. -/
def Outline.Overlooks (limit deeper : Nat) (text : Text) : Prop :=
  ∃ left right header inner braced, (left, right) ∈ braceBounds 0 0 none (tokens text) ∧
    Header.among? (PlacedShape.all text) left = some header ∧
    text.slice (left + 1) right = .ok inner ∧ text.slice left (right + 1) = .ok braced ∧
    combinationTree .braces limit braced = reject (.nestingTooDeep limit) ∧
    taggedContent limit header inner braced = .ok (.nested header inner) ∧
    taggedContent deeper header inner braced ≠ .ok (.nested header inner)

/-- A block is the same under both limits, or the guard stops the trial. -/
theorem taggedContent_same (header : Header) (inner braced : Text) :
    taggedContent deeper header inner braced = taggedContent limit header inner braced ∨
      combinationTree .braces limit braced = reject (.nestingTooDeep limit) ∧
        taggedContent limit header inner braced = .ok (.nested header inner) := by
  unfold taggedContent
  by_cases hnests : header.component.nests = true
  · rcases combinationTree_guarded h .braces braced with hstop | hsame
    · have htree : taggedTree? limit braced = .ok none := by
        rw [taggedTree?, hstop]
        rfl
      refine Or.inr ⟨hstop, ?_⟩
      rw [htree, hnests]
      rfl
    · rw [taggedTree?, taggedTree?, hsame]
      exact Or.inl rfl
  · rw [if_pos (by simp [hnests]), if_pos (by simp [hnests])]
    exact Or.inl rfl

theorem untaggedContent_guarded (inner braced : Text) :
    Guarded limit (untaggedContent limit inner braced) (untaggedContent deeper inner braced) := by
  unfold untaggedContent
  split
  · exact .refl _
  · exact (combinationTree_guarded h .braces braced).bind fun tree _ => .refl _

variable {text : Text} (hall : ¬ Outline.Overlooks limit deeper text)
include hall

theorem blockAt_guarded {bounds : Nat × Nat} (hbounds : bounds ∈ braceBounds 0 0 none (tokens text)) :
    Guarded limit (blockAt limit text (PlacedShape.all text) bounds)
      (blockAt deeper text (PlacedShape.all text) bounds) := by
  obtain ⟨left, right⟩ := bounds
  unfold blockAt
  refine (Guarded.refl (text.slice (left + 1) right)).bind fun inner hinner => ?_
  split
  · rename_i header hheader
    refine (Guarded.refl _).bind fun raw _ => ?_
    refine (Guarded.refl (text.slice left (right + 1))).bind fun braced hbraced => ?_
    refine Guarded.bind (Or.inr ?_) fun content _ => .refl _
    rcases taggedContent_same h header inner braced with hsame | ⟨hstop, hnested⟩
    · exact hsame
    · by_cases hdeeper : taggedContent deeper header inner braced = .ok (.nested header inner)
      · rw [hdeeper, hnested]
      · exact absurd ⟨left, right, header, inner, braced, hbounds, hheader, hinner, hbraced, hstop, hnested, hdeeper⟩
          hall
  · refine (Guarded.refl _).bind fun raw _ => ?_
    exact (untaggedContent_guarded h inner raw).bind fun content _ => .refl _

theorem Outline.of_guarded : Guarded limit (Outline.of limit text) (Outline.of deeper text) := by
  unfold Outline.of
  refine (Guarded.mapM fun bounds hbounds => blockAt_guarded h hall hbounds).bind fun blocks _ => ?_
  exact .refl _

end InstitutionalGrammar
