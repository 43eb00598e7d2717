/-
  InstitutionalGrammar.Proofs.Depth.Room — how reading a text can fail under a limit that leaves room.

  A limit of at least the number of operators of a text is never reached by the combinations in it: not
  in its blocks, not in its atomic text and not in its components. What is left are refusals for other
  reasons, and the failures of the texts inside.
  - `atomicStatement_room`, `draft_room`: the text itself.
  - `step_room`: the text with the texts inside it.
-/

import InstitutionalGrammar.Proofs.Depth.Reading
import InstitutionalGrammar.Proofs.Layout.Braces
import InstitutionalGrammar.Proofs.WellFormed.Reading

namespace InstitutionalGrammar

open Statement Node

variable {E : Failure → Prop} {options : Options} {text : Text} {limit : Nat} {P : Statement → Prop}

theorem Failure.Ordinary.tolerates (hE : ∀ f : Failure, f.Ordinary → E f) : Tolerates E := fun _ he => hE _ he.2

/-! ## Components -/

/-- The text between the delimiters of an occurrence is part of the text. -/
theorem Occurrence.all_part (hE : ∀ f : Failure, f.Ordinary → E f) (c : Component) (d : Delimiters) :
    Meets E (fun os => ∀ o ∈ os, o.body <:+: text) (Occurrence.all text c d) := by
  refine Meets.mapM fun header hheader => ?_
  have hstands := Header.all_stands (List.mem_filter.1 hheader).1
  have hbefore := hstands.before
  unfold ofHeader
  refine (closeOf_at hstands.opens).bind fun close hclose => ?_
  cases close with
  | none => exact hE _ nofun
  | some close =>
    obtain ⟨hcloses, hle⟩ := hclose close rfl
    refine (Meets.cut hstands.start (cut_closing hcloses) (by omega)).bind fun raw _ => ?_
    refine (Meets.cut hstands.opens.cut (cut_closing hcloses) (by omega)).bind fun body hbody => ?_
    exact hbody.1.part

section Room

variable (hE : ∀ f : Failure, f.Ordinary → E f)
include hE

theorem occurrenceTrees_room {os : List Occurrence}
    (hos : ∀ o ∈ os, E (.rejected (.nestingTooDeep limit)) ∨ operatorCount o.body ≤ limit) (seen : List Text) :
    Meets E (fun _ => True) (occurrenceTrees limit seen os) := by
  induction os generalizing seen with
  | nil => trivial
  | cons o os ih =>
    have htree : Meets E (fun _ => True) (occurrenceTree limit o) :=
      (treeWithin_drawn hE .parentheses ((hos o List.mem_cons_self).imp_right Nat.lt_succ_of_le)).bind fun _ _ => trivial
    rw [occurrenceTrees]
    split
    · apply hE
      intro n hn
      cases hn
    · refine htree.bind fun _ _ => ?_
      exact (ih (fun x hx => hos x (List.mem_cons_of_mem _ hx)) _).bind fun _ _ => trivial

variable (hdeep : E (.rejected (.nestingTooDeep limit)) ∨ operatorCount text ≤ limit)
include hdeep

theorem componentTree?_room (c : Component) : Meets E (fun _ => True) (componentTree? limit c text) := by
  have htree : Meets E (fun _ => True) (componentTree limit c text) := by
    unfold componentTree
    refine (Occurrence.all_part hE c .parentheses).bind fun os hos => ?_
    have hroom : ∀ o ∈ os, E (.rejected (.nestingTooDeep limit)) ∨ operatorCount o.body ≤ limit :=
      fun o ho => hdeep.imp_right (Nat.le_trans (operatorCount_part (hos o ho)))
    refine (occurrenceTrees_room hE hroom []).bind fun trees _ => ?_
    have hfold : Meets ParseError.Ordinary (fun t => ∀ n ∈ t, True) (fold? .syntheticAnd trees) :=
      fold?_ordinary (fun _ _ _ _ _ => trivial) fun _ _ => trivial
    refine ((Regular.lift hfold).meets hE).bind fun found _ => ?_
    cases found with
    | none => exact hE _ nofun
    | some tree => trivial
  unfold componentTree?
  split
  · trivial
  · trivial
  · rename_i h
    exact htree.failure h

theorem atomicStatement_room : Meets E (fun _ => True) (Reading.atomicStatement limit text) := by
  refine Meets.foldlM (fun c _ s _ => ?_) trivial
  refine (componentTree?_room hE hdeep c).bind fun found _ => ?_
  cases found with
  | none => trivial
  | some tree => trivial

end Room

/-! ## Texts -/

namespace Reading

/-- Blanking out the blocks of the text fails in no other way than `E` says. -/
def Blanks (E : Failure → Prop) (limit : Nat) (text : Text) : Prop :=
  ∀ blocks, (braceBounds 0 0 none (tokens text)).mapM (blockAt limit text (PlacedShape.all text)) = .ok blocks →
    Meets E (fun _ => True) (blankOut text 0 blocks)

variable (hE : ∀ f : Failure, f.Ordinary → E f)
  (hdeep : E (.rejected (.nestingTooDeep options.depthLimit)) ∨ operatorCount text ≤ options.depthLimit)
  (hblank : Blanks E options.depthLimit text)
include hE hdeep hblank

theorem draft_room : Meets E (fun x => Outline.of options.depthLimit text = .ok x.1 ∧ Started P x.1 x.2 ∧
    ∀ b ∈ x.1.blocks, ∀ inner, b.content.Holds inner → Smaller inner text) (draft options text) := by
  have hfails : Meets E (fun x => Outline.of options.depthLimit text = .ok x.1 ∧
      ∀ b ∈ x.1.blocks, ∀ inner, b.content.Holds inner → Smaller inner text) (draft options text) := by
    unfold draft
    refine ((Regular.lift (requireBalanced_ordinary text)).meets hE).bind fun _ _ => ?_
    refine (Outline.of_smaller hE hdeep hblank).and_eq.bind fun outline houtline => ?_
    obtain ⟨⟨hcount, hsmaller⟩, houtline⟩ := houtline
    have hroom : E (.rejected (.nestingTooDeep options.depthLimit)) ∨
        operatorCount outline.atomic ≤ options.depthLimit := hdeep.imp_right (Nat.le_trans hcount)
    refine (atomicStatement_room hE hroom).and_eq.bind fun s hs => ?_
    have hformed := (atomicStatement_meets (P := P) options.depthLimit outline.atomic).value hs.2
    obtain ⟨t, ht⟩ : ∃ t, linked options .simple s = .ok t := by
      have hlinked := linked_meets options .simple hformed.1
      cases h : linked options .simple s with
      | error e => exact (hlinked.failure h).elim
      | ok t => exact ⟨t, rfl⟩
    rw [ht]
    exact ⟨houtline, hsmaller⟩
  exact hfails.and_eq.weaken fun x hx => ⟨hx.1.1, (draft_meets options text).value hx.2, hx.1.2⟩

/-- A text fails for a reason of its own, or as a text inside it does, and each of these is smaller. -/
theorem step_room {read : Text → Report Node} (hread : ∀ inner, Inside options text inner → Smaller inner text →
      Meets E (·.Unlabelled (Entry.Read P)) (read inner).result) :
    Meets E (·.Unlabelled (Entry.Formed P)) (step options read text).result := by
  refine step_fails (Failure.Ordinary.tolerates hE) ((draft_room (P := P) hE hdeep hblank).weaken fun x hx => ?_)
  obtain ⟨houtline, hstarted, hsmaller⟩ := hx
  exact ⟨hstarted, fun b hb inner hinner => hread inner ⟨x.1, houtline, b, hb, hinner⟩ (hsmaller b hb inner hinner)⟩

/-- The same where the texts inside are read in the same way; what they yield is well formed anyway. -/
theorem step_within_room {budget : Nat} (hread : ∀ inner, Inside options text inner → Smaller inner text →
      Meets E (fun _ => True) (within options budget inner).result) :
    Meets E (fun _ => True) (step options (within options budget) text).result := by
  have hstep : Meets E (·.Unlabelled (Entry.Formed fun _ => True)) (step options (within options budget) text).result :=
    step_room hE hdeep hblank fun inner hinner hsmaller =>
      (hread inner hinner hsmaller).and_eq.weaken fun tree htree => (within_formed options budget inner).value htree.2
  exact hstep.weaken fun _ _ => trivial

end Reading

end InstitutionalGrammar
