/-
  InstitutionalGrammar.Proofs.Session.Enclosed — what blocks enclose stays out of the simple slots.

  The simple slots are filled from the atomic text alone. In a nested text whose gaps have no brackets,
  that is the gaps and spaces between them, so two such texts with the same gaps have the same simple
  slots, whatever their blocks enclose. An annotation would break it: its bracket can open in a block and
  close behind it. Linking would break it too: it moves properties from simple slots to the owners that
  a block may hold.
  - `atomicStatement_gaps`: the statement of the atomic text, from the gaps.
  - `Reading.outer_simple`: the outer statement has the simple slots of the atomic text.
  - `Session.simple_of_enclosed`: two texts that differ in what one block encloses.
-/

import InstitutionalGrammar.Proofs.Layout.Apart
import InstitutionalGrammar.Proofs.Session.Calls
import InstitutionalGrammar.Proofs.WellFormed.Reading

namespace InstitutionalGrammar

open Statement Reading

variable {options : Options} {gap t : Text} {blocks blocks' : List (Text × Text)} {c : Component} {s : Statement}

/-! ## The atomic text -/

theorem isDelimiter_of_suffixChar {e : Char} (h : Suffix.isSuffixChar e = true) : isDelimiter e = false := by
  cases hd : isDelimiter e with
  | false => rfl
  | true =>
    simp only [isDelimiter, isOpening, isClosing, Bool.or_eq_true, decide_eq_true_eq] at hd
    rcases hd with (hd | hd) | (hd | hd) <;> subst hd <;> exact absurd h (by decide)

theorem untagged_nested (h : Blockless gap) (hfree : Unbracketed gap) : WellNested (untagged gap) := by
  obtain ⟨hparts, hchars⟩ := untagged_append hfree
  have hnested := h.nested
  rw [← hparts] at hnested
  exact hnested.left fun e he => isDelimiter_of_suffixChar (hchars e he)

/-- The occurrences in the atomic texts of two texts with the same gaps. -/
theorem occurrences_gaps (h : Interleaved gap blocks) (h' : Interleaved gap blocks') (hfree : FreeGaps gap blocks)
    (hgaps : blocks.map Prod.snd = blocks'.map Prod.snd) (c : Component) :
    ∃ os os', Occurrence.all (blanked gap blocks) c .parentheses = .ok os ∧
      Occurrence.all (blanked gap blocks') c .parentheses = .ok os' ∧ List.Forall₂ Occurrence.Alike os os' := by
  have hsame : ∀ os : List Occurrence, List.Forall₂ Occurrence.Alike os os := fun os =>
    List.forall₂_same.2 fun o _ => ⟨rfl, rfl, rfl, rfl, rfl⟩
  induction blocks generalizing gap blocks' with
  | nil =>
    obtain rfl : blocks' = [] := by simpa using hgaps.symm
    obtain ⟨os, hos⟩ := Occurrence.exists_all h.gap.nested c .parentheses
    exact ⟨os, os, hos, hos, hsame os⟩
  | cons b blocks ih =>
    cases blocks' with
    | nil => cases hgaps
    | cons b' blocks' =>
      obtain ⟨inner, next⟩ := b
      obtain ⟨inner', next'⟩ := b'
      obtain ⟨hnext, hlater⟩ := List.cons.inj hgaps
      obtain rfl : next = next' := hnext
      obtain ⟨os, os', hos, hos', halike⟩ := ih h.behind h'.behind hfree.behind hlater
      obtain ⟨first, hfirst⟩ := Occurrence.exists_all (untagged_nested h.gap hfree.gap) c .parentheses
      have hpart : Unbracketed (untagged gap) := fun e he => hfree.gap e (List.mem_of_mem_take he)
      refine ⟨_, _, Occurrence.all_apart hpart hfirst hos _, Occurrence.all_apart hpart hfirst hos' _, ?_⟩
      refine List.rel_append (hsame first) ?_
      rw [List.forall₂_map_left_iff, List.forall₂_map_right_iff]
      exact halike.imp fun o o' ho => ⟨ho.raw, ho.body, ho.component, ho.suffix, ho.remark⟩

theorem atomicStatement_gaps (h : Interleaved gap blocks) (h' : Interleaved gap blocks') (hfree : FreeGaps gap blocks)
    (hgaps : blocks.map Prod.snd = blocks'.map Prod.snd) (limit : Nat) :
    atomicStatement limit (blanked gap blocks) = atomicStatement limit (blanked gap blocks') := by
  have htrees : ∀ c, componentTree? limit c (blanked gap blocks) = componentTree? limit c (blanked gap blocks') := by
    intro c
    obtain ⟨os, os', hos, hos', halike⟩ := occurrences_gaps h h' hfree hgaps c
    exact componentTree?_alike halike hos hos'
  unfold atomicStatement
  simp only [htrees]

/-! ## The outer statement -/

theorem Reading.linked_off (hoff : options.linksProperties = false) (kind : SlotKind) (s : Statement) :
    linked options kind s = .ok s := by
  unfold linked
  rw [hoff]
  rfl

/-- The statement that a text leaves has the simple slots of its atomic text, if nothing is linked. -/
theorem Reading.outer_simple (hoff : options.linksProperties = false) (h : (of options t).outer = some s) :
    ∃ outline a, Outline.of options.depthLimit t = .ok outline ∧
      atomicStatement options.depthLimit outline.atomic = .ok a ∧ ∀ c, s.get (.simple c) = a.get (.simple c) := by
  unfold of step at h
  cases hdraft : draft options t with
  | error cause =>
    rw [hdraft] at h
    cases h
  | ok x =>
    obtain ⟨outline, a⟩ := x
    rw [hdraft] at h
    obtain ⟨houtline, a', ha, hlinked⟩ := draft_ok hdraft
    rw [linked_off hoff] at hlinked
    cases hlinked
    refine ⟨outline, a, houtline, ha, ?_⟩
    simp only at h
    split at h
    · cases h
      exact fun c => rfl
    · rename_i u hu
      cases h
      obtain ⟨v, hv, hlinked⟩ := complete_ok hu
      rw [linked_off hoff] at hlinked
      cases hlinked
      have hstarted := (draft_meets (P := fun _ => True) options t).value hdraft
      have hread := (within_formed options options.depthLimit).blocks outline.blocks
      exact ((attachBlocks_meets tolerates_ofInput options hread hstarted.blocks hstarted.simple).value hv).simple

/-- Texts with the same gaps leave the same simple slots. -/
theorem Reading.outer_simple_gaps (hoff : options.linksProperties = false) (h : Interleaved gap blocks)
    (h' : Interleaved gap blocks') (hfree : FreeGaps gap blocks) (hgaps : blocks.map Prod.snd = blocks'.map Prod.snd)
    {s t : Statement} (hs : (of options (interleave gap blocks)).outer = some s)
    (ht : (of options (interleave gap blocks')).outer = some t) (c : Component) :
    s.get (.simple c) = t.get (.simple c) := by
  have hfree' : FreeGaps gap blocks' := by
    refine ⟨hfree.gap, fun b hb => ?_⟩
    have hmem : b.2 ∈ blocks.map Prod.snd := hgaps ▸ List.mem_map_of_mem hb
    obtain ⟨b', hb', hsame⟩ := List.mem_map.1 hmem
    rw [← hsame]
    exact hfree.next b' hb'
  obtain ⟨outline, a, houtline, ha, hsimple⟩ := outer_simple hoff hs
  obtain ⟨outline', a', houtline', ha', hsimple'⟩ := outer_simple hoff ht
  rw [outline_atomic h hfree houtline, atomicStatement_gaps h h' hfree hgaps] at ha
  rw [outline_atomic h' hfree' houtline', ha] at ha'
  cases ha'
  rw [hsimple, hsimple']

/-- Nothing that a block encloses reaches the simple slots of the statement around it. -/
theorem Session.simple_of_enclosed (hoff : options.linksProperties = false) {before behind inner inner' : Text}
    (hbefore : WellNested before) (hbehind : WellNested behind) (hfree : Unbracketed before)
    (hfree' : Unbracketed behind) (hinner : WellNested inner) (hinner' : WellNested inner') {s s' : Statement}
    (hs : ((fresh options).read (before ++ brace :: (inner ++ endBrace :: behind))).1.takeOuter.2 = some s)
    (hs' : ((fresh options).read (before ++ brace :: (inner' ++ endBrace :: behind))).1.takeOuter.2 = some s')
    (c : Component) : s.get (.simple c) = s'.get (.simple c) := by
  obtain ⟨gap, blocks, rfl, hgaps⟩ := hbefore.interleaved
  obtain ⟨next, later, rfl, hlater⟩ := hbehind.interleaved
  have houter : ∀ t, ((fresh options).read t).1.takeOuter.2 = (of options t).outer := fun t => Option.or_none
  rw [houter, ← interleave_append] at hs hs'
  refine outer_simple_gaps hoff (hgaps.append hinner hlater) (hgaps.append hinner' hlater)
    (hfree.freeGaps.append inner hfree'.freeGaps) ?_ hs hs' c
  simp

/-- The tag of a block, and a coded component in front of it. -/
def codedBefore : Text := "A(x) Cac".toList

def codedBehind : Text := " I(y)".toList

/-- The first text enclosed is a statement, the second one is refused as one. -/
theorem Session.simple_of_enclosed_refused : ∃ s s' : Statement,
    ((fresh { linksProperties := false }).read
      (codedBefore ++ brace :: ("A(a) I(b)".toList ++ endBrace :: codedBehind))).1.takeOuter.2 = some s ∧
    ((fresh { linksProperties := false }).read
      (codedBefore ++ brace :: ("[no code".toList ++ endBrace :: codedBehind))).1.takeOuter.2 = some s' ∧
    ∀ c, s.get (.simple c) = s'.get (.simple c) := by
  have hbefore : WellNested codedBefore :=
    .char rfl (.enclosed (d := .parentheses) (a := ['x']) (.char rfl .nil) (.of_all (Text.forall_of_all (by decide))))
  have hbehind : WellNested codedBehind :=
    .char rfl (.char rfl (.enclosed (d := .parentheses) (a := ['y']) (.char rfl .nil) .nil))
  have hinner : WellNested "A(a) I(b)".toList :=
    .char rfl (.enclosed (d := .parentheses) (a := ['a']) (.char rfl .nil)
      (.char rfl (.char rfl (.enclosed (d := .parentheses) (a := ['b']) (.char rfl .nil) .nil))))
  have hinner' : WellNested "[no code".toList := .of_all (Text.forall_of_all (by decide))
  have hfree : Unbracketed codedBefore := Text.forall_of_all (by decide)
  have hfree' : Unbracketed codedBehind := Text.forall_of_all (by decide)
  obtain ⟨s, hs⟩ := Option.isSome_iff_exists.1 (show ((fresh { linksProperties := false }).read
    (codedBefore ++ brace :: ("A(a) I(b)".toList ++ endBrace :: codedBehind))).1.takeOuter.2.isSome = true by
      decide +kernel)
  obtain ⟨s', hs'⟩ := Option.isSome_iff_exists.1 (show ((fresh { linksProperties := false }).read
    (codedBefore ++ brace :: ("[no code".toList ++ endBrace :: codedBehind))).1.takeOuter.2.isSome = true by
      decide +kernel)
  exact ⟨s, s', hs, hs', simple_of_enclosed rfl hbefore hbehind hfree hfree' hinner hinner' hs hs'⟩

end InstitutionalGrammar
