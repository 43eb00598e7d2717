/-
  InstitutionalGrammar.Proofs.Plain.Shared — fragments joined by one operator, and text that they share.

  A phrase has neither braces nor brackets, and its parentheses match. A search for combinations of fragments
  passes over it, so a phrase can be an operand and can be shared text.
  - `Fragment.atom`: a phrase without white space at its ends is an operand.
  - `spanTable_chain_within`: a chain, alone or inside other text, has the table of its left fold.
  - `combinationTree_chain`, `combinationTree_shared`: the tree of a chain in braces, and of a chain in braces of
    its own with shared text around it; both are refused under the same limits.
-/

import InstitutionalGrammar.Proofs.Combination.Carried
import InstitutionalGrammar.Proofs.Combination.Surrounded
import InstitutionalGrammar.Proofs.Plain.Height
import InstitutionalGrammar.Proofs.Plain.Pair

namespace InstitutionalGrammar

variable {d : Delimiters} {o : Operator} {a b t x : Text} {xs : List Text}

/-! ## Phrases -/

/-- A text without braces and brackets whose parentheses match. -/
inductive Phrase : Text → Prop
  | nil : Phrase []
  | char {c : Char} {t : Text} : isReserved c = false → Phrase t → Phrase (c :: t)
  | content {a t : Text} : Phrase a → Phrase t →
      Phrase (Delimiters.parentheses.opening :: (a ++ Delimiters.parentheses.closing :: t))

/-- A phrase that begins and ends with something else than white space. -/
structure Fragment (t : Text) : Prop where
  phrase : Phrase t
  ne_nil : t ≠ []
  trimmed : t.trim = t

namespace Phrase

theorem of_all (h : ∀ c ∈ t, isReserved c = false) : Phrase t := by
  induction t with
  | nil => exact .nil
  | cons c t ih => exact .char (h c List.mem_cons_self) (ih fun e he => h e (List.mem_cons_of_mem _ he))

theorem append (ha : Phrase a) (hb : Phrase b) : Phrase (a ++ b) := by
  induction ha with
  | nil => exact hb
  | char hc _ ih => exact .char hc ih
  | @content a t ha _ _ ih => simpa using Phrase.content ha ih

theorem tidy (h : Phrase t) : Tidy t := by
  induction h with
  | nil => exact .nil
  | char hc _ ih => exact .char hc ih
  | content _ _ iha iht => exact .enclosed iha iht

theorem unbracketed (h : Phrase t) : ∀ c ∈ t, Shape.isBracket c = false := by
  induction h with
  | nil => exact nofun
  | char hc _ ih => exact List.forall_mem_cons.2 ⟨(Bool.or_eq_false_iff.1 hc).2, ih⟩
  | content _ _ iha iht =>
    intro c hc
    rcases List.mem_cons.1 hc with hopen | hrest
    · rw [hopen]
      decide
    · rcases List.mem_append.1 hrest with ha | hbehind
      · exact iha c ha
      · exact List.forall_mem_cons.2 ⟨by decide, iht⟩ c hbehind

/-- A search for combinations of fragments finds nothing in a phrase. -/
theorem cues_signs (h : Phrase t) (shapes : List PlacedShape) (p : Position) (ts : List Token) :
    cues .braces shapes (signs p t ++ ts) = cues .braces shapes ts := by
  induction h generalizing p ts with
  | nil => rfl
  | char hc _ ih => rw [signs_char hc, ih]
  | @content a t ha _ _ ih =>
    have hopen : ∀ q us, cues .braces shapes (⟨.opening .parentheses, q, q.offset + 1⟩ :: us) =
        (fragmentMarks shapes 0 1 us).filter isCue := by
      intro q us
      simp [cues, fragmentMarks, isCue]
    have hclose : ∀ q us, (fragmentMarks shapes 0 1 (⟨.closing .parentheses, q, q.offset + 1⟩ :: us)).filter
        isCue = cues .braces shapes us := by
      intro q us
      simp [cues, fragmentMarks, isCue]
    rw [signs_opening, ha.tidy.signs_append, signs_closing, List.cons_append, List.append_assoc, List.cons_append,
      hopen, cues_content ha.tidy, hclose, ih]

theorem silent (h : Phrase t) : Silent .braces t where
  tidy := h.tidy
  cues_signs := fun _ _ ts => h.cues_signs _ _ ts

end Phrase

/-- A fragment can be an operand, and shared text. -/
theorem Fragment.atom (h : Fragment t) : Atom .braces t where
  toSilent := h.phrase.silent
  ne_nil := h.ne_nil
  trimmed := h.trimmed
  head := by
    intro c hc
    refine ⟨h.phrase.tidy.nested.head? c hc, ?_⟩
    cases h.phrase with
    | nil => cases hc
    | char hplain _ =>
      cases hc
      exact (head_of_unreserved hplain .braces).2
    | content _ _ =>
      cases hc
      decide
  last := h.phrase.tidy.nested.getLast?

/-- A component in parentheses is a fragment. -/
theorem Fragment.content (c : Component) (h : Phrase t) : Fragment ((Slot.simple c).written t) := by
  have hphrase : Phrase ((Slot.simple c).written t) := (Phrase.of_all c.symbol_plain).append (.content h .nil)
  have hatom := ((Slot.simple c).framed_written t).atom hphrase.silent
  exact ⟨hphrase, hatom.ne_nil, hatom.trimmed⟩

/-- Two fragments with a space between them are one. -/
theorem Fragment.spaced (ha : Fragment a) (hb : Fragment b) : Fragment (a ++ ' ' :: b) where
  phrase := ha.phrase.append (.char (by decide) hb.phrase)
  ne_nil := by simp
  trimmed := by
    rw [Text.trim_eq_self_iff]
    have hfirst := (Text.trim_eq_self_iff.1 ha.trimmed).1
    have hlast := (Text.trim_eq_self_iff.1 hb.trimmed).2
    constructor
    · intro c hc
      rw [List.head?_append_of_ne_nil _ ha.ne_nil] at hc
      exact hfirst c hc
    · intro c hc
      rw [List.getLast?_append_of_ne_nil _ (List.cons_ne_nil _ _), List.getLast?_cons,
        List.getLast?_eq_some_getLast hb.ne_nil] at hc
      exact hlast c (by rw [List.getLast?_eq_some_getLast hb.ne_nil]; exact hc)

/-! ## Text in front of a combination -/

/-- A header that reaches over a character which no suffix has starts with an annotation before it. -/
theorem Shape.lead?_break {u : Text} {c : Char} (ha : '[' ∉ a ++ [c]) (hc : Suffix.isSuffixChar c = false) :
    lead? (a ++ c :: u) = none := by
  cases hlead : lead? (a ++ c :: u) with
  | none => rfl
  | some y =>
    obtain ⟨run, hrun, htext⟩ := lead?_parts hlead
    have hno : ∀ z, run ≠ a ++ c :: z := by
      intro z hz
      have hsuffix := hrun c (by rw [hz]; simp)
      rw [hc] at hsuffix
      cases hsuffix
    rcases htext with hall | ⟨v, hv, -⟩
    · exact absurd hall.symm (hno u)
    · have hsplit : run ++ '[' :: (v ++ [']']) = (a ++ [c]) ++ u := by simpa using hv.symm
      rcases List.append_eq_append_iff.1 hsplit with ⟨m, hm, hrest⟩ | ⟨m, hm, -⟩
      · cases m with
        | nil => exact absurd (by simpa using hm.symm) (hno [])
        | cons e m =>
          obtain ⟨rfl, -⟩ := List.cons.inj hrest
          exact absurd (by rw [hm]; simp) ha
      · exact absurd (by simpa using hm) (hno m)

/-- Whether a brace stands behind a header does not depend on clear text without brackets far in front of it. -/
theorem tagged_over (ha : '[' ∉ a) (hclear : Clear a) (u : Text) : tagged (a ++ u) = tagged u := by
  rcases List.eq_nil_or_concat' a with rfl | ⟨w, c, rfl⟩
  · rfl
  · obtain ⟨hsuffix, hword, -⟩ := hclear c List.getLast?_concat
    have hfirst : ∀ inWord, Shape.firstLead? inWord (w ++ c :: u) = Shape.firstLead? false u := by
      clear hclear
      induction w with
      | nil =>
        intro inWord
        have hnone := Shape.lead?_break (u := u) ha hsuffix
        rw [List.nil_append] at hnone ⊢
        rw [Shape.firstLead?, hnone, hword]
        exact ite_self _
      | cons e w ih =>
        intro inWord
        have hnone := Shape.lead?_break (u := u) ha hsuffix
        rw [List.cons_append] at hnone ⊢
        rw [Shape.firstLead?, hnone, ih fun hmem => ha (List.mem_cons_of_mem _ hmem)]
        exact ite_self _
    unfold tagged
    rw [List.append_assoc, List.singleton_append, hfirst]

theorem SweptTo.silent {stack : List Frame} {closed : List Span} (h : SweptTo d a stack closed) (ha : Clear a)
    (hx : Silent d x) : SweptTo d (a ++ x) stack closed := by
  intro v
  rw [List.append_assoc, h, sweepFrom_silent hx ha]

/-! ## Trees of chains -/

/-- The tree of a text is read off its table. -/
theorem combinationTree_congr {text text' : Text} (h : spanTable d text = spanTable d text') (limit : Nat) :
    combinationTree d limit text = combinationTree d limit text' := by
  unfold combinationTree
  rw [treeWithin, treeWithin, treeStep, treeStep, h]

/-- A written tree is built again if it is no higher than the limit, and refused for its depth otherwise. -/
theorem combinationTree_write {t : Node} (ht : t.Coded (Atom d)) (limit : Nat) :
    combinationTree d limit (t.write d) = if t.height ≤ limit then .ok t else reject (.nestingTooDeep limit) := by
  have htext : t.write d = [] ++ (t.write d ++ []) := by simp
  rw [combinationTree, htext]
  by_cases hheight : t.height ≤ limit
  · rw [if_pos hheight]
    exact treeWithin_write ht (Nat.lt_succ_of_le hheight) rfl rfl
  · rw [if_neg hheight]
    exact treeWithin_tooDeep ht (Nat.lt_of_not_le hheight) rfl rfl

/-- One more pair of delimiters around a written combination makes no difference. -/
theorem combinationTree_wrapped {l r : Node} {m : Marks} (ht : (Node.combination o l r m []).Coded (Atom d))
    (limit : Nat) :
    combinationTree d limit (d.opening :: ((Node.combination o l r m []).write d ++ [d.closing])) =
      combinationTree d limit ((Node.combination o l r m []).write d) := by
  have hnil : Text.allBlank [] = true := rfl
  obtain ⟨nonShared, htable⟩ := spanTable_write ht hnil hnil
  rw [List.nil_append, List.append_nil] at htable
  obtain ⟨whole, hwhole, hsurrounds⟩ := spanTable_delimited htable
  have hroot : ∃ s ∈ (Node.combination o l r m []).spans d (Text.size []) 1, s.isCombination = true := by
    obtain ⟨s, p, hp, -, -, -, -, hspans⟩ := spans_combination d o l r m (Text.size []) 1
    rw [hspans]
    exact ⟨s, by simp, by simp [Span.isCombination, hp]⟩
  exact hsurrounds.treeStep_eq htable hwhole hroot

namespace Node

/-- The last operand of a chain is joined to the fold of all before it. -/
theorem joined_root (o : Operator) (x : Text) (hxs : xs ≠ []) : joined o (coded x) (xs.map coded) =
    .combination o (joined o (coded x) (xs.dropLast.map coded)) (coded (xs.getLast hxs)) {} [] := by
  conv_lhs => rw [← List.dropLast_concat_getLast hxs, List.map_append, joined, List.foldl_append]
  rfl

theorem height_chain (o : Operator) (x : Text) (xs : List Text) :
    (joined o (coded x) (xs.map coded)).height = xs.length := by
  have hleaves : ∀ n ∈ xs.map coded, n.height = 0 := by
    intro n hn
    obtain ⟨y, -, rfl⟩ := List.mem_map.1 hn
    rfl
  rw [height_joined o (coded x) hleaves, List.length_map]
  exact Nat.zero_add _

/-- A chain with shared text is written with that text around it. -/
theorem write_shared (d : Delimiters) (o : Operator) (x : Text) (hxs : xs ≠ []) (m : Marks) :
    ((joined o (coded x) (xs.map coded)).withMarks m).write d =
      m.surround ((joined o (coded x) (xs.map coded)).write d) := by
  rw [joined_root o x hxs, withMarks, surround_eq, write_combination, write_combination]
  simp [Marks.lead, Marks.trail]

end Node

section Chain

variable (ho : o.isSynthetic = false)
include ho

theorem tidy_enclosed_chain (hatom : ∀ y ∈ x :: xs, Atom d y) :
    Tidy (d.opening :: (x ++ (chain o xs ++ [d.closing]))) := by
  have hchain := tidy_chain ho fun y hy => (hatom y (List.mem_cons_of_mem _ hy)).tidy
  simpa using ((hatom x List.mem_cons_self).tidy.append hchain).wrap d

variable (hxs : xs ≠ [])
include hxs

/-- Inside any text a chain in delimiters can be replaced by its left fold. -/
theorem spanTable_chain_within (hatom : ∀ y ∈ x :: xs, Atom d y) {stack : List Frame} {closed : List Span}
    (ha : SweptTo d a stack closed) (hx : Embedded d a (d.opening :: (x ++ (chain o xs ++ [d.closing]))) b)
    (hbalanced : ∀ e, Balanced e (a ++ (d.opening :: (x ++ (chain o xs ++ [d.closing])) ++ b))) :
    spanTable d (a ++ (d.opening :: (x ++ (chain o xs ++ [d.closing])) ++ b)) =
      spanTable d (a ++ ((Node.joined o (.coded x) (xs.map .coded)).write d ++ b)) := by
  obtain ⟨y, ys, rfl⟩ := List.exists_cons_of_ne_nil hxs
  have hlater : ∀ z ∈ y :: ys, Atom d z := fun z hz => hatom z (List.mem_cons_of_mem _ hz)
  obtain ⟨nonShared, htable⟩ := spanTable_chain ho (.leaf (hatom x List.mem_cons_self)) hlater
  rw [write_leaf] at htable
  exact (spanTable_replace htable ha hx hbalanced).2.2

/-- The tree of a chain in delimiters is the left fold, unless that is too high. -/
theorem combinationTree_chain (hatom : ∀ y ∈ x :: xs, Atom d y) (limit : Nat) :
    combinationTree d limit (d.opening :: (x ++ (chain o xs ++ [d.closing]))) =
      if xs.length ≤ limit then .ok (Node.joined o (.coded x) (xs.map .coded))
      else reject (.nestingTooDeep limit) := by
  have hbalanced := requireBalanced_iff.1 (tidy_enclosed_chain ho hatom (d := d)).nested.requireBalanced
  have hembedded : Embedded d [] (d.opening :: (x ++ (chain o xs ++ [d.closing]))) [] :=
    ⟨hbalanced, fun _ _ => rfl, nofun⟩
  have hswept : SweptTo d [] [] [] := fun _ => rfl
  have htable := spanTable_chain_within ho hxs hatom hswept hembedded (by simpa using hbalanced)
  rw [List.nil_append, List.nil_append, List.append_nil, List.append_nil] at htable
  have hcoded : (Node.joined o (.coded x) (xs.map .coded)).Coded (Atom d) :=
    .joined ho (.leaf (hatom x List.mem_cons_self)) fun y hy => hatom y (List.mem_cons_of_mem _ hy)
  rw [combinationTree_congr htable, combinationTree_write hcoded, Node.height_chain]

end Chain

/-! ## Shared text -/

/-- What a combination shares on its left and on its right. -/
def Marks.sharing (before after : Option Text) : Marks := { sharedLeft := before.toList, sharedRight := after.toList }

section Sharing

variable {before after : Option Text} (hb : ∀ t ∈ before, Fragment t)
include hb

/-- A fragment between the texts that it shares with others. -/
theorem Fragment.surrounded (hx : Fragment x) (ha : ∀ t ∈ after, Fragment t) :
    Fragment ((Marks.sharing before after).surround x) := by
  have hbehind : Fragment (x ++ after.toList.flatMap (' ' :: ·)) := by
    cases after with
    | none => simpa using hx
    | some t => simpa using hx.spaced (ha t rfl)
  have hsurround : (Marks.sharing before after).surround x =
      before.toList.flatMap (· ++ [' ']) ++ (x ++ after.toList.flatMap (' ' :: ·)) := surround_eq _ x
  rw [hsurround]
  cases before with
  | none => exact hbehind
  | some t => simpa using (hb t rfl).spaced hbehind

theorem sweptTo_sharing : SweptTo .braces (brace :: (Marks.sharing before after).lead) [⟨0, none⟩] [] :=
  (sweptTo_opening .braces).silent (Clear.opening [] .braces) (.lead rfl fun t ht => (hb t ht).phrase.silent)

variable (ha : ∀ t ∈ after, Fragment t)
include ha

theorem tidy_sharing (hx : Tidy x) : Tidy ((Marks.sharing before after).surround x) := by
  rw [surround_eq]
  have hlead : Silent .braces (Marks.sharing before after).lead := .lead rfl fun t ht => (hb t ht).phrase.silent
  have htrail : Silent .braces (Marks.sharing before after).trail := .trail rfl fun t ht => (ha t ht).phrase.silent
  exact hlead.tidy.append (hx.append htrail.tidy)

/-- What stands between braces and is shared there can be cut off. -/
theorem embedded_sharing (hx : Tidy x) : Embedded .braces (brace :: (Marks.sharing before after).lead) x
    ((Marks.sharing before after).trail ++ [endBrace]) where
  balanced := requireBalanced_iff.1 hx.nested.requireBalanced
  untagged := by
    intro _ u
    have hleft : (Marks.sharing before after).sharedLeft = before.toList := rfl
    refine tagged_over ?_ ((Clear.opening [] .braces).append (Clear.lead hleft)) u
    intro hmem
    rcases List.mem_cons.1 hmem with hfirst | hlater
    · exact absurd hfirst (by decide)
    · cases before with
      | none => cases hlater
      | some t =>
        have hin : '[' ∈ t := by simpa [Marks.lead, Marks.sharing] using hlater
        exact absurd ((hb t rfl).phrase.unbracketed '[' hin) (by decide)
  loose := by
    cases after with
    | none => exact (Sharp.closing .braces []).loose
    | some t =>
      intro c hc
      cases hc
      decide

variable (ho : o.isSynthetic = false) (hxs : xs ≠ []) (hx : ∀ y ∈ x :: xs, Fragment y)
include ho hxs hx

theorem coded_shared :
    ((Node.joined o (.coded x) (xs.map .coded)).withMarks (.sharing before after)).Coded (Atom .braces) := by
  have hatom : ∀ y ∈ x :: xs, Atom .braces y := fun y hy => (hx y hy).atom
  have hbefore : ∀ y ∈ xs.dropLast, Atom .braces y := fun y hy =>
    hatom y (List.mem_cons_of_mem _ ((List.dropLast_sublist xs).subset hy))
  have hinit := Node.Coded.joined ho (.leaf (hatom x List.mem_cons_self)) hbefore
  have hlast : Atom .braces (xs.getLast hxs) := hatom _ (List.mem_cons_of_mem _ (List.getLast_mem hxs))
  rw [Node.joined_root o x hxs]
  exact .combination ho hinit (.leaf hlast) (fun t ht => (hb t ht).atom) fun t ht => (ha t ht).atom

/-- In another pair of braces, with text around it, a chain in braces is the left fold with that text for its shared
    text. -/
theorem combinationTree_shared (limit : Nat) :
    combinationTree .braces limit
        (Piece.braced ((Marks.sharing before after).surround (Piece.braced (x ++ chain o xs)))) =
      if xs.length ≤ limit then .ok ((Node.joined o (.coded x) (xs.map .coded)).withMarks (.sharing before after))
      else reject (.nestingTooDeep limit) := by
  have hatom : ∀ y ∈ x :: xs, Atom .braces y := fun y hy => (hx y hy).atom
  have hchain : Tidy (brace :: (x ++ (chain o xs ++ [endBrace]))) := tidy_enclosed_chain ho hatom
  have hsplit : ∀ y, brace :: ((Marks.sharing before after).surround y ++ [endBrace]) =
      (brace :: (Marks.sharing before after).lead) ++ (y ++ ((Marks.sharing before after).trail ++ [endBrace])) := by
    intro y
    rw [surround_eq]
    simp
  have hwhole := (tidy_sharing hb ha hchain).wrap .braces
  rw [hsplit] at hwhole
  -- the braces that regrouping adds stand around the chain, inside the shared text
  have htable := spanTable_chain_within ho hxs hatom (sweptTo_sharing hb) (embedded_sharing hb ha hchain)
    (requireBalanced_iff.1 hwhole.nested.requireBalanced)
  rw [← hsplit, ← hsplit, ← Node.write_shared .braces o x hxs] at htable
  have htext : Piece.braced ((Marks.sharing before after).surround (Piece.braced (x ++ chain o xs))) =
      brace :: ((Marks.sharing before after).surround (brace :: (x ++ (chain o xs ++ [endBrace]))) ++ [endBrace]) := by
    simp [Piece.braced]
  have hheight : ((Node.joined o (.coded x) (xs.map .coded)).withMarks (.sharing before after)).height = xs.length := by
    rw [← Node.height_chain o x xs, Node.joined_root o x hxs]
    rfl
  have hcoded := coded_shared hb ha ho hxs hx
  rw [htext, combinationTree_congr htable, ← hheight]
  rw [Node.joined_root o x hxs] at hcoded ⊢
  exact (combinationTree_wrapped hcoded limit).trans (combinationTree_write hcoded limit)

end Sharing

end InstitutionalGrammar
