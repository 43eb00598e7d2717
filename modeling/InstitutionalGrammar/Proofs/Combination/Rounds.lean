/-
  InstitutionalGrammar.Proofs.Combination.Rounds — sweeping and regrouping come to an end.

  Up to the operator at which a sweep stopped, the regrouped text is swept like the text itself: the
  operands are inside one more span, but no header reaches over the new delimiter that did not reach over
  the one before it. So the operator is the first of its span now, and the next sweep stops at a later
  one, if it stops. What is behind can be swept in another way than before, but has fewer operators.
  - `Stop.walk_regrouped`: the walk to the operator.
  - `Stop.later`: the next stop.
-/

import InstitutionalGrammar.Proofs.Combination.Walk
import InstitutionalGrammar.Proofs.Combination.Weights

namespace InstitutionalGrammar

variable {d : Delimiters} {text a operands rest a' operands' rest' : Text} {o o' : Operator}

/-- The text with the operands in delimiters of their own. -/
def regrouped (d : Delimiters) (a operands : Text) (o : Operator) (rest : Text) : Text :=
  a ++ d.opening :: (d.opening :: (operands.trimEnd ++ d.closing :: ' ' :: (o.token ++ rest)))

theorem regroup_parts (d : Delimiters) (a operands : Text) (o : Operator) (rest : Text) :
    regroup d (a ++ d.opening :: (operands ++ (o.token ++ rest))) a.size (a.size + 1 + operands.size) =
      .ok (regrouped d a operands o rest) := by
  generalize htext : a ++ d.opening :: (operands ++ (o.token ++ rest)) = text
  have hhead : text.slice 0 (a.size + 1) = .ok (a ++ [d.opening]) :=
    Text.slice_parts (a := []) (c := operands ++ (o.token ++ rest)) (by simp [← htext]) rfl
      (by simp [Delimiters.utf8Size_opening])
  have hoperands : text.slice (a.size + 1) (a.size + 1 + operands.size) = .ok operands :=
    Text.slice_parts (a := a ++ [d.opening]) (c := o.token ++ rest) (by simp [← htext])
      (by simp [Delimiters.utf8Size_opening]) (by simp [Delimiters.utf8Size_opening])
  have htail : text.slice (a.size + 1 + operands.size) text.size = .ok (o.token ++ rest) :=
    Text.slice_parts (a := a ++ [d.opening] ++ operands) (c := []) (by simp [← htext])
      (by simp [Delimiters.utf8Size_opening]; omega) (by simp [← htext, Delimiters.utf8Size_opening]; omega)
  unfold regroup
  rw [hhead, hoperands, htail]
  simp [regrouped]

/-- Delimiters and a space are put in, and blanks taken out in front of the operator. -/
theorem regrouped_weight (ho : o.isSynthetic = false) (a operands rest : Text) :
    SameWeight (regrouped d a operands o rest) (a ++ d.opening :: (operands ++ (o.token ++ rest))) := by
  intro w unit hw
  have hopening := separates_opening d
  rw [regrouped, hw.around hopening, hw.char _ hopening.1, hw.around (separates_closing d), hw.char _ (by decide),
    hw.trimEnd, hw.token rest ho, hw.around hopening, hw.operator ho, ← Nat.add_assoc (w operands)]

/-- The lexemes of the regrouped text as far as the operator. -/
def regroupedLexemes (d : Delimiters) (a operands : Text) (o : Operator) : List Lexeme :=
  lex a ++ .opening d :: .opening d :: (lex operands.trimEnd ++ [.closing d, .text [' '], .operator o])

theorem lex_regrouped (ho : o.isSynthetic = false) (a operands rest : Text) :
    lex (regrouped d a operands o rest) = regroupedLexemes d a operands o ++ lex rest := by
  have hspace : lex (' ' :: (o.token ++ rest)) = .text [' '] :: .operator o :: lex rest := by
    rw [lex_char (startsOperator_of_ne (by decide) _), lex_token ho]
    rfl
  rw [regrouped, regroupedLexemes, lex_append a (Sharp.opening d _), lex_opening, lex_opening,
    lex_append _ (Sharp.closing d _), lex_closing, hspace]
  simp

theorem walk_prefix {before : Text} {σ τ : Stage} {ls ls' : List Lexeme} (h : walk d before σ (ls ++ ls') = some τ) :
    ∃ τ', walk d before σ ls = some τ' := by
  rw [walk_append] at h
  obtain ⟨τ', hτ', -⟩ := Option.bind_eq_some_iff.1 h
  exact ⟨τ', hτ'⟩

namespace Stop

theorem regroup_eq (h : Stop d text a operands o rest) :
    regroup d text a.size (a.size + 1 + operands.size) = .ok (regrouped d a operands o rest) := by
  rw [h.text_eq]
  exact regroup_parts d a operands o rest

theorem sameWeight (h : Stop d text a operands o rest) : SameWeight (regrouped d a operands o rest) text := by
  rw [h.text_eq]
  exact regrouped_weight h.written a operands rest

/-- The walk over the regrouped text passes the operator. -/
theorem walk_regrouped (h : Stop d text a operands o rest) :
    ∃ τ, walk d [] .start (regroupedLexemes d a operands o) = some τ := by
  obtain ⟨n, m, noted, hn, hm, hbefore, hinside⟩ := h.walks
  obtain ⟨blank, hblank, hall⟩ := Text.stripEnd_append isBlank operands
  -- the operands, inside two spans
  have htrimmed : ∀ noted, walk d (a ++ [d.opening, d.opening]) ⟨n, none :: noted⟩ (lex operands.trimEnd) =
      some ⟨m, some o :: noted⟩ := by
    intro noted
    have hsame := hinside noted
    rw [hblank, walk_blank hall] at hsame
    rw [← hsame]
    exact walk_doubled a [] _ _
  have hsecond : d = .braces → tagged (a ++ [d.opening]) = false := by
    rintro rfl
    exact tagged_behind a
  have hwritten : writtenOf (lex a) = a := lex_written a
  refine ⟨⟨m, some o :: noted⟩, ?_⟩
  unfold regroupedLexemes
  rw [walk_trans hbefore, hwritten, List.nil_append, walk, Depths.step_opening hn h.untagged, Option.bind_some, walk]
  show ((⟨n, none :: noted⟩ : Stage).step d (tagged (a ++ [d.opening])) (.opening d)).bind _ = _
  rw [Depths.step_opening hn hsecond, Option.bind_some]
  show walk d (a ++ [d.opening] ++ [d.opening]) ⟨n, none :: none :: noted⟩ _ = _
  rw [List.append_assoc, List.singleton_append, walk_trans (htrimmed (none :: noted)), walk, Depths.step_closing hm,
    Option.bind_some, walk_text, walk, Depths.step_operator hm]
  rfl

/-- No walk gets over the operator at which a sweep stops. -/
theorem walk_stops (h : Stop d text a operands o rest) :
    walk d [] .start (lex a ++ .opening d :: (lex operands ++ [.operator o])) = none := by
  obtain ⟨n, m, noted, hn, hm, hbefore, hinside⟩ := h.walks
  have hwritten : writtenOf (lex a) = a := lex_written a
  rw [walk_trans hbefore, hwritten, List.nil_append, walk, Depths.step_opening hn h.untagged, Option.bind_some]
  show walk d (a ++ [d.opening]) ⟨n, none :: noted⟩ (lex operands ++ [.operator o]) = none
  rw [walk_trans (hinside noted), walk, Depths.step_second hm]
  rfl

theorem lex_eq (h : Stop d text a operands o rest) :
    lex text = (lex a ++ .opening d :: (lex operands ++ [.operator o])) ++ lex rest := by
  rw [h.text_eq, lex_append a (Sharp.opening d _), lex_opening, lex_append operands (Sharp.token h.written rest),
    lex_token h.written]
  simp

/-- The next sweep stops at an operator behind this one. -/
theorem later (h : Stop d text a operands o rest) (h' : Stop d (regrouped d a operands o rest) a' operands' o' rest') :
    o'.token ++ rest' <:+ rest := by
  obtain ⟨τ, hτ⟩ := h.walk_regrouped
  have hstops := h'.walk_stops
  have hlex := h'.lex_eq
  rw [lex_regrouped h.written] at hlex
  rcases List.append_eq_append_iff.1 hlex with ⟨x, hx, hrest⟩ | ⟨x, hx, -⟩
  · rcases List.eq_nil_or_concat x with rfl | ⟨y, l, rfl⟩
    · rw [hx, List.append_nil, hτ] at hstops
      cases hstops
    · rw [List.concat_eq_append] at hx hrest
      have hlast : lex a' ++ .opening d :: lex operands' ++ [.operator o'] = regroupedLexemes d a operands o ++ y ++ [l] := by
        rw [List.append_assoc (regroupedLexemes d a operands o), ← hx]
        simp
      obtain rfl : .operator o' = l := List.singleton_inj.1 (List.append_inj' hlast rfl).2
      refine ⟨writtenOf y, ?_⟩
      have hwritten := lex_written rest
      rw [hrest, List.flatMap_append, lex_written rest'] at hwritten
      rw [← hwritten]
      simp [writtenOf, Lexeme.written]
  · -- a walk that gets over the operator
    rw [hx] at hτ
    obtain ⟨τ', hτ'⟩ := walk_prefix hτ
    rw [hstops] at hτ'
    cases hτ'

theorem fewer (h : Stop d text a operands o rest) (h' : Stop d (regrouped d a operands o rest) a' operands' o' rest') :
    operatorCount (o'.token ++ rest') < operatorCount (o.token ++ rest) := by
  rw [operatorCount_token h.written]
  exact Nat.lt_succ_of_le (operatorCount_part (h.later h').isInfix)

end Stop

end InstitutionalGrammar
