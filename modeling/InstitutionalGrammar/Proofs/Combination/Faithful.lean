/-
  InstitutionalGrammar.Proofs.Combination.Faithful — blocks that reading can ignore.

  A pair of braces is ignored, with the header in front of it, if the header nests nothing, or if there is
  none and no operator counts inside. Stretches of a text hold no other such blocks than the text, joined texts
  no other than their parts. Nor do regrouped ones: the braces put around operands and all braces around
  those have an operator that counts, and none of them is behind a header.
  - `idle_of_leaf`: a block whose tree is no combination is idle; `not_idle`: one with an operator behind
    layers is not.
  - `Faithful`: the blocks that can be ignored stand in `top`.
  - `faithful_inherited`, `Faithful.joinSpaced`: what keeps texts faithful.
-/

import InstitutionalGrammar.Proofs.Combination.Carried

namespace InstitutionalGrammar

variable {a b e g lead q r t top u v w x : Text} {c : Char} {d : Delimiters} {gs : List Frame} {o : Operator} {table : SpanTable}
  {tree : Node}

/-! ## Idle blocks -/

/-- No operator counts in the text in braces. -/
def Idle (x : Text) : Prop := ¬ Operates (marks .braces (brace :: (x ++ [endBrace])))

theorem Operates.token_part (h : Operates (marks d t)) : ∃ o : Operator, o.isSynthetic = false ∧ o.token <:+: t := by
  obtain ⟨x, hx, o, ho⟩ := h
  obtain ⟨htiled, hmeans⟩ := marks_marked d t
  have hx' := hmeans x hx
  rw [ho] at hx'
  obtain ⟨hlexeme, hwritten⟩ : x.2.lexeme = .operator o ∧ o.isSynthetic = false := hx'
  have hpart := htiled.part (List.mem_map_of_mem hx)
  rw [hlexeme] at hpart
  exact ⟨o, hwritten, hpart⟩

theorem idle_of_blank (h : x.allBlank = true) : Idle x := by
  intro hoperates
  obtain ⟨o, ho, a, b, hpart⟩ := hoperates.token_part
  have hopen : '[' ∈ brace :: (x ++ [endBrace]) := by
    rw [← hpart]
    cases o with
    | syntheticAnd => cases ho
    | _ => simp [Operator.token]
  have hblank : '[' ∈ x := by simpa [brace, endBrace, Delimiters.opening, Delimiters.closing] using hopen
  exact absurd (List.all_eq_true.1 h '[' hblank) (by decide)

theorem not_idle (hx : WellNested x) (hlayers : Layered gs (brace :: v)) (ho : o.isSynthetic = false)
    (h : x = v ++ (o.token ++ w)) : ¬ Idle x := by
  intro hidle
  have hbraced : WellNested (brace :: (x ++ [endBrace])) := .enclosed (d := .braces) hx .nil
  refine hidle (operates_of_layered hbraced ?_ ho hlayers (w := w ++ [endBrace]))
  rw [h]
  simp

/-- A regrouped text keeps an operator that counts. -/
theorem Repeats.operates (h : Repeats a g o) (ht : WellNested (a ++ brace :: (g ++ (o.token ++ r)))) :
    Operates (marks .braces (regrouped .braces a g o r)) := by
  obtain ⟨fs, hlayers⟩ := h.layers_wrapped
  refine operates_of_layered (h.regrouped_nested ht) ?_ h.written hlayers (w := r)
  simp [regrouped]

theorem SpanTable.outermost_eq_nil (h : table.outermost = []) : table.outermostLevel? = none := by
  cases hlevel : table.outermostLevel? with
  | none => rfl
  | some level =>
    rw [SpanTable.outermost_eq hlevel] at h
    exact absurd h (SpanTable.combinations_ne_nil hlevel)

/-- A block whose tree is no combination has no operator that counts. -/
theorem idle_of_leaf {limit : Nat} (hx : WellNested x)
    (h : combinationTree .braces limit (brace :: (x ++ [endBrace])) = .ok tree) (hleaf : tree.isCombination = false) :
    Idle x := by
  have hbraced : WellNested (brace :: (x ++ [endBrace])) := .enclosed (d := .braces) hx .nil
  obtain ⟨table, ns, htable, hbuilt, hjoined⟩ := treeStep_level h
  have hnone : table.outermost = [] := by
    rcases hjoined with ⟨rfl, -⟩ | hfold
    · exact List.forall₂_nil_right_iff.1 hbuilt
    · have hlevel := writtenCombinations_fold? (writtenCombinations_built hbuilt) hfold
      cases tree with
      | leaf =>
        obtain rfl : ns = [] := hlevel.symm
        cases hfold
      | combination => cases hleaf
  intro hoperates
  have hinput := (spanTable_nests (P := fun t => Operates (marks .braces t)) (fun a g o r hr ht _ => hr.operates ht)
    hbraced hoperates htable).2
  obtain ⟨e, he, hc⟩ := (spanTable_meets .braces _).value htable hinput
  rw [SpanTable.isCombination_of_outermostLevel?_none (SpanTable.outermost_eq_nil hnone) he] at hc
  cases hc

/-! ## Blocks that can be ignored -/

/-- The text `e` is a block of the text with the header in front of it, or one without a header that is idle. -/
inductive Ignorable (t : Text) : Text → Prop
  | idle {x : Text} (a b : Text) : t = a ++ brace :: (x ++ endBrace :: b) → WellNested x → Idle x →
      Ignorable t (brace :: (x ++ [endBrace]))
  | headed {lead x : Text} (a b : Text) : t = a ++ lead ++ brace :: (x ++ endBrace :: b) → WellNested x →
      (Shape.lead? lead).isSome = true → tagged (a ++ lead) = true → Ignorable t (lead ++ brace :: (x ++ [endBrace]))

/-- All that reading the text can ignore stands in `top`. -/
structure Faithful (top t : Text) : Prop where
  nested : WellNested t
  bracketed : Bracketed t
  ignorable : ∀ e, Ignorable t e → e <:+: top

theorem Ignorable.part (h : Ignorable t e) : e <:+: t := by
  cases h with
  | @idle x a b ht => exact ⟨a, b, by rw [ht]; simp⟩
  | @headed lead x a b ht => exact ⟨a, b, by rw [ht]; simp⟩

theorem faithful_self (hn : WellNested t) (hb : Bracketed t) : Faithful t t := ⟨hn, hb, fun _ he => he.part⟩

theorem tagged_ne_nil (h : tagged a = true) : a ≠ [] := by
  rintro rfl
  cases h

theorem Edge.bracketed (ha : Edge a) (h : Bracketed (a ++ u)) : Bracketed u := by
  rcases ha with hblank | ⟨z, c, rfl, hc, hopen⟩
  · refine h.drop fun p v hp => ?_
    rw [hp] at hblank
    exact absurd (List.all_eq_true.1 hblank '[' (by simp)) (by decide)
  · rw [List.append_assoc, List.singleton_append] at h
    exact h.behind hc hopen

theorem reserved_ends (h : isReserved c = true) : Suffix.isSuffixChar c = false ∧ isWord c = false := by
  simp only [isReserved, isOpening, isClosing, Shape.isBracket, Bool.or_eq_true, decide_eq_true_eq] at h
  rcases h with ((rfl | rfl) | rfl | rfl) | rfl | rfl <;> decide

/-- No header reaches back over an edge. -/
theorem Edge.tagged_eq (ha : Edge a) (hu : Bracketed u) (hne : u ≠ []) : tagged (a ++ u) = tagged u := by
  obtain rfl | ⟨z, c, rfl, hc⟩ : a = [] ∨ ∃ z c, a = z ++ [c] ∧ Suffix.isSuffixChar c = false ∧ isWord c = false := by
    rcases ha with hblank | ⟨z, c, rfl, hc, -⟩
    · rcases List.eq_nil_or_concat' a with rfl | ⟨z, c, rfl⟩
      · exact Or.inl rfl
      · have hc : isBlank c = true := List.all_eq_true.1 hblank c (by simp)
        exact Or.inr ⟨z, c, rfl, (isWord_of_isBlank hc).2, (isWord_of_isBlank hc).1⟩
    · exact Or.inr ⟨z, c, rfl, reserved_ends hc⟩
  · rfl
  · rw [List.append_assoc, List.singleton_append]
    exact tagged_reach hc hu (Or.inl hne) z

theorem Ignorable.of_stretch (hu : Stretch t u) (hb : Bracketed u) (h : Ignorable u e) : Ignorable t e := by
  obtain ⟨a₀, b₀, rfl, -, hedge⟩ := hu
  cases h with
  | @idle x a b hparts hx hidle => exact .idle (a₀ ++ a) (b ++ b₀) (by rw [hparts]; simp) hx hidle
  | @headed lead x a b hparts hx hlead htagged =>
    refine .headed (a₀ ++ a) (b ++ b₀) (by rw [hparts]; simp) hx hlead ?_
    rw [hparts] at hb
    rw [List.append_assoc, hedge.tagged_eq hb.front (tagged_ne_nil htagged)]
    exact htagged

theorem Faithful.stretch (h : Faithful top t) (hu : Stretch t u) : Faithful top u := by
  have hb : Bracketed u := by
    obtain ⟨a, b, rfl, -, hedge⟩ := hu
    exact (hedge.bracketed h.bracketed).front
  obtain ⟨-, -, -, hn, -⟩ := id hu
  exact ⟨hn, hb, fun e he => h.ignorable e (he.of_stretch hu hb)⟩

/-- The inside of a block. -/
theorem Faithful.inside (h : Faithful top t) (ht : t = a ++ brace :: (x ++ endBrace :: b)) (hx : WellNested x) :
    Faithful top x :=
  h.stretch ⟨a ++ [brace], endBrace :: b, by rw [ht]; simp, hx, .opening a⟩

/-- A block without what stands in front of it. -/
theorem Faithful.braced (h : Faithful top t) (ht : t = a ++ brace :: (x ++ endBrace :: b)) (hx : WellNested x) :
    Faithful top (brace :: (x ++ [endBrace])) := by
  have hbehind : Bracketed (x ++ endBrace :: b) := by
    have hall := h.bracketed
    rw [ht] at hall
    exact hall.behind (by decide) (by decide)
  have hbracketed : Bracketed (x ++ [endBrace]) := hbehind.front.append (.of_not_mem (by decide))
  have htext : t = a ++ ((brace :: (x ++ [endBrace])) ++ b) := by
    rw [ht]
    simp
  refine ⟨.enclosed (d := .braces) hx .nil, (Bracketed.of_not_mem (t := [brace]) (by decide)).append hbracketed,
    fun e he => h.ignorable e ?_⟩
  cases he with
  | @idle y a' b' hparts hy hidle => exact .idle (a ++ a') (b' ++ b) (by rw [htext, hparts]; simp) hy hidle
  | @headed lead y a' b' hparts hy hlead htagged =>
    refine .headed (a ++ a') (b' ++ b) (by rw [htext, hparts]; simp) hy hlead ?_
    cases hfront : a' ++ lead with
    | nil => exact absurd hfront (tagged_ne_nil htagged)
    | cons c m =>
      rw [hfront] at hparts htagged
      obtain ⟨rfl, hm⟩ := List.cons.inj hparts
      rw [hm] at hbracketed
      rw [List.append_assoc, hfront, tagged_brace hbracketed.front, ← htagged]
      exact (tagged_brace hbracketed.front []).symm

/-! ### Joined texts -/

theorem Faithful.join (hu : Faithful top u) (hv : Faithful top v) : Faithful top (u ++ ' ' :: v) := by
  have hspace : isDelimiter ' ' = false := by decide
  refine ⟨hu.nested.append (.char hspace hv.nested), ?_, fun e he => ?_⟩
  · have hbehind : Bracketed ([' '] ++ v) := (Bracketed.of_not_mem (by decide)).append hv.bracketed
    exact hu.bracketed.append hbehind
  · cases he with
    | @idle x a b hparts hx hidle =>
      rcases hu.nested.beside (d := .braces) hx hspace hparts.symm with ⟨w, hw⟩ | ⟨w, -, hw⟩
      · exact hu.ignorable _ (.idle a w hw hx hidle)
      · exact hv.ignorable _ (.idle w b hw hx hidle)
    | @headed lead x a b hparts hx hlead htagged =>
      rcases hu.nested.beside (d := .braces) hx hspace hparts.symm with ⟨w, hw⟩ | ⟨w, hfront, hw⟩
      · exact hu.ignorable _ (.headed a w hw hx hlead htagged)
      · -- the header stands behind the space
        have hb : Bracketed w := by
          have hbracketed := hv.bracketed
          rw [hw] at hbracketed
          exact hbracketed.front
        obtain ⟨shape, hshape⟩ := Option.isSome_iff_exists.1 hlead
        obtain ⟨z, rfl, rfl⟩ := Shape.lead_reach hshape (by decide) hb (Or.inr (by decide)) hfront
        refine hv.ignorable _ (.headed z b hw hx hlead ?_)
        rw [hfront, tagged_reach (by decide) hb (Or.inr (by decide))] at htagged
        exact htagged

theorem faithful_nil : Faithful top [] := by
  refine ⟨.nil, .of_not_mem (by simp), fun e he => ?_⟩
  cases he with
  | idle a b h => simp at h
  | headed a b h => simp at h

theorem Faithful.joinSpaced {parts : List Text} (h : ∀ t ∈ parts, Faithful top t) : Faithful top (joinSpaced parts) := by
  unfold InstitutionalGrammar.joinSpaced
  induction parts with
  | nil => exact faithful_nil
  | cons t parts ih =>
    cases parts with
    | nil => exact h t List.mem_cons_self
    | cons u parts =>
      have hjoined := (h t List.mem_cons_self).join (ih fun v hv => h v (List.mem_cons_of_mem _ hv))
      simpa [Text.join] using hjoined

/-! ### Regrouped texts -/

/-- No brace behind an operator is behind a header. -/
theorem tagged_token (a : Text) (o : Operator) : tagged (a ++ ' ' :: o.token) = false := by
  rw [tagged_reach (by decide) (.token o) (Or.inr (by decide))]
  cases o <;> rfl

theorem Operator.closes_token (ho : o.isSynthetic = false) (p u : Text) :
    p ++ (o.token ++ u) = (p ++ '[' :: o.name) ++ ']' :: u := by
  rw [Operator.token_brackets ho]
  simp

theorem Bracketed.behind_token (ho : o.isSynthetic = false) (h : Bracketed (q ++ (o.token ++ u))) : Bracketed u := by
  rw [Operator.closes_token ho] at h
  exact h.behind (by decide) (by decide)

theorem Bracketed.trimEnd (h : Bracketed g) : Bracketed g.trimEnd := by
  obtain ⟨blank, hblank, -⟩ := Text.stripEnd_append isBlank g
  rw [hblank] at h
  exact h.front

/-- A header behind a space and an operator starts behind the operator, and it is one whatever stands in front. -/
theorem header_behind_token (ho : o.isSynthetic = false) (hu : Bracketed u) (hlead : (Shape.lead? lead).isSome = true)
    (hends : a ++ lead = q ++ ' ' :: (o.token ++ u)) (htagged : tagged (a ++ lead) = true) :
    ∃ z, u = z ++ lead ∧ ∀ p : Text, tagged (p ++ (o.token ++ u)) = true := by
  by_cases hu' : u = []
  · -- the operator is no annotation, for nothing but a space stands in front of it
    rw [hends, hu', List.append_nil, tagged_token] at htagged
    cases htagged
  · have hfront : a ++ lead = ((q ++ [' ']) ++ '[' :: o.name) ++ ']' :: u := by
      rw [hends, ← Operator.closes_token ho]
      simp
    obtain ⟨shape, hshape⟩ := Option.isSome_iff_exists.1 hlead
    obtain ⟨z, -, hz⟩ := Shape.lead_reach hshape (by decide) hu (Or.inl hu') hfront
    rw [hfront, tagged_reach (by decide) hu (Or.inl hu')] at htagged
    refine ⟨z, hz, fun p => ?_⟩
    rw [Operator.closes_token ho, tagged_reach (by decide) hu (Or.inl hu')]
    exact htagged

theorem exists_trimEnd (g u : Text) : ∃ v, g ++ u = g.trimEnd ++ v := by
  obtain ⟨blank, hblank, -⟩ := Text.stripEnd_append isBlank g
  refine ⟨blank ++ u, ?_⟩
  rw [← List.append_assoc]
  exact congrArg (· ++ u) hblank

theorem regrouped_eq (a g : Text) (o : Operator) (r : Text) :
    regrouped .braces a g o r = a ++ brace :: (brace :: (g.trimEnd ++ endBrace :: ' ' :: o.token) ++ r) := by
  simp [regrouped]

namespace Repeats

variable (h : Repeats a g o)
include h

/-- The operands and the operator behind them, the operands in braces of their own. -/
theorem wrapped_token : WellNested (brace :: (g.trimEnd ++ endBrace :: ' ' :: o.token)) := by
  have hnested := h.wrapped.append (token_nested o)
  simpa using hnested

theorem first_trimmed : ∃ l r first, g.trimEnd = l ++ (Operator.token first ++ r) ∧ WellNested l ∧
    first.isSynthetic = false := by
  obtain ⟨l, r, first, hg, hl, hfirst⟩ := h.first
  obtain ⟨blank, hblank, hall⟩ := Text.stripEnd_append isBlank g
  have hsplit : (l ++ first.token) ++ r = g.trimEnd ++ blank := by
    rw [List.append_assoc, ← hg]
    exact hblank
  rcases List.append_eq_append_iff.1 hsplit with ⟨m, hm, -⟩ | ⟨m, hm, hrest⟩
  · exact ⟨l, m, first, by rw [hm, List.append_assoc], hl, hfirst⟩
  · rcases List.eq_nil_or_concat' m with rfl | ⟨m, c, rfl⟩
    · exact ⟨l, [], first, by simpa using hm.symm, hl, hfirst⟩
    · -- the token ends with a bracket
      have hlast : (l ++ '[' :: first.name) ++ [']'] = (g.trimEnd ++ m) ++ [c] := by
        rw [List.append_assoc, List.append_assoc, ← hm, Operator.token_brackets hfirst, List.cons_append]
      obtain rfl := List.singleton_inj.1 (List.append_inj' hlast rfl).2
      have hc : isBlank ']' = true := List.all_eq_true.1 hall ']' (by rw [hrest]; simp)
      exact absurd hc (by decide)

/-- A block in the wrapped operands is these, or stands in them. -/
theorem inside_wrapped (hx : WellNested x)
    (hu : brace :: (g.trimEnd ++ endBrace :: ' ' :: o.token) = u ++ brace :: (x ++ endBrace :: w)) :
    (u = [] ∧ x = g.trimEnd) ∨ ∃ v w', u = brace :: v ∧ g.trimEnd = v ++ brace :: (x ++ endBrace :: w') := by
  cases u with
  | nil =>
    obtain ⟨rfl, -⟩ := hx.closes_once (d := .braces) h.trimmed (List.cons.inj hu).2.symm
    exact Or.inl ⟨rfl, rfl⟩
  | cons c v =>
    obtain ⟨rfl, hv⟩ := List.cons.inj hu
    rcases h.trimmed.apart (d := .braces) (e := .braces) hx hv with ⟨w', hw', -⟩ | ⟨m, -, hm⟩
    · exact Or.inr ⟨v, w', rfl, hw'⟩
    · have hmem : brace ∈ ' ' :: o.token := by
        rw [hm]
        simp
      rcases List.mem_cons.1 hmem with hspace | htoken
      · exact absurd hspace (by decide)
      · exact absurd (token_delimiter htoken) (by decide)

/-- No header stands in front of braces around the wrapped operands. -/
theorem untagged_around {m : Text} (hx : WellNested x) (ha : a = q ++ brace :: m) (hinside : x = m ++ w) :
    tagged q = false ∧ (Bracketed m → ∃ fs, Layered fs (brace :: m)) := by
  obtain ⟨fs, hlayers⟩ := h.layers
  rw [hinside] at hx
  obtain ⟨st, hst⟩ := hx.exists_leftOpen
  exact (hlayers.unclosed (d := .braces) ha hst).2

/-- Braces around the wrapped operands hold an operator that counts. -/
theorem not_idle_around {m : Text} (hb : Bracketed a) (hx : WellNested x) (ha : a = q ++ brace :: m)
    (hinside : x = m ++ brace :: (brace :: (g.trimEnd ++ endBrace :: ' ' :: o.token) ++ w)) : ¬ Idle x := by
  rw [ha] at hb
  have hm : Bracketed m := hb.behind (by decide) (by decide)
  obtain ⟨fs, hlayers⟩ := (h.untagged_around hx ha hinside).2 hm
  have hsame : tagged (brace :: m) = false := by
    have huntagged := h.untagged
    rw [ha, tagged_brace hm] at huntagged
    rw [← huntagged]
    exact tagged_brace hm []
  refine not_idle hx ((hlayers.push hsame).extend h.wrapped) h.written (v := m ++ [brace] ++ _) (w := w) ?_
  rw [hinside]
  simp

/-- An idle block of a regrouped text was there before. -/
theorem idle_before (hb : Bracketed a) (hx : WellNested x) (hidle : Idle x)
    (hparts : regrouped .braces a g o r = q ++ brace :: (x ++ endBrace :: b)) :
    Ignorable (a ++ brace :: (g ++ (o.token ++ r))) (brace :: (x ++ [endBrace])) := by
  rw [regrouped_eq] at hparts
  cases Place.of_eq (d := .braces) hx h.wrapped_token hparts.symm with
  | before m hm => exact .idle q (m ++ brace :: (g ++ (o.token ++ r))) (by rw [hm]; simp) hx hidle
  | around m w hm hinside => exact absurd hidle (h.not_idle_around hb hx hm hinside)
  | same w hm hinside =>
    have hlayers := ((Layered.nested .nil).push rfl).extend h.wrapped
    exact absurd hidle (not_idle hx hlayers h.written (w := w) (by rw [hinside]; simp))
  | inside u w hu hinside =>
    rcases h.inside_wrapped hx hinside with ⟨rfl, rfl⟩ | ⟨v, w', rfl, hv⟩
    · -- the operands repeat their operator
      obtain ⟨l, rest, first, hfirst, hl, hwritten⟩ := h.first_trimmed
      have hlayers := ((Layered.nested .nil).push rfl).extend hl
      exact absurd hidle (not_idle hx hlayers hwritten hfirst)
    · obtain ⟨rest, hrest⟩ := exists_trimEnd g (o.token ++ r)
      exact .idle (a ++ brace :: v) (w' ++ rest) (by rw [hrest, hv]; simp) hx hidle
  | behind u w hu hbehind => exact .idle (a ++ brace :: (g ++ (o.token ++ u))) w (by rw [hbehind]; simp) hx hidle

/-- A block behind a header of a regrouped text was there before, with the header. -/
theorem headed_before (hb : Bracketed (a ++ brace :: (g ++ (o.token ++ r)))) (hx : WellNested x)
    (hlead : (Shape.lead? lead).isSome = true) (htagged : tagged (q ++ lead) = true)
    (hparts : regrouped .braces a g o r = q ++ lead ++ brace :: (x ++ endBrace :: b)) :
    Ignorable (a ++ brace :: (g ++ (o.token ++ r))) (lead ++ brace :: (x ++ [endBrace])) := by
  have hoperands : Bracketed (g ++ (o.token ++ r)) := hb.behind (by decide) (by decide)
  rw [regrouped_eq] at hparts
  cases Place.of_eq (d := .braces) hx h.wrapped_token hparts.symm with
  | before m hm => exact .headed q (m ++ brace :: (g ++ (o.token ++ r))) (by rw [hm]; simp) hx hlead htagged
  | around m w hm hinside =>
    rw [(h.untagged_around hx hm hinside).1] at htagged
    cases htagged
  | same w hm hinside =>
    rw [← hm, h.untagged] at htagged
    cases htagged
  | inside u w hu hinside =>
    rcases h.inside_wrapped hx hinside with ⟨rfl, rfl⟩ | ⟨v, w', rfl, hv⟩
    · rw [hu, tagged_behind] at htagged
      cases htagged
    · have hbracketed : Bracketed v := by
        have hall := hoperands.front.trimEnd
        rw [hv] at hall
        exact hall.front
      have hfront : q ++ lead = (a ++ [brace]) ++ brace :: v := by
        rw [hu]
        simp
      obtain ⟨shape, hshape⟩ := Option.isSome_iff_exists.1 hlead
      obtain ⟨z, rfl, rfl⟩ := Shape.lead_reach hshape (by decide) hbracketed (Or.inr (by decide)) hfront
      obtain ⟨rest, hrest⟩ := exists_trimEnd g (o.token ++ r)
      refine .headed (a ++ brace :: z) (w' ++ rest) (by rw [hrest, hv]; simp) hx hlead ?_
      rw [hu, tagged_doubled] at htagged
      rw [List.append_assoc, List.cons_append]
      exact htagged
  | behind u w hu hbehind =>
    have hbracketed : Bracketed u := by
      have hall := hoperands.behind_token h.written
      rw [hbehind] at hall
      exact hall.front
    have hends : q ++ lead = (a ++ brace :: brace :: (g.trimEnd ++ [endBrace])) ++ ' ' :: (o.token ++ u) := by
      rw [hu]
      simp
    obtain ⟨z, rfl, hanywhere⟩ := header_behind_token h.written hbracketed hlead hends htagged
    refine .headed (a ++ brace :: (g ++ (o.token ++ z))) w (by rw [hbehind]; simp) hx hlead ?_
    simpa using hanywhere (a ++ brace :: g)

end Repeats

/-- A block of a regrouped text that can be ignored was there before. -/
theorem Ignorable.of_regrouped (hr : Repeats a g o) (hb : Bracketed (a ++ brace :: (g ++ (o.token ++ r))))
    (h : Ignorable (regrouped .braces a g o r) e) : Ignorable (a ++ brace :: (g ++ (o.token ++ r))) e := by
  cases h with
  | idle q b hparts hx hidle => exact hr.idle_before hb.front hx hidle hparts
  | headed q b hparts hx hlead htagged => exact hr.headed_before hb hx hlead htagged hparts

theorem Repeats.regrouped_bracketed (h : Repeats a g o) (hb : Bracketed (a ++ brace :: (g ++ (o.token ++ r)))) :
    Bracketed (regrouped .braces a g o r) := by
  have hbehind : Bracketed (g ++ (o.token ++ r)) := hb.behind (by decide) (by decide)
  have hrest : Bracketed r := hbehind.behind_token h.written
  have hopen : Bracketed [brace, brace] := .of_not_mem (by decide)
  have hclose : Bracketed [endBrace, ' '] := .of_not_mem (by decide)
  have hall := hb.front.append (hopen.append (hbehind.front.trimEnd.append (hclose.append ((Bracketed.token o).append hrest))))
  simpa [regrouped] using hall

/-- Stretches of faithful texts are faithful, and so are regrouped ones. -/
theorem faithful_inherited (top : Text) : Inherited (Faithful top) where
  nested := fun _ h => h.nested
  stretch := fun _ _ h hu => h.stretch hu
  regroup := fun _ _ _ _ hr h =>
    ⟨hr.regrouped_nested h.nested, hr.regrouped_bracketed h.bracketed,
      fun e he => h.ignorable e (he.of_regrouped hr h.bracketed)⟩

end InstitutionalGrammar
