/-
  InstitutionalGrammar.Proofs.Combination.Traces — what is read off a text piece by piece.

  A trace reads a list off a text: the characters that are no blanks and no delimiters, or the operators that
  are written in it. Gaps leave no trace and keep what stands on both of their sides apart, and so does an
  operator, which leaves its own. So what only puts in gaps or takes them out changes no trace.
  - `Trace.trim`, `Trace.shared?`, `Trace.regrouped`: trimming, sharing and regrouping keep every trace.
  - `solid_trace`, `operatorsOf_trace`: the two traces.
-/

import InstitutionalGrammar.Proofs.Combination.Rounds

namespace InstitutionalGrammar

variable {a b t : Text} {c : Char} {o : Operator} {d : Delimiters}

/-- The written operators of a text, in order. -/
def operatorsOf (t : Text) : List Operator := (tokens t).filterMap Token.operator?

/-- The text without the characters that `gap` holds of. -/
def Text.without (gap : Char → Bool) (t : Text) : Text := t.filter fun c => !gap c

/-- Blanks, and delimiters of the kind. -/
def groups (d : Delimiters) (c : Char) : Bool := isBlank c || c = d.opening || c = d.closing

/-- Blanks and delimiters. -/
def isGap (c : Char) : Bool := isBlank c || isDelimiter c

theorem isGap_opening (d : Delimiters) : isGap d.opening = true := by simp [isGap]

theorem isGap_closing (d : Delimiters) : isGap d.closing = true := by simp [isGap]

/-! ## Traces -/

/-- What is read off a text if blanks and the other characters that `gap` holds of leave nothing. -/
structure Trace {α : Type} (gap : Char → Bool) (μ : Text → List α) : Prop where
  nil : μ [] = []
  blank : ∀ c, isBlank c = true → gap c = true
  around : ∀ {c : Char} (a b : Text), gap c = true → μ (a ++ c :: b) = μ a ++ μ b
  operator : ∀ {o : Operator} (a b : Text), o.isSynthetic = false → μ (a ++ (o.token ++ b)) = μ a ++ (μ o.token ++ μ b)

namespace Trace

variable {α : Type} {gap p : Char → Bool} {μ : Text → List α} (hμ : Trace gap μ)
include hμ

theorem char (hc : gap c = true) (t : Text) : μ (c :: t) = μ t := by
  have haround := hμ.around [] t hc
  rwa [List.nil_append, hμ.nil, List.nil_append] at haround

theorem token (ho : o.isSynthetic = false) (t : Text) : μ (o.token ++ t) = μ o.token ++ μ t := by
  have hoperator := hμ.operator [] t ho
  rwa [List.nil_append, hμ.nil, List.nil_append] at hoperator

theorem append_gaps {r : Text} (hr : ∀ c ∈ r, gap c = true) (t : Text) : μ (t ++ r) = μ t := by
  cases r with
  | nil => rw [List.append_nil]
  | cons c r =>
    have hnil : ∀ {r : Text}, (∀ c ∈ r, gap c = true) → μ r = [] := by
      intro r hr
      induction r with
      | nil => exact hμ.nil
      | cons c r ih => rw [hμ.char (hr c List.mem_cons_self), ih fun x hx => hr x (List.mem_cons_of_mem _ hx)]
    obtain ⟨hc, hr⟩ := List.forall_mem_cons.1 hr
    rw [hμ.around t r hc, hnil hr, List.append_nil]

theorem stripStart (hp : ∀ c, p c = true → gap c = true) (t : Text) : μ (Text.stripStart p t) = μ t := by
  induction t with
  | nil => rfl
  | cons c t ih =>
    unfold Text.stripStart at ih ⊢
    rw [List.dropWhile_cons]
    by_cases hc : p c = true
    · rw [if_pos hc, ih, hμ.char (hp c hc)]
    · rw [if_neg hc]

theorem stripEnd (hp : ∀ c, p c = true → gap c = true) (t : Text) : μ (Text.stripEnd p t) = μ t := by
  obtain ⟨r, hr, hall⟩ := Text.stripEnd_append p t
  have hsame := hμ.append_gaps (fun c hc => hp c (List.all_eq_true.1 hall c hc)) (Text.stripEnd p t)
  rwa [← hr, eq_comm] at hsame

theorem trimEnd (t : Text) : μ t.trimEnd = μ t := hμ.stripEnd hμ.blank t

theorem trim (t : Text) : μ t.trim = μ t := by
  rw [Text.trim, hμ.trimEnd, Text.trimStart, hμ.stripStart hμ.blank]

theorem shared? (hgap : ∀ c, isDelimiter c = true → gap c = true) (t : Text) :
    (InstitutionalGrammar.shared? t).toList.flatMap μ = μ t := by
  have hcleaned : μ (Text.stripEnd isOpening (Text.stripStart isClosing t.trim)).trim = μ t := by
    rw [hμ.trim, hμ.stripEnd fun c hc => hgap c (by simp [isDelimiter, hc]),
      hμ.stripStart fun c hc => hgap c (by simp [isDelimiter, hc]), hμ.trim]
  unfold InstitutionalGrammar.shared?
  split
  · rename_i hnil
    rw [hnil, hμ.nil] at hcleaned
    exact hcleaned
  · rw [← hcleaned]
    simp

/-- Regrouping puts delimiters in, and takes blanks out or puts them in. -/
theorem regrouped (hopening : gap d.opening = true) (hclosing : gap d.closing = true) (ho : o.isSynthetic = false)
    (a g r : Text) : μ (regrouped d a g o r) = μ (a ++ d.opening :: (g ++ (o.token ++ r))) := by
  have hspace : gap ' ' = true := hμ.blank ' ' (by decide)
  rw [InstitutionalGrammar.regrouped, hμ.around _ _ hopening, hμ.around _ _ hopening, hμ.char hopening,
    hμ.around _ _ hclosing, hμ.char hspace, hμ.trimEnd, hμ.operator g r ho, hμ.token ho]

end Trace

/-! ## Characters -/

theorem Text.without_append (gap : Char → Bool) (a b : Text) : (a ++ b).without gap = a.without gap ++ b.without gap :=
  List.filter_append a b

theorem without_trace {gap : Char → Bool} (hblank : ∀ c, isBlank c = true → gap c = true) :
    Trace gap (Text.without gap) where
  nil := rfl
  blank := hblank
  around := fun a b hc => by simp [Text.without, hc]
  operator := fun a b _ => by rw [Text.without_append, Text.without_append]

theorem groups_trace (d : Delimiters) : Trace (groups d) (Text.without (groups d)) :=
  without_trace fun c hc => by simp [groups, hc]

theorem solid_trace : Trace isGap (Text.without isGap) := without_trace fun c hc => by simp [isGap, hc]

/-! ## Operators -/

def Lexeme.operator? : Lexeme → Option Operator
  | .operator o => some o
  | _ => none

theorem operatorsOf_eq (t : Text) : operatorsOf t = (lex t).filterMap Lexeme.operator? := by
  have hoperator : Token.operator? = Lexeme.operator? ∘ Token.lexeme := by
    funext u
    cases hl : u.lexeme <;> simp [Token.operator?, Lexeme.operator?, hl]
  rw [← map_lexeme_tokens, List.filterMap_map, ← hoperator]
  rfl

theorem length_operatorsOf (t : Text) : (operatorsOf t).length = operatorCount t := by
  rw [operatorsOf, operatorCount, List.length_filterMap_eq_countP, List.countP_eq_length_filter]

theorem filterMap_put (c : Char) (ls : List Lexeme) :
    (Lexeme.put c ls).filterMap Lexeme.operator? = ls.filterMap Lexeme.operator? := by
  unfold Lexeme.put Lexeme.consText
  repeat' split
  all_goals rfl

theorem operatorsOf_char (h : startsOperator (c :: t) = false) : operatorsOf (c :: t) = operatorsOf t := by
  rw [operatorsOf_eq, operatorsOf_eq, lex_char h, filterMap_put]

theorem operatorsOf_token (ho : o.isSynthetic = false) (t : Text) : operatorsOf (o.token ++ t) = o :: operatorsOf t := by
  rw [operatorsOf_eq, operatorsOf_eq, lex_token ho]
  rfl

theorem operatorsOf_written (ho : o.isSynthetic = false) : operatorsOf o.token = [o] := by
  rw [← List.append_nil o.token, operatorsOf_token ho]
  rfl

theorem operatorsOf_free (h : OperatorFree t) : operatorsOf t = [] := by
  induction t using lex_induction with
  | nil => rfl
  | token o t ho ih => exact absurd (List.prefix_append o.token t).isInfix (h o ho)
  | char c t hc ih => rw [operatorsOf_char hc, ih (h.part (List.suffix_cons c t).isInfix)]

theorem operatorsOf_append (a : Text) (hb : Sharp b) : operatorsOf (a ++ b) = operatorsOf a ++ operatorsOf b := by
  rw [operatorsOf_eq, operatorsOf_eq, operatorsOf_eq, lex_append a hb, List.filterMap_append]

theorem operatorsOf_around (hc : Separates c) (a b : Text) : operatorsOf (a ++ c :: b) = operatorsOf a ++ operatorsOf b := by
  induction a using lex_induction with
  | nil => exact operatorsOf_char (startsOperator_of_ne hc.1 b)
  | token o t ho ih => rw [List.append_assoc, operatorsOf_token ho, operatorsOf_token ho, ih, List.cons_append]
  | char x t hx ih =>
    have hx' : startsOperator (x :: (t ++ c :: b)) = false := by rw [startsOperator_break hc.2, hx]
    rw [List.cons_append, operatorsOf_char hx', operatorsOf_char hx, ih]

theorem operatorsOf_gap (hc : isGap c = true) : Separates c := by
  rw [isGap, Bool.or_eq_true] at hc
  rcases hc with hblank | hdelimiter
  · exact separates_of_isBlank hblank
  · obtain ⟨d, rfl | rfl⟩ := exists_delimiter hdelimiter
    · exact separates_opening d
    · exact separates_closing d

theorem operatorsOf_trace : Trace isGap operatorsOf where
  nil := rfl
  blank := solid_trace.blank
  around := fun a b hc => operatorsOf_around (operatorsOf_gap hc) a b
  operator := fun {o} a b ho => by
    rw [operatorsOf_append a (Sharp.token ho b), operatorsOf_token ho, operatorsOf_written ho, List.singleton_append]

end InstitutionalGrammar
