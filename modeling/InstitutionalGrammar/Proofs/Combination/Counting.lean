/-
  InstitutionalGrammar.Proofs.Combination.Counting — how many operators a text and its parts have.

  An operator is counted at the bracket it starts with, so parts that do not overlap have no more
  operators together than the text they stand in, and a character that no token holds behind its
  bracket keeps the counts on both of its sides apart.
  - `operatorCount_cons`: the count, character by character.
  - `operatorCount_append_le`, `operatorCount_break`: texts put together.
-/

import InstitutionalGrammar.Combination.Sweep
import InstitutionalGrammar.Proofs.Text.Lexing

namespace InstitutionalGrammar

variable {a b t p : Text} {c x : Char} {o : Operator}

/-! ## Counting -/

def Lexeme.isOperator : Lexeme → Bool
  | .operator _ => true
  | _ => false

theorem operatorCount_eq (t : Text) : operatorCount t = (lex t).countP Lexeme.isOperator := by
  have hoperator : (fun u : Token => u.operator?.isSome) = Lexeme.isOperator ∘ Token.lexeme := by
    funext u
    cases hl : u.lexeme <;> simp [Token.operator?, Lexeme.isOperator, hl]
  rw [← map_lexeme_tokens, List.countP_map, ← hoperator, List.countP_eq_length_filter]
  rfl

theorem countP_put (c : Char) (ls : List Lexeme) :
    (Lexeme.put c ls).countP Lexeme.isOperator = ls.countP Lexeme.isOperator := by
  unfold Lexeme.put Lexeme.consText
  repeat' split
  all_goals simp [Lexeme.isOperator]

@[simp] theorem operatorCount_nil : operatorCount [] = 0 := rfl

theorem operatorCount_char (h : startsOperator (c :: t) = false) : operatorCount (c :: t) = operatorCount t := by
  rw [operatorCount_eq, operatorCount_eq, lex_char h, countP_put]

theorem operatorCount_of_ne (hc : c ≠ '[') (t : Text) : operatorCount (c :: t) = operatorCount t :=
  operatorCount_char (startsOperator_of_ne hc t)

theorem operatorCount_token (ho : o.isSynthetic = false) (t : Text) :
    operatorCount (o.token ++ t) = operatorCount t + 1 := by
  rw [operatorCount_eq, operatorCount_eq, lex_token ho]
  exact List.countP_cons_of_pos rfl

theorem operatorCount_cons (c : Char) (t : Text) :
    operatorCount (c :: t) = operatorCount t + if startsOperator (c :: t) = true then 1 else 0 := by
  by_cases h : startsOperator (c :: t) = true
  · obtain ⟨o, ho, u, hu⟩ := startsOperator_iff.1 h
    obtain ⟨r, hr, htail⟩ := token_eq ho
    have htail' := count_tail (fun c t hc => operatorCount_of_ne hc t) htail u
    rw [hr] at hu
    obtain ⟨rfl, rfl⟩ : '[' = c ∧ r ++ u = t := List.cons.inj hu
    rw [if_pos h, htail', ← operatorCount_token ho u, hr, List.cons_append]
  · rw [if_neg h, operatorCount_char (by simpa using h), Nat.add_zero]

/-! ## Texts put together -/

theorem operatorCount_append_le (a b : Text) : operatorCount a + operatorCount b ≤ operatorCount (a ++ b) := by
  induction a with
  | nil => simp
  | cons c a ih =>
    rw [List.cons_append, operatorCount_cons, operatorCount_cons]
    have hstart : startsOperator (c :: a) = true → startsOperator (c :: (a ++ b)) = true := by
      rw [startsOperator_iff, startsOperator_iff]
      rintro ⟨o, ho, h⟩
      exact ⟨o, ho, h.trans (List.prefix_append (c :: a) b)⟩
    by_cases h : startsOperator (c :: a) = true
    · rw [if_pos h, if_pos (hstart h)]
      omega
    · rw [if_neg h]
      omega

theorem operatorCount_part (h : p <:+: t) : operatorCount p ≤ operatorCount t := by
  obtain ⟨a, b, rfl⟩ := h
  have h₁ := operatorCount_append_le a p
  have h₂ := operatorCount_append_le (a ++ p) b
  omega

theorem operatorCount_break (hc : isTokenTail c = false) (a b : Text) :
    operatorCount (a ++ c :: b) = operatorCount a + operatorCount (c :: b) := by
  induction a with
  | nil => simp
  | cons x a ih =>
    rw [List.cons_append, operatorCount_cons, operatorCount_cons, startsOperator_break hc, ih]
    omega

end InstitutionalGrammar
