/-
  InstitutionalGrammar.Proofs.Text.Tidy — texts in which every delimiter is matched and every
  bracket belongs to a written operator.

  - `Tidy.nested`: a tidy text is nested, so it passes the balance check and its delimiters close
    where they should.
-/

import InstitutionalGrammar.Proofs.Text.Nested

namespace InstitutionalGrammar

/-- The characters that structure a statement: delimiters and brackets. -/
def isReserved (c : Char) : Bool := isOpening c || isClosing c || Shape.isBracket c

inductive Tidy : Text → Prop
  | nil : Tidy []
  | char {c : Char} {t : Text} : isReserved c = false → Tidy t → Tidy (c :: t)
  | operator {o : Operator} {t : Text} : o.isSynthetic = false → Tidy t → Tidy (o.token ++ t)
  | enclosed {d : Delimiters} {a t : Text} : Tidy a → Tidy t → Tidy (d.opening :: (a ++ d.closing :: t))

theorem utf8Size_space : (' ' : Char).utf8Size = 1 := rfl

theorem size_replicate_space (n : Nat) : Text.size (List.replicate n ' ') = n := by
  induction n with
  | zero => rfl
  | succ n ih => rw [List.replicate_succ, Text.size_cons, ih, utf8Size_space, Nat.add_comm]

theorem isDelimiter_of_reserved {c : Char} (h : isReserved c = false) : isDelimiter c = false :=
  (Bool.or_eq_false_iff.1 h).1

theorem ne_bracket {c : Char} (h : isReserved c = false) : c ≠ '[' ∧ c ≠ ']' := by
  constructor <;> (intro e; subst e; exact absurd h (by decide))

theorem isReserved_of_blank {c : Char} (h : isBlank c = true) : isReserved c = false := by
  cases hr : isReserved c with
  | false => rfl
  | true =>
    simp only [isReserved, isOpening, isClosing, Shape.isBracket, Bool.or_eq_true, decide_eq_true_eq] at hr
    rcases hr with (hr | hr) | hr <;> rcases hr with hr | hr <;> subst hr <;> exact absurd h (by decide)

/-- The characters of an operator token, none of which is a delimiter. -/
theorem token_delimiter {o : Operator} {c : Char} (h : c ∈ o.token) : isDelimiter c = false := by
  have hall : ∀ e ∈ o.token, isDelimiter e = false := Text.forall_of_all (by cases o <;> decide)
  exact hall c h

namespace Tidy

/-! ## Building tidy texts -/

theorem append {a b : Text} (ha : Tidy a) (hb : Tidy b) : Tidy (a ++ b) := by
  induction ha with
  | nil => exact hb
  | char hc _ ih => exact .char hc ih
  | operator ho _ ih => rw [List.append_assoc]; exact .operator ho ih
  | @enclosed d a t ha _ _ ih => simpa using Tidy.enclosed ha ih

theorem of_all {t : Text} (h : ∀ c ∈ t, isReserved c = false) : Tidy t := by
  induction t with
  | nil => exact .nil
  | cons c t ih => exact .char (h c (by simp)) (ih fun d hd => h d (by simp [hd]))

theorem of_allBlank {t : Text} (h : Text.allBlank t = true) : Tidy t :=
  of_all fun c hc => isReserved_of_blank (List.all_eq_true.1 h c hc)

theorem wrap (d : Delimiters) {a : Text} (h : Tidy a) : Tidy (d.opening :: (a ++ [d.closing])) := .enclosed h .nil

/-- The brackets of an operator enclose no delimiter. -/
theorem nested {t : Text} (h : Tidy t) : WellNested t := by
  induction h with
  | nil => exact .nil
  | char hc _ ih => exact .char (isDelimiter_of_reserved hc) ih
  | operator _ _ ih => exact .append (.of_all fun c hc => token_delimiter hc) ih
  | enclosed _ _ iha iht => exact .enclosed iha iht

end Tidy

end InstitutionalGrammar
