/-
  InstitutionalGrammar.Proofs.Text.Operators — texts without a written operator.

  - `operatorFree_of_lex`: a text has no operator if none of its lexemes is one; this is what a sweep
    over the tokens can tell.
  - `OperatorFree.part`: no part of such a text has one, so trimming and cutting keep it so.
-/

import Mathlib.Data.List.DropRight
import InstitutionalGrammar.Token
import InstitutionalGrammar.Proofs.Text.Trim

namespace InstitutionalGrammar

/-! ## Parts of a text -/

namespace Text

theorem trim_part (t : Text) : trim t <:+: t := by
  obtain ⟨r, hr, -⟩ := stripEnd_append isBlank (trimStart t)
  have hend : trim t <+: trimStart t := ⟨r, hr.symm⟩
  have hstart : trimStart t <:+ t := List.dropWhile_suffix isBlank
  exact hend.isInfix.trans hstart.isInfix

theorem trim_trim (t : Text) : trim (trim t) = trim t := by
  rw [trim_eq_self_iff]
  obtain ⟨r, hr, hblank⟩ := stripEnd_append isBlank (trimStart t)
  have hr : trimStart t = trim t ++ r := hr
  constructor
  · intro c hc
    have hhead : c ∈ (trimStart t).head? := by
      rw [hr, List.head?_append]
      simp [Option.mem_def.1 hc]
    have hstart : stripStart isBlank (trimStart t) = trimStart t := List.dropWhile_idempotent isBlank t
    exact stripStart_eq_self_iff.1 hstart c hhead
  · have hend : stripEnd isBlank (trim t) = trim t := by
      have := stripEnd_append_of_all (a := trim t) hblank
      rw [← hr] at this
      exact this.symm
    exact stripEnd_eq_self_iff.1 hend

theorem slice_part {t part : Text} {start stop : Nat} (h : t.slice start stop = .ok part) : part <:+: t := by
  unfold slice at h
  split at h
  · rename_i hpart
    cases h
    obtain ⟨before, after, rfl, -, -⟩ := slice?_eq_some_iff.1 hpart
    exact ⟨before, after, rfl⟩
  · cases h

end Text

/-! ## Operators -/

/-- No written operator stands anywhere in the text. -/
def OperatorFree (t : Text) : Prop := ∀ o : Operator, o.isSynthetic = false → ¬ o.token <:+: t

theorem OperatorFree.part {t part : Text} (h : OperatorFree t) (hpart : part <:+: t) : OperatorFree part :=
  fun o ho htoken => h o ho (htoken.trans hpart)

theorem Lexeme.operator_mem_consText {c : Char} {ls : List Lexeme} {o : Operator} :
    operator o ∈ consText c ls ↔ operator o ∈ ls := by
  unfold consText
  split <;> simp

theorem operator_mem_lex_of_prefix {t : Text} {o : Operator} (ho : o.isSynthetic = false) (h : o.token <+: t) :
    Lexeme.operator o ∈ lex t := by
  obtain ⟨rest, rfl⟩ := h
  cases o with
  | syntheticAnd => cases ho
  | _ => simp [Operator.token, Operator.name, lex]

/-- Where no operator starts, the operators behind are seen as from the next character on. -/
theorem operator_mem_lex_cons {c : Char} {t : Text}
    (h : ∀ o : Operator, o.isSynthetic = false → ¬ o.token <+: c :: t) {o : Operator} (ho : Lexeme.operator o ∈ lex t) :
    Lexeme.operator o ∈ lex (c :: t) := by
  unfold lex
  split
  · rename_i heq
    cases heq
  · rename_i u heq
    exact absurd ⟨u, heq.symm⟩ (h .and rfl)
  · rename_i u heq
    exact absurd ⟨u, heq.symm⟩ (h .or rfl)
  · rename_i u heq
    exact absurd ⟨u, heq.symm⟩ (h .xor rfl)
  · rename_i heq
    obtain ⟨rfl, rfl⟩ := List.cons.inj heq
    repeat' split
    all_goals simp [Lexeme.operator_mem_consText, ho]

/-- Where an operator is written, some operator is read. -/
theorem exists_operator_of_token_part {t : Text} {o : Operator} (ho : o.isSynthetic = false) (h : o.token <:+: t) :
    ∃ o', Lexeme.operator o' ∈ lex t := by
  induction t with
  | nil =>
    rw [List.infix_nil] at h
    cases o <;> cases h
  | cons c t ih =>
    by_cases hstart : ∃ o' : Operator, o'.isSynthetic = false ∧ o'.token <+: c :: t
    · obtain ⟨o', ho', hprefix⟩ := hstart
      exact ⟨o', operator_mem_lex_of_prefix ho' hprefix⟩
    · simp only [not_exists, not_and] at hstart
      rcases List.infix_cons_iff.1 h with h | h
      · exact absurd h (hstart o ho)
      · obtain ⟨o', ho'⟩ := ih h
        exact ⟨o', operator_mem_lex_cons hstart ho'⟩

theorem operatorFree_of_lex {t : Text} (h : ∀ o, Lexeme.operator o ∉ lex t) : OperatorFree t := by
  intro o ho htoken
  obtain ⟨o', ho'⟩ := exists_operator_of_token_part ho htoken
  exact h o' ho'

end InstitutionalGrammar
