/-
  InstitutionalGrammar.Proofs.Combination.Weights — counts that add up over the pieces of a text.

  Delimiters and blanks add nothing to a weight and keep what stands on both of their sides apart.
  So the pieces that a text is taken into weigh no more together than the text itself, and
  trimming and joining change no weight.
  - `Weight.around`, `Weight.operator`: a text around a separator and around an operator.
  - `operatorCount_weight`: the number of operators is a weight.
-/

import Mathlib.Algebra.GroupWithZero.Nat
import InstitutionalGrammar.Combination.Tree
import InstitutionalGrammar.Node.Render
import InstitutionalGrammar.Proofs.Combination.Counting
import InstitutionalGrammar.Proofs.Combination.Spans

namespace InstitutionalGrammar

/-- The character stands in no token. -/
def Separates (c : Char) : Prop := c ≠ '[' ∧ isTokenTail c = false

/-- A count that only brackets add to, `unit` for the bracket of a written operator, and that looks no
    further behind a bracket than a token can reach. -/
structure Weight (w : Text → Nat) (unit : Nat) : Prop where
  nil : w [] = 0
  char : ∀ {c : Char} (t : Text), c ≠ '[' → w (c :: t) = w t
  joint : ∀ {c : Char} (a b : Text), isTokenTail c = false → w (a ++ c :: b) = w a + w (c :: b)
  behind : ∀ a b : Text, w b ≤ w (a ++ b)
  token : ∀ {o : Operator} (t : Text), o.isSynthetic = false → w (o.token ++ t) = w t + unit

theorem operatorCount_weight : Weight operatorCount 1 where
  nil := rfl
  char := fun t hc => operatorCount_of_ne hc t
  joint := fun a b hc => operatorCount_break hc a b
  behind := fun a b => operatorCount_part (List.suffix_append a b).isInfix
  token := fun t ho => operatorCount_token ho t

theorem separates_opening (d : Delimiters) : Separates d.opening := by cases d <;> exact ⟨by decide, by decide⟩

theorem separates_closing (d : Delimiters) : Separates d.closing := by cases d <;> exact ⟨by decide, by decide⟩

theorem separates_of_isBlank {c : Char} (h : isBlank c = true) : Separates c := by
  refine ⟨?_, isTokenTail_of_isBlank h⟩
  rintro rfl
  exact absurd h (by decide)

theorem separates_of_isOpening {c : Char} (h : isOpening c = true) : Separates c := by
  rw [isOpening, Bool.or_eq_true, decide_eq_true_eq, decide_eq_true_eq] at h
  rcases h with rfl | rfl
  · exact separates_opening .parentheses
  · exact separates_opening .braces

theorem separates_of_isClosing {c : Char} (h : isClosing c = true) : Separates c := by
  rw [isClosing, Bool.or_eq_true, decide_eq_true_eq, decide_eq_true_eq] at h
  rcases h with rfl | rfl
  · exact separates_closing .parentheses
  · exact separates_closing .braces

namespace Weight

variable {w : Text → Nat} {unit : Nat} (hw : Weight w unit) {c : Char} {p : Char → Bool}
include hw

theorem around (hc : Separates c) (a b : Text) : w (a ++ c :: b) = w a + w b := by
  rw [hw.joint a b hc.2, hw.char b hc.1]

theorem operator {o : Operator} (ho : o.isSynthetic = false) (a b : Text) :
    w (a ++ (o.token ++ b)) = w a + w b + unit := by
  obtain ⟨r, hr, -⟩ := token_eq ho
  have htoken := hw.token b ho
  rw [hr, List.cons_append] at htoken ⊢
  rw [hw.joint a (r ++ b) (by decide), htoken, Nat.add_assoc]

/-- A part that ends at the end of the text or at a closing delimiter. -/
theorem part {d : Delimiters} {t p : Text} {i : Nat} (hp : t.At i p)
    (hstop : i + p.size = t.size ∨ t.At (i + p.size) [d.closing]) : w p ≤ w t := by
  rcases hstop with hend | hat
  · obtain ⟨a, b, rfl, rfl⟩ := hp
    have hnil : Text.size b = 0 := by
      rw [Text.size_append, Text.size_append] at hend
      omega
    rw [Text.size_eq_zero.1 hnil, List.append_nil]
    exact hw.behind a p
  · obtain ⟨a, b, rfl, rfl⟩ := hp.append hat
    have hbehind := hw.behind a (p ++ [d.closing] ++ b)
    rw [List.append_assoc, List.singleton_append, hw.around (separates_closing d)] at hbehind
    rw [List.append_assoc, List.singleton_append]
    omega

/-- A part whose last character is a closing delimiter. -/
theorem enclosed {d : Delimiters} {t p : Text} {i j : Nat} (hp : t.At i p) (hcloses : t.At j [d.closing]) (hij : i ≤ j)
    (hsize : i + p.size = j + 1) : w p ≤ w t := by
  obtain ⟨q, hq⟩ := Text.exists_slice hp.cut hcloses.cut hij
  obtain ⟨hat, rfl⟩ := Text.slice_eq_ok.1 hq
  have hsame : p.size = (q ++ [d.closing]).size := by
    rw [Text.size_append, size_closing]
    omega
  rw [hp.unique (hat.append hcloses) hsame, hw.around (separates_closing d), hw.nil, Nat.add_zero]
  exact hw.part hat (Or.inr hcloses)

/-! ### Trimming and joining -/

theorem stripStart (hp : ∀ c, p c = true → Separates c) (t : Text) : w (Text.stripStart p t) = w t := by
  induction t with
  | nil => rfl
  | cons c t ih =>
    unfold Text.stripStart at ih ⊢
    rw [List.dropWhile_cons]
    by_cases hc : p c = true
    · rw [if_pos hc, ih, hw.char t (hp c hc).1]
    · rw [if_neg hc]

theorem append_separators {r : Text} (hr : ∀ c ∈ r, Separates c) (t : Text) : w (t ++ r) = w t := by
  induction r generalizing t with
  | nil => rw [List.append_nil]
  | cons c r ih =>
    have hrest : w r = 0 := by
      have hempty := ih (fun d hd => hr d (by simp [hd])) []
      rwa [List.nil_append, hw.nil] at hempty
    rw [hw.around (hr c (by simp)), hrest, Nat.add_zero]

theorem stripEnd (hp : ∀ c, p c = true → Separates c) (t : Text) : w (Text.stripEnd p t) = w t := by
  obtain ⟨r, hr, hall⟩ := Text.stripEnd_append p t
  have hsame := hw.append_separators (fun c hc => hp c (List.all_eq_true.1 hall c hc)) (Text.stripEnd p t)
  rwa [← hr, eq_comm] at hsame

theorem trimEnd (t : Text) : w t.trimEnd = w t := hw.stripEnd (fun _ => separates_of_isBlank) t

theorem trim (t : Text) : w t.trim = w t := by
  rw [Text.trim, hw.trimEnd, Text.trimStart, hw.stripStart fun _ => separates_of_isBlank]

theorem shared? (t : Text) : ((InstitutionalGrammar.shared? t).toList.map w).sum = w t := by
  have hcleaned : w (Text.stripEnd isOpening (Text.stripStart isClosing t.trim)).trim = w t := by
    rw [hw.trim, hw.stripEnd fun _ => separates_of_isOpening, hw.stripStart fun _ => separates_of_isClosing, hw.trim]
  unfold InstitutionalGrammar.shared?
  split
  · rename_i hnil
    rw [hnil, hw.nil] at hcleaned
    exact hcleaned
  · rw [← hcleaned]
    simp

theorem joinSpaced (ts : List Text) : w (InstitutionalGrammar.joinSpaced ts) = (ts.map w).sum := by
  unfold InstitutionalGrammar.joinSpaced
  induction ts with
  | nil => exact hw.nil
  | cons t ts ih =>
    cases ts with
    | nil => simp [Text.join]
    | cons u ts =>
      have hjoin : Text.join [' '] (t :: u :: ts) = t ++ ' ' :: Text.join [' '] (u :: ts) := by
        simp [Text.join]
      rw [hjoin, hw.around ⟨by decide, by decide⟩, ih]
      rfl

end Weight

/-- The two texts have the same weights. -/
def SameWeight (a b : Text) : Prop := ∀ w unit, Weight w unit → w a = w b

theorem SameWeight.trans {a b c : Text} (h : SameWeight a b) (h' : SameWeight b c) : SameWeight a c :=
  fun w unit hw => (h w unit hw).trans (h' w unit hw)

end InstitutionalGrammar
