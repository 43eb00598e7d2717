/-
  InstitutionalGrammar.Proofs.Meets — what a computation ends with, whichever way it ends.

  `Meets E P x` says that `x` yields a value with `P` or fails for a reason with `E`. One such fact
  for each function tells its callers all that they need, so they never open it again.
  - `Meets.bind`, `Meets.foldlM`, `Meets.mapM`: facts about parts make one about the whole.
  - `Meets.lift`, `Meets.report_bind`: the same across refusals, failures and reports.
  - `requireBalanced_meets`: what the balance check refuses a text for.
  - `Fair`: a text is refused for nothing but a fault of its own.
-/

import InstitutionalGrammar.Proofs.Text.Cuts
import InstitutionalGrammar.Proofs.Text.Operators
import InstitutionalGrammar.Proofs.Outcome

namespace InstitutionalGrammar

/-- The result has `P`, or the failure has `E`. -/
def Meets {ε α : Type} (E : ε → Prop) (P : α → Prop) : Except ε α → Prop
  | .ok a => P a
  | .error e => E e

/-- A failure whose cause, if the text was rejected for one, has `E`. -/
def Failure.Within (E : ParseError → Prop) : Failure → Prop
  | .rejected e => E e
  | .misplacedCut | .unsettled => True

namespace Meets

section Rules

variable {ε α β : Type} {E E' : ε → Prop} {P P' : α → Prop} {Q : β → Prop} {x : Except ε α}

theorem imp (h : Meets E P x) (hE : ∀ e, E e → E' e) (hP : ∀ a, P a → P' a) : Meets E' P' x := by
  cases x with
  | error e => exact hE e h
  | ok a => exact hP a h

theorem weaken (h : Meets E P x) (hP : ∀ a, P a → P' a) : Meets E P' x := h.imp (fun _ he => he) hP

theorem value (h : Meets E P x) {a : α} (hx : x = .ok a) : P a := by
  rw [hx] at h
  exact h

theorem failure (h : Meets E P x) {e : ε} (hx : x = .error e) : E e := by
  rw [hx] at h
  exact h

/-- Where only the value counts. -/
theorem of_ok (h : ∀ a, x = .ok a → P a) : Meets (fun _ => True) P x := by
  cases x with
  | error e => trivial
  | ok a => exact h a rfl

/-- What is known of the value besides. -/
theorem and_eq (h : Meets E P x) : Meets E (fun a => P a ∧ x = .ok a) x := by
  cases x with
  | error e => exact h
  | ok a => exact ⟨h, rfl⟩

theorem bind {f : α → Except ε β} (h : Meets E P x) (hf : ∀ a, P a → Meets E Q (f a)) : Meets E Q (x >>= f) := by
  cases x with
  | error e => exact h
  | ok a => exact hf a h

theorem map {f : α → β} (h : Meets E P x) (hf : ∀ a, P a → Q (f a)) : Meets E Q (f <$> x) := by
  cases x with
  | error e => exact h
  | ok a => exact hf a h

theorem foldlM {f : β → α → Except ε β} {l : List α} (hstep : ∀ a ∈ l, ∀ b, Q b → Meets E Q (f b a)) {b : β}
    (hb : Q b) : Meets E Q (l.foldlM f b) := by
  induction l generalizing b with
  | nil => exact hb
  | cons a l ih =>
    rw [List.foldlM_cons]
    refine (hstep a (by simp) b hb).bind fun c hc => ?_
    exact ih (fun x hx => hstep x (by simp [hx])) hc

theorem mapM {f : α → Except ε β} {l : List α} (h : ∀ a ∈ l, Meets E Q (f a)) :
    Meets E (fun bs => ∀ b ∈ bs, Q b) (l.mapM f) := by
  induction l with
  | nil => exact (nofun : ∀ b ∈ ([] : List β), Q b)
  | cons a l ih =>
    rw [List.mapM_cons]
    refine (h a (by simp)).bind fun b hb => ?_
    refine (ih fun x hx => h x (by simp [hx])).bind fun bs hbs => ?_
    intro c hc
    rcases List.mem_cons.1 hc with hc | hc
    · exact hc ▸ hb
    · exact hbs c hc

end Rules

/-! ## Failures and reports -/

variable {α β : Type} {E : ParseError → Prop} {P : α → Prop} {Q : β → Prop}

theorem lift {x : Except ParseError α} (h : Meets E P x) : Meets (Failure.Within E) P (liftM x : Outcome α) := by
  cases x with
  | error e => exact h
  | ok a => exact h

theorem slice (t : Text) (start stop : Nat) : Meets (Failure.Within E) (· <:+: t) (t.slice start stop) := by
  cases h : t.slice start stop with
  | error e =>
    unfold Text.slice at h
    split at h <;> cases h
    trivial
  | ok part => exact Text.slice_part h

/-- A cut between two boundaries never fails. -/
theorem cut {F : Failure → Prop} {t : Text} {i j : Nat} (hi : t.Cut i) (hj : t.Cut j) (hij : i ≤ j) :
    Meets F (fun p : Text => t.At i p ∧ i + p.size = j) (t.slice i j) := by
  obtain ⟨p, hp⟩ := Text.exists_slice hi hj hij
  rw [hp]
  exact Text.slice_eq_ok.1 hp

theorem report_bind {F : Failure → Prop} {r : Report α} {f : α → Report β} (h : Meets F P r.result)
    (hf : ∀ a, P a → Meets F Q (f a).result) : Meets F Q (r >>= f).result := by
  obtain ⟨ignored, result⟩ := r
  rw [Report.bind_eq]
  cases result with
  | error e => exact h
  | ok a => exact hf a h

theorem report_lift {F : Failure → Prop} {x : Except ParseError α} (hF : ∀ e, E e → F (.rejected e)) (h : Meets E P x) :
    Meets F P (liftM x : Report α).result := by
  cases x with
  | error e => exact hF e h
  | ok a => exact h

end Meets

/-- The balance check refuses a text for how many delimiters it has, or for their order. -/
theorem requireBalanced_meets {E : ParseError → Prop} (htotal : ∀ o c n m, E (.imbalancedDelimiters o c n m))
    (horder : ∀ c p, E (.misorderedDelimiter c p)) (text : Text) : Meets E (fun _ => True) (requireBalanced text) := by
  have hin : ∀ d, Meets E (fun _ => True) (requireBalancedIn d text) := by
    intro d
    unfold requireBalancedIn
    split
    · exact htotal _ _ _ _
    · split
      · exact horder _ _
      · trivial
  exact (hin .parentheses).bind fun _ _ => hin .braces

/-! ## Faults of the text -/

namespace ParseError

/-- The codes of errors that no text is refused for: a lookup that its caller answers, a note beside
    a result, and what only requests other than a parse can meet. -/
def internalCodes : List String :=
  ["COMPONENT_NOT_FOUND", "IGNORED_ELEMENTS", "UNSUPPORTED_NESTING", "MISMATCHED_COMPONENT_TYPES", "UNKNOWN_OPERATOR",
    "INVALID_OPTIONS", "INVALID_NODE_PATH"]

/-- The text itself is at fault. -/
def ofInput : ParseError → Bool
  | componentNotFound _ | ignoredElements _ | unsupportedNesting _ | mismatchedComponentTypes .. | unknownOperator _
  | invalidOptions _ | invalidNodePath _ => false
  | _ => true

/-- The text is at fault, and not for its depth. -/
def Fault (e : ParseError) : Prop := e.ofInput = true ∧ ∀ n, e ≠ .nestingTooDeep n

theorem ofInput_iff (e : ParseError) : e.ofInput = true ↔ e.isFatal = true ∧ e.code ∉ internalCodes := by
  cases e <;> simp [ofInput, isFatal, category, code, internalCodes]

end ParseError

/-- The result has `P`, or the text is refused for a fault of its own. -/
abbrev Fair {α : Type} (P : α → Prop) (x : Outcome α) : Prop := Meets (Failure.Within (·.ofInput = true)) P x

/-- A text may be refused for any fault but its depth. -/
def Tolerates (E : Failure → Prop) : Prop := ∀ e : ParseError, e.Fault → E (.rejected e)

theorem tolerates_ofInput : Tolerates (Failure.Within (·.ofInput = true)) := fun _ he => he.1

end InstitutionalGrammar
