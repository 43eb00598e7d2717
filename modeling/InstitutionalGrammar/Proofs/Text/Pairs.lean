/-
  InstitutionalGrammar.Proofs.Text.Pairs — what stands directly in a pair of delimiters.

  A balanced text is put together from characters, operators and pairs. The operators outside its pairs divide it
  into stretches; inside a pair, these are the operators that stand directly in it.
  - `Balanced.induction`: a balanced text, piece by piece.
  - `encloses_append`, `encloses_pair`: the pairs of a text, from those of its pieces.
  - `exists_divided`: every balanced text is divided.
  - `undivided_iff`: a text is undivided if each operator is inside some pair.
-/

import InstitutionalGrammar.Proofs.Text.Balance
import InstitutionalGrammar.Proofs.Text.Lexing
import InstitutionalGrammar.Proofs.Text.Tidy

namespace InstitutionalGrammar

variable {d : Delimiters} {a b l r s t x y : Text} {c : Char} {o : Operator}

/-- A pair of delimiters stands in the text with `x` inside. -/
def Encloses (d : Delimiters) (t x : Text) : Prop :=
  ∃ a b, t = a ++ d.opening :: (x ++ d.closing :: b) ∧ Balanced d x

/-- The delimiters pair up, and each operator is inside some pair. -/
structure Undivided (d : Delimiters) (t : Text) : Prop where
  balanced : Balanced d t
  inside : ∀ (l : Text) (o : Operator) (r : Text), o.isSynthetic = false → t = l ++ (o.token ++ r) → ¬ Balanced d l

/-- The operators outside the pairs of a text, and the stretches in front of them, between them and behind them. -/
inductive Divided (d : Delimiters) : Text → List Operator → List Text → Prop
  | last {s : Text} : Undivided d s → Divided d s [] [s]
  | operator {s t : Text} {o : Operator} {os : List Operator} {ss : List Text} :
      Undivided d s → o.isSynthetic = false → Divided d t os ss → Divided d (s ++ (o.token ++ t)) (o :: os) (s :: ss)

/-! ## Balanced texts -/

theorem token_plain (d : Delimiters) : ∀ c ∈ o.token, c ≠ d.opening ∧ c ≠ d.closing := fun _ hc =>
  ⟨ne_opening (token_delimiter hc) d, ne_closing (token_delimiter hc) d⟩

namespace Balanced

theorem token_iff : Balanced d (o.token ++ t) ↔ Balanced d t := insert_iff (a := []) (token_plain d)

theorem pair (hx : Balanced d x) (ht : Balanced d t) : Balanced d (d.opening :: (x ++ d.closing :: t)) := by
  simpa using hx.wrap.append ht

/-- A balanced text is empty, or starts with an operator, a character or a pair, and is balanced behind that. -/
@[elab_as_elim]
theorem induction {motive : ∀ t, Balanced d t → Prop} (nil : motive [] (.nil d))
    (token : ∀ (o : Operator) (t : Text) (ht : Balanced d t), o.isSynthetic = false → motive t ht →
      motive (o.token ++ t) (token_iff.2 ht))
    (char : ∀ (c : Char) (t : Text) (ho : c ≠ d.opening) (hc : c ≠ d.closing) (ht : Balanced d t),
      startsOperator (c :: t) = false → motive t ht → motive (c :: t) ((char_iff ho hc).2 ht))
    (pair : ∀ (x t : Text) (hx : Balanced d x) (ht : Balanced d t), motive x hx → motive t ht →
      motive (d.opening :: (x ++ d.closing :: t)) (hx.pair ht))
    (h : Balanced d t) : motive t h := by
  induction hn : t.length using Nat.strongRecOn generalizing t with
  | ind n ih =>
    subst hn
    cases t with
    | nil => exact nil
    | cons c t =>
      by_cases hstart : startsOperator (c :: t) = true
      · obtain ⟨o, ho, u, hu⟩ := startsOperator_iff.1 hstart
        have hshort : u.length < (c :: t).length := by
          obtain ⟨r, hr, -⟩ := token_eq ho
          rw [← hu, hr, List.length_append, List.length_cons]
          omega
        generalize c :: t = t at *
        subst hu
        exact token o u (token_iff.1 h) ho (ih _ hshort (token_iff.1 h) rfl)
      · by_cases hopening : c = d.opening
        · subst hopening
          obtain ⟨x, s, rfl, hx, hs⟩ := h.behind_opening
          refine pair x s hx hs (ih _ ?_ hx rfl) (ih _ ?_ hs rfl) <;>
          · simp only [List.length_cons, List.length_append]
            omega
        · by_cases hclosing : c = d.closing
          · subst hclosing
            exact (not_closing (x := []) h (.nil d)).elim
          · have ht := (char_iff hopening hclosing).1 h
            exact char c t hopening hclosing ht (by simpa using hstart) (ih _ (Nat.lt_succ_self _) ht rfl)

end Balanced

/-! ## Pairs -/

theorem encloses_plain (hs : ∀ c ∈ s, c ≠ d.opening) : Encloses d (s ++ t) x ↔ Encloses d t x := by
  constructor
  · rintro ⟨a, b, h, hx⟩
    rcases List.append_eq_append_iff.1 h with ⟨u, rfl, ht⟩ | ⟨u, rfl, hu⟩
    · exact ⟨u, b, ht, hx⟩
    · cases u with
      | nil => exact ⟨[], b, hu.symm, hx⟩
      | cons c u =>
        obtain ⟨rfl, -⟩ := List.cons.inj hu
        exact absurd rfl (hs d.opening (by simp))
  · rintro ⟨a, b, rfl, hx⟩
    exact ⟨s ++ a, b, by simp, hx⟩

theorem encloses_char (hc : c ≠ d.opening) : Encloses d (c :: t) x ↔ Encloses d t x :=
  encloses_plain (s := [c]) (by simpa using hc)

theorem encloses_token : Encloses d (o.token ++ t) x ↔ Encloses d t x :=
  encloses_plain fun _ hc => (token_plain d _ hc).1

/-- A pair and what stands behind it. -/
theorem encloses_pair (hy : Balanced d y) :
    Encloses d (d.opening :: (y ++ d.closing :: t)) x ↔ x = y ∨ Encloses d y x ∨ Encloses d t x := by
  constructor
  · rintro ⟨a, b, h, hx⟩
    cases a with
    | nil => exact .inl (hx.closes_once hy (List.cons.inj h).2.symm).1
    | cons c a =>
      rcases hy.apart hx (List.cons.inj h).2 with ⟨u, hu, -⟩ | ⟨u, -, hu⟩
      · exact .inr (.inl ⟨a, u, hu, hx⟩)
      · exact .inr (.inr ⟨u, b, hu, hx⟩)
  · rintro (rfl | ⟨a, b, rfl, hx⟩ | ⟨a, b, rfl, hx⟩)
    · exact ⟨[], t, rfl, hy⟩
    · exact ⟨d.opening :: a, b ++ d.closing :: t, by simp, hx⟩
    · exact ⟨d.opening :: (y ++ d.closing :: a), b, by simp, hx⟩

/-- No pair reaches out of a balanced text. -/
theorem encloses_append (hs : Balanced d s) : Encloses d (s ++ t) x ↔ Encloses d s x ∨ Encloses d t x := by
  induction hs using Balanced.induction with
  | nil =>
    have hnone : ¬ Encloses d [] x := by
      rintro ⟨a, b, h, -⟩
      simp at h
    simp [hnone]
  | token o s _ _ ih => rw [List.append_assoc, encloses_token, encloses_token, ih]
  | char c s hopening _ _ _ ih => rw [List.cons_append, encloses_char hopening, encloses_char hopening, ih]
  | pair y s hy _ _ ih =>
    rw [List.cons_append, List.append_assoc, List.cons_append, encloses_pair hy, encloses_pair hy, ih]
    simp only [or_assoc]

theorem encloses_operator (hs : Balanced d s) :
    Encloses d (s ++ (o.token ++ t)) x ↔ Encloses d s x ∨ Encloses d t x := by
  rw [encloses_append hs, encloses_token]

/-! ## Stretches -/

namespace Undivided

theorem nil (d : Delimiters) : Undivided d [] where
  balanced := .nil d
  inside := by
    intro l o r ho h
    obtain ⟨u, hu, -⟩ := token_eq ho
    rw [hu] at h
    simp at h

theorem behind (h : Undivided d (a ++ t)) (ha : Balanced d a) : Undivided d t where
  balanced := h.balanced.behind ha
  inside := by
    intro l o r ho ht hl
    exact h.inside (a ++ l) o r ho (by rw [ht, List.append_assoc]) (ha.append hl)

theorem not_token (h : Undivided d (o.token ++ t)) (ho : o.isSynthetic = false) : False :=
  h.inside [] o t ho rfl (.nil d)

theorem char (hc : startsOperator (c :: s) = false) (ho : c ≠ d.opening) (hcl : c ≠ d.closing) (hs : Undivided d s) :
    Undivided d (c :: s) where
  balanced := (Balanced.char_iff ho hcl).2 hs.balanced
  inside := by
    intro l o r hwritten h hl
    cases l with
    | nil =>
      rw [startsOperator_iff.2 ⟨o, hwritten, r, h.symm⟩] at hc
      cases hc
    | cons e l =>
      obtain ⟨rfl, rfl⟩ := List.cons.inj h
      exact hs.inside l o r hwritten rfl ((Balanced.char_iff ho hcl).1 hl)

theorem pair (hx : Balanced d x) (hs : Undivided d s) : Undivided d (d.opening :: (x ++ d.closing :: s)) where
  balanced := hx.pair hs.balanced
  inside := by
    intro l o r hwritten h hl
    cases l with
    | nil =>
      -- a token does not start with a delimiter
      obtain ⟨u, hu, -⟩ := token_eq hwritten
      have hmem : d.opening ∈ o.token := by
        rw [hu] at h ⊢
        rw [(List.cons.inj h).1]
        exact List.mem_cons_self
      exact (token_plain d _ hmem).1 rfl
    | cons e l =>
      obtain ⟨rfl, h⟩ := List.cons.inj h
      obtain ⟨y, m, rfl, hy, hm⟩ := hl.behind_opening
      have hclose : x ++ d.closing :: s = y ++ d.closing :: (m ++ (o.token ++ r)) := by simpa using h
      obtain ⟨-, hs'⟩ := hx.closes_once hy hclose
      exact hs.inside m o r hwritten hs' hm

/-- An undivided text is empty, or starts with a character or a pair, and is undivided behind that. -/
theorem pieces (h : Undivided d t) : t = [] ∨
    (∃ c s, t = c :: s ∧ startsOperator (c :: s) = false ∧ c ≠ d.opening ∧ c ≠ d.closing ∧ Undivided d s) ∨
    ∃ x s, t = d.opening :: (x ++ d.closing :: s) ∧ Balanced d x ∧ Undivided d s := by
  have hbalanced := h.balanced
  induction hbalanced using Balanced.induction with
  | nil => exact .inl rfl
  | token o t _ ho _ => exact (h.not_token ho).elim
  | char c s hopening hclosing _ hc _ =>
    refine .inr (.inl ⟨c, s, rfl, hc, hopening, hclosing, h.behind (a := [c]) ?_⟩)
    exact (Balanced.char_iff hopening hclosing).2 (.nil d)
  | pair x s hx _ _ _ =>
    have hs : Undivided d ((d.opening :: (x ++ [d.closing])) ++ s) := by simpa using h
    exact .inr (.inr ⟨x, s, rfl, hx, hs.behind hx.wrap⟩)

end Undivided

theorem exists_divided (h : Balanced d t) : ∃ os ss, Divided d t os ss := by
  induction h using Balanced.induction with
  | nil => exact ⟨[], [[]], .last (.nil d)⟩
  | token o t _ ho ih =>
    obtain ⟨os, ss, h⟩ := ih
    exact ⟨o :: os, [] :: ss, .operator (.nil d) ho h⟩
  | char c t hopening hclosing _ hc ih =>
    obtain ⟨os, ss, h⟩ := ih
    cases h with
    | last hs => exact ⟨[], [c :: t], .last (hs.char hc hopening hclosing)⟩
    | operator hs ho h =>
      exact ⟨_, _, .operator (hs.char (startsOperator_append hc) hopening hclosing) ho h⟩
  | pair x t hx _ _ ih =>
    obtain ⟨os, ss, h⟩ := ih
    cases h with
    | last hs => exact ⟨[], _, .last (hs.pair hx)⟩
    | @operator s t o os ss hs ho h =>
      refine ⟨o :: os, (d.opening :: (x ++ d.closing :: s)) :: ss, ?_⟩
      have hdivided := Divided.operator (hs.pair hx) ho h
      simpa using hdivided

/-! ## Operators inside pairs -/

/-- The delimiter that opened last and has not closed. -/
theorem exists_last_open {k : Nat} (h : depthFrom d 0 t = some (k + 1)) :
    ∃ a x, t = a ++ d.opening :: x ∧ depthFrom d 0 a = some k ∧ Balanced d x := by
  induction hn : t.length using Nat.strongRecOn generalizing t k with
  | ind n ih =>
    subst hn
    rcases List.eq_nil_or_concat t with rfl | ⟨u, c, rfl⟩
    · cases h
    · rw [List.concat_eq_append] at *
      have hshort : u.length < (u ++ [c]).length := by simp
      rw [depthFrom_append, Option.bind_eq_some_iff] at h
      obtain ⟨j, hu, hc⟩ := h
      by_cases hopening : c = d.opening
      · subst hopening
        obtain rfl : j = k := by simpa using hc
        exact ⟨u, [], rfl, hu, .nil d⟩
      · by_cases hclosing : c = d.closing
        · subst hclosing
          -- the delimiter that closes here opened behind the one that is looked for
          obtain rfl : j = k + 2 := by
            cases j with
            | zero =>
              rw [depthFrom_zero_closing] at hc
              cases hc
            | succ j =>
              rw [depthFrom_closing] at hc
              simpa using hc
          obtain ⟨a, x, rfl, ha, hx⟩ := ih _ hshort hu rfl
          obtain ⟨a', x', rfl, ha', hx'⟩ := ih a.length (by simp) ha rfl
          exact ⟨a', x' ++ d.opening :: (x ++ [d.closing]), by simp, ha', hx'.append hx.wrap⟩
        · obtain rfl : j = k + 1 := by
            rw [depthFrom_char hopening hclosing] at hc
            simpa using hc
          obtain ⟨a, x, rfl, ha, hx⟩ := ih _ hshort hu rfl
          refine ⟨a, x ++ [c], by simp, ha, hx.append ?_⟩
          exact (Balanced.char_iff hopening hclosing).2 (.nil d)

/-- A balanced text is undivided if there is a pair around each operator. -/
theorem undivided_iff (h : Balanced d t) : Undivided d t ↔
    ∀ (l : Text) (o : Operator) (r : Text), o.isSynthetic = false → t = l ++ (o.token ++ r) →
      ∃ a u v b, l = a ++ d.opening :: u ∧ r = v ++ d.closing :: b ∧ Balanced d (u ++ (o.token ++ v)) := by
  constructor
  · intro hundivided l o r ho ht
    subst ht
    have hnot := hundivided.inside l o r ho rfl
    rw [balanced_iff, depthFrom_append, Option.bind_eq_some_iff] at h
    obtain ⟨k, hl, hr⟩ := h
    cases k with
    | zero => exact absurd (balanced_iff.2 hl) hnot
    | succ k =>
      obtain ⟨a, u, rfl, -, hu⟩ := exists_last_open hl
      rw [depthFrom_append, depthFrom_plain (token_plain d), Option.bind_some, depthFrom_eq_some_iff] at hr
      obtain ⟨v, b, rfl, hv⟩ := Balanced.exists_first_closing (d := d) (k := 0) (t := r) (by omega)
      exact ⟨a, u, v, b, rfl, rfl, hu.append (Balanced.token_iff.2 (balanced_iff.2 hv))⟩
  · intro hinside
    refine ⟨h, fun l o r ho ht hl => ?_⟩
    obtain ⟨a, u, v, b, rfl, -, huv⟩ := hinside l o r ho ht
    exact hl.not_open fun p hp => huv.ordered p (hp.trans (List.prefix_append u _))

end InstitutionalGrammar
