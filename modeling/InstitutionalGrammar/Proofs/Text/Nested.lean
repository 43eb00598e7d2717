/-
  InstitutionalGrammar.Proofs.Text.Nested — texts in which every delimiter is matched.

  Delimiters of both kinds enclose nested texts; brackets may stand anywhere. A nested text passes the
  balance check, and a scan that counts open delimiters leaves it at the depth at which it entered.
  - `WellNested.scan_append`, `WellNested.requireBalanced`.
  - `WellNested.left`: what stands before characters that are no delimiters.
  - `WellNested.behind_opening`: what an opening delimiter encloses.
-/

import InstitutionalGrammar.Combination.Tree
import InstitutionalGrammar.Proofs.Text.Trim

namespace InstitutionalGrammar

def isDelimiter (c : Char) : Bool := isOpening c || isClosing c

/-- The delimiters of the text match one another. -/
inductive WellNested : Text → Prop
  | nil : WellNested []
  | char {c : Char} {t : Text} : isDelimiter c = false → WellNested t → WellNested (c :: t)
  | enclosed {d : Delimiters} {a t : Text} : WellNested a → WellNested t → WellNested (d.opening :: (a ++ d.closing :: t))

@[simp] theorem Delimiters.utf8Size_opening (d : Delimiters) : d.opening.utf8Size = 1 := by cases d <;> rfl

@[simp] theorem Delimiters.utf8Size_closing (d : Delimiters) : d.closing.utf8Size = 1 := by cases d <;> rfl

@[simp] theorem isDelimiter_opening (d : Delimiters) : isDelimiter d.opening = true := by cases d <;> rfl

@[simp] theorem isDelimiter_closing (d : Delimiters) : isDelimiter d.closing = true := by cases d <;> rfl

theorem ne_opening {c : Char} (h : isDelimiter c = false) (d : Delimiters) : c ≠ d.opening := by
  intro e; rw [e, isDelimiter_opening] at h; cases h

theorem ne_closing {c : Char} (h : isDelimiter c = false) (d : Delimiters) : c ≠ d.closing := by
  intro e; rw [e, isDelimiter_closing] at h; cases h

theorem exists_delimiter {c : Char} (h : isDelimiter c = true) : ∃ d : Delimiters, c = d.opening ∨ c = d.closing := by
  simp only [isDelimiter, isOpening, isClosing, Bool.or_eq_true, decide_eq_true_eq] at h
  rcases h with (h | h) | (h | h)
  · exact ⟨.parentheses, Or.inl h⟩
  · exact ⟨.braces, Or.inl h⟩
  · exact ⟨.parentheses, Or.inr h⟩
  · exact ⟨.braces, Or.inr h⟩

/-- A delimiter of another kind neither opens nor closes. -/
theorem opening_inj {d e : Delimiters} (h : d.opening = e.opening) : d = e := by
  cases d <;> cases e <;> first | rfl | exact absurd h (by decide)

theorem closing_inj {d e : Delimiters} (h : d.closing = e.closing) : d = e := by
  cases d <;> cases e <;> first | rfl | exact absurd h (by decide)

namespace WellNested

variable {a b t : Text}

/-! ## Building nested texts -/

theorem append (ha : WellNested a) (hb : WellNested b) : WellNested (a ++ b) := by
  induction ha with
  | nil => exact hb
  | char hc _ ih => exact .char hc ih
  | @enclosed d a t ha _ _ ih => simpa using WellNested.enclosed ha ih

theorem of_all (h : ∀ c ∈ t, isDelimiter c = false) : WellNested t := by
  induction t with
  | nil => exact .nil
  | cons c t ih => exact .char (h c (by simp)) (ih fun d hd => h d (by simp [hd]))

/-- Characters at the end that are no delimiters match nothing. -/
theorem left (h : WellNested (a ++ b)) (hb : ∀ c ∈ b, isDelimiter c = false) : WellNested a := by
  generalize ht : a ++ b = t at h
  induction h generalizing a with
  | nil =>
    obtain ⟨rfl, -⟩ := List.append_eq_nil_iff.1 ht
    exact .nil
  | @char c t hc _ ih =>
    cases a with
    | nil => exact .nil
    | cons x a =>
      obtain ⟨rfl, hrest⟩ := List.cons.inj ht
      exact .char hc (ih hrest)
  | @enclosed d x t hx _ _ ih =>
    cases a with
    | nil => exact .nil
    | cons y a =>
      obtain ⟨rfl, htail⟩ := List.cons.inj ht
      rcases List.append_eq_append_iff.1 htail with ⟨v, rfl, hv⟩ | ⟨v, hv, hrest⟩
      · -- the closing delimiter would be one of the characters at the end
        have hmem : d.closing ∈ b := by rw [hv]; simp
        have hno := hb d.closing hmem
        rw [isDelimiter_closing] at hno
        cases hno
      · cases v with
        | nil =>
          have hmem : d.closing ∈ b := by
            rw [List.nil_append] at hrest
            rw [← hrest]
            exact List.mem_cons_self
          have hno := hb d.closing hmem
          rw [isDelimiter_closing] at hno
          cases hno
        | cons z v =>
          obtain ⟨rfl, htail⟩ := List.cons.inj hrest
          rw [hv]
          exact .enclosed hx (ih htail.symm)

/-- What follows an opening delimiter of a nested text closes it. -/
theorem behind_opening {d : Delimiters} (h : WellNested (a ++ d.opening :: b)) :
    ∃ inner rest, b = inner ++ d.closing :: rest ∧ WellNested inner := by
  generalize ht : a ++ d.opening :: b = t at h
  induction h generalizing a b with
  | nil => simp at ht
  | @char c t hc _ ih =>
    cases a with
    | nil => exact absurd (List.cons.inj ht).1.symm (ne_opening hc d)
    | cons x a => exact ih (List.cons.inj ht).2
  | @enclosed e x t hx _ ihx iht =>
    cases a with
    | nil =>
      obtain ⟨hd, hb⟩ := List.cons.inj ht
      obtain rfl := opening_inj hd
      exact ⟨x, t, hb, hx⟩
    | cons y a =>
      obtain ⟨-, hrest⟩ := List.cons.inj ht
      rcases Text.append_cons_split (d.opening_ne_closing e) hrest with ⟨u, -, hu⟩ | ⟨v, rfl, rfl⟩
      · exact iht hu.symm
      · -- the delimiter stands in the enclosed text
        obtain ⟨inner, rest, rfl, hinner⟩ := ihx rfl
        exact ⟨inner, rest ++ e.closing :: t, by simp, hinner⟩

/-! ## Counting scans -/

/-- A scan that counts the open delimiters of kind `d` leaves a nested text at the depth at which it
    entered. -/
theorem scan_append {α : Type} {d : Delimiters} {f : Nat → Nat → Text → α}
    (opens : ∀ k off t, f k off (d.opening :: t) = f (k + 1) (off + 1) t)
    (closes : ∀ k off t, f (k + 1) off (d.closing :: t) = f k (off + 1) t)
    (others : ∀ k off c t, c ≠ d.opening → c ≠ d.closing → f k off (c :: t) = f k (off + c.utf8Size) t)
    {x : Text} (h : WellNested x) (k off : Nat) (rest : Text) : f k off (x ++ rest) = f k (off + x.size) rest := by
  induction h generalizing k off rest with
  | nil => rfl
  | char hc _ ih =>
    rw [List.cons_append, others _ _ _ _ (ne_opening hc d) (ne_closing hc d), ih, Text.size_cons, Nat.add_assoc]
  | @enclosed e a t _ _ iha iht =>
    have hoff : off + Text.size (e.opening :: (a ++ e.closing :: t)) = off + 1 + a.size + 1 + t.size := by
      simp only [Text.size_cons, Text.size_append, Delimiters.utf8Size_opening, Delimiters.utf8Size_closing]; omega
    by_cases he : e = d
    · subst he
      rw [List.cons_append, opens, List.append_assoc, iha, List.cons_append, closes, iht, hoff]
    · have ho : e.opening ≠ d.opening := fun h => he (opening_inj h)
      have hc : e.closing ≠ d.closing := fun h => he (closing_inj h)
      rw [List.cons_append, others _ _ _ _ ho (e.opening_ne_closing d), List.append_assoc, iha, List.cons_append,
        others _ _ _ _ (d.opening_ne_closing e).symm hc, iht, hoff, Delimiters.utf8Size_opening,
        Delimiters.utf8Size_closing]

/-! ## Balance -/

theorem count_opening (h : WellNested t) (d : Delimiters) : t.count d.opening = t.count d.closing := by
  induction h with
  | nil => rfl
  | char hc _ ih =>
    rw [List.count_cons_of_ne (ne_opening hc d), List.count_cons_of_ne (ne_closing hc d), ih]
  | @enclosed e a t _ _ iha iht =>
    have hd : d.opening ≠ e.closing := d.opening_ne_closing e
    have he : e.opening ≠ d.closing := e.opening_ne_closing d
    by_cases hed : e = d
    · subst hed
      simp only [List.count_cons, List.count_append, beq_self_eq_true, if_true, iha, iht, beq_iff_eq, hd, hd.symm,
        if_false]
      omega
    · have ho : e.opening ≠ d.opening := fun h => hed (opening_inj h)
      have hc : e.closing ≠ d.closing := fun h => hed (closing_inj h)
      simp only [List.count_cons, List.count_append, iha, iht, beq_iff_eq, ho, hc, hd.symm, he, if_false]

theorem requireBalanced (h : WellNested t) : requireBalanced t = .ok () := by
  have hin : ∀ d, requireBalancedIn d t = .ok () := by
    intro d
    have hx : firstExcess? d 0 0 (t ++ []) = firstExcess? d 0 (0 + t.size) [] := by
      apply h.scan_append (d := d)
      · intro k off t; cases d <;> simp [firstExcess?, Delimiters.opening, Char.utf8Size]
      · intro k off t; cases d <;> rfl
      · intro k off c t h1 h2; rw [firstExcess?.eq_def]; simp [h1, h2]
    rw [List.append_nil] at hx
    unfold requireBalancedIn
    rw [if_neg (fun hne => hne (h.count_opening d)), hx]
    rfl
  unfold InstitutionalGrammar.requireBalanced
  rw [hin, hin]
  rfl

end WellNested

end InstitutionalGrammar
