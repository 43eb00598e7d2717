/-
  InstitutionalGrammar.Proofs.Text.Trim — trimming and cutting texts put together from parts.

  - `trim_eq_self_iff`: a text is trimmed when no white space stands at either end.
  - `trim_pad`: white space around a text does not change what trimming leaves.
  - `slice_parts`: a cut at the joints of three parts is the middle one.
  - `append_inj_size_le`, `append_cons_split`: one text, taken apart at two places.
-/

import InstitutionalGrammar.Error
import InstitutionalGrammar.Text.Blank

namespace InstitutionalGrammar

namespace Text

/-- What holds of every character of a written-out text. -/
theorem forall_of_all {p : Char → Prop} [DecidablePred p] {t : Text} (h : t.all (fun c => decide (p c)) = true) :
    ∀ c ∈ t, p c :=
  fun c hc => of_decide_eq_true (List.all_eq_true.1 h c hc)

/-! ## Stripping -/

theorem stripEnd_append_of_all {p : Char → Bool} {a b : Text} (h : b.all p = true) :
    stripEnd p (a ++ b) = stripEnd p a := by
  induction a with
  | nil => simpa [stripEnd] using stripEnd_eq_nil_iff.2 h
  | cons c a ih => simp only [List.cons_append, stripEnd, ih]

theorem stripEnd_eq_self_iff {p : Char → Bool} {t : Text} :
    stripEnd p t = t ↔ ∀ c ∈ t.getLast?, p c = false := by
  induction t with
  | nil => simp [stripEnd]
  | cons c t ih =>
    cases t with
    | nil => by_cases hc : p c = true <;> simp [stripEnd, hc]
    | cons d t =>
      rw [List.getLast?_cons_cons, ← ih]
      constructor
      · intro h
        simp only [stripEnd] at h ⊢
        split at h
        · split at h <;> simp at h
        · rename_i e r heq
          rw [heq]
          simpa using h
      · intro h
        unfold stripEnd
        rw [h]

theorem stripStart_append_of_all {p : Char → Bool} {a b : Text} (h : a.all p = true) :
    stripStart p (a ++ b) = stripStart p b := by
  unfold stripStart
  rw [List.dropWhile_append_of_pos (by simpa using h)]

theorem stripStart_eq_self_iff {p : Char → Bool} {t : Text} :
    stripStart p t = t ↔ ∀ c ∈ t.head?, p c = false := by
  cases t with
  | nil => simp [stripStart]
  | cons c t =>
    by_cases hc : p c = true
    · have hne : t.dropWhile p ≠ c :: t := by
        intro h
        have hle := (t.dropWhile_suffix p).length_le
        rw [h] at hle
        simp only [List.length_cons] at hle
        omega
      simp [stripStart, hc, hne]
    · simp [stripStart, hc]

theorem stripStart_append {p : Char → Bool} {a : Text} (b : Text) (h : a.all p = false) :
    stripStart p (a ++ b) = stripStart p a ++ b := by
  induction a with
  | nil => simp at h
  | cons c a ih =>
    by_cases hc : p c = true
    · simp only [List.all_cons, hc, Bool.true_and] at h
      simpa [stripStart, hc] using ih h
    · simp [stripStart, hc]

theorem append_stripEnd {p : Char → Bool} (a : Text) {b : Text} (h : b.all p = false) :
    stripEnd p (a ++ b) = a ++ stripEnd p b := by
  induction a with
  | nil => rfl
  | cons c a ih =>
    have hne : a ++ stripEnd p b ≠ [] := by
      rw [Ne, List.append_eq_nil_iff, stripEnd_eq_nil_iff]
      simp [h]
    rw [List.cons_append, stripEnd, ih]
    cases hrest : a ++ stripEnd p b with
    | nil => exact absurd hrest hne
    | cons e u => rw [List.cons_append, hrest]

/-! ## Trimming -/

theorem allBlank_append (a b : Text) : allBlank (a ++ b) = (allBlank a && allBlank b) := by
  simp [allBlank]

theorem trim_of_allBlank {t : Text} (h : allBlank t = true) : trim t = [] := trim_eq_nil_iff.2 h

theorem trim_pad {before t after : Text} (hb : allBlank before = true) (ha : allBlank after = true) :
    trim (before ++ t ++ after) = trim t := by
  unfold trim trimEnd trimStart
  rw [List.append_assoc, stripStart_append_of_all hb]
  by_cases ht : t.all isBlank = true
  · have h1 : stripStart isBlank (t ++ after) = stripStart isBlank after := stripStart_append_of_all ht
    have h2 : trim after = [] := trim_of_allBlank ha
    have h3 : trim t = [] := trim_of_allBlank ht
    unfold trim trimEnd trimStart at h2 h3
    rw [h1, h2, h3]
  · rw [stripStart_append after (by simpa using ht), stripEnd_append_of_all ha]

theorem trim_eq_self_iff {t : Text} :
    trim t = t ↔ (∀ c ∈ t.head?, isBlank c = false) ∧ ∀ c ∈ t.getLast?, isBlank c = false := by
  rw [← stripStart_eq_self_iff, ← stripEnd_eq_self_iff]
  unfold trim trimEnd trimStart
  constructor
  · intro h
    have hs : stripStart isBlank t = t := by
      obtain ⟨r, hr, -⟩ := stripEnd_append isBlank (stripStart isBlank t)
      rw [h] at hr
      have hle := (t.dropWhile_suffix isBlank).length_le
      unfold stripStart at hr ⊢
      have hlen := congrArg List.length hr
      rw [List.length_append] at hlen
      have hr0 : r = [] := List.eq_nil_of_length_eq_zero (by omega)
      rw [hr, hr0, List.append_nil]
    exact ⟨hs, by rw [hs] at h; exact h⟩
  · intro h
    rw [h.1, h.2]

/-- A trimmed text stands unchanged between white space. -/
theorem trim_padded {before t after : Text} (hb : allBlank before = true) (ht : trim t = t)
    (ha : allBlank after = true) : trim (before ++ t ++ after) = t := by
  rw [trim_pad hb ha, ht]

theorem trim_ne_nil {t : Text} (ht : trim t = t) (h : t ≠ []) (before after : Text) :
    trim (before ++ t ++ after) ≠ [] := by
  intro hn
  have hall := trim_eq_nil_iff.1 hn
  rw [allBlank_append, allBlank_append, Bool.and_eq_true, Bool.and_eq_true] at hall
  exact h (ht ▸ trim_of_allBlank hall.1.2)

/-! ## Cuts -/

theorem slice_parts {t a b c : Text} {start stop : Nat} (ht : t = a ++ b ++ c) (hs : a.size = start)
    (he : a.size + b.size = stop) : t.slice start stop = .ok b := by
  unfold slice
  rw [ht, ← hs, ← he, slice?_append]

theorem dropBytes?_append (a b : Text) : dropBytes? a.size (a ++ b) = some b :=
  dropBytes?_eq_some_iff.2 ⟨a, rfl, rfl⟩

theorem append_inj_size {a b c d : Text} (h : a ++ b = c ++ d) (hs : a.size = c.size) : a = c ∧ b = d := by
  have h1 := dropBytes?_append a b
  rw [h, hs, dropBytes?_append] at h1
  cases h1
  exact ⟨List.append_cancel_right h, rfl⟩

/-- Of two leading parts of a text, the shorter starts the longer. -/
theorem append_inj_size_le {a b c d : Text} (h : a ++ b = c ++ d) (hs : a.size ≤ c.size) :
    ∃ m, c = a ++ m ∧ b = m ++ d := by
  rcases List.append_eq_append_iff.1 h with hm | ⟨m, rfl, rfl⟩
  · exact hm
  · rw [size_append] at hs
    obtain rfl : m = [] := size_eq_zero.1 (by omega)
    exact ⟨[], by simp, rfl⟩

/-- Of two different characters of a text, one stands behind the other. -/
theorem append_cons_split {a b v t : Text} {c e : Char} (hne : c ≠ e) (h : a ++ c :: b = v ++ e :: t) :
    (∃ u, a = v ++ e :: u ∧ t = u ++ c :: b) ∨ ∃ u, v = a ++ c :: u ∧ b = u ++ e :: t := by
  rcases List.append_eq_append_iff.1 h with ⟨u, rfl, hu⟩ | ⟨u, rfl, hu⟩
  · cases u with
    | nil => exact absurd (List.cons.inj hu).1 hne
    | cons f u =>
      obtain ⟨rfl, rfl⟩ := List.cons.inj hu
      exact .inr ⟨u, rfl, rfl⟩
  · cases u with
    | nil => exact absurd (List.cons.inj hu).1.symm hne
    | cons f u =>
      obtain ⟨rfl, rfl⟩ := List.cons.inj hu
      exact .inl ⟨u, rfl, rfl⟩

end Text

end InstitutionalGrammar
