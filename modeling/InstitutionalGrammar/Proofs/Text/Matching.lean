/-
  InstitutionalGrammar.Proofs.Text.Matching — which delimiters belong together.

  A search for the closing delimiter sees what stands behind the opening one, balance is about the leading parts of the
  whole text. What stands between the two delimiters settles both: it is balanced.
  - `closeFrom?_eq_some_iff`, `closeOf_eq_some_iff`: what a search finds.
  - `matched_iff`: two delimiters belong together if what is between them is balanced.
  - `Balanced.exists_closing`, `Balanced.exists_opening`: in a balanced text each delimiter belongs to another one.
  - `Matched.isLeast`, `Matched.apart`: where the closing delimiter stands, and how two pairs stand to each other.
  - `matched_nested`: all of it, for the texts that the balance check accepts.
-/

import Mathlib.Order.Bounds.Defs
import Mathlib.Order.Interval.Set.Basic
import InstitutionalGrammar.Proofs.Text.Cuts
import InstitutionalGrammar.Proofs.Text.Pairs

namespace InstitutionalGrammar

open Set (Icc)

variable {d : Delimiters} {text t a b x y : Text} {k off i o c o' c' : Nat}

/-! ## Delimiters -/

@[simp] theorem size_opening (d : Delimiters) : Text.size [d.opening] = 1 := by cases d <;> rfl

@[simp] theorem size_closing (d : Delimiters) : Text.size [d.closing] = 1 := by cases d <;> rfl

/-- Behind an opening delimiter. -/
theorem cut_opening (h : text.At i [d.opening]) : text.Cut (i + 1) := by
  have hend := h.cut_end
  rwa [size_opening] at hend

theorem cut_closing (h : text.At i [d.closing]) : text.Cut (i + 1) := by
  have hend := h.cut_end
  rwa [size_closing] at hend

/-! ## The search -/

/-- A first closing delimiter of which something is known stands behind any other character. -/
theorem exists_closing_cons {P : Text → Text → Prop} {e : Char} (he : e ≠ d.closing) :
    (∃ x b, e :: t = x ++ d.closing :: b ∧ P x b) ↔ ∃ x b, t = x ++ d.closing :: b ∧ P (e :: x) b := by
  constructor
  · rintro ⟨x, b, ht, hP⟩
    cases x with
    | nil => exact absurd (List.cons.inj ht).1 he
    | cons f x =>
      obtain ⟨rfl, rfl⟩ := List.cons.inj ht
      exact ⟨x, b, rfl, hP⟩
  · rintro ⟨x, b, rfl, hP⟩
    exact ⟨e :: x, b, rfl, hP⟩

/-- With a delimiter open, the search finds where that one closes. -/
theorem closeFrom?_eq_some_iff : closeFrom? d (k + 1) off t = some c ↔
    ∃ x b : Text, t = x ++ d.closing :: b ∧ depthFrom d k x = some 0 ∧ off + x.size = c := by
  induction t generalizing k off with
  | nil => simp [closeFrom?]
  | cons e t ih =>
    rw [closeFrom?.eq_def]
    simp only
    by_cases hopening : e = d.opening
    · subst hopening
      rw [if_pos rfl, ih, exists_closing_cons (d.opening_ne_closing d)]
      simp only [depthFrom_opening, Text.size_cons, Nat.add_assoc]
    · rw [if_neg hopening]
      by_cases hclosing : e = d.closing
      · subst hclosing
        rw [if_pos rfl]
        cases k with
        | zero =>
          constructor
          · intro h
            exact ⟨[], t, rfl, rfl, Option.some.inj h⟩
          · rintro ⟨x, b, ht, hx, rfl⟩
            cases x with
            | nil => rfl
            | cons f x =>
              obtain ⟨rfl, -⟩ := List.cons.inj ht
              rw [depthFrom_zero_closing] at hx
              cases hx
        | succ k =>
          rw [ih]
          constructor
          · rintro ⟨x, b, rfl, hx, hc⟩
            exact ⟨d.closing :: x, b, rfl, by rw [depthFrom_closing, hx], by rw [Text.size_cons, ← hc, Nat.add_assoc]⟩
          · rintro ⟨x, b, ht, hx, hc⟩
            cases x with
            | nil => cases hx
            | cons f x =>
              obtain ⟨rfl, rfl⟩ := List.cons.inj ht
              rw [depthFrom_closing] at hx
              exact ⟨x, b, rfl, hx, by rw [← hc, Text.size_cons, Nat.add_assoc]⟩
      · rw [if_neg hclosing, ih, exists_closing_cons hclosing]
        simp only [depthFrom_char hopening hclosing, Text.size_cons, Nat.add_assoc]

theorem closeFrom?_zero_eq_some_iff : closeFrom? d 0 off t = some c ↔
    ∃ p x b : Text, t = p ++ d.opening :: (x ++ d.closing :: b) ∧ (∀ e ∈ p, e ≠ d.opening ∧ e ≠ d.closing) ∧
      Balanced d x ∧ off + p.size + 1 + x.size = c := by
  induction t generalizing off with
  | nil => simp [closeFrom?]
  | cons e t ih =>
    rw [closeFrom?.eq_def]
    simp only
    by_cases hopening : e = d.opening
    · subst hopening
      rw [if_pos rfl, closeFrom?_eq_some_iff, Delimiters.utf8Size_opening]
      constructor
      · rintro ⟨x, b, rfl, hx, hc⟩
        exact ⟨[], x, b, rfl, nofun, balanced_iff.2 hx, hc⟩
      · rintro ⟨p, x, b, ht, hp, hx, hc⟩
        cases p with
        | nil => exact ⟨x, b, (List.cons.inj ht).2, balanced_iff.1 hx, hc⟩
        | cons f p =>
          obtain ⟨rfl, -⟩ := List.cons.inj ht
          exact absurd rfl (hp _ List.mem_cons_self).1
    · rw [if_neg hopening]
      by_cases hclosing : e = d.closing
      · subst hclosing
        rw [if_pos rfl]
        refine ⟨nofun, ?_⟩
        rintro ⟨p, x, b, ht, hp, -, -⟩
        cases p with
        | nil => exact absurd (List.cons.inj ht).1 hopening
        | cons f p =>
          obtain ⟨rfl, -⟩ := List.cons.inj ht
          exact absurd rfl (hp _ List.mem_cons_self).2
      · rw [if_neg hclosing, ih]
        constructor
        · rintro ⟨p, x, b, rfl, hp, hx, hc⟩
          refine ⟨e :: p, x, b, rfl, List.forall_mem_cons.2 ⟨⟨hopening, hclosing⟩, hp⟩, hx, ?_⟩
          rw [Text.size_cons]
          omega
        · rintro ⟨p, x, b, ht, hp, hx, hc⟩
          cases p with
          | nil => exact absurd (List.cons.inj ht).1 hopening
          | cons f p =>
            obtain ⟨rfl, rfl⟩ := List.cons.inj ht
            refine ⟨p, x, b, rfl, (List.forall_mem_cons.1 hp).2, hx, ?_⟩
            rw [Text.size_cons] at hc
            omega

/-- The search finds where the first delimiter behind its start closes, if that one opens. -/
theorem closeOf_eq_some_iff : closeOf text i d = .ok (some c) ↔
    ∃ a p x b : Text, text = a ++ (p ++ d.opening :: (x ++ d.closing :: b)) ∧ a.size = i ∧
      (∀ e ∈ p, e ≠ d.opening ∧ e ≠ d.closing) ∧ Balanced d x ∧ i + p.size + 1 + x.size = c := by
  unfold closeOf
  constructor
  · intro h
    split at h
    · rename_i rest hrest
      obtain ⟨a, rfl, ha⟩ := Text.dropBytes?_eq_some_iff.1 hrest
      obtain ⟨p, x, b, rfl, hp, hx, hc⟩ := closeFrom?_zero_eq_some_iff.1 (Except.ok.inj h)
      exact ⟨a, p, x, b, rfl, ha, hp, hx, hc⟩
    · cases h
  · rintro ⟨a, p, x, b, rfl, rfl, hp, hx, hc⟩
    rw [Text.dropBytes?_append]
    exact congrArg _ (closeFrom?_zero_eq_some_iff.2 ⟨p, x, b, rfl, hp, hx, hc⟩)

/-- The delimiter in front of a nested text closes right behind it. -/
theorem WellNested.closeOf (h : WellNested x) (d : Delimiters) (pre rest : Text) :
    closeOf (pre ++ d.opening :: (x ++ d.closing :: rest)) pre.size d = .ok (some (pre.size + 1 + x.size)) :=
  closeOf_eq_some_iff.2 ⟨pre, [], x, rest, rfl, rfl, nofun, h.balanced d, rfl⟩

/-! ## Pairs -/

/-- From the opening delimiter at byte `o`, the search finds the closing one at byte `c`. -/
structure Matched (d : Delimiters) (text : Text) (o c : Nat) : Prop where
  opens : text.At o [d.opening]
  found : closeOf text o d = .ok (some c)

/-- Two delimiters belong together if what is between them is balanced. -/
theorem matched_iff : Matched d text o c ↔
    ∃ a x b : Text, text = a ++ d.opening :: (x ++ d.closing :: b) ∧ Balanced d x ∧ a.size = o ∧ o + 1 + x.size = c := by
  constructor
  · rintro ⟨⟨u, v, hu, ho⟩, hfound⟩
    obtain ⟨a, p, x, b, rfl, rfl, hp, hx, hc⟩ := closeOf_eq_some_iff.1 hfound
    obtain ⟨-, hopens⟩ := Text.append_inj_size hu ho.symm
    cases p with
    | nil => exact ⟨a, x, b, rfl, hx, rfl, hc⟩
    | cons e p =>
      obtain ⟨rfl, -⟩ := List.cons.inj hopens
      exact absurd rfl (hp _ List.mem_cons_self).1
  · rintro ⟨a, x, b, rfl, hx, ho, hc⟩
    exact ⟨⟨a, _, rfl, ho⟩, closeOf_eq_some_iff.2 ⟨a, [], x, b, rfl, ho, nofun, hx, hc⟩⟩

namespace Balanced

/-- A delimiter that closes in a balanced text has opened in it. -/
theorem opens (h : Balanced d (a ++ d.closing :: b)) : ∃ u x, a = u ++ d.opening :: x ∧ Balanced d x := by
  rw [balanced_iff, depthFrom_append, Option.bind_eq_some_iff] at h
  obtain ⟨k, ha, hb⟩ := h
  cases k with
  | zero =>
    rw [depthFrom_zero_closing] at hb
    cases hb
  | succ k =>
    obtain ⟨u, x, rfl, -, hx⟩ := exists_last_open ha
    exact ⟨u, x, rfl, hx⟩

theorem exists_closing (h : Balanced d text) (ho : text.At o [d.opening]) : ∃ c, Matched d text o c := by
  obtain ⟨a, b, rfl, ho⟩ := ho
  obtain ⟨x, s, rfl, hx⟩ := h.closes
  exact ⟨_, matched_iff.2 ⟨a, x, s, rfl, hx, ho, rfl⟩⟩

theorem exists_opening (h : Balanced d text) (hc : text.At c [d.closing]) : ∃ o, Matched d text o c := by
  obtain ⟨a, b, rfl, rfl⟩ := hc
  obtain ⟨u, x, rfl, hx⟩ := h.opens
  refine ⟨u.size, matched_iff.2 ⟨u, x, b, by simp, hx, rfl, ?_⟩⟩
  rw [Text.size_append, Text.size_cons, Delimiters.utf8Size_opening, Nat.add_assoc]

end Balanced

namespace Matched

theorem closes (h : Matched d text o c) : text.At c [d.closing] := by
  obtain ⟨a, x, b, rfl, -, rfl, rfl⟩ := matched_iff.1 h
  refine ⟨a ++ d.opening :: x, b, by simp, ?_⟩
  rw [Text.size_append, Text.size_cons, Delimiters.utf8Size_opening, Nat.add_assoc]

theorem lt (h : Matched d text o c) : o < c := by
  obtain ⟨a, x, b, -, -, -, rfl⟩ := matched_iff.1 h
  omega

/-- The closing delimiter is the first place up to which as many delimiters have closed as have opened. -/
theorem isLeast (h : Matched d text o c) :
    IsLeast {i | o < i ∧ ∃ part, text.slice? o (i + 1) = some part ∧ part.count d.opening = part.count d.closing} c := by
  have hlt := h.lt
  obtain ⟨a, x, b, rfl, hx, rfl, hc⟩ := matched_iff.1 h
  constructor
  · refine ⟨hlt, d.opening :: (x ++ [d.closing]), Text.slice?_eq_some_iff.2 ⟨a, b, by simp, rfl, ?_⟩, hx.wrap.total⟩
    rw [Text.size_cons, Text.size_append, Delimiters.utf8Size_opening, size_closing]
    omega
  · rintro i ⟨hi, part, hslice, htotal⟩
    by_contra hbefore
    obtain ⟨a', s, ht, ha, hsize⟩ := Text.slice?_eq_some_iff.1 hslice
    rw [List.append_assoc] at ht
    obtain ⟨rfl, hpart⟩ := Text.append_inj_size ht ha.symm
    cases part with
    | nil =>
      rw [Text.size_nil] at hsize
      omega
    | cons e p =>
      -- up to there, what stands behind the opening delimiter is a leading part of a balanced text
      obtain ⟨rfl, hbehind⟩ := List.cons.inj hpart
      rw [Text.size_cons, Delimiters.utf8Size_opening] at hsize
      have hle : Text.size p ≤ x.size := by omega
      obtain ⟨m, rfl, -⟩ := Text.append_inj_size_le hbehind.symm hle
      have hordered := hx.ordered p (List.prefix_append p m)
      rw [List.count_cons_self, List.count_cons_of_ne (d.opening_ne_closing d)] at htotal
      omega

/-- Of two delimiters, the second opens behind the place where the first closes, or closes in front of it. -/
theorem apart (h : Matched d text o c) (h' : Matched d text o' c') (hlt : o < o') : c < o' ∨ c' < c := by
  obtain ⟨a, x, b, rfl, hx, rfl, rfl⟩ := matched_iff.1 h
  obtain ⟨a', y, b', ht, hy, rfl, rfl⟩ := matched_iff.1 h'
  obtain ⟨m, rfl, hm⟩ := Text.append_inj_size_le ht hlt.le
  rw [Text.size_append] at hlt ⊢
  cases m with
  | nil =>
    rw [Text.size_nil] at hlt
    omega
  | cons e v =>
    obtain ⟨rfl, hrest⟩ := List.cons.inj hm
    rw [Text.size_cons, Delimiters.utf8Size_opening]
    rcases hx.apart hy hrest with ⟨u, rfl, -⟩ | ⟨u, rfl, -⟩
    · right
      simp only [Text.size_append, Text.size_cons, Delimiters.utf8Size_opening, Delimiters.utf8Size_closing]
      omega
    · left
      simp only [Text.size_append, Text.size_cons, Delimiters.utf8Size_closing]
      omega

/-- A closing delimiter closes one delimiter only. -/
theorem opening_unique (h : Matched d text o c) (h' : Matched d text o' c) : o = o' := by
  have hlt := h.lt
  have hlt' := h'.lt
  rcases Nat.lt_trichotomy o o' with hoo | hoo | hoo
  · have := h.apart h' hoo
    omega
  · exact hoo
  · have := h'.apart h hoo
    omega

theorem closing_unique (h : Matched d text o c) (h' : Matched d text o c') : c = c' :=
  Option.some.inj (Except.ok.inj (h.found.symm.trans h'.found))

/-- Two pairs stand one behind the other or one in the other. -/
theorem nested (h : Matched d text o c) (h' : Matched d text o' c') :
    Icc o c ∩ Icc o' c' = ∅ ∨ Icc o c ⊆ Icc o' c' ∨ Icc o' c' ⊆ Icc o c := by
  have hordered : ∀ {o c o' c'}, Matched d text o c → Matched d text o' c' → o < o' →
      Icc o c ∩ Icc o' c' = ∅ ∨ Icc o' c' ⊆ Icc o c := by
    intro o c o' c' h h' hlt
    rcases h.apart h' hlt with hbehind | hinside
    · left
      rw [Set.eq_empty_iff_forall_notMem]
      rintro i ⟨⟨-, hi⟩, ⟨hi', -⟩⟩
      omega
    · exact .inr (Set.Icc_subset_Icc hlt.le hinside.le)
  rcases Nat.lt_trichotomy o o' with hlt | rfl | hlt
  · exact (hordered h h' hlt).imp_right .inr
  · rw [h.closing_unique h']
    exact .inr (.inl subset_rfl)
  · exact (hordered h' h hlt).imp (fun hapart => (Set.inter_comm _ _).trans hapart) .inl

end Matched

/-- In a text that the balance check accepts, every opening delimiter is matched, with the first place behind it up to
    which as many delimiters of its kind have closed as have opened. Each closing delimiter is matched with exactly one
    opening delimiter, nothing else is, and the pairs stand beside or in each other. -/
theorem matched_nested (h : requireBalanced text = .ok ()) (d : Delimiters) :
    (∀ o, text.At o [d.opening] → ∃ c, closeOf text o d = .ok (some c) ∧
      IsLeast {i | o < i ∧ ∃ part, text.slice? o (i + 1) = some part ∧ part.count d.opening = part.count d.closing} c) ∧
    (∀ o c o' c', Matched d text o c → Matched d text o' c' → o ≠ o' → c ≠ c') ∧
    (∀ c, text.At c [d.closing] ↔ ∃ o, Matched d text o c) ∧
    ∀ o c o' c', Matched d text o c → Matched d text o' c' →
      Icc o c ∩ Icc o' c' = ∅ ∨ Icc o c ⊆ Icc o' c' ∨ Icc o' c' ⊆ Icc o c := by
  have hbalanced := requireBalanced_iff.1 h d
  refine ⟨fun o ho => ?_, fun o c o' c' hm hm' hne hc => ?_, fun c => ⟨hbalanced.exists_opening, ?_⟩, ?_⟩
  · obtain ⟨c, hc⟩ := hbalanced.exists_closing ho
    exact ⟨c, hc.found, hc.isLeast⟩
  · subst hc
    exact hne (hm.opening_unique hm')
  · rintro ⟨o, hm⟩
    exact hm.closes
  · intro o c o' c' hm hm'
    exact hm.nested hm'

/-- Two pairs of parentheses in a third one, and a pair of braces across them. -/
def pairsAcross : Text := "((é\x7b)()\x7d )".toList

/-- The first parenthesis is matched with the last one, the closing brace with the brace in another pair. -/
theorem matched_nested_across :
    requireBalanced pairsAcross = .ok () ∧
      IsLeast {i | 0 < i ∧ ∃ part, pairsAcross.slice? 0 (i + 1) = some part ∧ part.count '(' = part.count ')'} 10 ∧
      ∃ o, Matched .braces pairsAcross o 8 := by
  have hok : requireBalanced pairsAcross = .ok () := by decide
  obtain ⟨hclose, -⟩ := matched_nested hok .parentheses
  obtain ⟨-, -, hopen, -⟩ := matched_nested hok .braces
  obtain ⟨c, hc, hleast⟩ := hclose 0 ⟨[], pairsAcross.tail, by decide, rfl⟩
  have hfound : closeOf pairsAcross 0 .parentheses = .ok (some 10) := by decide
  obtain rfl : c = 10 := Option.some.inj (Except.ok.inj (hc.symm.trans hfound))
  exact ⟨hok, hleast, (hopen 8).1 ⟨"((é\x7b)()".toList, " )".toList, by decide, by decide⟩⟩

end InstitutionalGrammar
