/-
  InstitutionalGrammar.Proofs.Text.Balance — delimiters of one kind that pair up, whatever the other kind does.

  A text is balanced for a kind if nothing of that kind closes before it opens and all that opens closes.
  The two kinds may cross. Reading from left to right, the number of open delimiters tells all of it.
  - `requireBalanced_iff`: the check accepts exactly the texts that are balanced for both kinds.
  - `balanced_iff`: balance, by the number of open delimiters.
  - `Balanced.closes`, `Balanced.closes_once`: a delimiter closes, and at one place only.
  - `Balanced.apart`: of two pairs, the second is inside the first or behind it.
  - `Balanced.wrap_part`: a part of a balanced text can be put into delimiters.
-/

import InstitutionalGrammar.Proofs.Text.Nested

namespace InstitutionalGrammar

variable {d e : Delimiters} {a b s t x y : Text} {c : Char} {k m : Nat}

/-- No delimiter of the kind closes before it opens, and as many close as open. -/
structure Balanced (d : Delimiters) (t : Text) : Prop where
  ordered : ∀ p, p <+: t → p.count d.closing ≤ p.count d.opening
  total : t.count d.opening = t.count d.closing

/-! ## Open delimiters -/

/-- How many delimiters are open behind a character, if `k` are open in front of it. -/
def turnDepth (d : Delimiters) (k : Nat) (c : Char) : Option Nat :=
  if c = d.opening then some (k + 1)
  else if c = d.closing then (if k = 0 then none else some (k - 1))
  else some k

/-- How many delimiters are open behind a text; none if one closes that has not opened. -/
def depthFrom (d : Delimiters) (k : Nat) (t : Text) : Option Nat := t.foldlM (turnDepth d) k

@[simp] theorem depthFrom_nil (d : Delimiters) (k : Nat) : depthFrom d k [] = some k := rfl

theorem depthFrom_cons (d : Delimiters) (k : Nat) (c : Char) (t : Text) :
    depthFrom d k (c :: t) = (turnDepth d k c).bind fun m => depthFrom d m t := rfl

theorem depthFrom_append (d : Delimiters) (k : Nat) (a b : Text) :
    depthFrom d k (a ++ b) = (depthFrom d k a).bind fun m => depthFrom d m b := List.foldlM_append

@[simp] theorem depthFrom_opening (d : Delimiters) (k : Nat) (t : Text) :
    depthFrom d k (d.opening :: t) = depthFrom d (k + 1) t := by
  rw [depthFrom_cons, turnDepth, if_pos rfl, Option.bind_some]

theorem turnDepth_closing (d : Delimiters) (k : Nat) :
    turnDepth d k d.closing = if k = 0 then none else some (k - 1) := by
  rw [turnDepth, if_neg (d.opening_ne_closing d).symm, if_pos rfl]

@[simp] theorem depthFrom_closing (d : Delimiters) (k : Nat) (t : Text) :
    depthFrom d (k + 1) (d.closing :: t) = depthFrom d k t := by
  rw [depthFrom_cons, turnDepth_closing, if_neg k.succ_ne_zero, Option.bind_some, Nat.add_sub_cancel]

theorem depthFrom_zero_closing (d : Delimiters) (t : Text) : depthFrom d 0 (d.closing :: t) = none := by
  rw [depthFrom_cons, turnDepth_closing, if_pos rfl, Option.bind_none]

theorem depthFrom_char (ho : c ≠ d.opening) (hc : c ≠ d.closing) (k : Nat) (t : Text) :
    depthFrom d k (c :: t) = depthFrom d k t := by
  rw [depthFrom_cons, turnDepth, if_neg ho, if_neg hc, Option.bind_some]

/-- Text without delimiters of the kind opens and closes nothing. -/
theorem depthFrom_plain (ht : ∀ c ∈ t, c ≠ d.opening ∧ c ≠ d.closing) (k : Nat) : depthFrom d k t = some k := by
  induction t with
  | nil => rfl
  | cons c t ih =>
    obtain ⟨ho, hc⟩ := ht c List.mem_cons_self
    rw [depthFrom_char ho hc, ih fun x hx => ht x (List.mem_cons_of_mem _ hx)]

/-- What is open further out stays open. -/
theorem depthFrom_deeper (h : depthFrom d k t = some m) (j : Nat) : depthFrom d (k + j) t = some (m + j) := by
  induction t generalizing k with
  | nil =>
    cases h
    rfl
  | cons c t ih =>
    by_cases ho : c = d.opening
    · subst ho
      rw [depthFrom_opening] at h ⊢
      rw [Nat.add_right_comm]
      exact ih h
    · by_cases hc : c = d.closing
      · subst hc
        cases k with
        | zero =>
          rw [depthFrom_zero_closing] at h
          cases h
        | succ k =>
          rw [depthFrom_closing] at h
          rw [Nat.add_right_comm, depthFrom_closing]
          exact ih h
      · rw [depthFrom_char ho hc] at h ⊢
        exact ih h

theorem forall_prefix_cons {P : Text → Prop} : (∀ p, p <+: c :: t → P p) ↔ P [] ∧ ∀ p, p <+: t → P (c :: p) := by
  constructor
  · exact fun h => ⟨h [] List.nil_prefix, fun p hp => h _ (List.cons_prefix_cons.2 ⟨rfl, hp⟩)⟩
  · rintro ⟨hnil, hcons⟩ p hp
    rcases List.prefix_cons_iff.1 hp with rfl | ⟨q, rfl, hq⟩
    · exact hnil
    · exact hcons q hq

/-- The open delimiters, counted on all leading parts. -/
theorem depthFrom_eq_some_iff : depthFrom d k t = some m ↔
    (∀ p, p <+: t → p.count d.closing ≤ k + p.count d.opening) ∧ m + t.count d.closing = k + t.count d.opening := by
  have hne := d.opening_ne_closing d
  induction t generalizing k with
  | nil =>
    simp only [depthFrom_nil, Option.some.injEq, List.count_nil]
    constructor
    · rintro rfl
      exact ⟨fun p hp => by rw [List.prefix_nil.1 hp]; simp, rfl⟩
    · rintro ⟨-, h⟩
      omega
  | cons c t ih =>
    rw [forall_prefix_cons]
    by_cases ho : c = d.opening
    · subst ho
      rw [depthFrom_opening]
      refine ih.trans ?_
      simp only [List.count_cons_self, List.count_cons_of_ne hne, List.count_nil]
      refine ⟨fun h => ⟨⟨by omega, fun p hp => ?_⟩, by omega⟩, fun h => ⟨fun p hp => ?_, by omega⟩⟩
      · have := h.1 p hp
        omega
      · have := h.1.2 p hp
        omega
    · by_cases hc : c = d.closing
      · subst hc
        simp only [List.count_cons_self, List.count_cons_of_ne hne.symm, List.count_nil]
        cases k with
        | zero =>
          rw [depthFrom_zero_closing]
          constructor
          · intro h
            cases h
          · rintro ⟨⟨-, h⟩, -⟩
            have := h [] List.nil_prefix
            simp at this
        | succ k =>
          rw [depthFrom_closing]
          refine ih.trans ?_
          refine ⟨fun h => ⟨⟨by omega, fun p hp => ?_⟩, by omega⟩, fun h => ⟨fun p hp => ?_, by omega⟩⟩
          · have := h.1 p hp
            omega
          · have := h.1.2 p hp
            omega
      · rw [depthFrom_char ho hc]
        refine ih.trans ?_
        simp only [List.count_cons_of_ne ho, List.count_cons_of_ne hc, List.count_nil]
        exact ⟨fun h => ⟨⟨by omega, h.1⟩, h.2⟩, fun h => ⟨h.1.2, h.2⟩⟩

theorem balanced_iff : Balanced d t ↔ depthFrom d 0 t = some 0 := by
  rw [depthFrom_eq_some_iff]
  simp only [Nat.zero_add]
  exact ⟨fun h => ⟨h.ordered, h.total.symm⟩, fun h => ⟨h.1, h.2.symm⟩⟩

theorem Balanced.depth_eq (h : Balanced d t) (k : Nat) : depthFrom d k t = some k := by
  have hdeeper := depthFrom_deeper (balanced_iff.1 h) k
  rwa [Nat.zero_add] at hdeeper

/-! ## The balance check -/

theorem firstExcess?_eq_none_iff {offset : Nat} :
    firstExcess? d k offset t = none ↔ ∃ m, depthFrom d k t = some m := by
  induction t generalizing k offset with
  | nil => simp [firstExcess?]
  | cons c t ih =>
    rw [firstExcess?.eq_def, depthFrom_cons, turnDepth]
    by_cases ho : c = d.opening
    · simp [ho, ih]
    · by_cases hc : c = d.closing
      · cases k with
        | zero => simp [hc, (d.opening_ne_closing d).symm]
        | succ k => simp [hc, (d.opening_ne_closing d).symm, ih]
      · simp [ho, hc, ih]

theorem requireBalancedIn_iff : requireBalancedIn d t = .ok () ↔ Balanced d t := by
  unfold requireBalancedIn
  split
  · rename_i hne
    exact ⟨nofun, fun h => absurd h.total hne⟩
  · rename_i heq
    have htotal : t.count d.opening = t.count d.closing := Decidable.not_not.1 heq
    split
    · rename_i offset hexcess
      refine ⟨nofun, fun h => ?_⟩
      rw [firstExcess?_eq_none_iff.2 ⟨0, balanced_iff.1 h⟩] at hexcess
      cases hexcess
    · rename_i hnone
      refine ⟨fun _ => ?_, fun _ => rfl⟩
      obtain ⟨m, hm⟩ := firstExcess?_eq_none_iff.1 hnone
      obtain ⟨hordered, -⟩ := depthFrom_eq_some_iff.1 hm
      exact ⟨by simpa using hordered, htotal⟩

theorem requireBalanced_iff : requireBalanced t = .ok () ↔ ∀ d, Balanced d t := by
  unfold requireBalanced
  constructor
  · intro h d
    cases hp : requireBalancedIn .parentheses t with
    | error cause =>
      rw [hp] at h
      cases h
    | ok =>
      rw [hp] at h
      cases d with
      | parentheses => exact requireBalancedIn_iff.1 hp
      | braces => exact requireBalancedIn_iff.1 h
  · intro h
    rw [requireBalancedIn_iff.2 (h .parentheses)]
    exact requireBalancedIn_iff.2 (h .braces)

theorem WellNested.balanced (h : WellNested t) (d : Delimiters) : Balanced d t := requireBalanced_iff.1 h.requireBalanced d

/-! ## Parts of balanced texts -/

namespace Balanced

theorem nil (d : Delimiters) : Balanced d [] := balanced_iff.2 rfl

theorem append (ha : Balanced d a) (hb : Balanced d b) : Balanced d (a ++ b) := by
  rw [balanced_iff, depthFrom_append, ha.depth_eq, Option.bind_some, hb.depth_eq]

theorem plain (ht : ∀ c ∈ t, c ≠ d.opening ∧ c ≠ d.closing) : Balanced d t := balanced_iff.2 (depthFrom_plain ht 0)

theorem single (hopening : c ≠ d.opening) (hclosing : c ≠ d.closing) : Balanced d [c] :=
  plain (List.forall_mem_singleton.2 ⟨hopening, hclosing⟩)

theorem wrap (hx : Balanced d x) : Balanced d (d.opening :: (x ++ [d.closing])) := by
  rw [balanced_iff, depthFrom_opening, depthFrom_append, hx.depth_eq, Option.bind_some, depthFrom_closing, depthFrom_nil]

/-- What stands behind a balanced part of a balanced text is balanced. -/
theorem behind (h : Balanced d (a ++ b)) (ha : Balanced d a) : Balanced d b := by
  rw [balanced_iff, depthFrom_append, ha.depth_eq, Option.bind_some] at h
  exact balanced_iff.2 h

theorem char_iff (ho : c ≠ d.opening) (hc : c ≠ d.closing) : Balanced d (c :: t) ↔ Balanced d t := by
  rw [balanced_iff, balanced_iff, depthFrom_char ho hc]

/-- No balanced text ends behind a delimiter that it has opened and not closed. -/
theorem not_open (h : Balanced d (a ++ d.opening :: b)) (hb : ∀ p, p <+: b → p.count d.closing ≤ p.count d.opening) :
    False := by
  have hbefore := h.ordered a (List.prefix_append a _)
  have hall := h.total
  have hrest := hb b (List.prefix_refl b)
  rw [List.count_append, List.count_append, List.count_cons_self, List.count_cons_of_ne (d.opening_ne_closing d)] at hall
  omega

/-- No delimiter closes in a balanced text behind a balanced part of it. -/
theorem not_closing (h : Balanced d (x ++ d.closing :: a)) (hx : Balanced d x) : False := by
  rw [balanced_iff, depthFrom_append, hx.depth_eq, Option.bind_some, depthFrom_zero_closing] at h
  cases h

/-- Where more delimiters close than are open, there is a first one that does. -/
theorem exists_first_closing (h : k + t.count d.opening < t.count d.closing) :
    ∃ x s, t = x ++ d.closing :: s ∧ depthFrom d k x = some 0 := by
  have hne := d.opening_ne_closing d
  induction t generalizing k with
  | nil => simp at h
  | cons c t ih =>
    by_cases ho : c = d.opening
    · subst ho
      rw [List.count_cons_self, List.count_cons_of_ne hne] at h
      obtain ⟨x, s, rfl, hx⟩ := ih (k := k + 1) (by omega)
      exact ⟨d.opening :: x, s, rfl, by rw [depthFrom_opening, hx]⟩
    · by_cases hc : c = d.closing
      · subst hc
        rw [List.count_cons_self, List.count_cons_of_ne hne.symm] at h
        cases k with
        | zero => exact ⟨[], t, rfl, rfl⟩
        | succ k =>
          obtain ⟨x, s, rfl, hx⟩ := ih (k := k) (by omega)
          exact ⟨d.closing :: x, s, rfl, by rw [depthFrom_closing, hx]⟩
      · rw [List.count_cons_of_ne ho, List.count_cons_of_ne hc] at h
        obtain ⟨x, s, rfl, hx⟩ := ih (k := k) h
        exact ⟨c :: x, s, rfl, by rw [depthFrom_char ho hc, hx]⟩

/-- A delimiter that opens in a balanced text closes in it. -/
theorem closes (h : Balanced d (a ++ d.opening :: b)) : ∃ x s, b = x ++ d.closing :: s ∧ Balanced d x := by
  rw [balanced_iff, depthFrom_append, Option.bind_eq_some_iff] at h
  obtain ⟨k, -, hb⟩ := h
  rw [depthFrom_opening, depthFrom_eq_some_iff] at hb
  obtain ⟨x, s, rfl, hx⟩ := exists_first_closing (d := d) (k := 0) (t := b) (by omega)
  exact ⟨x, s, rfl, balanced_iff.2 hx⟩

theorem behind_opening (h : Balanced d (d.opening :: t)) :
    ∃ x s, t = x ++ d.closing :: s ∧ Balanced d x ∧ Balanced d s := by
  obtain ⟨x, s, rfl, hx⟩ := closes (a := []) h
  refine ⟨x, s, rfl, hx, ?_⟩
  have hall : Balanced d ((d.opening :: (x ++ [d.closing])) ++ s) := by simpa using h
  exact hall.behind hx.wrap

/-- A delimiter closes at one place only. -/
theorem closes_once (hx : Balanced d x) (hy : Balanced d y) (h : x ++ d.closing :: a = y ++ d.closing :: b) :
    x = y ∧ a = b := by
  rcases List.append_eq_append_iff.1 h with ⟨u, rfl, hu⟩ | ⟨u, rfl, hu⟩
  · cases u with
    | nil => exact ⟨(List.append_nil x).symm, (List.cons.inj hu).2⟩
    | cons c u =>
      obtain ⟨rfl, -⟩ := List.cons.inj hu
      exact (hy.not_closing hx).elim
  · cases u with
    | nil => exact ⟨List.append_nil y, (List.cons.inj hu).2.symm⟩
    | cons c u =>
      obtain ⟨rfl, -⟩ := List.cons.inj hu
      exact (hx.not_closing hy).elim

/-- What one pair of delimiters encloses behind the start of another pair lies inside that one or behind it. -/
theorem apart {v : Text} (hx : Balanced d x) (hy : Balanced d y)
    (h : x ++ d.closing :: b = v ++ d.opening :: (y ++ d.closing :: t)) :
    (∃ u, x = v ++ d.opening :: (y ++ d.closing :: u) ∧ t = u ++ d.closing :: b) ∨
      ∃ u, v = x ++ d.closing :: u ∧ b = u ++ d.opening :: (y ++ d.closing :: t) := by
  rcases Text.append_cons_split (d.opening_ne_closing d).symm h with ⟨u, rfl, hu⟩ | hbehind
  · obtain ⟨inner, rest, rfl, hinner⟩ := hx.closes
    have hinside : y ++ d.closing :: t = inner ++ d.closing :: (rest ++ d.closing :: b) := by simpa using hu
    obtain ⟨rfl, rfl⟩ := hy.closes_once hinner hinside
    exact .inl ⟨rest, rfl, rfl⟩
  · exact .inr hbehind

/-- Delimiters of either kind can be put around any part. -/
theorem wrap_part (h : Balanced e (a ++ (x ++ b))) (d : Delimiters) :
    Balanced e (a ++ d.opening :: (x ++ d.closing :: b)) := by
  rw [balanced_iff, depthFrom_append, Option.bind_eq_some_iff] at h ⊢
  obtain ⟨k, hk, h⟩ := h
  rw [depthFrom_append, Option.bind_eq_some_iff] at h
  obtain ⟨m, hm, h⟩ := h
  refine ⟨k, hk, ?_⟩
  by_cases hde : d = e
  · subst hde
    rw [depthFrom_opening, depthFrom_append, depthFrom_deeper hm 1, Option.bind_some, depthFrom_closing, h]
  · have ho : d.opening ≠ e.opening := fun h => hde (opening_inj h)
    have hc : d.closing ≠ e.closing := fun h => hde (closing_inj h)
    rw [depthFrom_char ho (d.opening_ne_closing e), depthFrom_append, hm, Option.bind_some,
      depthFrom_char (e.opening_ne_closing d).symm hc, h]

/-- Text without delimiters of the kind can be put in or taken out. -/
theorem insert_iff (hx : ∀ c ∈ x, c ≠ d.opening ∧ c ≠ d.closing) : Balanced d (a ++ (x ++ b)) ↔ Balanced d (a ++ b) := by
  rw [balanced_iff, balanced_iff, depthFrom_append, depthFrom_append]
  simp only [depthFrom_append, depthFrom_plain hx, Option.bind_some]

end Balanced

end InstitutionalGrammar
