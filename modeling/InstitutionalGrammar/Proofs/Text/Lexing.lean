/-
  InstitutionalGrammar.Proofs.Text.Lexing — the lexemes of a text, part by part.

  An operator token holds neither a delimiter nor a second opening bracket, so a text falls apart into
  lexemes on both sides of either as if the other side were not there.
  - `lex_induction`: a text is built up from tokens and from characters at which no token starts.
  - `lex_append`: the lexemes of a text in front of a delimiter or a token.
  - `lex_split`: where a lexeme that is not text stands, the text can be taken apart.
-/

import InstitutionalGrammar.Token
import InstitutionalGrammar.Proofs.Text.Trim

namespace InstitutionalGrammar

variable {a b t : Text} {c x : Char} {o : Operator}

/-! ## Lexemes of tokens -/

theorem map_lexeme_place (p : Position) (ls : List Lexeme) : (place p ls).map Token.lexeme = ls := by
  induction ls generalizing p with
  | nil => rfl
  | cons l ls ih => exact congrArg (l :: ·) (ih _)

theorem map_lexeme_tokens (t : Text) : (tokens t).map Token.lexeme = lex t := map_lexeme_place .start (lex t)

/-! ## Tokens of operators -/

/-- An operator is written where the text starts. -/
def startsOperator (t : Text) : Bool := [Operator.and, .or, .xor].any (·.token.isPrefixOf t)

/-- A character that a token can hold behind its bracket. -/
def isTokenTail (c : Char) : Bool := ['A', 'N', 'D', 'O', 'R', 'X', ']'].contains c

theorem startsOperator_iff : startsOperator t = true ↔ ∃ o : Operator, o.isSynthetic = false ∧ o.token <+: t := by
  unfold startsOperator
  rw [List.any_eq_true]
  constructor
  · rintro ⟨o, ho, h⟩
    refine ⟨o, ?_, List.isPrefixOf_iff_prefix.1 h⟩
    cases o <;> first | rfl | simp at ho
  · rintro ⟨o, ho, h⟩
    refine ⟨o, ?_, List.isPrefixOf_iff_prefix.2 h⟩
    cases o with
    | syntheticAnd => cases ho
    | _ => simp

theorem token_eq (ho : o.isSynthetic = false) : ∃ r, o.token = '[' :: r ∧ ∀ c ∈ r, isTokenTail c = true := by
  cases o with
  | syntheticAnd => cases ho
  | and => exact ⟨['A', 'N', 'D', ']'], rfl, Text.forall_of_all rfl⟩
  | or => exact ⟨['O', 'R', ']'], rfl, Text.forall_of_all rfl⟩
  | xor => exact ⟨['X', 'O', 'R', ']'], rfl, Text.forall_of_all rfl⟩

/-- A token does not reach over a character that it cannot hold. -/
theorem token_break (ho : o.isSynthetic = false) (hc : isTokenTail c = false) (h : o.token <+: x :: (a ++ c :: b)) :
    o.token <+: x :: a := by
  obtain ⟨r, hr, htail⟩ := token_eq ho
  rw [hr] at h ⊢
  obtain ⟨hx, h⟩ := List.cons_prefix_cons.1 h
  refine List.cons_prefix_cons.2 ⟨hx, ?_⟩
  obtain ⟨w, hw⟩ := h
  rcases List.append_eq_append_iff.1 hw with ⟨v, rfl, -⟩ | ⟨v, rfl, hv⟩
  · exact List.prefix_append r v
  · cases v with
    | nil => simp
    | cons d v =>
      obtain ⟨rfl, -⟩ := List.cons.inj hv
      rw [htail c (by simp)] at hc
      cases hc

theorem startsOperator_break (hc : isTokenTail c = false) (x : Char) (a b : Text) :
    startsOperator (x :: (a ++ c :: b)) = startsOperator (x :: a) := by
  rw [Bool.eq_iff_iff, startsOperator_iff, startsOperator_iff]
  constructor
  · rintro ⟨o, ho, h⟩
    exact ⟨o, ho, token_break ho hc h⟩
  · rintro ⟨o, ho, h⟩
    exact ⟨o, ho, h.trans (List.prefix_append (x :: a) (c :: b))⟩

theorem startsOperator_append (h : startsOperator (c :: (a ++ b)) = false) : startsOperator (c :: a) = false := by
  rw [← Bool.not_eq_true] at h ⊢
  intro hstart
  obtain ⟨o, ho, hprefix⟩ := startsOperator_iff.1 hstart
  exact h (startsOperator_iff.2 ⟨o, ho, hprefix.trans (List.prefix_append (c :: a) b)⟩)

theorem startsOperator_of_ne (hc : c ≠ '[') (t : Text) : startsOperator (c :: t) = false := by
  rw [← Bool.not_eq_true, startsOperator_iff]
  rintro ⟨o, ho, h⟩
  obtain ⟨r, hr, -⟩ := token_eq ho
  rw [hr] at h
  exact hc (List.cons_prefix_cons.1 h).1.symm

theorem isTokenTail_of_isBlank (h : isBlank c = true) : isTokenTail c = false := by
  rw [← Bool.not_eq_true, isTokenTail, List.contains_iff_mem]
  intro hc
  have hall : ∀ d ∈ ['A', 'N', 'D', 'O', 'R', 'X', ']'], isBlank d = false := Text.forall_of_all (by decide)
  rw [hall c hc] at h
  cases h

/-- A count that only brackets add to does not see what a token holds behind its bracket. -/
theorem count_tail {w : Text → Nat} (hw : ∀ (c : Char) (t : Text), c ≠ '[' → w (c :: t) = w t) {r : Text}
    (hr : ∀ c ∈ r, isTokenTail c = true) (t : Text) : w (r ++ t) = w t := by
  induction r with
  | nil => rfl
  | cons c r ih =>
    have hc : c ≠ '[' := by
      rintro rfl
      exact absurd (hr '[' (by simp)) (by decide)
    rw [List.cons_append, hw c (r ++ t) hc, ih fun d hd => hr d (by simp [hd])]

/-! ## Lexemes -/

/-- The lexemes with that of a character in front at which no token starts. -/
def Lexeme.put (c : Char) (ls : List Lexeme) : List Lexeme :=
  if c = Delimiters.parentheses.opening then .opening .parentheses :: ls
  else if c = Delimiters.parentheses.closing then .closing .parentheses :: ls
  else if c = Delimiters.braces.opening then .opening .braces :: ls
  else if c = Delimiters.braces.closing then .closing .braces :: ls
  else consText c ls

@[simp] theorem Lexeme.put_opening (d : Delimiters) (ls : List Lexeme) : put d.opening ls = .opening d :: ls := by
  cases d <;> rfl

@[simp] theorem Lexeme.put_closing (d : Delimiters) (ls : List Lexeme) : put d.closing ls = .closing d :: ls := by
  cases d <;> rfl

theorem lex_token (ho : o.isSynthetic = false) (t : Text) : lex (o.token ++ t) = .operator o :: lex t := by
  cases o with
  | syntheticAnd => cases ho
  | _ => simp [Operator.token, Operator.name, lex]

theorem lex_char (h : startsOperator (c :: t) = false) : lex (c :: t) = Lexeme.put c (lex t) := by
  have hnot : ∀ o : Operator, o.isSynthetic = false → ¬ o.token <+: c :: t := by
    intro o ho hprefix
    rw [startsOperator_iff.2 ⟨o, ho, hprefix⟩] at h
    cases h
  rw [lex.eq_def (c :: t)]
  split
  · rename_i heq
    cases heq
  · rename_i u heq
    exact absurd ⟨u, heq.symm⟩ (hnot .and rfl)
  · rename_i u heq
    exact absurd ⟨u, heq.symm⟩ (hnot .or rfl)
  · rename_i u heq
    exact absurd ⟨u, heq.symm⟩ (hnot .xor rfl)
  · rename_i heq
    obtain ⟨rfl, rfl⟩ := List.cons.inj heq
    rfl

/-- A text is a token and a text, or a character and a text, or empty. -/
@[elab_as_elim]
theorem lex_induction {motive : Text → Prop} (nil : motive [])
    (token : ∀ (o : Operator) (t : Text), o.isSynthetic = false → motive t → motive (o.token ++ t))
    (char : ∀ (c : Char) (t : Text), startsOperator (c :: t) = false → motive t → motive (c :: t)) (t : Text) :
    motive t := by
  induction h : t.length using Nat.strongRecOn generalizing t with
  | ind n ih =>
    cases t with
    | nil => exact nil
    | cons c t =>
      by_cases hstart : startsOperator (c :: t) = true
      · obtain ⟨o, ho, u, hu⟩ := startsOperator_iff.1 hstart
        have hlen : o.token.length + u.length = n := by rw [← List.length_append, hu, h]
        have hpos : 0 < o.token.length := by
          obtain ⟨r, hr, -⟩ := token_eq ho
          rw [hr]
          exact Nat.zero_lt_succ r.length
        rw [← hu]
        exact token o u ho (ih u.length (by omega) u rfl)
      · rw [List.length_cons] at h
        exact char c t (by simpa using hstart) (ih t.length (by omega) t rfl)

theorem lex_opening (d : Delimiters) (t : Text) : lex (d.opening :: t) = .opening d :: lex t := by
  rw [lex_char (startsOperator_of_ne (by cases d <;> decide) t), Lexeme.put_opening]

theorem lex_closing (d : Delimiters) (t : Text) : lex (d.closing :: t) = .closing d :: lex t := by
  rw [lex_char (startsOperator_of_ne (by cases d <;> decide) t), Lexeme.put_closing]

/-- Something is written with the lexeme, and if it is an operator, it is one that can be written. -/
structure Lexeme.Writable (l : Lexeme) : Prop where
  ne_nil : l.written ≠ []
  operator : ∀ o, l = .operator o → o.isSynthetic = false

theorem Lexeme.writable_put {ls : List Lexeme} (h : ∀ l ∈ ls, l.Writable) (c : Char) : ∀ l ∈ put c ls, l.Writable := by
  have hopening : ∀ d, (Lexeme.opening d).Writable := fun d => ⟨List.cons_ne_nil _ _, nofun⟩
  have hclosing : ∀ d, (Lexeme.closing d).Writable := fun d => ⟨List.cons_ne_nil _ _, nofun⟩
  have htext : ∀ v, (Lexeme.text (c :: v)).Writable := fun v => ⟨List.cons_ne_nil c v, nofun⟩
  unfold put consText
  repeat' split
  all_goals simp_all

theorem writable_of_mem_lex (t : Text) : ∀ l ∈ lex t, l.Writable := by
  induction t using lex_induction with
  | nil => exact nofun
  | token o t ho ih =>
    rw [lex_token ho]
    refine List.forall_mem_cons.2 ⟨⟨?_, ?_⟩, ih⟩
    · obtain ⟨r, hr, -⟩ := token_eq ho
      rw [Lexeme.written, hr]
      exact List.cons_ne_nil _ _
    · rintro _ ⟨⟩
      exact ho
  | char c t hc ih =>
    rw [lex_char hc]
    exact Lexeme.writable_put ih c

/-! ## Taking texts apart -/

/-- The text starts with a delimiter or a token, so nothing in front of it reaches into it. -/
structure Sharp (t : Text) : Prop where
  head : ∃ c u, t = c :: u ∧ isTokenTail c = false
  lexeme : ∃ l ls, lex t = l :: ls ∧ ∀ v, l ≠ .text v

namespace Sharp

theorem opening (d : Delimiters) (t : Text) : Sharp (d.opening :: t) where
  head := ⟨_, t, rfl, by cases d <;> decide⟩
  lexeme := ⟨_, _, lex_opening d t, nofun⟩

theorem closing (d : Delimiters) (t : Text) : Sharp (d.closing :: t) where
  head := ⟨_, t, rfl, by cases d <;> decide⟩
  lexeme := ⟨_, _, lex_closing d t, nofun⟩

theorem token (ho : o.isSynthetic = false) (t : Text) : Sharp (o.token ++ t) where
  head := by
    obtain ⟨r, hr, -⟩ := token_eq ho
    exact ⟨'[', r ++ t, by rw [hr]; rfl, by decide⟩
  lexeme := ⟨_, _, lex_token ho t, nofun⟩

end Sharp

theorem Lexeme.put_append (c : Char) (ls : List Lexeme) {l : Lexeme} (hl : ∀ v, l ≠ text v) (ls' : List Lexeme) :
    put c (ls ++ l :: ls') = put c ls ++ l :: ls' := by
  have hcons : consText c (ls ++ l :: ls') = consText c ls ++ l :: ls' := by
    cases ls with
    | nil =>
      cases l with
      | text v => exact absurd rfl (hl v)
      | _ => rfl
    | cons x ls => cases x <;> rfl
  unfold put
  rw [hcons]
  repeat' split
  all_goals rfl

theorem lex_append (a : Text) (hb : Sharp b) : lex (a ++ b) = lex a ++ lex b := by
  obtain ⟨c, u, hu, hc⟩ := hb.head
  obtain ⟨l, ls, hlex, hl⟩ := hb.lexeme
  induction a using lex_induction with
  | nil => rfl
  | token o t ho ih => rw [List.append_assoc, lex_token ho, lex_token ho, ih, List.cons_append]
  | char x t hx ih =>
    have hx' : startsOperator (x :: (t ++ b)) = false := by rw [hu, startsOperator_break hc, hx]
    rw [List.cons_append, lex_char hx', lex_char hx, ih, hlex, Lexeme.put_append x (lex t) hl]

/-- The lexemes that a text starts with are those of what is written with them, if a delimiter or a token
    stands behind. -/
theorem lex_split {ls ls' : List Lexeme} (hb : Sharp b) (ha : ls.flatMap Lexeme.written = a)
    (h : lex (a ++ b) = ls ++ ls') : ls = lex a ∧ ls' = lex b := by
  have hempty : ∀ m : List Lexeme, (∀ l ∈ m, l ∈ lex (a ++ b)) → m.flatMap Lexeme.written = [] → m = [] := by
    intro m hm hw
    cases m with
    | nil => rfl
    | cons l m => exact absurd (List.append_eq_nil_iff.1 hw).1 (writable_of_mem_lex _ l (hm l (by simp))).ne_nil
  have hsame := h
  rw [lex_append a hb] at hsame
  rcases List.append_eq_append_iff.1 hsame with ⟨m, hm, hrest⟩ | ⟨m, hm, hrest⟩
  · have hw : m.flatMap Lexeme.written = [] := by
      rw [hm, List.flatMap_append, lex_written] at ha
      exact List.append_right_eq_self.1 ha
    obtain rfl := hempty m (fun l hl => by rw [h, hm]; simp [hl]) hw
    exact ⟨by simpa using hm, by simpa using hrest.symm⟩
  · have hw : m.flatMap Lexeme.written = [] := by
      have hall := lex_written a
      rw [hm, List.flatMap_append, ha] at hall
      exact List.append_right_eq_self.1 hall
    obtain rfl := hempty m (fun l hl => by rw [h, hrest]; simp [hl]) hw
    exact ⟨by simpa using hm.symm, by simpa using hrest⟩

end InstitutionalGrammar
