/-
  InstitutionalGrammar.Proofs.Combination.Gauge — the grammar of combinations in parentheses, read in one go.

  A text is grammatical if each operator is inside a pair of parentheses and the operators directly in a pair are
  the same one, with operands that are not blank. One reading from left to right decides that with the
  operator of each open pair, and whether anything stands behind it. A stretch is gauged through the pairs in it
  and a pair through the stretches that its operators divide it into, so these go by induction on the size of texts.
  - `gauge_deeper`, `gauge_blank`: the reading does not look further out, and passes over blanks at the end.
  - `Undivided.gauged`, `Divided.gauged`: stretches and pairs.
  - `gauge_iff`: the reading gets through the balanced texts that are grammatical.
-/

import InstitutionalGrammar.Proofs.Combination.Walk
import InstitutionalGrammar.Proofs.Text.Pairs

namespace InstitutionalGrammar

variable {a b s t w x : Text} {c : Char} {o : Operator} {os : List Operator} {ss : List Text} {k m : Nat}

/-! ## The grammar -/

/-- What is divided by the operators into these stretches is no combination, or one that is well formed. -/
structure Combines (os : List Operator) (ss : List Text) : Prop where
  same : ∀ o ∈ os, ∀ o' ∈ os, o = o'
  filled : os ≠ [] → ∀ s ∈ ss, s.allBlank = false

/-- The pairs of parentheses in the text are no combinations, or ones that are well formed. -/
def PairsCombine (t : Text) : Prop :=
  ∀ x os ss, Encloses .parentheses t x → Divided .parentheses x os ss → Combines os ss

/-- Each operator is inside some pair of parentheses; and what its operators divide a pair into combines. -/
structure Grammatical (t : Text) : Prop where
  inside : ∀ (l : Text) (o : Operator) (r : Text), o.isSynthetic = false → t = l ++ (o.token ++ r) →
    ∃ a u v b, l = a ++ '(' :: u ∧ r = v ++ ')' :: b ∧ Balanced .parentheses (u ++ (o.token ++ v))
  pairs : PairsCombine t

theorem pairsCombine_nil : PairsCombine [] := by
  rintro x os ss ⟨a, b, h, -⟩
  simp at h

theorem pairsCombine_char (hc : c ≠ Delimiters.parentheses.opening) : PairsCombine (c :: t) ↔ PairsCombine t := by
  simp only [PairsCombine, encloses_char hc]

theorem pairsCombine_operator (hs : Balanced .parentheses s) :
    PairsCombine (s ++ (o.token ++ t)) ↔ PairsCombine s ∧ PairsCombine t := by
  simp only [PairsCombine, encloses_operator hs]
  exact ⟨fun h => ⟨fun x os ss hx => h x os ss (.inl hx), fun x os ss hx => h x os ss (.inr hx)⟩,
    fun h x os ss hx => hx.elim (h.1 x os ss) (h.2 x os ss)⟩

theorem pairsCombine_pair (hx : Balanced .parentheses x) :
    PairsCombine (Delimiters.parentheses.opening :: (x ++ Delimiters.parentheses.closing :: t)) ↔
      (PairsCombine x ∧ ∀ os ss, Divided .parentheses x os ss → Combines os ss) ∧ PairsCombine t := by
  simp only [PairsCombine, encloses_pair hx]
  constructor
  · exact fun h => ⟨⟨fun y os ss hy => h y os ss (.inr (.inl hy)), fun os ss => h x os ss (.inl rfl)⟩,
      fun y os ss hy => h y os ss (.inr (.inr hy))⟩
  · rintro ⟨⟨hinner, hself⟩, hbehind⟩ y os ss (rfl | hy | hy)
    · exact hself os ss
    · exact hinner y os ss hy
    · exact hbehind y os ss hy

theorem combines_operator {op : Option Operator} : Combines (op.toList ++ o :: os) (s :: ss) ↔
    s.allBlank = false ∧ op.all (· = o) = true ∧ Combines (o :: os) ss := by
  constructor
  · intro h
    have hfilled := h.filled (by simp)
    refine ⟨hfilled s List.mem_cons_self, ?_, fun p hp q hq => h.same p ?_ q ?_,
      fun _ u hu => hfilled u (List.mem_cons_of_mem _ hu)⟩
    · cases op with
      | none => rfl
      | some p => simpa using h.same p (by simp) o (by simp)
    · exact List.mem_append_right _ hp
    · exact List.mem_append_right _ hq
  · rintro ⟨hs, hop, hrest⟩
    have hfirst : ∀ p ∈ op.toList ++ o :: os, p = o := by
      intro p hp
      rcases List.mem_append.1 hp with hp | hp
      · cases op with
        | none => cases hp
        | some q =>
          obtain rfl : p = q := by simpa using hp
          simpa using hop
      · exact hrest.same p hp o List.mem_cons_self
    refine ⟨fun p hp q hq => (hfirst p hp).trans (hfirst q hq).symm, fun _ => List.forall_mem_cons.2 ⟨hs, ?_⟩⟩
    exact hrest.filled (List.cons_ne_nil o os)

/-! ## The reading -/

/-- An open pair: its operator, and whether anything stands behind that or else behind the parenthesis. -/
structure Scope where
  operator : Option Operator
  filled : Bool

def Scope.start : Scope := ⟨none, false⟩

/-- Something stands in the innermost open pair, if `b` says so. -/
def fill (b : Bool) : List Scope → List Scope
  | [] => []
  | f :: σ => { f with filled := f.filled || b } :: σ

/-- The open pairs behind a lexeme; nothing if no text goes on like that. -/
def gaugeStep : List Scope → Lexeme → Option (List Scope)
  | σ, .opening .parentheses => some (.start :: fill true σ)
  | f :: σ, .closing .parentheses => if f.operator.isNone || f.filled then some σ else none
  | f :: σ, .operator o => if f.filled && f.operator.all (· = o) then some (⟨some o, false⟩ :: σ) else none
  | [], .closing .parentheses => none
  | [], .operator _ => none
  | σ, l => some (fill (!l.written.allBlank) σ)

/-- The open pairs behind some lexemes. -/
def gauge (σ : List Scope) (ls : List Lexeme) : Option (List Scope) := ls.foldlM gaugeStep σ

variable {f : Scope} {σ τ τ' : List Scope} {l : Lexeme} {ls ls' : List Lexeme}

@[simp] theorem gauge_nil (σ : List Scope) : gauge σ [] = some σ := rfl

theorem gauge_cons (σ : List Scope) (l : Lexeme) (ls : List Lexeme) :
    gauge σ (l :: ls) = (gaugeStep σ l).bind fun τ => gauge τ ls := rfl

theorem gauge_append (σ : List Scope) (ls ls' : List Lexeme) :
    gauge σ (ls ++ ls') = (gauge σ ls).bind fun τ => gauge τ ls' := List.foldlM_append

@[simp] theorem fill_false (σ : List Scope) : fill false σ = σ := by cases σ <;> simp [fill]

@[simp] theorem fill_fill (a b : Bool) (σ : List Scope) : fill b (fill a σ) = fill (a || b) σ := by
  cases σ with
  | nil => rfl
  | cons f σ => simp [fill, Bool.or_assoc]

@[simp] theorem length_fill (b : Bool) (σ : List Scope) : (fill b σ).length = σ.length := by cases σ <;> rfl

@[simp] theorem gauge_opening (σ : List Scope) (ls : List Lexeme) :
    gauge σ (.opening .parentheses :: ls) = gauge (.start :: fill true σ) ls := by
  cases σ <;> rfl

@[simp] theorem gauge_text (σ : List Scope) (v : Text) (ls : List Lexeme) :
    gauge σ (.text v :: ls) = gauge (fill (!v.allBlank) σ) ls := by
  cases σ <;> rfl

theorem gaugeStep_closing (f : Scope) (σ : List Scope) :
    gaugeStep (f :: σ) (.closing .parentheses) = if f.operator.isNone || f.filled then some σ else none := rfl

theorem gaugeStep_operator (f : Scope) (σ : List Scope) (o : Operator) :
    gaugeStep (f :: σ) (.operator o) = if f.filled && f.operator.all (· = o) then some (⟨some o, false⟩ :: σ) else none := rfl

theorem not_allBlank_cons (c : Char) (t : Text) : (!Text.allBlank (c :: t)) = (!isBlank c || !Text.allBlank t) := by
  rw [Text.allBlank, List.all_cons, Bool.not_and]
  rfl

theorem gauge_consText (c : Char) (σ : List Scope) (ls : List Lexeme) :
    gauge σ (Lexeme.consText c ls) = gauge (fill (!isBlank c) σ) ls := by
  unfold Lexeme.consText
  split
  · rw [gauge_text, gauge_text, fill_fill, not_allBlank_cons]
  · rw [gauge_text, not_allBlank_cons]
    simp [Text.allBlank]

theorem gauge_put (ho : c ≠ Delimiters.parentheses.opening) (hc : c ≠ Delimiters.parentheses.closing) (σ : List Scope)
    (ls : List Lexeme) : gauge σ (Lexeme.put c ls) = gauge (fill (!isBlank c) σ) ls := by
  rw [Lexeme.put, if_neg ho, if_neg hc]
  split
  · rename_i hbrace
    subst hbrace
    cases σ <;> rfl
  · split
    · rename_i hbrace
      subst hbrace
      cases σ <;> rfl
    · exact gauge_consText c σ ls

/-- A character that is no parenthesis. -/
theorem gauge_char (hstart : startsOperator (c :: t) = false) (ho : c ≠ Delimiters.parentheses.opening)
    (hc : c ≠ Delimiters.parentheses.closing) (σ : List Scope) :
    gauge σ (lex (c :: t)) = gauge (fill (!isBlank c) σ) (lex t) := by
  rw [lex_char hstart, gauge_put ho hc]

/-- Blanks at the start of a text do not count. -/
theorem gauge_behind_blank (hw : Text.allBlank w = true) (t : Text) (σ : List Scope) :
    gauge σ (lex (w ++ t)) = gauge σ (lex t) := by
  induction w with
  | nil => rfl
  | cons c w ih =>
    obtain ⟨hc, hw⟩ : isBlank c = true ∧ Text.allBlank w = true := by simpa [Text.allBlank] using hw
    have hplain := isReserved_of_blank hc
    have hdelimiter := isDelimiter_of_reserved hplain
    rw [List.cons_append, gauge_char (startsOperator_of_ne (ne_bracket hplain).1 _) (ne_opening hdelimiter _)
      (ne_closing hdelimiter _), hc, Bool.not_true, fill_false, ih hw]

/-- Blanks at the end of a text do not count. -/
theorem gauge_blank (hw : Text.allBlank w = true) (t : Text) (σ : List Scope) :
    gauge σ (lex (t ++ w)) = gauge σ (lex t) := by
  induction t using lex_induction generalizing σ with
  | nil =>
    rw [List.nil_append, ← List.append_nil w]
    exact gauge_behind_blank hw [] σ
  | token o t ho ih =>
    rw [List.append_assoc, lex_token ho, lex_token ho, gauge_cons, gauge_cons]
    simp only [ih]
  | char c t hc ih =>
    have hstart : startsOperator (c :: (t ++ w)) = false := by
      cases w with
      | nil => rwa [List.append_nil]
      | cons e w => rw [startsOperator_break (isTokenTail_of_isBlank (List.all_eq_true.1 hw e List.mem_cons_self)), hc]
    rw [List.cons_append, lex_char hstart, lex_char hc]
    by_cases hopening : c = Delimiters.parentheses.opening
    · rw [hopening, Lexeme.put_opening, Lexeme.put_opening, gauge_opening, gauge_opening, ih]
    · by_cases hclosing : c = Delimiters.parentheses.closing
      · rw [hclosing, Lexeme.put_closing, Lexeme.put_closing, gauge_cons, gauge_cons]
        simp only [ih]
      · rw [gauge_put hopening hclosing, gauge_put hopening hclosing, ih]

/-! ## What is open further out -/

theorem gaugeStep_deeper (f : Scope) (τ σ : List Scope) (l : Lexeme) :
    gaugeStep (f :: τ ++ σ) l = (gaugeStep (f :: τ) l).map (· ++ σ) := by
  cases l with
  | opening e => cases e <;> rfl
  | closing e =>
    cases e with
    | parentheses =>
      rw [List.cons_append, gaugeStep_closing, gaugeStep_closing]
      split <;> rfl
    | braces => rfl
  | operator o =>
    rw [List.cons_append, gaugeStep_operator, gaugeStep_operator]
    split <;> rfl
  | text v => rfl

/-- How many pairs are open. -/
theorem gauge_length (h : depthFrom .parentheses k t = some m) (hσ : σ.length = k) (hτ : gauge σ (lex t) = some τ) :
    τ.length = m := by
  induction t using lex_induction generalizing σ k with
  | nil =>
    cases h
    cases hτ
    exact hσ
  | token o t ho ih =>
    rw [depthFrom_append, depthFrom_plain (token_plain _), Option.bind_some] at h
    rw [lex_token ho, gauge_cons, Option.bind_eq_some_iff] at hτ
    obtain ⟨ρ, hρ, hτ⟩ := hτ
    refine ih h ?_ hτ
    cases σ with
    | nil => cases hρ
    | cons f σ =>
      rw [gaugeStep_operator] at hρ
      split at hρ
      · cases hρ
        exact hσ
      · cases hρ
  | char c t hc ih =>
    by_cases hopening : c = Delimiters.parentheses.opening
    · subst hopening
      rw [depthFrom_opening] at h
      rw [lex_opening, gauge_opening] at hτ
      exact ih h (by simp [hσ]) hτ
    · by_cases hclosing : c = Delimiters.parentheses.closing
      · subst hclosing
        rw [lex_closing, gauge_cons, Option.bind_eq_some_iff] at hτ
        obtain ⟨ρ, hρ, hτ⟩ := hτ
        cases σ with
        | nil => cases hρ
        | cons f σ =>
          obtain rfl : σ.length + 1 = k := hσ
          rw [depthFrom_closing] at h
          rw [gaugeStep_closing] at hρ
          split at hρ
          · cases hρ
            exact ih h rfl hτ
          · cases hρ
      · rw [depthFrom_char hopening hclosing] at h
        rw [gauge_char hc hopening hclosing] at hτ
        exact ih h (by simp [hσ]) hτ

/-- As long as one of the pairs at hand is open, nothing further out is touched. -/
theorem gauge_deeper (h : depthFrom .parentheses k t = some m) (hτ : τ.length = k + 1) (σ : List Scope) :
    gauge (τ ++ σ) (lex t) = (gauge τ (lex t)).map (· ++ σ) := by
  induction t using lex_induction generalizing τ k with
  | nil => rfl
  | token o t ho ih =>
    rw [depthFrom_append, depthFrom_plain (token_plain _), Option.bind_some] at h
    obtain ⟨f, τ, rfl⟩ := List.exists_cons_of_length_eq_add_one hτ
    rw [lex_token ho, gauge_cons, gauge_cons, gaugeStep_deeper, gaugeStep_operator]
    split
    · exact ih (τ := ⟨some o, false⟩ :: τ) h hτ
    · rfl
  | char c t hc ih =>
    obtain ⟨f, τ, rfl⟩ := List.exists_cons_of_length_eq_add_one hτ
    by_cases hopening : c = Delimiters.parentheses.opening
    · subst hopening
      rw [depthFrom_opening] at h
      rw [lex_opening, gauge_opening, gauge_opening]
      exact ih (τ := .start :: fill true (f :: τ)) h (by simpa using hτ)
    · by_cases hclosing : c = Delimiters.parentheses.closing
      · subst hclosing
        cases k with
        | zero =>
          rw [depthFrom_zero_closing] at h
          cases h
        | succ k =>
          rw [depthFrom_closing] at h
          rw [lex_closing, gauge_cons, gauge_cons, gaugeStep_deeper, gaugeStep_closing]
          split
          · exact ih h (by simpa using hτ)
          · rfl
      · rw [depthFrom_char hopening hclosing] at h
        rw [gauge_char hc hopening hclosing, gauge_char hc hopening hclosing]
        exact ih (τ := fill (!isBlank c) (f :: τ)) h (by simpa using hτ)

/-- A balanced text changes the innermost open pair and nothing else. -/
theorem Balanced.gauge_eq (h : Balanced .parentheses x) (f : Scope) :
    ∃ r : Option Scope, ∀ σ, gauge (f :: σ) (lex x) = r.map (· :: σ) := by
  have hdeeper := fun σ => gauge_deeper (balanced_iff.1 h) (τ := [f]) rfl σ
  cases hr : gauge [f] (lex x) with
  | none =>
    refine ⟨none, fun σ => ?_⟩
    have hsame := hdeeper σ
    rwa [hr] at hsame
  | some τ =>
    obtain ⟨g, rfl⟩ := List.length_eq_one_iff.1 (gauge_length (h.depth_eq 1) rfl hr)
    refine ⟨some g, fun σ => ?_⟩
    have hsame := hdeeper σ
    rwa [hr] at hsame

/-! ## Stretches and pairs -/

/-- The reading gets over the text if its pairs combine, and finds it filled if it is not blank. -/
def Gauged (t : Text) : Prop :=
  ∀ σ τ, gauge σ (lex t) = some τ ↔ PairsCombine t ∧ τ = fill (!t.allBlank) σ

theorem gauge_pair (x t : Text) (σ : List Scope) :
    gauge σ (lex (Delimiters.parentheses.opening :: (x ++ Delimiters.parentheses.closing :: t))) =
      (gauge (.start :: fill true σ) (lex x ++ [.closing .parentheses])).bind fun τ => gauge τ (lex t) := by
  rw [lex_opening, lex_append x (Sharp.closing _ t), lex_closing, gauge_opening, ← gauge_append, List.append_assoc]
  rfl

/-- A pair, from the stretches in it; an operator can stand in front of them. -/
theorem Divided.gauged (h : Divided .parentheses x os ss) (hss : ∀ s ∈ ss, Gauged s) (op : Option Operator)
    (σ τ : List Scope) : gauge (⟨op, false⟩ :: σ) (lex x ++ [.closing .parentheses]) = some τ ↔
      (PairsCombine x ∧ Combines (op.toList ++ os) ss) ∧ τ = σ := by
  induction h generalizing op with
  | @last s hs =>
    have hcombines : Combines (op.toList ++ []) [s] ↔ (op.isNone || !s.allBlank) = true := by
      cases op with
      | none => exact ⟨fun _ => rfl, fun _ => ⟨nofun, fun h => absurd rfl h⟩⟩
      | some p =>
        simp only [Option.toList_some, List.append_nil, Option.isNone_some, Bool.false_or, Bool.not_eq_true']
        exact ⟨fun h => h.filled (List.cons_ne_nil p []) s List.mem_cons_self,
          fun h => ⟨by simp, fun _ => by simpa using h⟩⟩
    rw [gauge_append, Option.bind_eq_some_iff, hcombines]
    simp only [hss s List.mem_cons_self _ _]
    constructor
    · rintro ⟨_, ⟨hpairs, rfl⟩, hclosing⟩
      rw [fill, gauge_cons, gaugeStep_closing, Bool.false_or] at hclosing
      split at hclosing
      · rename_i hfilled
        cases hclosing
        exact ⟨⟨hpairs, hfilled⟩, rfl⟩
      · cases hclosing
    · rintro ⟨⟨hpairs, hfilled⟩, rfl⟩
      refine ⟨_, ⟨hpairs, rfl⟩, ?_⟩
      rw [fill, gauge_cons, gaugeStep_closing, Bool.false_or, if_pos hfilled]
      rfl
  | @operator s t o os ss hs ho _ ih =>
    rw [lex_append s (Sharp.token ho t), lex_token ho, List.append_assoc, gauge_append, Option.bind_eq_some_iff,
      pairsCombine_operator hs.balanced, combines_operator]
    simp only [hss s List.mem_cons_self _ _]
    have hrest := ih (fun s hs => hss s (List.mem_cons_of_mem _ hs)) (some o)
    constructor
    · rintro ⟨_, ⟨hpairs, rfl⟩, hoperator⟩
      rw [fill, List.cons_append, gauge_cons, gaugeStep_operator, Bool.false_or] at hoperator
      split at hoperator
      · rename_i hfilled
        obtain ⟨hblank, hop⟩ := Bool.and_eq_true_iff.1 hfilled
        obtain ⟨⟨hpairs', hcombines⟩, rfl⟩ := hrest.1 hoperator
        exact ⟨⟨⟨hpairs, hpairs'⟩, by simpa using hblank, hop, hcombines⟩, rfl⟩
      · cases hoperator
    · rintro ⟨⟨⟨hpairs, hpairs'⟩, hblank, hop, hcombines⟩, rfl⟩
      refine ⟨_, ⟨hpairs, rfl⟩, ?_⟩
      rw [fill, List.cons_append, gauge_cons, gaugeStep_operator, Bool.false_or, hblank, hop]
      exact hrest.2 ⟨⟨hpairs', hcombines⟩, rfl⟩

theorem Divided.length_le {d : Delimiters} (h : Divided d x os ss) : ∀ s ∈ ss, s.length ≤ x.length := by
  induction h with
  | last hs => simp
  | operator hs ho _ ih =>
    refine List.forall_mem_cons.2 ⟨by simp, fun s hs => ?_⟩
    have hle := ih s hs
    simp only [List.length_append]
    omega

theorem Divided.undivided {d : Delimiters} (h : Divided d x os ss) : ∀ s ∈ ss, Undivided d s := by
  induction h with
  | last hs => simpa using hs
  | operator hs ho _ ih => exact List.forall_mem_cons.2 ⟨hs, ih⟩

/-- A stretch, from the pairs in it. -/
theorem Undivided.gauged (h : Undivided .parentheses t) : Gauged t := by
  induction hn : t.length using Nat.strongRecOn generalizing t with
  | ind n ih =>
    subst hn
    obtain rfl | ⟨c, s, rfl, hstart, hopening, hclosing, hs⟩ | ⟨x, s, rfl, hx, hs⟩ := h.pieces
    · intro σ τ
      simp [pairsCombine_nil, lex, Text.allBlank, eq_comm]
    · intro σ τ
      rw [gauge_char hstart hopening hclosing, ih _ (Nat.lt_succ_self _) hs rfl, pairsCombine_char hopening, fill_fill,
        not_allBlank_cons]
    · intro σ τ
      obtain ⟨os, ss, hdivided⟩ := exists_divided hx
      have hgauged : ∀ os ss, Divided .parentheses x os ss → ∀ u ∈ ss, Gauged u := by
        intro os ss hdivided u hu
        have hle := hdivided.length_le u hu
        exact ih u.length (by simp; omega) (hdivided.undivided u hu) rfl
      have hpair : ∀ os ss, Divided .parentheses x os ss → ∀ τ, gauge (.start :: fill true σ) (lex x ++ [.closing .parentheses]) =
          some τ ↔ (PairsCombine x ∧ Combines os ss) ∧ τ = fill true σ := fun os ss hdivided =>
        hdivided.gauged (hgauged os ss hdivided) none (fill true σ)
      have hblank : Text.allBlank (Delimiters.parentheses.opening :: (x ++ Delimiters.parentheses.closing :: s)) = false := rfl
      rw [gauge_pair, Option.bind_eq_some_iff, pairsCombine_pair hx, hblank]
      constructor
      · rintro ⟨ρ, hρ, hτ⟩
        obtain ⟨⟨hpairs, -⟩, rfl⟩ := (hpair os ss hdivided ρ).1 hρ
        obtain ⟨hpairs', rfl⟩ := (ih s.length (by simp; omega) hs rfl _ _).1 hτ
        refine ⟨⟨⟨hpairs, fun os ss hdivided => ((hpair os ss hdivided _).1 hρ).1.2⟩, hpairs'⟩, by simp⟩
      · rintro ⟨⟨⟨hpairs, hcombines⟩, hpairs'⟩, rfl⟩
        refine ⟨_, (hpair os ss hdivided _).2 ⟨⟨hpairs, hcombines os ss hdivided⟩, rfl⟩, ?_⟩
        exact (ih s.length (by simp; omega) hs rfl _ _).2 ⟨hpairs', by simp⟩

/-! ## Texts -/

/-- The reading gets through a balanced text if the text is grammatical. -/
theorem gauge_iff (h : Balanced .parentheses t) : (∃ τ, gauge [] (lex t) = some τ) ↔ Grammatical t := by
  by_cases hundivided : Undivided .parentheses t
  · constructor
    · rintro ⟨τ, hτ⟩
      exact ⟨(undivided_iff h).1 hundivided, ((hundivided.gauged _ _).1 hτ).1⟩
    · exact fun hgrammatical => ⟨_, (hundivided.gauged _ _).2 ⟨hgrammatical.pairs, rfl⟩⟩
  · refine iff_of_false ?_ fun hgrammatical => hundivided ((undivided_iff h).2 hgrammatical.inside)
    rintro ⟨τ, hτ⟩
    refine hundivided ⟨h, fun l o r ho ht hl => ?_⟩
    -- no pair is open at the operator
    rw [ht, lex_append l (Sharp.token ho r), lex_token ho, gauge_append, Option.bind_eq_some_iff] at hτ
    obtain ⟨ρ, hρ, hτ⟩ := hτ
    obtain rfl : ρ = [] := List.eq_nil_of_length_eq_zero (gauge_length (hl.depth_eq 0) rfl hρ)
    cases hτ

end InstitutionalGrammar
