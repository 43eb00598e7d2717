/-
  InstitutionalGrammar.Proofs.Text.Open — the delimiters that a text leaves open.

  A text is read from left to right with the kinds of the open delimiters on a stack. It is nested if it
  closes all that it opens and nothing else, so of the parts of a nested text each is nested if the
  others are, and a part can be exchanged for another nested one.
  - `wellNested_iff`: nested texts, by what they leave open.
  - `WellNested.behind`, `WellNested.exchange`: parts of nested texts.
  - `WellNested.closes_behind`, `WellNested.closes_once`: where a delimiter closes.
  - `WellNested.apart`: two enclosed texts lie one behind the other or one inside the other.
  - `Place`: where a pair of delimiters can stand beside and around a nested part.
-/

import InstitutionalGrammar.Proofs.Text.Nested

namespace InstitutionalGrammar

/-- The open delimiters behind a character, innermost first; none if it closes another one than the innermost. -/
def turnOpen (st : List Delimiters) (c : Char) : Option (List Delimiters) :=
  if c = Delimiters.parentheses.opening then some (.parentheses :: st)
  else if c = Delimiters.braces.opening then some (.braces :: st)
  else if isClosing c then match st with
    | [] => none
    | d :: st => if c = d.closing then some st else none
  else some st

/-- The delimiters that are open behind a text, if those of `st` are open in front of it. -/
def leftOpen (st : List Delimiters) (t : Text) : Option (List Delimiters) := t.foldlM turnOpen st

variable {d e : Delimiters} {st st' : List Delimiters} {a b t x y : Text}

theorem turnOpen_opening (d : Delimiters) (st : List Delimiters) : turnOpen st d.opening = some (d :: st) := by
  cases d <;> rfl

theorem turnOpen_closing (d : Delimiters) (st : List Delimiters) : turnOpen (d :: st) d.closing = some st := by
  cases d <;> rfl

theorem turnOpen_char {c : Char} (hc : isDelimiter c = false) (st : List Delimiters) : turnOpen st c = some st := by
  have hclosing : isClosing c = false := (Bool.or_eq_false_iff.1 hc).2
  unfold turnOpen
  rw [if_neg (ne_opening hc .parentheses), if_neg (ne_opening hc .braces), hclosing]
  rfl

/-- Only the innermost delimiter can close. -/
theorem turnOpen_closing_eq (h : turnOpen st d.closing = some st') : st = d :: st' := by
  cases st with
  | nil => cases d <;> cases h
  | cons e st =>
    cases d <;> cases e <;> cases h <;> rfl

@[simp] theorem leftOpen_nil (st : List Delimiters) : leftOpen st [] = some st := rfl

theorem leftOpen_cons (c : Char) : leftOpen st (c :: t) = (turnOpen st c).bind fun st' => leftOpen st' t := rfl

theorem leftOpen_append (st : List Delimiters) (a b : Text) :
    leftOpen st (a ++ b) = (leftOpen st a).bind fun st' => leftOpen st' b := List.foldlM_append

theorem leftOpen_opening (d : Delimiters) (st : List Delimiters) (t : Text) :
    leftOpen st (d.opening :: t) = leftOpen (d :: st) t := by
  rw [leftOpen_cons, turnOpen_opening, Option.bind_some]

theorem leftOpen_closing (h : leftOpen st (d.closing :: t) = some st') :
    ∃ rest, st = d :: rest ∧ leftOpen rest t = some st' := by
  rw [leftOpen_cons] at h
  obtain ⟨rest, hrest, hbehind⟩ := Option.bind_eq_some_iff.1 h
  exact ⟨rest, turnOpen_closing_eq hrest, hbehind⟩

/-- What is open further out stays open. -/
theorem leftOpen_deeper (h : leftOpen st t = some st') (outer : List Delimiters) :
    leftOpen (st ++ outer) t = some (st' ++ outer) := by
  induction t generalizing st with
  | nil =>
    cases h
    rfl
  | cons c t ih =>
    rw [leftOpen_cons] at h ⊢
    obtain ⟨mid, hmid, hbehind⟩ := Option.bind_eq_some_iff.1 h
    have hturn : turnOpen (st ++ outer) c = some (mid ++ outer) := by
      unfold turnOpen at hmid ⊢
      by_cases h1 : c = Delimiters.parentheses.opening
      · rw [if_pos h1] at hmid ⊢
        cases hmid
        rfl
      · rw [if_neg h1] at hmid ⊢
        by_cases h2 : c = Delimiters.braces.opening
        · rw [if_pos h2] at hmid ⊢
          cases hmid
          rfl
        · rw [if_neg h2] at hmid ⊢
          by_cases h3 : isClosing c = true
          · rw [if_pos h3] at hmid ⊢
            cases st with
            | nil => cases hmid
            | cons e st =>
              simp only [List.cons_append] at hmid ⊢
              by_cases h4 : c = e.closing
              · rw [if_pos h4] at hmid ⊢
                cases hmid
                rfl
              · rw [if_neg h4] at hmid
                cases hmid
          · rw [if_neg h3] at hmid ⊢
            cases hmid
            rfl
    rw [hturn, Option.bind_some]
    exact ih hbehind

/-! ## Nested texts -/

theorem WellNested.leftOpen_eq (h : WellNested t) (st : List Delimiters) : leftOpen st t = some st := by
  induction h generalizing st with
  | nil => rfl
  | char hc _ ih =>
    rw [leftOpen_cons, turnOpen_char hc, Option.bind_some]
    exact ih st
  | @enclosed d a t _ _ iha iht =>
    rw [leftOpen_opening, leftOpen_append, iha, Option.bind_some, leftOpen_cons, turnOpen_closing, Option.bind_some]
    exact iht st

/-- The text closes these delimiters, innermost first, and is nested otherwise. -/
def Closes : List Delimiters → Text → Prop
  | [], t => WellNested t
  | d :: st, t => ∃ a b, t = a ++ d.closing :: b ∧ WellNested a ∧ Closes st b

theorem Closes.prepend (ha : WellNested a) (h : Closes st b) : Closes st (a ++ b) := by
  cases st with
  | nil => exact ha.append h
  | cons d st =>
    obtain ⟨x, y, rfl, hx, hy⟩ := h
    exact ⟨a ++ x, y, by simp, ha.append hx, hy⟩

theorem closes_of_leftOpen (h : leftOpen st t = some []) : Closes st t := by
  induction t generalizing st with
  | nil =>
    obtain rfl : st = [] := Option.some.inj h
    exact .nil
  | cons c t ih =>
    by_cases hc : isDelimiter c = false
    · rw [leftOpen_cons, turnOpen_char hc, Option.bind_some] at h
      exact Closes.prepend (a := [c]) (.char hc .nil) (ih h)
    · obtain ⟨d, rfl | rfl⟩ := exists_delimiter (by simpa using hc)
      · rw [leftOpen_opening] at h
        obtain ⟨x, y, rfl, hx, hy⟩ := ih h
        have henclosed := Closes.prepend (.enclosed (d := d) hx .nil) hy
        simpa using henclosed
      · obtain ⟨rest, rfl, hbehind⟩ := leftOpen_closing h
        exact ⟨[], t, rfl, .nil, ih hbehind⟩

/-- A text is nested if it leaves nothing open. -/
theorem wellNested_iff : WellNested t ↔ leftOpen [] t = some [] :=
  ⟨fun h => h.leftOpen_eq [], closes_of_leftOpen⟩

namespace WellNested

/-- What a part of a nested text leaves open. -/
theorem exists_leftOpen (h : WellNested (a ++ b)) : ∃ st, leftOpen [] a = some st := by
  have hall := h.leftOpen_eq []
  rw [leftOpen_append] at hall
  obtain ⟨st, hst, -⟩ := Option.bind_eq_some_iff.1 hall
  exact ⟨st, hst⟩

theorem behind (h : WellNested (a ++ b)) (ha : WellNested a) : WellNested b := by
  have hall := h.leftOpen_eq []
  rw [leftOpen_append, ha.leftOpen_eq, Option.bind_some] at hall
  exact wellNested_iff.2 hall

/-- One nested part for another. -/
theorem exchange (h : WellNested (a ++ (x ++ b))) (hx : WellNested x) (hy : WellNested y) : WellNested (a ++ (y ++ b)) := by
  have hall := h.leftOpen_eq []
  rw [leftOpen_append] at hall
  obtain ⟨st, hst, hbehind⟩ := Option.bind_eq_some_iff.1 hall
  rw [leftOpen_append, hx.leftOpen_eq, Option.bind_some] at hbehind
  rw [wellNested_iff, leftOpen_append, hst, Option.bind_some, leftOpen_append, hy.leftOpen_eq, Option.bind_some, hbehind]

/-- No nested text ends behind a delimiter that it has opened and not closed. -/
theorem not_open (h : WellNested (a ++ d.opening :: b)) (hb : leftOpen [] b = some st) : False := by
  have hall := h.leftOpen_eq []
  rw [leftOpen_append] at hall
  obtain ⟨st', -, hbehind⟩ := Option.bind_eq_some_iff.1 hall
  have hdeeper := leftOpen_deeper hb (d :: st')
  rw [leftOpen_opening, ← List.nil_append (d :: st'), hdeeper] at hbehind
  simp at hbehind

/-- A delimiter behind a nested text closes behind any other one that starts there. -/
theorem closes_behind (hx : WellNested x) (hy : WellNested y) (h : x ++ d.closing :: b = y ++ a) : ∃ u, x = y ++ u := by
  rcases List.append_eq_append_iff.1 h with ⟨u, rfl, hu⟩ | ⟨u, rfl, -⟩
  · cases u with
    | nil => exact ⟨[], by simp⟩
    | cons c u =>
      obtain ⟨rfl, -⟩ := List.cons.inj hu
      obtain ⟨rest, hrest, -⟩ := leftOpen_closing ((hy.behind hx).leftOpen_eq [])
      cases hrest
  · exact ⟨u, rfl⟩

/-- A delimiter closes at one place only. -/
theorem closes_once (hx : WellNested x) (hy : WellNested y) (h : x ++ d.closing :: a = y ++ d.closing :: b) :
    x = y ∧ a = b := by
  obtain ⟨u, rfl⟩ := closes_behind hx hy h
  obtain ⟨v, hv⟩ := closes_behind hy hx h.symm
  have hnil : u ++ v = [] := by simpa using hv.symm
  obtain ⟨rfl, -⟩ := List.append_eq_nil_iff.1 hnil
  rw [List.append_nil] at h ⊢
  exact ⟨rfl, (List.cons.inj (List.append_cancel_left h)).2⟩

/-- What one pair of delimiters encloses behind the start of another pair lies inside that one or behind it. -/
theorem apart {v : Text} (hx : WellNested x) (hy : WellNested y)
    (h : x ++ e.closing :: b = v ++ d.opening :: (y ++ d.closing :: t)) :
    (∃ u, x = v ++ d.opening :: (y ++ d.closing :: u) ∧ t = u ++ e.closing :: b) ∨
      ∃ u, v = x ++ e.closing :: u ∧ b = u ++ d.opening :: (y ++ d.closing :: t) := by
  rcases Text.append_cons_split (d.opening_ne_closing e).symm h with ⟨u, rfl, hu⟩ | hbehind
  · obtain ⟨inner, rest, rfl, hinner⟩ := hx.behind_opening
    have hinside : y ++ d.closing :: t = inner ++ d.closing :: (rest ++ e.closing :: b) := by simpa using hu
    obtain ⟨rfl, rfl⟩ := hy.closes_once hinner hinside
    exact Or.inl ⟨rest, rfl, rfl⟩
  · exact Or.inr hbehind

/-- A pair of delimiters stands on one side of a character that is none, if the text in front of that is nested. -/
theorem beside {c : Char} {u v : Text} (hu : WellNested u) (hx : WellNested x) (hc : isDelimiter c = false)
    (h : a ++ d.opening :: (x ++ d.closing :: b) = u ++ c :: v) :
    (∃ w, u = a ++ d.opening :: (x ++ d.closing :: w)) ∨
      ∃ w, a = u ++ c :: w ∧ v = w ++ d.opening :: (x ++ d.closing :: b) := by
  rcases Text.append_cons_split (ne_opening hc d).symm h with hbehind | ⟨m, rfl, hm⟩
  · exact Or.inr hbehind
  · obtain ⟨inner, rest, rfl, hinner⟩ := hu.behind_opening
    have hclose : x ++ d.closing :: b = inner ++ d.closing :: (rest ++ c :: v) := by simpa using hm
    obtain ⟨rfl, -⟩ := hx.closes_once hinner hclose
    exact Or.inl ⟨rest, rfl⟩

end WellNested

/-! ## Places -/

/-- Where a pair of delimiters behind `q`, with `x` inside, can stand in the text that has `a`, an opening delimiter,
    `y` and `r` one behind the other: in one of the parts, or around the nested `y`. -/
inductive Place (d : Delimiters) (a y r q x : Text) : Prop
  | before (m : Text) : a = q ++ d.opening :: (x ++ d.closing :: m) → Place d a y r q x
  | around (m w : Text) : a = q ++ d.opening :: m → x = m ++ d.opening :: (y ++ w) → Place d a y r q x
  | same (w : Text) : a = q → x = y ++ w → Place d a y r q x
  | inside (u w : Text) : q = a ++ d.opening :: u → y = u ++ d.opening :: (x ++ d.closing :: w) → Place d a y r q x
  | behind (u w : Text) : q = a ++ d.opening :: (y ++ u) → r = u ++ d.opening :: (x ++ d.closing :: w) → Place d a y r q x

theorem Place.of_eq {q r : Text} (hx : WellNested x) (hy : WellNested y)
    (h : q ++ d.opening :: (x ++ d.closing :: b) = a ++ d.opening :: (y ++ r)) : Place d a y r q x := by
  rcases List.append_eq_append_iff.1 h with ⟨m, rfl, hm⟩ | ⟨m, rfl, hm⟩
  · cases m with
    | nil =>
      obtain ⟨w, hw⟩ := hx.closes_behind hy (List.cons.inj hm).2
      exact .same w (List.append_nil q) hw
    | cons c m =>
      obtain ⟨rfl, hrest⟩ := List.cons.inj hm
      rcases Text.append_cons_split (d.opening_ne_closing d).symm hrest with ⟨v, rfl, hinside⟩ | ⟨v, rfl, -⟩
      · rcases List.append_eq_append_iff.1 hinside with ⟨w, rfl, -⟩ | ⟨w, rfl, -⟩
        · exact .around m w rfl rfl
        · -- the pair would close in the nested part
          obtain ⟨st, hst⟩ := hy.exists_leftOpen
          exact (hx.not_open hst).elim
      · exact .before v rfl
  · cases m with
    | nil =>
      obtain ⟨w, hw⟩ := hx.closes_behind hy (List.cons.inj hm).2.symm
      exact .same w (List.append_nil a).symm hw
    | cons c m =>
      obtain ⟨rfl, hrest⟩ := List.cons.inj hm
      rcases List.append_eq_append_iff.1 hrest with ⟨v, rfl, hv⟩ | ⟨v, rfl, hv⟩
      · exact .behind v b rfl hv
      · cases v with
        | nil => exact .behind [] b (by simp) hv.symm
        | cons c v =>
          obtain ⟨rfl, hinside⟩ := List.cons.inj hv
          obtain ⟨inner, rest, rfl, hinner⟩ := hy.behind_opening
          have hclose : x ++ d.closing :: b = inner ++ d.closing :: (rest ++ r) := by simpa using hinside
          obtain ⟨rfl, -⟩ := hx.closes_once hinner hclose
          exact .inside m rest rfl rfl

end InstitutionalGrammar
