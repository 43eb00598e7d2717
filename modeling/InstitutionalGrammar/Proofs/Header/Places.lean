/-
  InstitutionalGrammar.Proofs.Header.Places — where headers stand in a text put together from parts.

  Whether a header ends at a delimiter is decided by what stands right before it.
  - `among?_clear`: no header ends at a delimiter right behind a clear text.
  - `among?_symbol`: a symbol behind a clear text is the header of its delimiter.
  - `allFrom_quiet`, `allFrom_symbol`: all shapes of a text, part by part.
-/

import InstitutionalGrammar.Proofs.Header.Parts

namespace InstitutionalGrammar

/-- Whether a word character stands before what follows `t`, when `w` tells it of what stands before `t`. -/
def wordAfter (w : Bool) (t : Text) : Bool := (t.getLast?.map isWord).getD w

theorem wordAfter_cons (w : Bool) (c : Char) (t : Text) : wordAfter w (c :: t) = wordAfter (isWord c) t := by
  cases t with
  | nil => rfl
  | cons d t => simp [wordAfter, List.getLast?_cons]

theorem Clear.wordAfter {t : Text} (h : Clear t) : wordAfter false t = false := by
  unfold InstitutionalGrammar.wordAfter
  cases ht : t.getLast? with
  | none => rfl
  | some c => exact (h c ht).2.1

namespace PlacedShape

theorem allFrom_cons (w : Bool) (off : Nat) (c : Char) (t : Text) (h : w = true ∨ Shape.read? (c :: t) = none) :
    allFrom w off (c :: t) = allFrom (isWord c) (off + c.utf8Size) t := by
  rw [allFrom]
  rcases h with h | h
  · simp [h]
  · simp [h]

theorem allFrom_quiet {x : Text} (h : Quiet x) (w : Bool) (off : Nat) (rest : Text) :
    allFrom w off (x ++ rest) = allFrom (wordAfter w x) (off + x.size) rest := by
  induction x generalizing w off with
  | nil => rfl
  | cons c x ih =>
    rw [List.cons_append, allFrom_cons w off c (x ++ rest) (Or.inr (read?_quiet h rest)), ih h.2, wordAfter_cons,
      Text.size_cons, Nat.add_assoc]

/-- The shapes of a text that starts with `u`: those that start in `u`, and then those of what
    follows it. -/
theorem allFrom_append (w : Bool) (off : Nat) (u v : Text) :
    ∃ ps, allFrom w off (u ++ v) = ps ++ allFrom (wordAfter w u) (off + u.size) v ∧
      ∀ p ∈ ps, ∃ a b : Text, u = a ++ b ∧ b ≠ [] ∧ p.start = off + a.size ∧ Shape.read? (b ++ v) = some p.shape := by
  induction u generalizing w off with
  | nil => exact ⟨[], rfl, nofun⟩
  | cons c u ih =>
    obtain ⟨ps, hps, hmem⟩ := ih (isWord c) (off + c.utf8Size)
    have hlater : ∀ p ∈ ps, ∃ a b : Text, c :: u = a ++ b ∧ b ≠ [] ∧ p.start = off + a.size ∧
        Shape.read? (b ++ v) = some p.shape := by
      intro p hp
      obtain ⟨a, b, rfl, hb, hstart, hread⟩ := hmem p hp
      exact ⟨c :: a, b, rfl, hb, by rw [hstart, Text.size_cons, Nat.add_assoc], hread⟩
    rw [wordAfter_cons, Text.size_cons, ← Nat.add_assoc, List.cons_append]
    by_cases hskip : w = true ∨ Shape.read? (c :: (u ++ v)) = none
    · exact ⟨ps, by rw [allFrom_cons _ _ _ _ hskip, hps], hlater⟩
    · have hw : w = false := by simpa using fun h => hskip (Or.inl h)
      obtain ⟨s, hs⟩ := Option.ne_none_iff_exists'.1 fun h => hskip (Or.inr h)
      refine ⟨⟨s, off⟩ :: ps, by simp [allFrom, hw, hs, hps], ?_⟩
      intro p hp
      rcases List.mem_cons.1 hp with e | hp
      · subst e; exact ⟨[], c :: u, rfl, by simp, rfl, by simpa using hs⟩
      · exact hlater p hp

/-- A shape is read where it starts, and no word character stands before it. -/
theorem mem_allFrom_iff {w : Bool} {off : Nat} {t : Text} {p : PlacedShape} : p ∈ allFrom w off t ↔
    ∃ a b, t = a ++ b ∧ p.start = off + Text.size a ∧ wordAfter w a = false ∧ Shape.read? b = some p.shape := by
  induction t generalizing w off with
  | nil =>
    constructor
    · nofun
    · rintro ⟨a, b, hab, -, -, hread⟩
      obtain ⟨-, rfl⟩ := List.append_eq_nil_iff.1 hab.symm
      cases hread
  | cons c t ih =>
    have hlater : (∃ a b, t = a ++ b ∧ p.start = off + c.utf8Size + Text.size a ∧ wordAfter (isWord c) a = false ∧
        Shape.read? b = some p.shape) ↔ ∃ a b, c :: t = (c :: a) ++ b ∧ p.start = off + Text.size (c :: a) ∧
        wordAfter w (c :: a) = false ∧ Shape.read? b = some p.shape := by
      simp only [wordAfter_cons, Text.size_cons, Nat.add_assoc, List.cons_append, List.cons.injEq, true_and]
    have hsplit : (∃ a b, c :: t = a ++ b ∧ p.start = off + Text.size a ∧ wordAfter w a = false ∧
        Shape.read? b = some p.shape) ↔ (p.start = off ∧ w = false ∧ Shape.read? (c :: t) = some p.shape) ∨
        p ∈ allFrom (isWord c) (off + c.utf8Size) t := by
      rw [ih, hlater]
      constructor
      · rintro ⟨a, b, hab, hstart, hw, hread⟩
        cases a with
        | nil =>
          rw [List.nil_append] at hab
          rw [← hab] at hread
          exact Or.inl ⟨hstart, hw, hread⟩
        | cons e a =>
          obtain ⟨rfl, -⟩ := List.cons.inj hab
          exact Or.inr ⟨a, b, hab, hstart, hw, hread⟩
      · rintro (⟨hstart, hw, hread⟩ | ⟨a, b, h⟩)
        · exact ⟨[], c :: t, rfl, hstart, hw, hread⟩
        · exact ⟨c :: a, b, h⟩
    rw [hsplit, allFrom]
    obtain ⟨s, start⟩ := p
    cases w with
    | true => simp
    | false => cases Shape.read? (c :: t) <;> simp [eq_comm, and_comm]

theorem read?_of_mem_allFrom {w : Bool} {off : Nat} {t : Text} {p : PlacedShape} (hp : p ∈ allFrom w off t) :
    ∃ a b : Text, t = a ++ b ∧ p.start = off + a.size ∧ Shape.read? b = some p.shape := by
  obtain ⟨a, b, ht, hstart, -, hread⟩ := mem_allFrom_iff.1 hp
  exact ⟨a, b, ht, hstart, hread⟩

end PlacedShape

/-! ## Headers in front of a delimiter -/

/-- A shape that starts in `b` and ends at the delimiter behind `b ++ v` has a lead that is `b ++ v`. -/
theorem lead_eq {s : Shape} {b v rest : Text} (d : Delimiters)
    (hread : Shape.read? (b ++ (v ++ d.opening :: rest)) = some s) (hsize : s.lead.size = b.size + v.size) : s.lead = b ++ v := by
  obtain ⟨tail, ht, -⟩ := read?_parts hread
  have h : s.lead ++ s.delimiter.opening :: tail = (b ++ v) ++ d.opening :: rest := by
    rw [Shape.lead, ← ht, List.append_assoc]
  exact (Text.append_inj_size h (by rw [hsize, Text.size_append])).1

/-- A shape that ends at a delimiter is read right in front of it. -/
theorem PlacedShape.ends_in_front {p : PlacedShape} {u v : Text} {d : Delimiters}
    (hp : p ∈ PlacedShape.all (u ++ d.opening :: v)) (hat : p.delimiterAt = u.size) :
    ∃ a, u = a ++ p.shape.lead ∧ p.start = a.size ∧ Shape.read? (p.shape.lead ++ d.opening :: v) = some p.shape := by
  obtain ⟨a, b, hab, hstart, hread⟩ := PlacedShape.read?_of_mem_allFrom hp
  obtain ⟨tail, ht, -⟩ := read?_parts hread
  rw [Nat.zero_add] at hstart
  have hsame : (a ++ p.shape.lead) ++ p.shape.delimiter.opening :: tail = u ++ d.opening :: v := by
    rw [hab, ht, Shape.lead, List.append_assoc]
  have hsize : Text.size (a ++ p.shape.lead) = u.size := by
    rw [← hat, PlacedShape.delimiterAt, hstart, Text.size_append]
  obtain ⟨hu, hbehind⟩ := Text.append_inj_size hsame hsize
  refine ⟨a, hu.symm, hstart, ?_⟩
  rw [← hbehind]
  rw [ht] at hread
  exact hread

/-- The last character of a lead is one of a suffix or the bracket that ends the annotation. -/
theorem lead_last {t : Text} {s : Shape} (hread : Shape.read? t = some s) :
    (∀ c ∈ s.lead, Suffix.isSuffixChar c = true) ∨ s.lead.getLast? = some ']' := by
  obtain ⟨rest, ht, hbase, hsuffix, hremark⟩ := read?_parts hread
  cases hm : s.remark with
  | none =>
    left
    intro c hc
    simp only [Shape.lead, hm, Option.getD_none, List.append_nil, List.mem_append] at hc
    rcases hc with hc | hc
    · exact List.all_eq_true.1 hbase.2 c hc
    · exact List.all_eq_true.1 hsuffix c hc
  | some r =>
    right
    obtain ⟨v, rfl, -⟩ := hremark r hm
    simp [Shape.lead, hm, List.getLast?_append, List.getLast?_cons]

theorem lead_ne_nil {t : Text} {s : Shape} (hread : Shape.read? t = some s) : s.lead ≠ [] := by
  obtain ⟨rest, ht, hbase, -⟩ := read?_parts hread
  simp [Shape.lead, hbase.1]

/-- A shape starts no earlier than the text it is found in, and its delimiter stands behind its start. -/
theorem PlacedShape.allFrom_bounds {p : PlacedShape} {w : Bool} {off : Nat} {t : Text} (hp : p ∈ allFrom w off t) :
    off ≤ p.start ∧ p.start < p.delimiterAt := by
  obtain ⟨a, b, -, hstart, hread⟩ := read?_of_mem_allFrom hp
  have hlead : p.shape.lead.size ≠ 0 := fun h => lead_ne_nil hread (Text.size_eq_zero.1 h)
  unfold delimiterAt
  omega

namespace Header

/-- No header ends at a delimiter right behind a clear text. -/
theorem among?_clear {u : Text} (h : Clear u) (d : Delimiters) (v : Text) :
    among? (PlacedShape.all (u ++ d.opening :: v)) u.size = none := by
  have hnone : (PlacedShape.all (u ++ d.opening :: v)).find? (·.delimiterAt = u.size) = none := by
    rw [List.find?_eq_none]
    intro p hp hat
    simp only [decide_eq_true_eq] at hat
    obtain ⟨a, hu, -, hread⟩ := PlacedShape.ends_in_front hp hat
    have hne := lead_ne_nil hread
    have hc := List.getLast?_eq_some_getLast hne
    have hclear := h _ (by rw [hu, List.getLast?_append, hc]; rfl)
    rcases lead_last hread with hl | hl
    · rw [hl _ (List.mem_of_getLast? hc)] at hclear
      cases hclear.1
    · rw [hl] at hc
      exact hclear.2.2 (Option.some.inj hc).symm
  rw [among?, hnone]
  rfl

end Header

/-! ## Symbols -/

namespace Component

/-- What a symbol adds to its base. -/
def marker (c : Component) : Text := if c.isProperty then [',', 'p'] else []

/-- The header of a bare symbol whose first character is at byte `off`. -/
def headerAt (c : Component) (off : Nat) (d : Delimiters) : Header := ⟨c, none, none, off, off + c.symbol.size, d⟩

/-- The shape of a bare symbol. -/
def shape (c : Component) (d : Delimiters) : Shape := ⟨c.base, c.marker, none, d⟩

theorem symbol_eq (c : Component) : c.symbol = c.base ++ c.marker := by cases c <;> rfl

theorem lead_shape (c : Component) (d : Delimiters) : (c.shape d).lead = c.symbol := by
  rw [symbol_eq, Shape.lead, shape]
  simp

theorem header?_symbol (c : Component) (d : Delimiters) (off : Nat) :
    PlacedShape.header? ⟨c.shape d, off⟩ = some (c.headerAt off d) := by
  cases c <;> cases d <;> rfl

theorem symbol_suffixChars (c : Component) : ∀ e ∈ c.symbol, Suffix.isSuffixChar e = true :=
  Text.forall_of_all (by cases c <;> decide)

theorem symbol_plain (c : Component) : ∀ e ∈ c.symbol, isReserved e = false :=
  Text.forall_of_all (by cases c <;> decide)

theorem symbol_ne_nil (c : Component) : c.symbol ≠ [] := by cases c <;> decide

/-- One header starts in a symbol with its delimiter, at its first character. -/
theorem allFrom_symbol (c : Component) (d : Delimiters) (off : Nat) (rest : Text) :
    PlacedShape.allFrom false off (c.symbol ++ d.opening :: rest) =
      ⟨c.shape d, off⟩ :: PlacedShape.allFrom false (off + c.symbol.size + 1) rest := by
  cases c <;> cases d <;> rfl

end Component

/-- A symbol behind a clear text is the header of its delimiter. -/
theorem Header.among?_symbol {u : Text} (h : Clear u) (c : Component) (d : Delimiters) (v : Text) :
    among? (PlacedShape.all (u ++ (c.symbol ++ d.opening :: v))) (u.size + c.symbol.size) =
      some (c.headerAt u.size d) := by
  obtain ⟨ps, hps, hmem⟩ := PlacedShape.allFrom_append false 0 u (c.symbol ++ d.opening :: v)
  rw [h.wordAfter, Nat.zero_add, c.allFrom_symbol] at hps
  have hnone : ps.find? (·.delimiterAt = u.size + c.symbol.size) = none := by
    rw [List.find?_eq_none]
    intro p hp hat
    simp only [decide_eq_true_eq] at hat
    obtain ⟨a, b, hab, hb, hstart, hread⟩ := hmem p hp
    have hlead := lead_eq d hread (by
      rw [PlacedShape.delimiterAt, hstart, hab, Text.size_append] at hat
      omega)
    have hlast : (b ++ c.symbol).getLast? ≠ some ']' := by
      rw [List.getLast?_append, List.getLast?_eq_some_getLast c.symbol_ne_nil]
      intro e
      have := c.symbol_suffixChars _ (List.getLast_mem c.symbol_ne_nil)
      rw [Option.some.inj e] at this
      exact absurd this (by decide)
    rcases lead_last hread with hl | hl
    · have hc := List.getLast?_eq_some_getLast hb
      have hclear := h _ (by rw [hab, List.getLast?_append, hc]; rfl)
      have := hl (b.getLast hb) (by rw [hlead]; simp)
      rw [hclear.1] at this
      cases this
    · rw [hlead] at hl
      exact hlast hl
  rw [among?, PlacedShape.all, hps, List.find?_append, hnone, Option.none_or, List.find?_cons]
  have hat : decide ((⟨c.shape d, u.size⟩ : PlacedShape).delimiterAt = u.size + c.symbol.size) = true := by
    simp [PlacedShape.delimiterAt, c.lead_shape]
  rw [hat]
  exact c.header?_symbol d u.size

end InstitutionalGrammar
