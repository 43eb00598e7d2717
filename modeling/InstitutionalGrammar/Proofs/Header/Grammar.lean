/-
  InstitutionalGrammar.Proofs.Header.Grammar — the written forms of headers, apart from how they are read.

  The reader takes the longest run of suffix characters and decides at once. Nothing is lost by that:
  what it reads are exactly the texts of the grammar, and a text starts with one of them at most.
  - `Suffix.isWritten_iff`: suffixes are segments with commas between them.
  - `Shape.read?_iff`: a shape is read where its written form stands, and nowhere else.
  - `Shape.overlap`: of two shapes that overlap, both end at one delimiter, or the later one stands in
    the annotation of the earlier.
-/

import InstitutionalGrammar.Proofs.Header.Leads

namespace InstitutionalGrammar

open Suffix (isSuffixChar isTail)

/-! ## Suffixes -/

namespace Suffix

variable {t : Text}

/-- The first segment: none at all, or one that starts with a digit, a capital or an underscore. -/
def Leading : Text → Prop
  | [] => True
  | c :: r => (c.isDigit = true ∨ c.isUpper = true ∨ c = '_') ∧ ∀ e ∈ r, isTail e = true

/-- A later segment. -/
def Trailing (t : Text) : Prop := t ≠ [] ∧ ∀ e ∈ t, isTail e = true

theorem isTail_comma : isTail ',' = false := by decide

theorem Leading.tails (h : Leading t) : ∀ e ∈ t, isTail e = true := by
  cases t with
  | nil => nofun
  | cons c r =>
    intro e he
    rcases List.mem_cons.1 he with rfl | he
    · show (e.isUpper || e.isLower || e.isDigit || e = '_') = true
      rcases h.1 with h | h | h <;> simp [h]
    · exact h.2 e he

theorem comma_not_mem (h : ∀ e ∈ t, isTail e = true) : ',' ∉ t := by
  intro hmem
  have := h ',' hmem
  rw [isTail_comma] at this
  cases this

theorem Trailing.segment (h : Trailing t) : Segment t := ⟨h.1, comma_not_mem h.2⟩

/-- The segments between the commas of a written suffix. -/
theorem pieces_written {first : Text} {later : List Text} (hfirst : Leading first)
    (hlater : ∀ s ∈ later, Trailing s) :
    Text.pieces ',' (Text.join [','] (first :: later)) = first :: later := by
  refine Text.pieces_join (fun s hs => ?_) (by simp)
  rcases List.mem_cons.1 hs with rfl | hs
  · exact comma_not_mem hfirst.tails
  · exact comma_not_mem (hlater s hs).2

theorem isWritten_pieces {first : Text} {later : List Text} (hp : Text.pieces ',' t = first :: later) :
    isWritten t = true ↔ Leading first ∧ ∀ s ∈ later, Trailing s := by
  unfold isWritten
  rw [hp]
  cases first <;> simp [Leading, Trailing, or_assoc]

theorem isWritten_iff : isWritten t = true ↔
    ∃ first later, t = Text.join [','] (first :: later) ∧ Leading first ∧ ∀ s ∈ later, Trailing s := by
  constructor
  · intro h
    obtain ⟨first, later, hp⟩ := List.exists_cons_of_ne_nil (Text.pieces_ne_nil ',' t)
    refine ⟨first, later, ?_, (isWritten_pieces hp).1 h⟩
    rw [← hp, Text.join_pieces]
  · rintro ⟨first, later, rfl, hfirst, hlater⟩
    exact (isWritten_pieces (pieces_written hfirst hlater)).2 ⟨hfirst, hlater⟩

theorem isWritten_suffixChars (h : isWritten t = true) : ∀ c ∈ t, isSuffixChar c = true := by
  obtain ⟨first, later, rfl, hfirst, hlater⟩ := isWritten_iff.1 h
  intro c hc
  unfold isSuffixChar
  rw [Bool.or_eq_true, decide_eq_true_eq]
  rw [Text.join_cons, List.mem_append, List.mem_flatMap] at hc
  rcases hc with hc | ⟨s, hs, hc⟩
  · exact Or.inl (hfirst.tails c hc)
  · rcases List.mem_cons.1 hc with rfl | hc
    · exact Or.inr rfl
    · exact Or.inl ((hlater s hs).2 c hc)

end Suffix

/-! ## Shapes -/

theorem Component.bases_apart {b b' : Text} (hb : b ∈ bases) (hb' : b' ∈ bases) (h : b <+: b') : b = b' := by
  have hall : ∀ b ∈ bases, ∀ b' ∈ bases, b <+: b' → b = b' := by decide
  exact hall b hb b' hb' h

namespace Shape

variable {b run t u x : Text} {c : Char} {m p s : Shape}

/-- The parts are as the grammar has them. -/
structure Sound (s : Shape) : Prop where
  base : s.base ∈ Component.bases
  suffix : Suffix.isWritten s.suffix = true
  remark : ∀ r ∈ s.remark, ∃ v, r = '[' :: v ++ [']'] ∧ ∀ c ∈ v, isBracket c = false

theorem opening_suffixChar (d : Delimiters) : isSuffixChar d.opening = false := by cases d <;> decide

/-- A run of suffix characters has one symbol at most, for no symbol starts with another. -/
theorem symbol?_iff : symbol? run = some (b, u) ↔ b ∈ Component.bases ∧ run = b ++ u ∧ Suffix.isWritten u = true := by
  constructor
  · intro h
    have hrun := symbol?_append h
    unfold symbol? at h
    split at h
    · cases h
    · rename_i base hbase
      split at h
      · rename_i hwritten
        cases h
        exact ⟨List.mem_of_find?_eq_some hbase, hrun.symm, hwritten⟩
      · cases h
  · rintro ⟨hb, rfl, hu⟩
    have hfind : Component.bases.find? (·.isPrefixOf (b ++ u)) = some b := by
      cases hfound : Component.bases.find? (·.isPrefixOf (b ++ u)) with
      | none => exact absurd (List.isPrefixOf_iff_prefix.2 (List.prefix_append b u)) (List.find?_eq_none.1 hfound b hb)
      | some b' =>
        have hprefix := List.find?_some hfound
        rw [List.isPrefixOf_iff_prefix] at hprefix
        have hb' := List.mem_of_find?_eq_some hfound
        rcases List.prefix_or_prefix_of_prefix hprefix (List.prefix_append b u) with h | h
        · rw [Component.bases_apart hb' hb h]
        · rw [Component.bases_apart hb hb' h]
    unfold symbol?
    rw [hfind]
    simp only [List.drop_left, if_pos hu]

/-- What is read of a text when its run of suffix characters is known. -/
theorem read?_run (hrun : ∀ e ∈ run, isSuffixChar e = true) (hc : isSuffixChar c = false) :
    read? (run ++ c :: t) = some s ↔ symbol? run = some (s.base, s.suffix) ∧
      ∃ rest, readRemark? (c :: t) = some (s.remark, rest) ∧ readDelimiter? rest = some s.delimiter := by
  have htake : (run ++ c :: t).takeWhile isSuffixChar = run := by
    rw [List.takeWhile_append_of_pos hrun, List.takeWhile_cons, if_neg (by simp [hc]), List.append_nil]
  have hdrop : (run ++ c :: t).dropWhile isSuffixChar = c :: t := by
    rw [List.dropWhile_append_of_pos hrun, List.dropWhile_cons, if_neg (by simp [hc])]
  rw [read?_eq, htake, hdrop]
  simp only [Option.bind_eq_some_iff, Option.map_eq_some_iff, Prod.exists]
  constructor
  · rintro ⟨b, u, hsymbol, remark, rest, hremark, d, hd, rfl⟩
    exact ⟨hsymbol, rest, hremark, hd⟩
  · rintro ⟨hsymbol, rest, hremark, hd⟩
    exact ⟨s.base, s.suffix, hsymbol, s.remark, rest, hremark, s.delimiter, hd, rfl⟩

namespace Sound

theorem run_suffixChars (h : s.Sound) : ∀ e ∈ s.base ++ s.suffix, isSuffixChar e = true := by
  intro e he
  rcases List.mem_append.1 he with he | he
  · exact List.all_eq_true.1 (base_suffixChars h.base).2 e he
  · exact Suffix.isWritten_suffixChars h.suffix e he

/-- The run ends at the annotation, or at the delimiter if there is none. -/
theorem behind (h : s.Sound) (rest : Text) :
    ∃ c t, s.remark.getD [] ++ s.delimiter.opening :: rest = c :: t ∧ isSuffixChar c = false ∧
      readRemark? (c :: t) = some (s.remark, s.delimiter.opening :: rest) := by
  cases hm : s.remark with
  | none =>
    refine ⟨s.delimiter.opening, rest, rfl, opening_suffixChar _, ?_⟩
    cases s.delimiter <;> rfl
  | some r =>
    obtain ⟨v, rfl, hv⟩ := h.remark r hm
    have hsplit : '[' :: v ++ [']'] ++ s.delimiter.opening :: rest = '[' :: (v ++ ']' :: s.delimiter.opening :: rest) := by
      simp
    exact ⟨'[', _, hsplit, by decide, readRemark?_closed hv _⟩

end Sound

theorem readDelimiter?_opening (d : Delimiters) (t : Text) : readDelimiter? (d.opening :: t) = some d := by
  cases d <;> rfl

theorem written_append (s : Shape) (rest : Text) :
    s.written ++ rest = (s.base ++ s.suffix) ++ (s.remark.getD [] ++ s.delimiter.opening :: rest) := by
  simp [written, lead]

/-- The reader finds the shape that the text starts with, whatever stands behind it. -/
theorem read?_iff : read? t = some s ↔ s.Sound ∧ ∃ rest, t = s.written ++ rest := by
  constructor
  · intro h
    obtain ⟨rest, ht, -, -, hremark⟩ := read?_parts h
    have hsymbol : symbol? (t.takeWhile isSuffixChar) = some (s.base, s.suffix) := by
      rw [read?_eq] at h
      obtain ⟨⟨b, u⟩, hx, h⟩ := Option.bind_eq_some_iff.1 h
      obtain ⟨r, -, h⟩ := Option.bind_eq_some_iff.1 h
      obtain ⟨d, -, rfl⟩ := Option.map_eq_some_iff.1 h
      exact hx
    obtain ⟨hbase, -, hsuffix⟩ := symbol?_iff.1 hsymbol
    refine ⟨⟨hbase, hsuffix, hremark⟩, rest, ?_⟩
    rw [ht, written_append]
    simp
  · rintro ⟨hs, rest, rfl⟩
    obtain ⟨c, t, hbehind, hc, hremark⟩ := hs.behind rest
    rw [written_append, hbehind, read?_run hs.run_suffixChars hc]
    exact ⟨symbol?_iff.2 ⟨hs.base, rfl, hs.suffix⟩, _, hremark, readDelimiter?_opening _ rest⟩

/-! ## Overlap -/

theorem size_lead (s : Shape) : s.lead.size = Text.size (s.base ++ s.suffix) + Text.size (s.remark.getD []) :=
  Text.size_append _ _

/-- Nothing is read right in front of a delimiter or of the bracket that ends an annotation. -/
theorem read?_break (hc : isSuffixChar c = false) (t : Text) : read? (c :: t) = none := by
  cases h : read? (c :: t) with
  | none => rfl
  | some s =>
    have hempty : ∀ e ∈ ([] : Text), isSuffixChar e = true := nofun
    obtain ⟨hsymbol, -⟩ := (read?_run hempty hc).1 h
    have hnil := symbol?_append hsymbol
    exact absurd (List.append_eq_nil_iff.1 hnil).1 (base_suffixChars (symbol?_iff.1 hsymbol).1).1

/-- A shape that starts in the run of another one ends where that one does. -/
theorem overlap_run (hm : m.Sound) {rest : Text} (hrun : m.base ++ m.suffix = x ++ u)
    (hp : read? (u ++ (m.remark.getD [] ++ m.delimiter.opening :: rest)) = some p) :
    p.lead = u ++ m.remark.getD [] := by
  obtain ⟨c, t, hbehind, hc, hremark⟩ := hm.behind rest
  have hu : ∀ e ∈ u, isSuffixChar e = true := fun e he =>
    hm.run_suffixChars e (by rw [hrun]; exact List.mem_append_right _ he)
  rw [hbehind] at hp
  obtain ⟨hsymbol, r, hr, -⟩ := (read?_run hu hc).1 hp
  rw [hremark] at hr
  obtain ⟨hsame, -⟩ := Prod.mk.inj (Option.some.inj hr)
  rw [lead, symbol?_append hsymbol, ← hsame]

theorem readDelimiter?_eq_none (hc : isOpening c = false) (t : Text) : readDelimiter? (c :: t) = none := by
  obtain ⟨hparentheses, hbraces⟩ : c ≠ Delimiters.parentheses.opening ∧ c ≠ Delimiters.braces.opening := by
    simpa [isOpening] using hc
  rw [readDelimiter?, if_neg hparentheses, if_neg hbraces]

/-- A shape that starts in a text without brackets ends there if what follows is no part of one. -/
theorem read?_stops (hu : ∀ e ∈ u, isBracket e = false) (hc : isSuffixChar c = false)
    (hstop : c ≠ '[' ∧ isOpening c = false) (hp : read? (u ++ c :: t) = some p) : p.lead.size < Text.size u := by
  obtain ⟨run, rest, rfl, hrun, hrest⟩ : ∃ run rest, u = run ++ rest ∧ (∀ e ∈ run, isSuffixChar e = true) ∧
      ∀ e ∈ rest.head?, isSuffixChar e = false := by
    refine ⟨u.takeWhile isSuffixChar, u.dropWhile isSuffixChar, List.takeWhile_append_dropWhile.symm,
      List.all_eq_true.1 List.all_takeWhile, fun e he => ?_⟩
    have hbreak := List.head?_dropWhile_not isSuffixChar u
    rw [Option.mem_def.1 he] at hbreak
    exact hbreak
  cases rest with
  | nil =>
    -- the run reaches to the end, where nothing goes on
    rw [List.append_nil] at hp
    obtain ⟨-, rest, hr, hd⟩ := (read?_run hrun hc).1 hp
    rw [readRemark?_of_ne hstop.1] at hr
    obtain ⟨-, rfl⟩ := Prod.mk.inj (Option.some.inj hr)
    rw [readDelimiter?_eq_none hstop.2] at hd
    cases hd
  | cons e v =>
    have hopen : e ≠ '[' := by
      rintro rfl
      exact absurd (hu '[' (by simp)) (by decide)
    rw [List.append_assoc, List.cons_append] at hp
    obtain ⟨hsymbol, rest, hr, -⟩ := (read?_run hrun (hrest e rfl)).1 hp
    rw [readRemark?_of_ne hopen] at hr
    have hremark : p.remark = none := (Prod.mk.inj (Option.some.inj hr)).1.symm
    have := e.utf8Size_pos
    rw [size_lead, symbol?_append hsymbol, hremark, Text.size_append, Text.size_cons]
    simp only [Option.getD_none, Text.size_nil]
    omega

/-- Of two shapes that overlap, the later one ends with the earlier or stands in its annotation. -/
theorem overlap (hm : read? (x ++ t) = some m) (hp : read? t = some p) (hle : x.size ≤ m.lead.size) :
    x.size + p.lead.size = m.lead.size ∨
      m.remark.isSome = true ∧ Text.size (m.base ++ m.suffix) < x.size ∧ x.size + p.lead.size + 1 < m.lead.size := by
  obtain ⟨hsound, rest, htext⟩ := read?_iff.1 hm
  rw [written_append] at htext
  by_cases hin : x.size ≤ Text.size (m.base ++ m.suffix)
  · left
    obtain ⟨u, hu, rfl⟩ := Text.append_inj_size_le htext hin
    rw [overlap_run hsound hu hp, size_lead, hu, Text.size_append, Text.size_append]
    omega
  · right
    obtain ⟨w, rfl, ht⟩ := Text.append_inj_size_le htext.symm (by omega)
    rw [Text.size_append] at hin hle
    have hlead := m.size_lead
    obtain ⟨y, hy, rfl⟩ := Text.append_inj_size_le ht.symm (by omega)
    rcases List.eq_nil_or_concat' y with rfl | ⟨u, e, rfl⟩
    · -- it would start with the delimiter
      rw [List.nil_append, read?_break (opening_suffixChar _)] at hp
      cases hp
    cases hremark : m.remark with
    | none =>
      rw [hremark] at hy
      simp at hy
    | some r =>
      obtain ⟨v, rfl, hv⟩ := hsound.remark r hremark
      rw [hremark, Option.getD_some, ← List.append_assoc] at hy
      obtain ⟨hopen, he⟩ := List.append_inj' hy rfl
      obtain rfl := List.singleton_inj.1 he
      cases w with
      | nil => simp at hin
      | cons c w =>
        obtain ⟨rfl, hsplit⟩ : '[' = c ∧ v = w ++ u := List.cons.inj hopen
        rw [hsplit] at hv
        have hends := read?_stops (c := ']') (fun e he => hv e (List.mem_append_right _ he)) (by decide) (by decide)
          (by simpa using hp)
        rw [hremark, hsplit] at hlead
        simp only [Option.getD_some, Text.size_append, Text.size_cons, Text.size_nil] at hlead hin hle hends ⊢
        have hbracket : ']'.utf8Size = 1 := rfl
        exact ⟨rfl, by omega, by omega⟩

end Shape

end InstitutionalGrammar
