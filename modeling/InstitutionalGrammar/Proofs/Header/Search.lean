/-
  InstitutionalGrammar.Proofs.Header.Search — the three ways of finding a header agree.

  One search goes from left to right and passes what it found, one looks for the header that ends at an
  offset, one reads at the start of a text. The shapes of a text are the same for all three, and two of
  them that overlap end together unless one stands in the annotation of the other (`PlacedShape.overlap`).
  So a search from the left hides nothing but what an annotation holds.
  - `PlacedShape.find?_leftmost`: the search for an end takes the first start.
  - `PlacedShape.disjointFrom_apart`, `PlacedShape.disjointFrom_hides`: what the search from the left
    passes, and what it leaves out.
  - `headers_agree`: the agreement.
-/

import InstitutionalGrammar.Proofs.Header.Grammar

namespace InstitutionalGrammar

variable {text : Text}

namespace PlacedShape

variable {ps : List PlacedShape} {m p q : PlacedShape} {stop : Nat}

/-! ## The shapes of a text -/

/-- A shape of the text is read where it starts, and no word character stands before it. -/
theorem mem_all_iff : p ∈ all text ↔
    ∃ a b, text = a ++ b ∧ p.start = Text.size a ∧ wordAfter false a = false ∧ Shape.read? b = some p.shape := by
  rw [all, mem_allFrom_iff]
  simp only [Nat.zero_add]

theorem allFrom_increasing (w : Bool) (off : Nat) (t : Text) : (allFrom w off t).Pairwise (·.start < ·.start) := by
  induction t generalizing w off with
  | nil => exact List.Pairwise.nil
  | cons c t ih =>
    rw [allFrom]
    split
    · exact ih _ _
    · split
      · refine List.pairwise_cons.2 ⟨fun q hq => ?_, ih _ _⟩
        have hstart := (allFrom_bounds hq).1
        have := c.utf8Size_pos
        show off < q.start
        omega
      · exact ih _ _

/-- One shape starts at a byte at most. -/
theorem all_start_inj (hp : p ∈ all text) (hq : q ∈ all text) (h : p.start = q.start) : p = q := by
  obtain ⟨a, b, rfl, ha, -, hread⟩ := mem_all_iff.1 hp
  obtain ⟨a', b', hab, ha', -, hread'⟩ := mem_all_iff.1 hq
  obtain ⟨-, rfl⟩ := Text.append_inj_size hab (by omega)
  have hshape : p.shape = q.shape := Option.some.inj (hread.symm.trans hread')
  cases p
  cases q
  simp_all

theorem start_lt (hp : p ∈ all text) : p.start < p.delimiterAt := (allFrom_bounds hp).2

/-- The byte stands between the brackets of the annotation. -/
def Annotates (m : PlacedShape) (offset : Nat) : Prop :=
  m.shape.remark.isSome = true ∧ m.start + Text.size (m.shape.base ++ m.shape.suffix) < offset ∧
    offset + 1 < m.delimiterAt

/-- A shape that starts before another one ends, ends there as well or stands in the annotation. -/
theorem overlap (hm : m ∈ all text) (hp : p ∈ all text) (hlt : m.start < p.start) (hle : p.start ≤ m.delimiterAt) :
    p.delimiterAt = m.delimiterAt ∨ m.Annotates p.delimiterAt := by
  obtain ⟨a, b, rfl, ha, -, hreadm⟩ := mem_all_iff.1 hm
  obtain ⟨c, d, hcd, hc, -, hreadp⟩ := mem_all_iff.1 hp
  obtain ⟨x, rfl, rfl⟩ := Text.append_inj_size_le hcd (by omega)
  unfold Annotates delimiterAt at *
  rw [Text.size_append] at hc
  rcases Shape.overlap hreadm hreadp (by omega) with h | ⟨hremark, h, h'⟩
  · left
    omega
  · right
    exact ⟨hremark, by omega, by omega⟩

/-! ## Searches -/

/-- A search in the order of the starts finds the leftmost of what it looks for. -/
theorem find?_leftmost (hps : ps.Pairwise (·.start < ·.start)) {f : PlacedShape → Bool} :
    ps.find? f = some p ↔ p ∈ ps ∧ f p = true ∧ ∀ q ∈ ps, f q = true → p.start ≤ q.start := by
  rw [List.find?_eq_some_iff_append]
  constructor
  · rintro ⟨hf, before, after, rfl, hbefore⟩
    refine ⟨by simp, hf, fun q hq hfq => ?_⟩
    rcases List.mem_append.1 hq with hq | hq
    · have := hbefore q hq
      simp [hfq] at this
    · rcases List.mem_cons.1 hq with rfl | hq
      · exact Nat.le_refl _
      · have hafter := (List.pairwise_append.1 hps).2.1
        exact Nat.le_of_lt ((List.pairwise_cons.1 hafter).1 q hq)
  · rintro ⟨hp, hf, hleft⟩
    obtain ⟨before, after, rfl⟩ := List.append_of_mem hp
    refine ⟨hf, before, after, rfl, fun q hq => ?_⟩
    by_contra hfq
    have hle := hleft q (List.mem_append_left _ hq) (by simpa using hfq)
    have hlt := (List.pairwise_append.1 hps).2.2 q hq p (by simp)
    omega

theorem disjointFrom_stop (h : p ∈ disjointFrom stop ps) : stop ≤ p.start := by
  induction ps generalizing stop with
  | nil => cases h
  | cons q ps ih =>
    rw [disjointFrom] at h
    split at h
    · rcases List.mem_cons.1 h with rfl | h
      · assumption
      · have := ih h
        unfold delimiterAt at this
        omega
    · exact ih h

theorem disjointFrom_pairwise (stop : Nat) (ps : List PlacedShape) :
    (disjointFrom stop ps).Pairwise (·.delimiterAt < ·.start) := by
  induction ps generalizing stop with
  | nil => exact List.Pairwise.nil
  | cons p ps ih =>
    rw [disjointFrom]
    split
    · exact List.pairwise_cons.2 ⟨fun q hq => disjointFrom_stop hq, ih _⟩
    · exact ih _

/-- What the search from the left passes does not overlap. -/
theorem disjointFrom_apart (hp : p ∈ disjointFrom stop ps) (hq : q ∈ disjointFrom stop ps) (hlt : p.start < q.start) :
    p.delimiterAt < q.start := by
  have hpair := disjointFrom_pairwise stop ps
  obtain ⟨before, after, hsplit⟩ := List.append_of_mem hp
  rw [hsplit] at hpair hq
  rcases List.mem_append.1 hq with hq | hq
  · have := (List.pairwise_append.1 hpair).2.2 q hq p (by simp)
    unfold delimiterAt at this
    omega
  · rcases List.mem_cons.1 hq with rfl | hq
    · omega
    · exact (List.pairwise_cons.1 (List.pairwise_append.1 hpair).2.1).1 q hq

/-- What the search from the left leaves out starts before the end of something it passes. -/
theorem disjointFrom_hides (hps : ps.Pairwise (·.start < ·.start)) (hp : p ∈ ps) (hstop : stop ≤ p.start) :
    p ∈ disjointFrom stop ps ∨ ∃ m ∈ disjointFrom stop ps, m.start < p.start ∧ p.start ≤ m.delimiterAt := by
  induction ps generalizing stop with
  | nil => cases hp
  | cons q ps ih =>
    obtain ⟨hfirst, hps⟩ := List.pairwise_cons.1 hps
    rw [disjointFrom]
    rcases List.mem_cons.1 hp with rfl | hp
    · rw [if_pos hstop]
      exact Or.inl (by simp)
    · split
      · by_cases hbehind : q.delimiterAt + 1 ≤ p.start
        · rcases ih hps hp hbehind with h | ⟨m, hm, h⟩
          · exact Or.inl (List.mem_cons_of_mem _ h)
          · exact Or.inr ⟨m, List.mem_cons_of_mem _ hm, h⟩
        · exact Or.inr ⟨q, by simp, hfirst p hp, by omega⟩
      · exact ih hps hp hstop

/-- What the search from the left passes is the leftmost shape with its end. -/
theorem disjointFrom_leftmost (hp : p ∈ disjointFrom 0 (all text)) (hq : q ∈ all text)
    (hat : q.delimiterAt = p.delimiterAt) : p.start ≤ q.start := by
  by_contra hlt
  have hpall := mem_disjointFrom hp
  have hend := start_lt hpall
  rcases disjointFrom_hides (allFrom_increasing _ _ _) hq (Nat.zero_le _) with hq | ⟨m, hm, hmq, hqm⟩
  · have := disjointFrom_apart hq hp (by omega)
    omega
  · -- the shape that hides the other one reaches as far
    have hreach : q.delimiterAt ≤ m.delimiterAt := by
      rcases overlap (mem_disjointFrom hm) hq hmq hqm with h | ⟨-, -, h⟩ <;> omega
    have := disjointFrom_apart hm hp (by omega)
    omega

theorem header?_places {h : Header} (hh : p.header? = some h) : h.start = p.start ∧ h.delimiterAt = p.delimiterAt := by
  obtain ⟨c, -, rfl⟩ := Option.map_eq_some_iff.1 hh
  exact ⟨rfl, rfl⟩

end PlacedShape

namespace Header

open PlacedShape

theorem mem_all_iff {h : Header} : h ∈ all text ↔ ∃ p ∈ disjointFrom 0 (PlacedShape.all text), p.header? = some h :=
  List.mem_filterMap

/-- The header that ends at an offset is the one of the leftmost shape that does. -/
theorem endingAt?_iff {h : Header} {o : Nat} : endingAt? text o = some h ↔ ∃ p ∈ PlacedShape.all text,
    p.delimiterAt = o ∧ (∀ q ∈ PlacedShape.all text, q.delimiterAt = o → p.start ≤ q.start) ∧ p.header? = some h := by
  unfold endingAt? among?
  rw [Option.bind_eq_some_iff]
  simp only [find?_leftmost (allFrom_increasing false 0 text), PlacedShape.all, decide_eq_true_eq, and_assoc]

theorem all_pairwise (text : Text) : (all text).Pairwise (·.delimiterAt < ·.start) := by
  refine List.pairwise_filterMap.2 ((disjointFrom_pairwise 0 _).imp fun hlt h hh h' hh' => ?_)
  rw [(header?_places hh).2, (header?_places hh').1]
  exact hlt

theorem start_lt {h : Header} (hh : h ∈ all text) : h.start < h.delimiterAt := by
  obtain ⟨p, hp, hh⟩ := mem_all_iff.1 hh
  rw [(header?_places hh).1, (header?_places hh).2]
  exact PlacedShape.start_lt (mem_disjointFrom hp)

theorem endingAt?_of_mem {h : Header} (hh : h ∈ all text) : endingAt? text h.delimiterAt = some h := by
  obtain ⟨p, hp, hh⟩ := mem_all_iff.1 hh
  have hat := (header?_places hh).2
  refine endingAt?_iff.2 ⟨p, mem_disjointFrom hp, hat.symm, fun q hq hqat => ?_, hh⟩
  exact disjointFrom_leftmost hp hq (hqat.trans hat)

theorem mem_of_endingAt? {h : Header} {o : Nat} (hh : endingAt? text o = some h) : h ∈ all text ∨
    ∃ m ∈ disjointFrom 0 (PlacedShape.all text), m.start < h.start ∧ m.Annotates o := by
  obtain ⟨p, hp, rfl, hleft, hh⟩ := endingAt?_iff.1 hh
  rcases disjointFrom_hides (allFrom_increasing _ _ _) hp (Nat.zero_le _) with hp | ⟨m, hm, hmp, hpm⟩
  · exact Or.inl (mem_all_iff.2 ⟨p, hp, hh⟩)
  · refine Or.inr ⟨m, hm, by rw [(header?_places hh).1]; exact hmp, ?_⟩
    rcases overlap (mem_disjointFrom hm) hp hmp hpm with h | h
    · have := hleft m (mem_disjointFrom hm) h.symm
      omega
    · exact h

/-- The header of a shape at the start of the text is the first, and the one of its delimiter. -/
theorem at_start {s : Shape} {h : Header} (hs : Shape.read? text = some s) (hh : PlacedShape.header? ⟨s, 0⟩ = some h) :
    (all text).head? = some h ∧ endingAt? text h.delimiterAt = some h := by
  obtain ⟨c, t, rfl⟩ : ∃ c t, text = c :: t := by
    cases text with
    | nil => cases hs
    | cons c t => exact ⟨c, t, rfl⟩
  have hall : all (c :: t) = h :: (disjointFrom ((⟨s, 0⟩ : PlacedShape).delimiterAt + 1)
      (allFrom (isWord c) (0 + c.utf8Size) t)).filterMap PlacedShape.header? := by
    simp [all, PlacedShape.all, allFrom, hs, disjointFrom, hh]
  rw [hall]
  exact ⟨rfl, endingAt?_of_mem (by rw [hall]; simp)⟩

end Header

theorem TaggedBlock.read_written {b : TaggedBlock} (h : read text = .ok (some b)) :
    ∃ lead, text.trim = lead ++ Delimiters.braces.opening :: (b.inner ++ [Delimiters.braces.closing]) ∧
      Text.size lead = b.header.delimiterAt := by
  obtain ⟨s, hs, hheader, hbraces, close, hclose, hend, hinner⟩ := read_parts h
  obtain ⟨hstands, -⟩ := PlacedShape.header?_stands (p := ⟨s, 0⟩) (Shape.read?_written hs) hheader
  have hopens := hstands.opens
  rw [hbraces] at hopens
  obtain ⟨hcloses, -⟩ := (closeOf_at (E := fun _ => True) hopens).value hclose close rfl
  obtain ⟨hin, rfl⟩ := Text.slice_eq_ok.1 hinner
  rw [← size_opening .braces] at hin
  obtain ⟨a, rest, htext, ha⟩ := hopens.append (hin.append (q := [Delimiters.braces.closing]) (by simpa using hcloses))
  have hsize := congrArg Text.size htext
  simp only [Text.size_append, size_opening, size_closing] at hsize
  obtain rfl : rest = [] := Text.size_eq_zero.1 (by omega)
  exact ⟨a, by simpa using htext, ha⟩

/-- The headers found from left to right do not overlap, and each is the one that ends at its delimiter. A header
    that ends at a delimiter is one of them, unless the delimiter stands in an annotation in front of which another
    shape starts. The header of a tagged block is the first, and the one that ends at the brace. -/
theorem headers_agree (text : Text) :
    ((Header.all text).Pairwise (·.delimiterAt < ·.start) ∧ ∀ h ∈ Header.all text, h.start < h.delimiterAt) ∧
    (∀ h ∈ Header.all text, Header.endingAt? text h.delimiterAt = some h) ∧
    (∀ o h, Header.endingAt? text o = some h → h.delimiterAt = o ∧ (h ∈ Header.all text ∨
      ∃ m ∈ PlacedShape.disjointFrom 0 (PlacedShape.all text), m.start < h.start ∧ m.Annotates o)) ∧
    (∀ b, TaggedBlock.read text = .ok (some b) →
      Header.endingAt? text.trim b.header.delimiterAt = some b.header ∧
      (Header.all text.trim).head? = some b.header ∧
      ∃ lead, text.trim = lead ++ Delimiters.braces.opening :: (b.inner ++ [Delimiters.braces.closing]) ∧
        Text.size lead = b.header.delimiterAt) := by
  refine ⟨⟨Header.all_pairwise text, fun h => Header.start_lt⟩, fun h => Header.endingAt?_of_mem, fun o h hh => ?_,
    fun b hb => ?_⟩
  · exact ⟨(Header.among?_stands hh).2, Header.mem_of_endingAt? hh⟩
  · obtain ⟨s, hs, hheader, -⟩ := TaggedBlock.read_parts hb
    obtain ⟨hfirst, hends⟩ := Header.at_start hs hheader
    exact ⟨hends, hfirst, TaggedBlock.read_written hb⟩

/-- A header in the annotation of a symbol that has no property, and another one behind it. -/
def hiddenHeader : Text := "D,p[A(x)](y) E(z)".toList

/-- A tagged block with blanks around it. -/
def conditionBlock : Text := " Cac1\x7bA(x)\x7d ".toList

theorem headers_agree_hidden :
    (∃ m ∈ PlacedShape.disjointFrom 0 (PlacedShape.all hiddenHeader), m.start < 4 ∧ m.Annotates 5) ∧
    Header.endingAt? hiddenHeader 14 = some ⟨.constitutedEntity, none, none, 13, 14, .parentheses⟩ ∧
    (Header.all conditionBlock.trim).head? = some ⟨.activationCondition, some ['1'], none, 0, 4, .braces⟩ := by
  obtain ⟨-, hall, hends, -⟩ := headers_agree hiddenHeader
  refine ⟨?_, hall ⟨.constitutedEntity, none, none, 13, 14, .parentheses⟩ (by decide +kernel), ?_⟩
  · obtain ⟨-, hmem | hannotated⟩ := hends 5 ⟨.attributes, none, none, 4, 5, .parentheses⟩ (by decide +kernel)
    · exact absurd hmem (by decide +kernel)
    · exact hannotated
  · have hread : TaggedBlock.read conditionBlock =
        .ok (some ⟨⟨.activationCondition, some ['1'], none, 0, 4, .braces⟩, "A(x)".toList⟩) := by decide +kernel
    exact ((headers_agree conditionBlock).2.2.2 _ hread).2.1

end InstitutionalGrammar
