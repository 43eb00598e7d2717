/-
  InstitutionalGrammar.Proofs.Header.Parts — what a header consists of, and where none can start.

  - `read?_parts`: a shape is a run of symbol and suffix characters, an annotation and a delimiter.
  - `Clear`: a text behind which a header or a word can start afresh.
  - `Quiet`, `read?_quiet`: a text in which no header starts, whatever follows it.
-/

import InstitutionalGrammar.Header.Basic
import InstitutionalGrammar.Proofs.Text.Tidy

namespace InstitutionalGrammar

/-! ## Blanks and words -/

/-- The code points of white space. -/
def blankPoints : List Nat :=
  [0x9, 0xA, 0xB, 0xC, 0xD, 0x20, 0x85, 0xA0, 0x1680, 0x2000, 0x2001, 0x2002, 0x2003, 0x2004, 0x2005, 0x2006,
    0x2007, 0x2008, 0x2009, 0x200A, 0x2028, 0x2029, 0x202F, 0x205F, 0x3000]

theorem toNat_mem_blankPoints {c : Char} (h : isBlank c = true) : c.toNat ∈ blankPoints := by
  simp only [isBlank, Bool.or_eq_true, Bool.and_eq_true, decide_eq_true_eq] at h
  simp only [blankPoints, List.mem_cons, List.not_mem_nil, or_false]
  omega

theorem isWord_of_isBlank {c : Char} (h : isBlank c = true) :
    isWord c = false ∧ Suffix.isSuffixChar c = false := by
  have hall : ∀ n ∈ blankPoints, isWord (Char.ofNat n) = false ∧ Suffix.isSuffixChar (Char.ofNat n) = false := by
    decide +kernel
  have := hall _ (toNat_mem_blankPoints h)
  rwa [Char.ofNat_toNat] at this

/-! ## Clear texts -/

/-- The text ends in no character that could belong to a header or to a word, if it has any. -/
def Clear (t : Text) : Prop :=
  ∀ c ∈ t.getLast?, Suffix.isSuffixChar c = false ∧ isWord c = false ∧ c ≠ ']'

namespace Clear

theorem nil : Clear [] := by intro c hc; cases hc

theorem append {a b : Text} (ha : Clear a) (hb : Clear b) : Clear (a ++ b) := by
  cases b with
  | nil => simpa using ha
  | cons c b =>
    intro e he
    rw [List.getLast?_append] at he
    simp only [List.getLast?_cons, Option.some_or] at he
    exact hb e (by simpa [List.getLast?_cons] using he)

theorem snoc (a : Text) {c : Char} (h : Suffix.isSuffixChar c = false ∧ isWord c = false ∧ c ≠ ']') :
    Clear (a ++ [c]) := by
  intro e he
  rw [List.getLast?_concat] at he
  cases he
  exact h

theorem opening (a : Text) (d : Delimiters) : Clear (a ++ [d.opening]) :=
  snoc a (by cases d <;> decide)

theorem closing (a : Text) (d : Delimiters) : Clear (a ++ [d.closing]) :=
  snoc a (by cases d <;> decide)

theorem space (a : Text) : Clear (a ++ [' ']) := snoc a (by decide)

theorem of_allBlank {t : Text} (h : Text.allBlank t = true) : Clear t := by
  intro c hc
  have hb : isBlank c = true := List.all_eq_true.1 h c (List.mem_of_getLast? hc)
  refine ⟨(isWord_of_isBlank hb).2, (isWord_of_isBlank hb).1, ?_⟩
  intro e; subst e; exact absurd hb (by decide)

end Clear

/-! ## What a header is made of -/

theorem base_suffixChars {b : Text} (h : b ∈ Component.bases) : b ≠ [] ∧ b.all Suffix.isSuffixChar = true := by
  revert b; decide

theorem readDelimiter?_parts {t : Text} {d : Delimiters} (h : Shape.readDelimiter? t = some d) :
    ∃ rest, t = d.opening :: rest := by
  unfold Shape.readDelimiter? at h
  split at h
  · split at h
    · rename_i hc; subst hc; cases h; exact ⟨_, rfl⟩
    · split at h
      · rename_i hc; subst hc; cases h; exact ⟨_, rfl⟩
      · cases h
  · cases h

theorem readRemark?_of_ne {c : Char} (hc : c ≠ '[') (t : Text) : Shape.readRemark? (c :: t) = some (none, c :: t) := by
  unfold Shape.readRemark?
  split
  · rename_i h
    exact absurd (List.cons.inj h).1 hc
  · rfl

theorem readRemark?_parts {t : Text} {remark : Option Text} {rest : Text}
    (h : Shape.readRemark? t = some (remark, rest)) :
    t = remark.getD [] ++ rest ∧
      ∀ r ∈ remark, ∃ v, r = '[' :: v ++ [']'] ∧ ∀ c ∈ v, Shape.isBracket c = false := by
  unfold Shape.readRemark? at h
  split at h
  · rename_i v
    split at h
    · rename_i w hw
      cases h
      refine ⟨?_, fun r hr => ?_⟩
      · have := List.takeWhile_append_dropWhile (p := (!Shape.isBracket ·)) (l := v)
        rw [hw] at this
        simpa using this.symm
      · cases hr
        exact ⟨_, rfl, fun c hc => by simpa using List.all_eq_true.1 List.all_takeWhile c hc⟩
    · cases h
  · cases h
    exact ⟨rfl, nofun⟩

/-- A shape that a text starts with: characters of symbol and suffix, the annotation if there is
    one, and the delimiter. -/
theorem read?_parts {t : Text} {s : Shape} (h : Shape.read? t = some s) :
    ∃ rest, t = s.base ++ s.suffix ++ s.remark.getD [] ++ s.delimiter.opening :: rest ∧
      (s.base ≠ [] ∧ s.base.all Suffix.isSuffixChar = true) ∧ s.suffix.all Suffix.isSuffixChar = true ∧
      ∀ r ∈ s.remark, ∃ v, r = '[' :: v ++ [']'] ∧ ∀ c ∈ v, Shape.isBracket c = false := by
  unfold Shape.read? at h
  split at h
  · cases h
  · rename_i base hbase
    have hmem := List.mem_of_find?_eq_some hbase
    have hpre := List.find?_some hbase
    obtain ⟨u, rfl⟩ := List.isPrefixOf_iff_prefix.1 hpre
    simp only [List.drop_left] at h
    split at h
    · split at h
      · rename_i remark tail hr
        obtain ⟨d, hd, rfl⟩ := Option.map_eq_some_iff.1 h
        obtain ⟨rest, rfl⟩ := readDelimiter?_parts hd
        obtain ⟨hdrop, hremark⟩ := readRemark?_parts hr
        refine ⟨rest, ?_, base_suffixChars hmem, List.all_takeWhile, hremark⟩
        have hu := List.takeWhile_append_dropWhile (p := Suffix.isSuffixChar) (l := u)
        rw [hdrop] at hu
        simpa using hu.symm
      · cases h
    · cases h

/-! ## Quiet texts -/

/-- Every run of characters that could be a symbol with its suffix ends inside the text, at a
    character that is neither an opening delimiter nor an opening bracket. -/
def Quiet : Text → Prop
  | [] => True
  | c :: t => (Suffix.isSuffixChar c = true →
      ∃ d r, t.dropWhile Suffix.isSuffixChar = d :: r ∧ isOpening d = false ∧ d ≠ '[') ∧ Quiet t

theorem read?_quiet {c : Char} {t : Text} (h : Quiet (c :: t)) (rest : Text) :
    Shape.read? (c :: t ++ rest) = none := by
  cases hs : Shape.read? (c :: t ++ rest) with
  | none => rfl
  | some s =>
    exfalso
    obtain ⟨tail, ht, ⟨hne, hbase⟩, hsuffix, hremark⟩ := read?_parts hs
    -- behind the run of suffix characters stands an opening bracket or the delimiter
    have hrun : ∃ e v, (c :: t ++ rest).dropWhile Suffix.isSuffixChar = e :: v ∧ (isOpening e = true ∨ e = '[') := by
      rw [ht, List.append_assoc, List.append_assoc,
        List.dropWhile_append_of_pos (by simpa using hbase), List.dropWhile_append_of_pos (by simpa using hsuffix)]
      cases hm : s.remark with
      | none =>
        refine ⟨s.delimiter.opening, tail, ?_, Or.inl (by cases s.delimiter <;> rfl)⟩
        cases s.delimiter <;> rfl
      | some r =>
        obtain ⟨v, rfl, -⟩ := hremark r hm
        exact ⟨'[', _, rfl, Or.inr rfl⟩
    have hc : Suffix.isSuffixChar c = true := by
      cases hb : s.base with
      | nil => exact absurd hb hne
      | cons b bs =>
        rw [hb] at ht hbase
        have : c = b := by simpa using congrArg List.head? ht
        subst this
        simp only [List.all_cons, Bool.and_eq_true] at hbase
        exact hbase.1
    obtain ⟨d, r, hd, h1, h2⟩ := h.1 hc
    obtain ⟨e, v, he, hopen⟩ := hrun
    have hdrop : (c :: t ++ rest).dropWhile Suffix.isSuffixChar = d :: (r ++ rest) := by
      rw [List.cons_append, List.dropWhile_cons, if_pos hc, List.dropWhile_append, hd]
      rfl
    rw [he] at hdrop
    obtain ⟨rfl, -⟩ := List.cons.inj hdrop
    rcases hopen with ho | ho
    · rw [h1] at ho; cases ho
    · exact h2 ho

namespace Quiet

theorem append {a b : Text} (ha : Quiet a) (hb : Quiet b) : Quiet (a ++ b) := by
  induction a with
  | nil => exact hb
  | cons c a ih =>
    rw [List.cons_append]
    refine ⟨fun hc => ?_, ih ha.2⟩
    obtain ⟨d, r, hd, h⟩ := ha.1 hc
    exact ⟨d, r ++ b, by rw [List.dropWhile_append, hd]; rfl, h⟩

theorem single {c : Char} (h : Suffix.isSuffixChar c = false) : Quiet [c] :=
  ⟨fun hc => absurd hc (by simp [h]), trivial⟩

/-- A text without reserved characters in front of one that ends every run. -/
theorem plain_snoc {t : Text} (h : ∀ c ∈ t, isReserved c = false) {e : Char}
    (he : Suffix.isSuffixChar e = false ∧ isOpening e = false ∧ e ≠ '[') : Quiet (t ++ [e]) := by
  induction t with
  | nil => exact single he.1
  | cons c t ih =>
    have iht := ih fun d hd => h d (by simp [hd])
    rw [List.cons_append]
    refine ⟨fun _ => ?_, iht⟩
    cases t with
    | nil => exact ⟨e, [], by simp [he.1], he.2⟩
    | cons d t =>
      by_cases hd : Suffix.isSuffixChar d = true
      · obtain ⟨x, r, hx, hx'⟩ := iht.1 hd
        exact ⟨x, r, by rw [List.cons_append, List.dropWhile_cons, if_pos hd]; exact hx, hx'⟩
      · have hr := h d (by simp)
        simp only [isReserved, Bool.or_eq_false_iff] at hr
        refine ⟨d, t ++ [e], by simp [hd], hr.1.1, (ne_bracket (h d (by simp))).1⟩

theorem of_allBlank {t : Text} (h : Text.allBlank t = true) : Quiet t := by
  induction t with
  | nil => trivial
  | cons c t ih =>
    simp only [Text.allBlank, List.all_cons, Bool.and_eq_true] at h
    exact append (single (isWord_of_isBlank h.1).2) (ih h.2)

end Quiet

end InstitutionalGrammar
