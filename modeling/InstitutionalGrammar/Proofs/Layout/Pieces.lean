/-
  InstitutionalGrammar.Proofs.Layout.Pieces — the pieces a statement is written in.

  A written statement is a row of pieces: contents of components in parentheses, blocks in braces,
  and gaps between them.
  - `Piece.Sound`: what the parts of a piece must be for the piece to be read as one.
  - `written_tidy`: texts of sound pieces are tidy.
  - `written_silent`: a search for combinations of fragments passes over tagged pieces.
-/

import InstitutionalGrammar.Proofs.Combination.Written

namespace InstitutionalGrammar

inductive Piece where
  | gap (t : Text)
  | content (c : Component) (inner : Text)
  /-- A block in braces, behind a symbol or bare. -/
  | block (tag : Option Component) (inner : Text)

/-- The symbol in front of a block, if there is one. -/
def tagText (tag : Option Component) : Text := (tag.map Component.symbol).getD []

/-- A text between pieces: operators perhaps, but no delimiters. -/
structure Gap (t : Text) : Prop where
  tidy : Tidy t
  quiet : Quiet t
  clear : Clear t
  bare : ∀ c ∈ t, isOpening c = false ∧ isClosing c = false

namespace Piece

def written : Piece → Text
  | gap t => t
  | content c inner =>
    c.symbol ++ Delimiters.parentheses.opening :: (inner ++ [Delimiters.parentheses.closing])
  | block tag inner => tagText tag ++ Delimiters.braces.opening :: (inner ++ [Delimiters.braces.closing])

def Sound : Piece → Prop
  | gap t => Gap t
  | content _ inner => Tidy inner ∧ Quiet (inner ++ [Delimiters.parentheses.closing])
  | block _ inner => Tidy inner

end Piece

theorem Gap.of_allBlank {t : Text} (h : Text.allBlank t = true) : Gap t where
  tidy := .of_allBlank h
  quiet := .of_allBlank h
  clear := .of_allBlank h
  bare := by
    intro c hc
    have := isReserved_of_blank (List.all_eq_true.1 h c hc)
    simp only [isReserved, Bool.or_eq_false_iff] at this
    exact this.1

theorem tagText_plain (tag : Option Component) : ∀ e ∈ tagText tag, isReserved e = false := by
  cases tag with
  | none => simp [tagText]
  | some c => exact c.symbol_plain

/-! ## Tidy and clear -/

theorem Piece.Sound.tidy {x : Piece} (h : x.Sound) : Tidy x.written := by
  cases x with
  | gap t => exact Gap.tidy h
  | content c inner => exact (Tidy.of_all c.symbol_plain).append (h.1.wrap _)
  | block tag inner => exact (Tidy.of_all (tagText_plain tag)).append (Tidy.wrap _ h)

theorem Piece.Sound.clear {x : Piece} (h : x.Sound) : Clear x.written := by
  cases x with
  | gap t => exact Gap.clear h
  | content c inner =>
    simpa [written] using Clear.closing (c.symbol ++ Delimiters.parentheses.opening :: inner) .parentheses
  | block tag inner =>
    simpa [written] using Clear.closing (tagText tag ++ Delimiters.braces.opening :: inner) .braces

theorem written_tidy {ps : List Piece} (h : ∀ x ∈ ps, x.Sound) : Tidy (ps.flatMap Piece.written) := by
  induction ps with
  | nil => exact .nil
  | cons x ps ih => exact (h x (by simp)).tidy.append (ih fun y hy => h y (by simp [hy]))

/-! ## Silent -/

/-- A search scoped by braces passes over what stands in parentheses. -/
theorem cues_content {x : Text} (hx : Tidy x) (shapes : List PlacedShape) (k : Nat) (p : Position) (ts : List Token) :
    (fragmentMarks shapes 0 (k + 1) (signs p x ++ ts)).filter isCue =
      (fragmentMarks shapes 0 (k + 1) ts).filter isCue := by
  refine hx.scan_signs (fun d => d = .parentheses) (f := fun k ts => (fragmentMarks shapes 0 (k + 1) ts).filter isCue)
    ?_ ?_ ?_ k p ts
  · intro k t ts d ht hd
    obtain rfl := of_decide_eq_true hd
    simp [fragmentMarks, ht, isCue]
  · intro k t ts d ht hd
    obtain rfl := of_decide_eq_true hd
    simp [fragmentMarks, ht, isCue]
  · intro k t ts ht
    have h := ht .parentheses rfl
    obtain ⟨l, q, stop⟩ := t
    cases l with
    | opening e => cases e <;> simp_all [fragmentMarks, isCue]
    | closing e => cases e <;> simp_all [fragmentMarks, isCue]
    | operator o => simp [fragmentMarks, isCue]
    | text v => simp [fragmentMarks, isCue]

/-- A search scoped by braces passes over what stands in a tagged block. -/
theorem cues_block {x : Text} (hx : Tidy x) (shapes : List PlacedShape) (k content : Nat) (p : Position)
    (ts : List Token) :
    (fragmentMarks shapes (k + 1) content (signs p x ++ ts)).filter isCue =
      (fragmentMarks shapes (k + 1) content ts).filter isCue := by
  refine hx.scan_signs (fun d => d = .braces)
    (f := fun k ts => (fragmentMarks shapes (k + 1) content ts).filter isCue) ?_ ?_ ?_ k p ts
  · intro k t ts d ht hd
    obtain rfl := of_decide_eq_true hd
    simp [fragmentMarks, ht, isCue]
  · intro k t ts d ht hd
    obtain rfl := of_decide_eq_true hd
    simp [fragmentMarks, ht, isCue]
  · intro k t ts ht
    have h := ht .braces rfl
    obtain ⟨l, q, stop⟩ := t
    cases l with
    | opening e => cases e <;> simp_all [fragmentMarks, isCue]
    | closing e => cases e <;> simp_all [fragmentMarks, isCue]
    | operator o => simp [fragmentMarks, isCue]
    | text v => simp [fragmentMarks, isCue]

/-- The signs of a delimited text behind a plain one. -/
theorem signs_enclosed {tag inner : Text} (ht : ∀ e ∈ tag, isReserved e = false) (hi : Tidy inner) (d : Delimiters)
    (p : Position) :
    ∃ p₁ p₂ p₃ : Position, signs p (tag ++ d.opening :: (inner ++ [d.closing])) =
        ⟨.opening d, p₁, p₁.offset + 1⟩ :: (signs p₂ inner ++ [⟨.closing d, p₃, p₃.offset + 1⟩]) ∧
      p₁.offset = p.offset + tag.size ∧ p₃.offset = p₁.offset + 1 + inner.size := by
  rw [signs_plain ht, signs_opening, hi.signs_append, signs_closing, signs_nil]
  exact ⟨_, _, _, rfl, by simp, by simp⟩

/-- A content is silent to a search scoped by braces. -/
theorem Silent.content (c : Component) {inner : Text} (h : Tidy inner) :
    Silent .braces (Piece.content c inner).written where
  tidy := (Tidy.of_all c.symbol_plain).append (h.wrap _)
  cues_signs := by
    intro u v p _ _ ts
    obtain ⟨p₁, p₂, p₃, hs, -⟩ := signs_enclosed c.symbol_plain h .parentheses p
    generalize PlacedShape.all (u ++ ((Piece.content c inner).written ++ v)) = shapes
    rw [Piece.written, hs]
    have hopen : ∀ ts, (fragmentMarks shapes 0 0 (⟨.opening .parentheses, p₁, p₁.offset + 1⟩ :: ts)).filter isCue =
        (fragmentMarks shapes 0 1 ts).filter isCue := by
      intro ts; simp [fragmentMarks, isCue]
    have hclose : ∀ ts, (fragmentMarks shapes 0 1 (⟨.closing .parentheses, p₃, p₃.offset + 1⟩ :: ts)).filter isCue =
        (fragmentMarks shapes 0 0 ts).filter isCue := by
      intro ts; simp [fragmentMarks, isCue]
    simp only [cues, List.cons_append, List.append_assoc, List.nil_append]
    rw [hopen, cues_content h, hclose]

/-- A tagged block is silent to a search scoped by braces. -/
theorem Silent.block (c : Component) {inner : Text} (h : Tidy inner) :
    Silent .braces (Piece.block (some c) inner).written where
  tidy := (Tidy.of_all c.symbol_plain).append (h.wrap _)
  cues_signs := by
    intro u v p hu hp ts
    obtain ⟨p₁, p₂, p₃, hs, hp₁, -⟩ := signs_enclosed c.symbol_plain h .braces p
    have htag : (Header.among? (PlacedShape.all (u ++ ((Piece.block (some c) inner).written ++ v))) p₁.offset).isSome =
        true := by
      have := Header.among?_symbol hu c .braces (inner ++ [Delimiters.braces.closing] ++ v)
      rw [hp₁, hp]
      simp only [Piece.written, tagText, Option.map_some, Option.getD_some, List.append_assoc,
        List.cons_append] at this ⊢
      rw [this]
      rfl
    generalize PlacedShape.all (u ++ ((Piece.block (some c) inner).written ++ v)) = shapes at *
    rw [Piece.written]
    simp only [tagText, Option.map_some, Option.getD_some]
    rw [hs]
    have hopen : ∀ ts, (fragmentMarks shapes 0 0 (⟨.opening .braces, p₁, p₁.offset + 1⟩ :: ts)).filter isCue =
        (fragmentMarks shapes 1 0 ts).filter isCue := by
      intro ts; simp [fragmentMarks, isCue, htag]
    have hclose : ∀ ts, (fragmentMarks shapes 1 0 (⟨.closing .braces, p₃, p₃.offset + 1⟩ :: ts)).filter isCue =
        (fragmentMarks shapes 0 0 ts).filter isCue := by
      intro ts; simp [fragmentMarks, isCue]
    simp only [cues, List.cons_append, List.append_assoc, List.nil_append]
    rw [hopen, cues_block h, hclose]

/-- Neither operators nor bare braces stand between the delimiters of the pieces. -/
def Piece.isFragment : Piece → Prop
  | gap t => ∀ c ∈ t, isReserved c = false
  | content .. => True
  | block tag _ => tag.isSome

theorem written_silent {ps : List Piece} (h : ∀ x ∈ ps, x.Sound ∧ x.isFragment) :
    Silent .braces (ps.flatMap Piece.written) := by
  induction ps with
  | nil => exact .plain (by simp)
  | cons x ps ih =>
    have hx := h x (by simp)
    refine Silent.append ?_ (ih fun y hy => h y (by simp [hy])) hx.1.clear
    cases x with
    | gap t => exact .plain hx.2
    | content c inner => exact .content c hx.1.1
    | block tag inner =>
      obtain ⟨c, rfl⟩ := Option.isSome_iff_exists.1 hx.2
      exact .block c hx.1

/-- No operator stands outside the delimiters of a fragment. -/
theorem outerOperators_pieces {ps : List Piece} (h : ∀ x ∈ ps, x.Sound ∧ x.isFragment) :
    outerOperators (ps.flatMap Piece.written) = [] := by
  have henclosed : ∀ {tag inner : Text} (d : Delimiters) (p : Position) (ts : List Token),
      (∀ e ∈ tag, isReserved e = false) → Tidy inner →
        outerFrom 0 (signs p (tag ++ d.opening :: (inner ++ [d.closing])) ++ ts) = outerFrom 0 ts := by
    intro tag inner d p ts htag hinner
    obtain ⟨p₁, p₂, p₃, hs, -⟩ := signs_enclosed htag hinner d p
    have hin : ∀ ts, outerFrom 1 (signs p₂ inner ++ ts) = outerFrom 1 ts := by
      intro ts
      refine hinner.scan_signs (fun _ => true) (f := fun k => outerFrom (k + 1)) ?_ ?_ ?_ 0 p₂ ts
      · intro k t ts d ht _
        simp [outerFrom, ht]
      · intro k t ts d ht _
        simp [outerFrom, ht]
      · intro k t ts ht
        obtain ⟨l, q, stop⟩ := t
        cases l with
        | opening e => exact absurd rfl (ht e rfl).1
        | closing e => exact absurd rfl (ht e rfl).2
        | operator o => simp [outerFrom]
        | text v => simp [outerFrom]
    rw [hs, List.cons_append, List.append_assoc]
    simp only [outerFrom, hin, List.singleton_append]
  have hpieces : ∀ p, outerFrom 0 (signs p (ps.flatMap Piece.written)) = [] := by
    induction ps with
    | nil => intro p; rfl
    | cons x ps ih =>
      intro p
      have hx := h x (by simp)
      have hlater := ih (fun y hy => h y (by simp [hy])) (p.past x.written)
      rw [List.flatMap_cons, hx.1.tidy.signs_append]
      cases x with
      | gap t =>
        have ht := signs_plain hx.2 p []
        rw [List.append_nil, signs_nil] at ht
        rw [Piece.written] at hlater ⊢
        rw [ht]
        exact hlater
      | content c inner =>
        rw [Piece.written] at hlater ⊢
        rw [henclosed .parentheses p _ c.symbol_plain hx.1.1]
        exact hlater
      | block tag inner =>
        rw [Piece.written] at hlater ⊢
        rw [henclosed .braces p _ (tagText_plain tag) hx.1]
        exact hlater
  unfold outerOperators
  rw [← outerFrom_signs]
  exact hpieces .start

end InstitutionalGrammar
