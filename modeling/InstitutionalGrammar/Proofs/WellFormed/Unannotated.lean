/-
  InstitutionalGrammar.Proofs.WellFormed.Unannotated — texts without annotations are never cut in the
  wrong place.

  Operands, shared text and the insides of blocks stand between delimiters and operators, so they can be
  cut out of any text. Blocks cannot: the header in front of a block is found from its brace backwards,
  and an annotation in it can hold braces. Then the header starts in an earlier block, and there is
  nothing between the two to cut out. A bracket that starts an operator leaves no room for braces, so
  where every opening bracket does, a block starts behind the one before it.
  - `unannotated_iff`, `looseBrackets_weight`: such texts are the ones of weight zero, and so are the
    texts that are read inside them.
  - `Unannotated.not_reachesBack`, `Unannotated.blanks`: no header reaches back, so their blocks can be blanked out.
  - `parse_unannotated`: parsing one fails for no other reason than that the text is refused.
-/

import InstitutionalGrammar.Proofs.Depth.Room
import InstitutionalGrammar.Proofs.Layout.Partition

namespace InstitutionalGrammar

variable {text t : Text} {i j limit cursor : Nat} {c : Char}

/-! ## Brackets -/

/-- Every opening bracket starts a written operator. -/
def Unannotated (t : Text) : Prop :=
  ∀ a b, t = a ++ '[' :: b → ∃ o : Operator, o.isSynthetic = false ∧ o.token <+: '[' :: b

/-- How many opening brackets start no operator. -/
def looseBrackets : Text → Nat
  | [] => 0
  | c :: t => looseBrackets t + if c = '[' ∧ startsOperator (c :: t) = false then 1 else 0

theorem looseBrackets_of_ne (h : c ≠ '[') (t : Text) : looseBrackets (c :: t) = looseBrackets t := by
  rw [looseBrackets, if_neg fun hc => h hc.1, Nat.add_zero]

theorem looseBrackets_weight : Weight looseBrackets 0 where
  nil := rfl
  char := fun t hc => looseBrackets_of_ne hc t
  joint := by
    intro c a b hc
    induction a with
    | nil => simp [looseBrackets]
    | cons x a ih =>
      rw [List.cons_append, looseBrackets, looseBrackets, startsOperator_break hc, ih]
      omega
  behind := by
    intro a b
    induction a with
    | nil => exact Nat.le_refl _
    | cons x a ih =>
      rw [List.cons_append, looseBrackets]
      omega
  token := by
    intro o t ho
    obtain ⟨r, hr, htail⟩ := token_eq ho
    have hskip := count_tail (fun c t hc => looseBrackets_of_ne hc t) htail t
    have hstart : startsOperator ('[' :: (r ++ t)) = true := by
      refine startsOperator_iff.2 ⟨o, ho, t, ?_⟩
      rw [hr, List.cons_append]
    rw [hr, List.cons_append, looseBrackets, if_neg (by simp [hstart]), hskip]

theorem unannotated_iff : Unannotated t ↔ looseBrackets t = 0 := by
  constructor
  · intro h
    induction t with
    | nil => rfl
    | cons c t ih =>
      have hrest : looseBrackets t = 0 := ih fun a b hab => h (c :: a) b (by rw [hab]; rfl)
      rw [looseBrackets, hrest, if_neg]
      rintro ⟨rfl, hloose⟩
      rw [startsOperator_iff.2 (h [] t rfl)] at hloose
      cases hloose
  · rintro h a b rfl
    have hbehind := looseBrackets_weight.behind a ('[' :: b)
    by_cases hstart : startsOperator ('[' :: b) = true
    · exact startsOperator_iff.1 hstart
    · rw [looseBrackets, if_pos ⟨rfl, by simpa using hstart⟩] at hbehind
      omega

/-- What is read inside a text without annotations has none. -/
theorem Unannotated.smaller {inner : Text} (h : Unannotated text) (hinner : Smaller inner text) : Unannotated inner := by
  rw [unannotated_iff] at h ⊢
  have hlight := hinner.light looseBrackets 0 looseBrackets_weight
  omega

/-! ## Headers -/

/-- An annotation ends at its first closing bracket, as an operator does, and so it holds no delimiter. -/
theorem Unannotated.remark_free (h : Unannotated text) {a v b : Text} (ht : text = a ++ '[' :: (v ++ ']' :: b))
    (hv : ∀ c ∈ v, Shape.isBracket c = false) (d : Delimiters) : d.closing ∉ v := by
  obtain ⟨o, ho, hprefix⟩ := h a _ ht
  obtain ⟨r, hr, -⟩ := token_eq ho
  rw [hr] at hprefix
  rcases List.prefix_or_prefix_of_prefix (List.cons_prefix_cons.1 hprefix).2 (List.prefix_append v _) with hshort | hlong
  · have hclose : ']' ∈ r := by
      cases o <;> simp [Operator.token, Operator.name] at hr <;> simp [← hr]
    have := hv ']' (hshort.subset hclose)
    cases this
  · intro hmem
    have htoken : d.closing ∈ o.token := by
      rw [hr]
      exact List.mem_cons_of_mem _ (hlong.subset hmem)
    exact ne_closing (token_delimiter htoken) d rfl

/-- No delimiter closes between the start of a header and the delimiter it ends at. -/
theorem Unannotated.lead_free (h : Unannotated text) {p : PlacedShape} (hp : p ∈ PlacedShape.all text) (d : Delimiters) :
    d.closing ∉ p.shape.lead := by
  obtain ⟨a, b, htext, -, hread⟩ := PlacedShape.read?_of_mem_allFrom hp
  obtain ⟨rest, hb, ⟨-, hbase⟩, hsuffix, hremark⟩ := read?_parts hread
  have hclosing : Suffix.isSuffixChar d.closing = false := by cases d <;> decide
  intro hmem
  rw [Shape.lead, List.mem_append, List.mem_append] at hmem
  rcases hmem with (hmem | hmem) | hmem
  · rw [List.all_eq_true.1 hbase _ hmem] at hclosing
    cases hclosing
  · rw [List.all_eq_true.1 hsuffix _ hmem] at hclosing
    cases hclosing
  · cases hr : p.shape.remark with
    | none =>
      rw [hr] at hmem
      cases hmem
    | some r =>
      obtain ⟨v, rfl, hv⟩ := hremark r hr
      have hbracket : d.closing ≠ '[' ∧ d.closing ≠ ']' := by cases d <;> decide
      have ht : text = (a ++ (p.shape.base ++ p.shape.suffix)) ++ '[' :: (v ++ ']' :: p.shape.delimiter.opening :: rest) := by
        rw [htext, hb, hr]
        simp
      refine h.remark_free ht hv d ?_
      rw [hr] at hmem
      simpa [hbracket.1, hbracket.2] using hmem

/-! ## Blocks -/

/-- A header of a text without annotations starts behind every brace that closes before it ends. -/
theorem Unannotated.header_behind (h : Unannotated text) {header : Header} {left : Nat}
    (hheader : Header.endingAt? text left = some header) (hcloses : text.At i [endBrace]) (hi : i < left) :
    i < header.start := by
  obtain ⟨p, hmem, -, hstart, hat⟩ := Header.among?_shape hheader
  by_contra hle
  have hlead : endBrace ∈ p.shape.lead := by
    refine (PlacedShape.written_at hmem).left.mem hcloses (by omega) ?_
    unfold PlacedShape.delimiterAt at hat
    omega
  exact h.lead_free hmem .braces hlead

theorem Unannotated.not_reachesBack (h : Unannotated text) {found : List (Nat × Nat)}
    (hfound : BracesFrom text 0 none found) : ¬ ReachesBack text found := by
  rintro ⟨i, hi, header, hheader, hstart⟩
  have hcloses := (hfound.braces _ (List.getElem_mem (by omega : i < found.length))).1.closes
  have horder := List.pairwise_iff_getElem.1 hfound.order i (i + 1) (by omega) hi (by omega)
  have := h.header_behind hheader hcloses horder
  omega

theorem Unannotated.blanks {E : Failure → Prop} (h : Unannotated text) (limit : Nat) : Reading.Blanks E limit text := by
  intro blocks hblocks
  obtain ⟨atomic, hatomic⟩ := (blankOut_iff hblocks).2 (h.not_reachesBack (braceBounds_tokens text))
  rw [hatomic]
  trivial

/-! ## Texts -/

/-- The text is refused, for whatever reason. -/
def Failure.IsRefusal (f : Failure) : Prop := ∃ e, f = .rejected e

theorem Failure.Ordinary.isRefusal (f : Failure) (h : f.Ordinary) : f.IsRefusal := by
  cases f with
  | rejected e => exact ⟨e, rfl⟩
  | misplacedCut => exact h.elim
  | unsettled => exact h.elim

namespace Reading

variable {options : Options} {budget : Nat}

theorem step_unannotated (h : Unannotated text)
    (hread : ∀ inner, Unannotated inner → Meets Failure.IsRefusal (fun _ => True) (within options budget inner).result) :
    Meets Failure.IsRefusal (fun _ => True) (step options (within options budget) text).result :=
  step_within_room Failure.Ordinary.isRefusal (Or.inl ⟨_, rfl⟩) (h.blanks _) fun inner _ hsmaller =>
    hread inner (h.smaller hsmaller)

theorem within_unannotated (h : Unannotated text) :
    Meets Failure.IsRefusal (fun _ => True) (within options budget text).result := by
  induction budget generalizing text with
  | zero => exact ⟨_, rfl⟩
  | succ budget ih => exact step_unannotated h fun inner hinner => ih hinner

end Reading

/-- A cut in the wrong place ends the whole parse, at whatever depth it is made; a text without annotations
    never meets one. -/
theorem parse_unannotated (options : Options) (h : Unannotated text) :
    (∃ p, parse options text = .ok p) ∨ ∃ r e, parse options text = .error r ∧ r.cause = .rejected e := by
  have hof : Meets Failure.IsRefusal (fun _ => True) (Reading.of options text).result :=
    Reading.step_unannotated h fun inner hinner => Reading.within_unannotated hinner
  cases hresult : (Reading.of options text).result with
  | ok tree =>
    refine Or.inl ⟨⟨tree, warningsOf (Reading.of options text).ignored⟩, ?_⟩
    unfold parse
    simp only [hresult]
  | error cause =>
    obtain ⟨e, rfl⟩ := hof.failure hresult
    obtain ⟨r, hr, hcause⟩ := exists_refusal hresult
    exact Or.inr ⟨r, e, hr, hcause⟩

/-- An operator without its second operand, inside a nested statement. -/
def operandMissing : Text := "A(x) Cac\x7bA(y) I(z [OR] )\x7d".toList

theorem parse_unannotated_operandMissing : Unannotated operandMissing ∧
    ((∃ p, parse {} operandMissing = .ok p) ∨ ∃ r e, parse {} operandMissing = .error r ∧ r.cause = .rejected e) := by
  have h : Unannotated operandMissing := unannotated_iff.2 (by decide)
  exact ⟨h, parse_unannotated {} h⟩

/-- The header of the second block starts before the first one, which is in its annotation. -/
example : (match parse {} "A(x) Cac[\x7bsee\x7d]\x7bI(y)\x7d".toList with
    | .error r => decide (r.cause = .misplacedCut)
    | .ok _ => false) = true := by decide +kernel

end InstitutionalGrammar
