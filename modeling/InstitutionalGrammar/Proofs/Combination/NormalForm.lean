/-
  InstitutionalGrammar.Proofs.Combination.NormalForm — the table of a text refers to a text in normal form.

  Each round puts one pair of delimiters around operands and moves blanks. So a balanced text stays balanced, and
  what is neither blank nor a delimiter of the kind stays as it is. The sweep that settles is one of the input
  of its table, so sweeping that input again settles at once.
  - `Stop.balanced`: one round, for both kinds of delimiters.
  - `spanTable_normal`: all of them.
-/

import InstitutionalGrammar.Proofs.Combination.Restarts
import InstitutionalGrammar.Proofs.Text.Balance

namespace InstitutionalGrammar

variable {d e : Delimiters} {text a operands rest t : Text} {o : Operator} {table : SpanTable}

theorem Balanced.of_allBlank (ht : Text.allBlank t = true) : ∀ c ∈ t, c ≠ e.opening ∧ c ≠ e.closing := by
  intro c hc
  have hplain := isDelimiter_of_reserved (isReserved_of_blank (List.all_eq_true.1 ht c hc))
  exact ⟨ne_opening hplain e, ne_closing hplain e⟩

theorem Stop.balanced (h : Stop d text a operands o rest) (htext : Balanced e text) :
    Balanced e (regrouped d a operands o rest) := by
  obtain ⟨blank, hblank, hall⟩ := Text.stripEnd_append isBlank operands
  have hparts : text = (a ++ [d.opening] ++ operands.trimEnd) ++ (blank ++ (o.token ++ rest)) := by
    rw [h.text_eq]
    conv_lhs => rw [hblank]
    simp [Text.trimEnd]
  rw [hparts, Balanced.insert_iff (Balanced.of_allBlank hall),
    ← Balanced.insert_iff (Balanced.of_allBlank (t := [' ']) (by decide)), List.append_assoc] at htext
  have hwrapped := htext.wrap_part d
  simpa [regrouped] using hwrapped

/-- What the rounds of a text that has a table start with, and what they keep. -/
theorem spanTable_lasts {P : Text → Prop}
    (hP : ∀ {text a operands o rest}, Stop d text a operands o rest → P text → P (regrouped d a operands o rest))
    (htext : P text) (h : spanTable d text = .ok table) :
    requireBalanced text = .ok () ∧ P table.input ∧ sweep d table.input = .ok (.settled table) := by
  obtain ⟨rounds, result, hrounds, -, -, hlength⟩ := exists_rounds d text
  rw [spanTable, hrounds.settle_eq, if_pos hlength] at h
  obtain ⟨_, hbalanced, hresult⟩ := bind_eq_ok.1 h
  subst hresult
  exact ⟨liftM_eq_ok.1 hbalanced, hrounds.lasts hP htext⟩

/-- A text with a table is balanced, and the sweep of the input of the table settles. -/
theorem spanTable_settles (h : spanTable d text = .ok table) :
    (∀ e, Balanced e text) ∧ sweep d table.input = .ok (.settled table) := by
  obtain ⟨hbalanced, -, hsweep⟩ := spanTable_lasts (P := fun _ => True) (fun _ _ => trivial) trivial h
  exact ⟨requireBalanced_iff.1 hbalanced, hsweep⟩

/-- The input of a table is balanced, has that table itself, and differs from the text in nothing but blanks and
    delimiters of the kind. -/
theorem spanTable_normal (d : Delimiters) (text : Text) (table : SpanTable) (h : spanTable d text = .ok table) :
    requireBalanced table.input = .ok () ∧ spanTable d table.input = .ok table ∧
      table.input.without (groups d) = text.without (groups d) ∧ operatorsOf table.input = operatorsOf text := by
  have hgroups : groups d d.opening = true ∧ groups d d.closing = true := by simp [groups]
  -- what one round keeps
  have hkeeps : ∀ {t a operands o rest}, Stop d t a operands o rest →
      ((∀ e, Balanced e text) → ∀ e, Balanced e t) ∧ t.without (groups d) = text.without (groups d) ∧
        operatorsOf t = operatorsOf text →
      ((∀ e, Balanced e text) → ∀ e, Balanced e (regrouped d a operands o rest)) ∧
        (regrouped d a operands o rest).without (groups d) = text.without (groups d) ∧
        operatorsOf (regrouped d a operands o rest) = operatorsOf text := by
    rintro t a operands o rest hstop ⟨hbalanced, hwithout, hoperators⟩
    refine ⟨fun htext e => hstop.balanced (hbalanced htext e), ?_, hstop.operatorsOf_eq.trans hoperators⟩
    rw [← hwithout, (groups_trace d).regrouped hgroups.1 hgroups.2 hstop.written, ← hstop.text_eq]
  obtain ⟨hbalanced, ⟨hinput, hwithout, hoperators⟩, hsweep⟩ := spanTable_lasts hkeeps ⟨id, rfl, rfl⟩ h
  have hinput' : requireBalanced table.input = .ok () :=
    requireBalanced_iff.2 (hinput (requireBalanced_iff.1 hbalanced))
  refine ⟨hinput', ?_, hwithout, hoperators⟩
  have hsettle : settle d (operatorCount table.input) table.input = .ok table := by
    rw [settle, hsweep]
    rfl
  rw [spanTable, hinput', hsettle]
  rfl

def threeOperands : Text := "(a [OR] b [OR] c)".toList

/-- The table of three operands refers to `((a [OR] b) [OR] c)`. -/
theorem spanTable_normal_threeOperands : ∃ table,
    spanTable .parentheses threeOperands = .ok table ∧ requireBalanced table.input = .ok () ∧
      spanTable .parentheses table.input = .ok table ∧
      table.input.without (groups .parentheses) = threeOperands.without (groups .parentheses) ∧
      operatorsOf table.input = operatorsOf threeOperands := by
  obtain ⟨table, htable, -⟩ := exists_ok (x := spanTable .parentheses threeOperands) (p := fun _ => true)
    (by decide +kernel)
  exact ⟨table, htable, spanTable_normal .parentheses threeOperands table htable⟩

end InstitutionalGrammar
