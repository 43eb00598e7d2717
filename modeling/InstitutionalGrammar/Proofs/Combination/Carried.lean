/-
  InstitutionalGrammar.Proofs.Combination.Carried — what the texts of a tree take over from its text.

  Operands, shared texts and leaves of a nested text are nested stretches of it that start behind a delimiter,
  behind an operator or behind white space. So whatever such stretches inherit, and regrouped texts, the tree
  of the text carries.
  - `Stretch`, `Inherited`: what is passed on.
  - `SpanTable.Shares.operands`, `before`, `between`, `after`: the stretches of one combination.
  - `treeWithin_carries`: whole trees.
-/

import InstitutionalGrammar.Proofs.Combination.Nesting
import InstitutionalGrammar.Proofs.Combination.SideBySide

namespace InstitutionalGrammar

variable {P : Text → Prop} {a b t u : Text} {o : Operator} {table : SpanTable} {e : Span} {n tree : Node}

/-- Where a stretch of a text can start: behind white space only, or behind a delimiter or a closing bracket. -/
def Edge (a : Text) : Prop := a.allBlank = true ∨ ∃ z c, a = z ++ [c] ∧ isReserved c = true ∧ c ≠ '['

/-- A nested part of a text, from an edge on. -/
def Stretch (t u : Text) : Prop := ∃ a b, t = a ++ (u ++ b) ∧ WellNested u ∧ Edge a

/-- A property of nested texts that their stretches inherit, and texts in which repeated operators are regrouped. -/
structure Inherited (P : Text → Prop) : Prop where
  nested : ∀ t, P t → WellNested t
  stretch : ∀ t u, P t → Stretch t u → P u
  regroup : ∀ a g o r, Repeats a g o → P (a ++ brace :: (g ++ (o.token ++ r))) → P (regrouped .braces a g o r)

/-! ## Edges -/

theorem Stretch.nil (t : Text) : Stretch t [] := ⟨[], t, rfl, .nil, Or.inl rfl⟩

theorem Operator.token_brackets (ho : o.isSynthetic = false) : o.token = '[' :: (o.name ++ [']']) := by
  cases o with
  | syntheticAnd => cases ho
  | _ => rfl

namespace Edge

theorem nil : Edge [] := Or.inl rfl

theorem snoc (z : Text) {c : Char} (hc : isReserved c = true) (hopen : c ≠ '[') : Edge (z ++ [c]) :=
  Or.inr ⟨z, c, rfl, hc, hopen⟩

theorem opening (z : Text) : Edge (z ++ [brace]) := snoc z (by decide) (by decide)

theorem closing (z : Text) : Edge (z ++ [endBrace]) := snoc z (by decide) (by decide)

theorem token (z : Text) (ho : o.isSynthetic = false) : Edge (z ++ o.token) := by
  rw [Operator.token_brackets ho, ← List.cons_append, ← List.append_assoc]
  exact snoc _ (by decide) (by decide)

end Edge

/-! ## Trimmed texts -/

namespace WellNested

theorem head? (h : WellNested t) : ∀ c ∈ t.head?, isClosing c = false := by
  cases h with
  | nil => exact nofun
  | char hc _ =>
    rintro c ⟨⟩
    exact (Bool.or_eq_false_iff.1 hc).2
  | @enclosed d =>
    rintro c ⟨⟩
    cases d <;> rfl

theorem getLast? (h : WellNested t) : ∀ c ∈ t.getLast?, isOpening c = false := by
  intro c hc
  obtain ⟨z, rfl⟩ := List.getLast?_eq_some_iff.1 hc
  have hne : ∀ d : Delimiters, c ≠ d.opening := by
    rintro d rfl
    exact h.not_open (leftOpen_nil [])
  simp only [isOpening, Bool.or_eq_false_iff, decide_eq_false_iff_not]
  exact ⟨hne .parentheses, hne .braces⟩

end WellNested

theorem Text.exists_trim (t : Text) : ∃ a b : Text, t = a ++ (t.trim ++ b) ∧ a.allBlank = true ∧ b.allBlank = true := by
  obtain ⟨b, hb, hblank⟩ := Text.stripEnd_append isBlank t.trimStart
  have hsplit : t = t.takeWhile isBlank ++ t.trimStart := List.takeWhile_append_dropWhile.symm
  exact ⟨t.takeWhile isBlank, b, hsplit.trans (congrArg _ hb), List.all_takeWhile, hblank⟩

theorem WellNested.trim (h : WellNested t) : Stretch t t.trim := by
  obtain ⟨a, b, ht, ha, hb⟩ := t.exists_trim
  have hplain : ∀ w : Text, w.allBlank = true → ∀ c ∈ w, isDelimiter c = false := fun w hw c hc =>
    isDelimiter_of_reserved (isReserved_of_blank (List.all_eq_true.1 hw c hc))
  refine ⟨a, b, ht, ?_, Or.inl ha⟩
  rw [ht] at h
  exact (h.behind (.of_all (hplain a ha))).left (hplain b hb)

/-- No delimiter is astray in front of a nested text or behind it. -/
theorem WellNested.shared? (h : WellNested t) : ∀ s ∈ shared? t, s = t.trim := by
  obtain ⟨-, -, -, htrim, -⟩ := h.trim
  have hstart : Text.stripStart isClosing t.trim = t.trim := Text.stripStart_eq_self_iff.2 htrim.head?
  have hend : Text.stripEnd isOpening t.trim = t.trim := Text.stripEnd_eq_self_iff.2 htrim.getLast?
  unfold InstitutionalGrammar.shared?
  rw [hstart, hend, t.trim_trim]
  intro s hs
  split at hs
  · cases hs
  · exact (Option.some.inj hs).symm

namespace Inherited

theorem trim (hP : Inherited P) (h : P t) : P t.trim := hP.stretch t t.trim h (hP.nested t h).trim

theorem shared? (hP : Inherited P) (h : P t) : ∀ s ∈ (shared? t).toList, P s := by
  intro s hs
  rw [(hP.nested t h).shared? s (Option.mem_toList.1 hs)]
  exact hP.trim h

end Inherited

/-! ## The stretches of a combination -/

theorem slice_stretch {i j : Nat} (ht : t = a ++ u ++ b) (hi : a.size = i) (hj : a.size + u.size = j) (hu : WellNested u)
    (ha : Edge a) : t.slice i j = .ok u ∧ Stretch t u :=
  ⟨Text.slice_parts ht hi hj, a, b, by rw [ht, List.append_assoc], hu, ha⟩

namespace SpanTable.Shares

variable {q g r : Text} (h : table.Shares e a q g r b)
include h

theorem operands {o : PlacedOperator} (ho : e.operator = some o) : ∃ left right,
    (table.input.slice (e.left + 1) o.start = .ok left ∧ Stretch table.input left) ∧
      table.input.slice o.stop e.right = .ok right ∧ Stretch table.input right := by
  obtain ⟨left, right, rfl, hleft, hright, hstart, hstop, hwritten⟩ := h.inside.halves o ho
  have hopens := h.opens
  have hcloses := h.closes
  rw [Text.size_append, Text.size_append] at hcloses
  have hfront : (a ++ q ++ [brace]).size = e.left + 1 := by
    simp only [Text.size_append, Text.size_cons, Text.size_nil, Delimiters.utf8Size_opening]
    omega
  have hbehind : (a ++ q ++ [brace] ++ left ++ o.operator.token).size = o.stop := by
    rw [Text.size_append, Text.size_append, hfront]
    omega
  have hbefore : table.input = (a ++ q ++ [brace]) ++ left ++ (o.operator.token ++ (right ++ endBrace :: (r ++ b))) := by
    rw [h.stands]
    simp
  have hafter : table.input = (a ++ q ++ [brace] ++ left ++ o.operator.token) ++ right ++ endBrace :: (r ++ b) := by
    rw [h.stands]
    simp
  exact ⟨left, right, slice_stretch hbefore hfront (by omega) hleft (.opening _),
    slice_stretch hafter hbehind (by omega) hright (.token _ hwritten)⟩

theorem slice_before : table.input.slice (table.scope e).1 e.left = .ok q ∧ Stretch table.input q := by
  have hparts : table.input = a ++ q ++ brace :: (g ++ endBrace :: (r ++ b)) := by
    rw [h.stands, List.append_assoc]
  refine slice_stretch hparts h.starts.symm h.opens.symm h.before ?_
  rcases h.edge with rfl | ⟨z, rfl⟩
  · exact .nil
  · exact .opening z

theorem slice_after : table.input.slice (e.right + 1) (table.scope e).2 = .ok r ∧ Stretch table.input r := by
  have hopens := h.opens
  have hcloses := h.closes
  have hstops := h.stops
  have hparts : table.input = (a ++ q ++ brace :: g ++ [endBrace]) ++ r ++ b := by
    rw [h.stands]
    simp
  have hsize : (a ++ q ++ brace :: g ++ [endBrace]).size = e.right + 1 := by
    simp only [Text.size_append, Text.size_cons, Text.size_nil, Delimiters.utf8Size_opening, Delimiters.utf8Size_closing]
    omega
  exact slice_stretch hparts hsize (by omega) h.after (.closing _)

/-- Behind another span in the same stretch. -/
theorem slice_between {x : Span} {a' q' g' r' b' : Text} (hx : table.Shares x a' q' g' r' b')
    (hscope : table.scope x = table.scope e) (hlt : x.right < e.left) :
    ∃ y, table.input.slice (x.right + 1) e.left = .ok y ∧ Stretch table.input y := by
  obtain ⟨rfl, hrest⟩ : a = a' ∧ q ++ brace :: (g ++ endBrace :: (r ++ b)) = q' ++ brace :: (g' ++ endBrace :: (r' ++ b')) :=
    Text.append_inj_size (h.stands.symm.trans hx.stands) (by rw [← h.starts, ← hx.starts, hscope])
  have hopens := h.opens
  have hopens' := hx.opens
  have hcloses' := hx.closes
  obtain ⟨span, hspan⟩ : ∃ span, span = q' ++ brace :: g' ++ [endBrace] := ⟨_, rfl⟩
  have hnested : WellNested span := by
    rw [hspan, List.append_assoc]
    exact hx.before.append (.enclosed (d := .braces) hx.inside.nested .nil)
  have hsize : a.size + span.size = x.right + 1 := by
    rw [hspan]
    simp only [Text.size_append, Text.size_cons, Text.size_nil, Delimiters.utf8Size_opening, Delimiters.utf8Size_closing]
    omega
  obtain ⟨y, rfl⟩ : ∃ y, q = span ++ y := by
    have hsame : q ++ brace :: (g ++ endBrace :: (r ++ b)) = span ++ (r' ++ b') := by
      rw [hrest, hspan]
      simp
    rcases List.append_eq_append_iff.1 hsame with ⟨w, hw, -⟩ | ⟨w, hw, -⟩
    · cases w with
      | nil => exact ⟨[], by simpa using hw.symm⟩
      | cons c w =>
        rw [hw, Text.size_append, Text.size_cons] at hsize
        have hpos := c.utf8Size_pos
        omega
    · exact ⟨w, hw⟩
  rw [Text.size_append] at hopens
  have hparts : table.input = (a ++ span) ++ y ++ brace :: (g ++ endBrace :: (r ++ b)) := by
    rw [h.stands]
    simp
  have hfront : (a ++ span).size = x.right + 1 := by rw [Text.size_append, hsize]
  refine ⟨y, slice_stretch hparts hfront (by omega) (h.before.behind hnested) ?_⟩
  rw [hspan, ← List.append_assoc]
  exact .closing _

end SpanTable.Shares

/-! ## Trees -/

/-- The texts of the leaves and what combinations share have the property. -/
def Node.Carries (P : Text → Prop) : Node → Prop
  | .combination _ l r m _ => (∀ t ∈ m.sharedLeft ++ m.sharedRight, P t) ∧ l.Carries P ∧ r.Carries P
  | .leaf (.text v) _ _ => P v
  | .leaf .. => True

/-- A brace that closes at the end of a nested text encloses a nested one. -/
theorem WellNested.enclosed_inside {v : Text} (h : WellNested t) (henclosed : isEnclosed .braces t = .ok true)
    (hv : t.slice 1 (t.size - 1) = .ok v) : Stretch t v := by
  unfold isEnclosed at henclosed
  split at henclosed
  · rename_i hhead
    obtain ⟨w, rfl⟩ := List.head?_eq_some_iff.1 hhead
    obtain ⟨inner, rest, rfl, hinner⟩ : ∃ inner rest : Text, w = inner ++ endBrace :: rest ∧ WellNested inner :=
      WellNested.behind_opening (a := []) h
    obtain ⟨close, hclose, henclosed⟩ := bind_eq_ok.1 henclosed
    have hfound := hinner.closeOf .braces [] rest
    rw [List.nil_append, Text.size_nil] at hfound
    cases hclose.symm.trans hfound
    have hsize : Text.size (brace :: (inner ++ endBrace :: rest)) = 1 + inner.size + 1 + rest.size := by
      simp only [Text.size_append, Text.size_cons, Delimiters.utf8Size_opening, Delimiters.utf8Size_closing]
      omega
    have hend : 0 + 1 + inner.size = 1 + inner.size + 1 + rest.size - 1 := by
      rw [← hsize]
      simpa [pure, Except.pure] using henclosed
    have hstretch := slice_stretch (t := brace :: (inner ++ endBrace :: rest)) (a := [brace]) (u := inner)
      (b := endBrace :: rest) (i := 1) (j := 1 + inner.size) (by simp) rfl rfl hinner (.opening [])
    rw [hsize, show 1 + inner.size + 1 + rest.size - 1 = 1 + inner.size by omega, hstretch.1] at hv
    cases hv
    exact hstretch.2
  · cases henclosed

section Build

variable (hP : Inherited P)
include hP

theorem leafOf_carries {text : Text} (ht : P text) (h : leafOf .braces text = .ok tree) : tree.Carries P := by
  have htrim := hP.trim ht
  have hvalue : ∀ {value : Text}, P value → ∀ {n : Node}, (do
      if value.isEmpty then reject (.emptyOperand text (Position.locate text 0))
      return Node.text value : Outcome Node) = .ok n → n.Carries P := by
    intro value hvalue n hn
    split at hn
    · cases hn
    · cases hn
      exact hP.trim hvalue
  unfold leafOf at h
  obtain ⟨enclosed, henclosed, h⟩ := bind_eq_ok.1 h
  cases enclosed with
  | false => exact hvalue htrim h
  | true =>
    obtain ⟨part, hslice, h⟩ := bind_eq_ok.1 h
    have hpart : P part := hP.stretch _ _ htrim ((hP.nested _ htrim).enclosed_inside henclosed hslice)
    exact hvalue (hP.trim hpart) h

variable {build : Text → Outcome Node} (hbuild : ∀ t n, P t → build t = .ok n → n.Carries P)
include hbuild

theorem combinationOf_carries (htable : table.Nests) (hinput : P table.input) (he : e ∈ table.spans) {o : PlacedOperator}
    (ho : e.operator = some o) {earlier later : List Span} (hearlier : ∀ x ∈ earlier, x ∈ table.spans ∧ x.right < e.left)
    (h : combinationOf build table earlier e o later = .ok n) : n.Carries P := by
  obtain ⟨a, q, g, r, b, hshares⟩ := htable.shares he
  obtain ⟨left, right, ⟨hsliceLeft, hstretchLeft⟩, hsliceRight, hstretchRight⟩ := hshares.operands ho
  obtain ⟨_, _, before, after, first, second, component, hleft, hright, hfirst, hsecond, hbefore, hafter, rfl⟩ :=
    combinationOf_eq_ok h
  cases hsliceLeft.symm.trans hleft
  cases hsliceRight.symm.trans hright
  have hstretchBefore : Stretch table.input before := by
    split at hbefore
    · rename_i x hfind
      obtain ⟨hx, hlt⟩ := hearlier x (List.mem_of_find?_eq_some hfind)
      obtain ⟨a', q', g', r', b', hx⟩ := htable.shares hx
      have hscope : table.scope x = table.scope e :=
        of_decide_eq_true (List.find?_some (p := fun x => decide (table.scope x = table.scope e)) hfind)
      obtain ⟨y, hslice, hstretch⟩ := hshares.slice_between hx hscope hlt
      cases hslice.symm.trans hbefore
      exact hstretch
    · cases hshares.slice_before.1.symm.trans hbefore
      exact hshares.slice_before.2
  have hstretchAfter : Stretch table.input after := by
    split at hafter
    · rw [hafter]
      exact .nil _
    · cases hshares.slice_after.1.symm.trans hafter
      exact hshares.slice_after.2
  refine ⟨fun s hs => ?_, hbuild left first (hP.stretch _ _ hinput hstretchLeft) hfirst,
    hbuild right second (hP.stretch _ _ hinput hstretchRight) hsecond⟩
  rcases List.mem_append.1 hs with hs | hs
  · exact hP.shared? (hP.stretch _ _ hinput hstretchBefore) s hs
  · exact hP.shared? (hP.stretch _ _ hinput hstretchAfter) s hs

theorem treeStep_carries {text : Text} (ht : P text) (h : treeStep .braces build text = .ok tree) : tree.Carries P := by
  have htable : Meets (fun _ => True) (fun table : SpanTable => table.Nests ∧ P table.input ∧ table.Sound .braces)
      (spanTable .braces text) := by
    refine .of_ok fun table htable => ?_
    obtain ⟨hnests, hinput⟩ := spanTable_nests (fun a g o r hr _ => hP.regroup a g o r hr) (hP.nested text ht) ht htable
    exact ⟨hnests, hinput, ((spanTable_regular .braces text).value htable).1⟩
  have htree : Meets (fun _ => True) (Node.Carries P) (treeStep .braces build text) := by
    refine Meets.tree htable ?_ ?_ ?_ fun n (hn : n.Carries P) => hn
    · exact fun table ⟨_, hinput, _⟩ _ => .of_ok fun n hn => leafOf_carries hP hinput hn
    · intro table ⟨hnests, hinput, hsound⟩ level earlier s o later hlevel ho
      obtain ⟨hs, hearlier⟩ := hsound.passed hlevel
      exact .of_ok fun n hn => combinationOf_carries hP hbuild hnests hinput hs ho hearlier hn
    · refine fun l r hl hr => .of_ok fun n hn => ?_
      obtain ⟨component, rfl⟩ := Node.combine_eq hn
      exact ⟨nofun, hl, hr⟩
  exact htree.value h

end Build

theorem treeWithin_carries (hP : Inherited P) {limit budget : Nat} {text : Text} (ht : P text)
    (h : treeWithin .braces limit budget text = .ok tree) : tree.Carries P := by
  induction budget generalizing text tree with
  | zero => cases h
  | succ budget ih => exact treeStep_carries hP (fun t n ht hn => ih ht hn) ht h

end InstitutionalGrammar
