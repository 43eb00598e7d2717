/-
  InstitutionalGrammar.Proofs.Plain.Factored — text that the elements of a pair share can be written once.

  What stands around the braces of a pair, inside other braces, is spread over its elements before they are read.
  So such a pair is read like the one with that text written out in each element: the elements are the same and
  stand in the same tree, and the text around both pairs is the same. All that differs is what a refusal quotes.
  - `Report.Alike`: one result and one list of ignored blocks, or two refusals with the same code.
  - `pairOutput_alike`: the output of a pair does not depend on the text that errors quote.
  - `report_braced`: reading a phrase with a pair behind it, step by step.
  - `parse_factored`: parsing both texts.
-/

import InstitutionalGrammar.Proofs.Plain.Shared
import InstitutionalGrammar.Proofs.Session.Enclosed
import InstitutionalGrammar.Proofs.WellFormed.Unannotated

namespace InstitutionalGrammar

variable {options : Options} {read : Text → Report Node} {o : Operator} {front inner x : Text} {xs : List Text}

/-! ## Results that differ in what a refusal quotes -/

/-- The results are the same, or both are errors with the same code. -/
def SameCode {α : Type} (x y : Except ParseError α) : Prop :=
  x = y ∨ ∃ e e', x = .error e ∧ y = .error e' ∧ e.code = e'.code

/-- The reports are the same, or both are refusals with the same code behind the same ignored blocks. -/
def Report.Alike {α : Type} (x y : Report α) : Prop :=
  x = y ∨ x.ignored = y.ignored ∧ ∃ e e', x.result = reject e ∧ y.result = reject e' ∧ e.code = e'.code

section Related

variable {α β : Type}

theorem SameCode.refl (x : Except ParseError α) : SameCode x x := Or.inl rfl

theorem SameCode.bind {x y : Except ParseError α} {f g : α → Except ParseError β} (h : SameCode x y)
    (hf : ∀ a, SameCode (f a) (g a)) : SameCode (x >>= f) (y >>= g) := by
  rcases h with rfl | ⟨e, e', rfl, rfl, hcode⟩
  · cases x with
    | error e => exact .refl _
    | ok a => exact hf a
  · exact Or.inr ⟨e, e', rfl, rfl, hcode⟩

namespace Report.Alike

theorem refl (x : Report α) : Alike x x := Or.inl rfl

theorem bind {x y : Report α} {f g : α → Report β} (h : Alike x y) (hf : ∀ a, Alike (f a) (g a)) :
    Alike (x >>= f) (y >>= g) := by
  obtain ⟨ignored, result⟩ := x
  rcases h with rfl | ⟨hignored, e, e', hx, hy, hcode⟩
  · cases result with
    | error cause => exact refl _
    | ok a =>
      rcases hf a with hsame | ⟨hlater, e, e', hx, hy, hcode⟩
      · exact Or.inl (congrArg (fun r : Report β => Report.mk (ignored ++ r.ignored) r.result) hsame)
      · exact Or.inr ⟨congrArg (ignored ++ ·) hlater, e, e', hx, hy, hcode⟩
  · obtain ⟨ignored', result'⟩ := y
    cases hx
    cases hy
    exact Or.inr ⟨hignored, e, e', rfl, rfl, hcode⟩

theorem lift {x y : Except ParseError α} (h : SameCode x y) : Alike (liftM x) (liftM y) := by
  rcases h with rfl | ⟨e, e', rfl, rfl, hcode⟩
  · exact refl _
  · exact Or.inr ⟨rfl, e, e', rfl, rfl, hcode⟩

end Report.Alike

end Related

/-! ## Pairs -/

section Pair

variable (raw raw' : Text) (outer : Statement)

theorem Statement.inheritSlots_quoting (ps : List (Slot × Node)) (s : Statement) :
    inheritSlots raw ps s = inheritSlots raw' ps s ∨ ∃ e e', (inheritSlots raw ps s).2 = .error e ∧
      (inheritSlots raw' ps s).2 = .error e' ∧ e.code = e'.code := by
  induction ps generalizing s with
  | nil => exact Or.inl rfl
  | cons p ps ih =>
    obtain ⟨slot, tree⟩ := p
    rw [inheritSlots, inheritSlots]
    cases s.get slot with
    | none => exact ih _
    | some own =>
      by_cases hown : own = tree
      · simp only [hown, if_true]
        exact ih s
      · simp only [hown, if_false]
        exact Or.inr ⟨_, _, rfl, rfl, rfl⟩

theorem inheritOuter_sameCode (s : Statement) :
    SameCode (inheritOuter options outer raw s) (inheritOuter options outer raw' s) := by
  unfold inheritOuter Statement.inherit
  rcases Statement.inheritSlots_quoting raw raw' outer.populated s with hsame | ⟨e, e', he, he', hcode⟩
  · rw [hsame]
    exact .refl _
  · simp only [he, he']
    exact Or.inr ⟨e, e', rfl, rfl, hcode⟩

theorem elementOutput_alike (leaf : Node) :
    Report.Alike (elementOutput options read outer raw leaf) (elementOutput options read outer raw' leaf) := by
  have hinherit : ∀ tree : Node, SameCode (tree.mapLeavesM (onStatement (inheritOuter options outer raw)))
      (tree.mapLeavesM (onStatement (inheritOuter options outer raw'))) := by
    intro tree
    apply Node.mapLeavesM_related SameCode SameCode.bind fun _ => .refl _
    intro n _
    cases n with
    | leaf e m p =>
      cases e with
      | nested s => exact (inheritOuter_sameCode raw raw' outer s).bind fun _ => .refl _
      | _ => exact .refl _
    | combination o l r m p => exact .refl _
  unfold elementOutput
  simp only
  split
  · exact Or.inr ⟨rfl, _, _, rfl, rfl, rfl⟩
  · split
    · exact Or.inr ⟨rfl, _, _, rfl, rfl, rfl⟩
    · exact (Report.Alike.refl _).bind fun tree => .lift (hinherit tree)

/-- Pairs with the same elements have outputs that differ in what a refusal quotes. -/
theorem pairOutput_alike {tree tree' : Node} (h : tree.spreadShared [] [] = tree'.spreadShared [] []) :
    Report.Alike (pairOutput options read outer raw tree) (pairOutput options read outer raw' tree') := by
  unfold pairOutput
  rw [h]
  refine Report.Alike.bind ?_ fun _ => .refl _
  refine Node.mapLeavesM_related Report.Alike Report.Alike.bind (fun _ => .refl _) fun leaf _ => ?_
  exact elementOutput_alike raw raw' outer leaf

end Pair

/-! ## What is read around a pair -/

/-- The tree has a written operator at its root. -/
def Node.IsWritten (n : Node) : Prop := ∃ o l r m p, o.isSynthetic = false ∧ n = .combination o l r m p

/-- A block without a header is a pair if its tree has a written operator at the root. -/
theorem untaggedContent_pair {limit : Nat} {braced : Text} (hinner : inner.trim ≠ [])
    (hwritten : ∀ tree, combinationTree .braces limit braced = .ok tree → tree.IsWritten) :
    untaggedContent limit inner braced = BlockContent.pair <$> combinationTree .braces limit braced := by
  unfold untaggedContent
  rw [if_neg (by simpa using hinner)]
  cases htree : combinationTree .braces limit braced with
  | error cause => rfl
  | ok tree =>
    obtain ⟨o, l, r, m, p, ho, rfl⟩ := hwritten tree htree
    cases o with
    | syntheticAnd => cases ho
    | _ => rfl

/-- A phrase with braces behind it, as gaps and blocks. -/
theorem Phrase.interleaved (h : Phrase front) (hinner : Tidy inner) :
    Interleaved front [(inner, [])] ∧ FreeGaps front [(inner, [])] := by
  have hblockless : Blockless front := by
    induction h with
    | nil => exact .nil
    | char hc _ ih => exact .char (isDelimiter_of_reserved hc) ih
    | content ha _ _ ih => exact .content ha.tidy.nested ih
  refine ⟨⟨hblockless, ?_, ?_⟩, ⟨h.unbracketed, ?_⟩⟩
  · exact List.forall_mem_singleton.2 hinner.nested
  · exact List.forall_mem_singleton.2 .nil
  · exact List.forall_mem_singleton.2 nofun

theorem interleave_braced (front inner : Text) : interleave front [(inner, [])] = front ++ Piece.braced inner := rfl

/-- The braces behind a phrase that ends clear are a block without a header. -/
theorem outline_braced (hfront : Phrase front) (hclear : Clear front) (hinner : Tidy inner) (limit : Nat) :
    Outline.of limit (front ++ Piece.braced inner) = do
      let content ← untaggedContent limit inner (Piece.braced inner)
      return ⟨blanked front [(inner, [])],
        [⟨front.size, front.size + (Piece.braced inner).size, Piece.braced inner, content⟩]⟩ := by
  obtain ⟨hgaps, hfree⟩ := hfront.interleaved hinner
  have hbounds := braceBounds_interleave hgaps
  have hblocks : (bracesOf 0 front [(inner, [])]).mapM (blockAt limit (front ++ Piece.braced inner)
      (PlacedShape.all (front ++ Piece.braced inner))) = (Piece.block none inner).blocks limit front.size := by
    have hpiece := mapM_blockAt_piece (x := .block none inner) hinner hclear [] limit
    rw [List.append_nil] at hpiece
    rw [← hpiece, bracesOf, Nat.zero_add]
    rfl
  rw [interleave_braced] at hbounds
  unfold Outline.of
  simp only [hbounds]
  rw [hblocks]
  have hunfolded : (Piece.block none inner).blocks limit front.size = do
      let content ← untaggedContent limit inner (Piece.braced inner)
      return [⟨front.size, front.size + (Piece.braced inner).size, Piece.braced inner, content⟩] := rfl
  rw [hunfolded] at hblocks ⊢
  cases hcontent : untaggedContent limit inner (Piece.braced inner) with
  | error cause => rfl
  | ok content =>
    rw [hcontent] at hblocks
    have hatomic := blankOut_interleave (a := []) Clear.nil (List.nil_append _).symm hfree hblocks
    rw [Text.size_nil, interleave_braced] at hatomic
    simp only [ok_bind, pure_eq_ok]
    rw [hatomic]
    rfl

/-- Where a pair is the only block, the statement around it is done before the pair is read. -/
theorem report_step {text : Text} {outline : Outline} {b : Block} {tree : Node} {simples : Outcome Statement}
    (hblocks : outline.blocks = [b]) (hb : b.content = .pair tree)
    (hdraft : Reading.draft options text = (do return (outline, ← simples))) :
    (Reading.step options read text).report = (do
      let s ← (liftM simples : Report Statement)
      let s ← (liftM (Reading.linked options .complex s) : Report Statement)
      pairOutput options read s b.raw tree) := by
  have hcomplete : ∀ s, Reading.complete options read outline s = liftM (Reading.linked options .complex s) := by
    intro s
    unfold Reading.complete attachBlocks
    simp only [hblocks, attachCombinations, nestedGroups, hb]
    rfl
  have hpairs : Reading.pairs outline.blocks = [(b.raw, tree)] := by
    rw [hblocks, Reading.pairs, List.filterMap_cons, hb]
    rfl
  unfold Reading.step
  rw [hdraft]
  cases simples with
  | error cause => rfl
  | ok s =>
    simp only [ok_bind, pure_eq_ok, hcomplete, Report.liftM_ok, Report.done_bind]
    cases Reading.linked options .complex s with
    | error e => rfl
    | ok s' =>
      unfold Reading.output
      rw [hpairs]
      rfl

/-- Reading a phrase with a pair in braces behind it. -/
theorem report_braced (hfront : Phrase front) (hclear : Clear front) (hinner : Tidy inner) (hblank : inner.trim ≠ [])
    (hwritten : ∀ tree, combinationTree .braces options.depthLimit (Piece.braced inner) = .ok tree → tree.IsWritten) :
    (Reading.step options read (front ++ Piece.braced inner)).report = (do
      let tree ← (liftM (combinationTree .braces options.depthLimit (Piece.braced inner)) : Report Node)
      let s ← (liftM (do
        let s ← Reading.atomicStatement options.depthLimit (blanked front [(inner, [])])
        Reading.linked options .simple s : Outcome Statement) : Report Statement)
      let s ← (liftM (Reading.linked options .complex s) : Report Statement)
      pairOutput options read s (Piece.braced inner) tree) := by
  have hnested : WellNested (front ++ Piece.braced inner) := hfront.tidy.nested.append (hinner.wrap .braces).nested
  have houtline := outline_braced hfront hclear hinner options.depthLimit
  rw [untaggedContent_pair hblank hwritten] at houtline
  cases htree : combinationTree .braces options.depthLimit (Piece.braced inner) with
  | error cause =>
    rw [htree] at houtline
    unfold Reading.step Reading.draft
    rw [hnested.requireBalanced, houtline]
    rfl
  | ok tree =>
    rw [htree] at houtline
    let b : Block := ⟨front.size, front.size + (Piece.braced inner).size, Piece.braced inner, .pair tree⟩
    have hdraft : Reading.draft options (front ++ Piece.braced inner) = (do
        return ((⟨blanked front [(inner, [])], [b]⟩ : Outline), ← (do
          let s ← Reading.atomicStatement options.depthLimit (blanked front [(inner, [])])
          Reading.linked options .simple s : Outcome Statement))) := by
      unfold Reading.draft
      rw [hnested.requireBalanced, houtline]
      simp only [bind_assoc]
      rfl
    rw [Report.liftM_ok, Report.done_bind]
    exact report_step (b := b) rfl rfl hdraft

/-! ## Texts that share -/

/-- Spreading the shared text over the leaves of a chain writes it out around each of them. -/
theorem spreadShared_chain (before after : List Text) (n : Node) (xs : List Text) :
    (Node.joined o n (xs.map .coded)).spreadShared before after =
      Node.joined o (n.spreadShared before after) ((xs.map fun x => joinSpaced (before ++ [x] ++ after)).map .coded) := by
  induction xs generalizing n with
  | nil => rfl
  | cons x xs ih =>
    have hstep : (Node.combination o n (.coded x) {} []).spreadShared before after = .combination o
        (n.spreadShared before after) (.coded (joinSpaced (before ++ [x] ++ after))) {} [] := by
      simp [Node.spreadShared, Node.coded]
    have hlater := ih (.combination o n (.coded x) {} [])
    rw [hstep] at hlater
    exact hlater

theorem spreadShared_shared (before after : Option Text) (x : Text) (hxs : xs ≠ []) :
    ((Node.joined o (.coded x) (xs.map .coded)).withMarks (.sharing before after)).spreadShared [] [] =
      Node.joined o (.coded ((Marks.sharing before after).surround x))
        ((xs.map (Marks.sharing before after).surround).map .coded) := by
  have hroot : ∀ l r : Node, ((Node.combination o l r {} []).withMarks (.sharing before after)).spreadShared [] [] =
      (Node.combination o l r {} []).spreadShared before.toList after.toList := by
    intro l r
    simp [Node.withMarks, Node.spreadShared, Marks.sharing]
  have hspread := spreadShared_chain (o := o) before.toList after.toList (.coded x) xs
  rw [Node.joined_root o x hxs] at hspread ⊢
  rw [hroot, hspread]
  rfl

theorem Node.isWritten_joined (ho : o.isSynthetic = false) (x : Text) (hxs : xs ≠ []) :
    (joined o (coded x) (xs.map coded)).IsWritten := by
  rw [joined_root o x hxs]
  exact ⟨o, _, _, {}, [], ho, rfl⟩

theorem Node.IsWritten.withMarks {n : Node} (h : n.IsWritten) (m : Marks) : (n.withMarks m).IsWritten := by
  obtain ⟨o, l, r, _, p, ho, rfl⟩ := h
  exact ⟨o, l, r, m, p, ho, rfl⟩

section Factored

variable {before after : Option Text}

/-- Fragments joined by the operator, with the text that they share around them. -/
def factored (before after : Option Text) (o : Operator) (x : Text) (xs : List Text) : Text :=
  (Marks.sharing before after).surround (Piece.braced (x ++ chain o xs))

/-- The same fragments, with that text written out around each of them. -/
def spreadOut (before after : Option Text) (o : Operator) (x : Text) (xs : List Text) : Text :=
  (Marks.sharing before after).surround x ++ chain o (xs.map (Marks.sharing before after).surround)

theorem trim_factored (before after : Option Text) (o : Operator) (x : Text) (xs : List Text) :
    (factored before after o x xs).trim ≠ [] := by
  intro hblank
  have hmem : brace ∈ factored before after o x xs := by
    rw [factored, surround_eq]
    simp [Piece.braced]
  have hbrace := List.all_eq_true.1 (Text.trim_eq_nil_iff.1 hblank) brace hmem
  exact absurd hbrace (by decide)

variable (hb : ∀ t ∈ before, Fragment t) (ha : ∀ t ∈ after, Fragment t) (hx : ∀ y ∈ x :: xs, Fragment y)
include hb ha hx

theorem fragments_spreadOut : ∀ y ∈ (Marks.sharing before after).surround x ::
    xs.map (Marks.sharing before after).surround, Fragment y := by
  intro y hy
  rw [← List.map_cons] at hy
  obtain ⟨z, hz, rfl⟩ := List.mem_map.1 hy
  exact (hx z hz).surrounded hb ha

theorem trim_spreadOut : (spreadOut before after o x xs).trim ≠ [] := by
  have hfirst := fragments_spreadOut hb ha hx _ List.mem_cons_self
  have hne := Text.trim_ne_nil hfirst.trimmed hfirst.ne_nil [] (chain o (xs.map (Marks.sharing before after).surround))
  simpa [spreadOut] using hne

variable (ho : o.isSynthetic = false)
include ho

theorem tidy_factored : Tidy (factored before after o x xs) := by
  have hchain := tidy_enclosed_chain (d := .braces) ho fun y hy => (hx y hy).atom
  exact tidy_sharing hb ha (by simpa [Piece.braced] using hchain)

theorem tidy_spreadOut : Tidy (spreadOut before after o x xs) := by
  have hfragments := fragments_spreadOut hb ha hx
  have hchain := tidy_chain ho fun y hy => (hfragments y (List.mem_cons_of_mem _ hy)).phrase.tidy
  exact (hfragments _ List.mem_cons_self).phrase.tidy.append hchain

variable (hxs : xs ≠ [])
include hxs

theorem combinationTree_spreadOut (limit : Nat) :
    combinationTree .braces limit (Piece.braced (spreadOut before after o x xs)) =
      if xs.length ≤ limit then .ok (Node.joined o (.coded ((Marks.sharing before after).surround x))
        ((xs.map (Marks.sharing before after).surround).map .coded))
      else reject (.nestingTooDeep limit) := by
  have hne : xs.map (Marks.sharing before after).surround ≠ [] := by simpa using hxs
  have htree := combinationTree_chain ho hne (fun y hy => (fragments_spreadOut hb ha hx y hy).atom) limit
  rw [List.length_map] at htree
  rw [← htree]
  simp [Piece.braced, spreadOut]

/-- Read as statements, both texts have the same result, but for what a refusal quotes. -/
theorem factored_alike (hfront : Phrase front) (hclear : Clear front) :
    Report.Alike (Reading.step options read (front ++ Piece.braced (factored before after o x xs))).report
      (Reading.step options read (front ++ Piece.braced (spreadOut before after o x xs))).report := by
  have hfactored : combinationTree .braces options.depthLimit (Piece.braced (factored before after o x xs)) = _ :=
    combinationTree_shared hb ha ho hxs hx options.depthLimit
  have hspread := combinationTree_spreadOut hb ha hx ho hxs options.depthLimit
  have hinner := tidy_factored hb ha hx ho
  have hinner' := tidy_spreadOut hb ha hx ho
  obtain ⟨hgaps, hfree⟩ := hfront.interleaved hinner
  have hsame := atomicStatement_gaps hgaps (hfront.interleaved hinner').1 hfree rfl options.depthLimit
  rw [report_braced hfront hclear hinner (trim_factored before after o x xs), hfactored,
    report_braced hfront hclear hinner' (trim_spreadOut hb ha hx), hspread, hsame]
  · by_cases hlimit : xs.length ≤ options.depthLimit
    · rw [if_pos hlimit, if_pos hlimit, Report.liftM_ok, Report.liftM_ok, Report.done_bind, Report.done_bind]
      refine (Report.Alike.refl _).bind fun s => (Report.Alike.refl _).bind fun s => pairOutput_alike _ _ s ?_
      rw [spreadShared_shared before after x hxs, spreadShared_joined]
    · have hreject : (liftM (reject (.nestingTooDeep options.depthLimit) : Outcome Node) : Report Node) =
          .failed (.nestingTooDeep options.depthLimit) := rfl
      rw [if_neg hlimit, if_neg hlimit, hreject, Report.failed_bind, Report.failed_bind]
      exact .refl _
  · intro tree htree
    rw [hspread] at htree
    split at htree
    · cases htree
      exact Node.isWritten_joined ho _ (by simpa using hxs)
    · cases htree
  · intro tree htree
    rw [hfactored] at htree
    split at htree
    · cases htree
      exact (Node.isWritten_joined ho x hxs).withMarks _
    · cases htree

end Factored

/-! ## The whole parse -/

/-- Every bracket of a tidy text belongs to an operator. -/
theorem Tidy.unannotated {t : Text} (h : Tidy t) : Unannotated t := by
  rw [unannotated_iff]
  induction h with
  | nil => rfl
  | char hc _ ih => rw [looseBrackets_of_ne (ne_bracket hc).1, ih]
  | operator ho _ ih => rw [looseBrackets_weight.token _ ho, ih]
  | @enclosed d a t _ _ iha iht =>
    have hopen : d.opening ≠ '[' := by cases d <;> decide
    have hclose : d.closing ≠ '[' := by cases d <;> decide
    have htail : isTokenTail d.closing = false := by cases d <;> decide
    rw [looseBrackets_of_ne hopen, looseBrackets_weight.joint _ _ htail, iha, looseBrackets_of_ne hclose, iht]

/-- Texts with such readings are both parsed to the same, or both refused with the same code. -/
theorem parse_alike {t t' : Text} (ht : Tidy t)
    (h : Report.Alike (Reading.of options t).report (Reading.of options t').report) :
    (∃ p, parse options t = .ok p ∧ parse options t' = .ok p) ∨ ∃ r r' e e', parse options t = .error r ∧
      parse options t' = .error r' ∧ r.cause = .rejected e ∧ r'.cause = .rejected e' ∧ e.code = e'.code := by
  have hof : Meets Failure.IsRefusal (fun _ => True) (Reading.of options t).result :=
    Reading.step_unannotated ht.unannotated fun inner hinner => Reading.within_unannotated hinner
  rcases h with hsame | ⟨-, e, e', he, he', hcode⟩
  · obtain ⟨hignored, hresult⟩ := Report.mk.inj hsame
    cases hof' : (Reading.of options t).result with
    | ok tree =>
      rw [hof'] at hresult
      refine Or.inl ⟨⟨tree, warningsOf (Reading.of options t).ignored⟩, ?_, ?_⟩
      · unfold parse
        simp only [hof']
      · unfold parse
        simp only [← hresult, hignored]
    | error cause =>
      obtain ⟨e, rfl⟩ := hof.failure hof'
      obtain ⟨r, hr, hcause⟩ := exists_refusal hof'
      obtain ⟨r', hr', hcause'⟩ := exists_refusal (hresult.symm.trans hof')
      exact Or.inr ⟨r, r', e, e, hr, hr', hcause, hcause', rfl⟩
  · obtain ⟨r, hr, hcause⟩ := exists_refusal he
    obtain ⟨r', hr', hcause'⟩ := exists_refusal he'
    exact Or.inr ⟨r, r', e, e', hr, hr', hcause, hcause', hcode⟩

/-- Text that all elements of a pair begin with, and text that they all end with, can stand once, around braces of
    their own: parsing both texts gives the same output and warnings, or both are refused with the same code. -/
theorem parse_factored {p before after : Option Text} (options : Options) (hp : ∀ t ∈ p, Phrase t)
    (hb : ∀ t ∈ before, Fragment t) (ha : ∀ t ∈ after, Fragment t) (ho : o.isSynthetic = false) (hxs : xs ≠ [])
    (hx : ∀ y ∈ x :: xs, Fragment y) :
    (∃ parsed, parse options (joinSpaced (p.toList ++ [Piece.braced (factored before after o x xs)])) = .ok parsed ∧
      parse options (joinSpaced (p.toList ++ [Piece.braced (spreadOut before after o x xs)])) = .ok parsed) ∨
    ∃ r r' e e', parse options (joinSpaced (p.toList ++ [Piece.braced (factored before after o x xs)])) = .error r ∧
      parse options (joinSpaced (p.toList ++ [Piece.braced (spreadOut before after o x xs)])) = .error r' ∧
      r.cause = .rejected e ∧ r'.cause = .rejected e' ∧ e.code = e'.code := by
  have hsplit : ∀ inner, joinSpaced (p.toList ++ [Piece.braced inner]) =
      p.toList.flatMap (· ++ [' ']) ++ Piece.braced inner := by
    intro inner
    rw [joinSpaced_append_cons]
    simp
  have hfront : Phrase (p.toList.flatMap (· ++ [' '])) := by
    cases p with
    | none => exact .nil
    | some t => simpa using (hp t rfl).append (.char (c := ' ') (by decide) .nil)
  have hclear : Clear (p.toList.flatMap (· ++ [' '])) := by
    cases p with
    | none => exact .nil
    | some t => simpa using Clear.space t
  rw [hsplit, hsplit]
  refine parse_alike (hfront.tidy.append ((tidy_factored hb ha hx ho).wrap .braces)) ?_
  exact factored_alike hb ha hx ho hxs hfront hclear

/-- A component with one word in its parentheses. -/
def oneWord (c : Component) (w : String) : Text := (Slot.simple c).written w.toList

/-- Two aims, with the deontic and the constraint that they share. -/
def sharedDeontic : Text := "A(farmers) \x7bD(must) \x7bI(plant) [XOR] I(harvest)\x7d Cex(yearly)\x7d".toList

def repeatedDeontic : Text :=
  "A(farmers) \x7bD(must) I(plant) Cex(yearly) [XOR] D(must) I(harvest) Cex(yearly)\x7d".toList

theorem parse_factored_sharedDeontic :
    ∃ parsed, parse {} sharedDeontic = .ok parsed ∧ parse {} repeatedDeontic = .ok parsed := by
  have hword : ∀ (c : Component) (w : String), (∀ e ∈ w.toList, isReserved e = false) → Fragment (oneWord c w) :=
    fun c w hw => .content c (.of_all hw)
  have hsome : ∀ (P : Text → Prop) (t : Text), P t → ∀ u ∈ some t, P u := by
    intro P t ht u hu
    cases hu
    exact ht
  have hfarmers := hword .attributes "farmers" (Text.forall_of_all (by decide))
  have hmust := hword .deontic "must" (Text.forall_of_all (by decide))
  have hplant := hword .aim "plant" (Text.forall_of_all (by decide))
  have hharvest := hword .aim "harvest" (Text.forall_of_all (by decide))
  have hyearly := hword .executionConstraint "yearly" (Text.forall_of_all (by decide))
  have heither := parse_factored (o := .xor) {} (hsome Phrase _ hfarmers.phrase) (hsome Fragment _ hmust)
    (hsome Fragment _ hyearly) rfl (List.cons_ne_nil _ [])
    (List.forall_mem_cons.2 ⟨hplant, List.forall_mem_singleton.2 hharvest⟩)
  have hfactored : joinSpaced ((some (oneWord .attributes "farmers")).toList ++ [Piece.braced
      (factored (some (oneWord .deontic "must")) (some (oneWord .executionConstraint "yearly")) .xor
        (oneWord .aim "plant") [oneWord .aim "harvest"])]) = sharedDeontic := by decide +kernel
  have hspread : joinSpaced ((some (oneWord .attributes "farmers")).toList ++ [Piece.braced
      (spreadOut (some (oneWord .deontic "must")) (some (oneWord .executionConstraint "yearly")) .xor
        (oneWord .aim "plant") [oneWord .aim "harvest"])]) = repeatedDeontic := by decide +kernel
  rw [hfactored, hspread] at heither
  obtain ⟨parsed, hparsed, -⟩ := exists_ok (x := parse {} sharedDeontic) (p := fun _ => true) (by decide +kernel)
  rcases heither with hsame | ⟨r, -, -, -, hrefused, -⟩
  · exact hsame
  · cases hparsed.symm.trans hrefused

end InstitutionalGrammar
