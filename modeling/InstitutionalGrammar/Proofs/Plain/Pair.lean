/-
  InstitutionalGrammar.Proofs.Plain.Pair — a pair of plain statements inside a plain one.

  - `untaggedContent_chain`: a bare block of operands under one operator is a pair.
  - `elementOutput_agree`, `elementOutput_conflict`: an element takes over the outer statement, or
    is refused where the two differ.
  - `parse_pair`: each element of a pair becomes one output statement, its union with the outer one.
-/

import InstitutionalGrammar.Proofs.Combination.Chain
import InstitutionalGrammar.Proofs.Inheritance
import InstitutionalGrammar.Proofs.Plain.RoundTrip

namespace InstitutionalGrammar

variable {o : Operator}

/-- The statement written out with the others behind it, joined as a pair. -/
def Statement.renderPair (outer : Statement) (o : Operator) (e : Statement) (es : List Statement) : Text :=
  outer.render ++ ' ' :: Piece.braced (e.render ++ chain o (es.map Statement.render))

/-! ## The block of a pair -/

theorem writtenCombinations_joined (ho : o.isSynthetic = false) (n : Node) {ns : List Node} (hns : ns ≠ []) :
    writtenCombinations (Node.joined o n ns) = [Node.joined o n ns] ∧ (Node.joined o n ns).isCombination = true := by
  obtain ⟨init, last, rfl⟩ : ∃ init last, ns = init ++ [last] :=
    ⟨_, _, (List.dropLast_concat_getLast hns).symm⟩
  rw [Node.joined, List.foldl_append]
  cases o with
  | syntheticAnd => cases ho
  | _ => exact ⟨rfl, rfl⟩

/-- A bare block of operands under one operator is the pair of their left fold. -/
theorem untaggedContent_chain (ho : o.isSynthetic = false) {e : Text} {es : List Text} (hes : es ≠ [])
    (hatom : ∀ x ∈ e :: es, Atom .braces x) {limit : Nat} (hlimit : es.length ≤ limit) :
    untaggedContent limit (e ++ chain o es) (Piece.braced (e ++ chain o es)) =
      .ok (.pair (Node.joined o (.coded e) (es.map .coded))) := by
  have he := hatom e (by simp)
  have hblank : (e ++ chain o es).trim.isEmpty = false := by
    have := Text.trim_ne_nil he.trimmed he.ne_nil [] (chain o es)
    simpa using this
  obtain ⟨f, later, rfl⟩ := List.exists_cons_of_ne_nil hes
  have htree : combinationTree .braces limit (Piece.braced (e ++ chain o (f :: later))) =
      .ok (Node.joined o (.coded e) ((f :: later).map .coded)) := by
    have hbudget : (Node.coded e).height + (f :: later).length < limit + 1 := by
      simp only [Node.coded, Node.height]
      omega
    have hlater : ∀ x ∈ f :: later, Atom .braces x := fun x hx => hatom x (by simp [hx])
    have hbraced : Piece.braced (e ++ chain o (f :: later)) = Delimiters.braces.opening ::
        ((Node.coded e).write .braces ++ (chain o (f :: later) ++ [Delimiters.braces.closing])) := by
      simp [Piece.braced, Node.write_coded]
    rw [hbraced]
    exact treeWithin_chain ho (.leaf he) hlater hbudget
  have hne : (f :: later).map Node.coded ≠ [] := by simp
  obtain ⟨hpairs, hcomb⟩ := writtenCombinations_joined ho (.coded e) hne
  unfold untaggedContent
  rw [hblank, htree]
  simp only [ok_bind, hpairs, hcomb]
  rfl

/-! ## Elements -/

theorem spreadShared_joined {o : Operator} (e : Text) (es : List Text) :
    (Node.joined o (.coded e) (es.map .coded)).spreadShared [] [] = Node.joined o (.coded e) (es.map .coded) := by
  have hstep : ∀ n : Node, n.spreadShared [] [] = n →
      (Node.joined o n (es.map .coded)).spreadShared [] [] = Node.joined o n (es.map .coded) := by
    induction es with
    | nil => intro n hn; exact hn
    | cons f es ih =>
      intro n hn
      refine ih (.combination o n (.coded f) {} []) ?_
      have hf : (Node.coded f).spreadShared [] [] = .coded f := rfl
      simp only [Node.spreadShared, List.append_nil, hn, hf]
  exact hstep _ rfl

/-- Replacing the leaves of a left fold replaces what is joined, from left to right. -/
theorem mapLeavesM_joined {m : Type → Type} [Monad m] [LawfulMonad m] (f : Node → m Node) (n : Node)
    {ns : List Node} (hns : ∀ x ∈ ns, x.isLeaf = true) :
    (Node.joined o n ns).mapLeavesM f = do
      let n' ← n.mapLeavesM f
      let ns' ← ns.mapM f
      return Node.joined o n' ns' := by
  induction ns generalizing n with
  | nil => simp [Node.joined]
  | cons x ns ih =>
    have hx : x.mapLeavesM f = f x := by
      have := hns x (by simp)
      cases x with
      | leaf e m p => rfl
      | combination o l r m p => cases this
    have hlater := ih (.combination o n x {} []) fun y hy => hns y (by simp [hy])
    have hcons : Node.joined o n (x :: ns) = Node.joined o (.combination o n x {} []) ns := rfl
    rw [hcons, hlater]
    simp only [Node.mapLeavesM, hx, List.mapM_cons, bind_assoc, pure_bind]
    rfl

/-- A fragment of a pair, and the statement that it is read as. -/
structure IsElement (read : Text → Report Node) (x : Text) (s : Statement) : Prop where
  atom : Atom .braces x
  operators : outerOperators x = []
  reading : read x = .done (.nested s)
  unsuffixed : s.Unsuffixed

section Element

variable {options : Options} {read : Text → Report Node} {outer s : Statement} {raw x : Text}

theorem unsuffixed_union (h : s.Unsuffixed) (ho : outer.Unsuffixed) : (s.union outer).Unsuffixed := by
  intro slot n hn
  rw [Statement.union, Statement.get_of] at hn
  cases hs : s.get slot with
  | none => rw [hs] at hn; exact ho slot n hn
  | some m =>
    rw [hs] at hn
    exact h slot n (by rw [hs]; exact hn)

/-- An element that agrees with the outer statement takes over its slots. -/
theorem elementOutput_agree (h : IsElement read x s) (ho : outer.Unsuffixed) (hagree : s.Agree outer) :
    elementOutput options read outer raw (.coded x) = .done (.nested (s.union outer)) := by
  have hinherit : inheritOuter options outer raw s = .ok (s.union outer) := by
    unfold inheritOuter
    rw [Statement.inherit_agree hagree]
    simp only [ok_bind, Statement.link_unsuffixed (unsuffixed_union h.unsuffixed ho)]
    cases options.linksProperties <;> rfl
  have hne : x.isEmpty = false := by simpa using h.atom.ne_nil
  unfold elementOutput
  simp only [Node.coded, Node.text?, Option.getD_some, hne, h.operators, h.reading, Report.done_bind, Node.nested,
    Node.mapLeavesM, onStatement, hinherit]
  rfl

/-- An element that differs from the outer statement in a slot is refused. -/
theorem elementOutput_conflict (options : Options) (raw : Text) (h : IsElement read x s) (hagree : ¬ s.Agree outer) :
    ∃ c, elementOutput options read outer raw (.coded x) = .failed (.conflictingPairField c raw) := by
  obtain ⟨t, c, hinherit⟩ := Statement.inherit_conflict raw hagree
  have hrefused : inheritOuter options outer raw s = .error (.conflictingPairField c raw) := by
    unfold inheritOuter
    rw [hinherit]
    rfl
  have hne : x.isEmpty = false := by simpa using h.atom.ne_nil
  refine ⟨c, ?_⟩
  unfold elementOutput
  simp only [Node.coded, Node.text?, Option.getD_some, hne, h.operators, h.reading, Report.done_bind, Node.nested,
    Node.mapLeavesM, onStatement, hrefused]
  rfl

end Element

/-! ## The output of a pair -/

section Output

variable {options : Options} {read : Text → Report Node} {outer e : Statement} {es : List Statement}

/-- The elements of a pair are read one after another. -/
theorem mapLeavesM_elements (f : Node → Report Node) :
    (Node.joined o (.coded e.render) ((es.map Statement.render).map .coded)).mapLeavesM f = do
      let n ← f (.coded e.render)
      let ns ← es.mapM fun s => f (.coded s.render)
      return Node.joined o n ns := by
  rw [mapLeavesM_joined f _ (by
    intro x hx
    obtain ⟨y, -, rfl⟩ := List.mem_map.1 hx
    rfl), List.map_map, List.mapM_map]
  rfl

theorem eraseForeign_nil (tree : Node) : eraseForeign [] tree = .ok tree := rfl

theorem pairOutput_agree (ho : outer.Unsuffixed) (raw : Text) (h : ∀ s ∈ e :: es, IsElement read s.render s)
    (hagree : ∀ s ∈ e :: es, s.Agree outer) :
    pairOutput options read outer raw (Node.joined o (.coded e.render) ((es.map Statement.render).map .coded)) =
      .done (Node.joined o (.nested (e.union outer)) (es.map fun s => .nested (s.union outer))) := by
  have hes : es.mapM (fun s => elementOutput options read outer raw (.coded s.render)) =
      .done (es.map fun s => .nested (s.union outer)) :=
    Report.mapM_done fun s hs => elementOutput_agree (h s (by simp [hs])) ho (hagree s (by simp [hs]))
  unfold pairOutput
  rw [spreadShared_joined, mapLeavesM_elements, elementOutput_agree (h e (by simp)) ho (hagree e (by simp)), hes,
    Statement.keys_unsuffixed ho]
  simp only [Report.done_bind, Report.pure_eq_done, eraseForeign_nil]
  cases options.linksProperties <;> rfl

theorem pairOutput_conflict (ho : outer.Unsuffixed) (raw : Text) (h : ∀ s ∈ e :: es, IsElement read s.render s)
    (hagree : ¬ ∀ s ∈ e :: es, s.Agree outer) :
    ∃ c, pairOutput options read outer raw (Node.joined o (.coded e.render) ((es.map Statement.render).map .coded)) =
      .failed (.conflictingPairField c raw) := by
  have helement : ∀ s ∈ e :: es, (∃ n, elementOutput options read outer raw (.coded s.render) = .done n) ∨
      ∃ x, (∃ c, x = .conflictingPairField c raw) ∧
        elementOutput options read outer raw (.coded s.render) = .failed x := by
    intro s hs
    by_cases hag : s.Agree outer
    · exact Or.inl ⟨_, elementOutput_agree (h s hs) ho hag⟩
    · obtain ⟨c, hc⟩ := elementOutput_conflict options raw (h s hs) hag
      exact Or.inr ⟨_, ⟨c, rfl⟩, hc⟩
  have hsome : ∃ s ∈ e :: es, ∃ x, (∃ c, x = .conflictingPairField c raw) ∧
      elementOutput options read outer raw (.coded s.render) = .failed x := by
    simp only [Classical.not_forall] at hagree
    obtain ⟨s, hs, hag⟩ := hagree
    obtain ⟨c, hc⟩ := elementOutput_conflict options raw (h s hs) hag
    exact ⟨s, hs, _, ⟨c, rfl⟩, hc⟩
  obtain ⟨x, ⟨c, rfl⟩, hfailed⟩ := Report.mapM_failed helement hsome
  have hwhole : (Node.joined o (.coded e.render) ((es.map Statement.render).map .coded)).mapLeavesM
      (elementOutput options read outer raw) =
        ((e :: es).mapM fun s => elementOutput options read outer raw (.coded s.render)) >>= fun ns =>
          return Node.joined o (ns.headD .empty) ns.tail := by
    rw [mapLeavesM_elements, List.mapM_cons]
    simp only [bind_assoc, pure_bind, List.headD_cons, List.tail_cons]
  refine ⟨c, ?_⟩
  unfold pairOutput
  rw [spreadShared_joined, hwhole, hfailed, Report.failed_bind, Report.failed_bind]

end Output

/-! ## The whole pair -/

theorem Row.empty (inner : Slot → Text) : Row .empty [] inner :=
  ⟨by simp [Statement.populated], nofun, nofun⟩

/-- Reading a row with a pair behind it gives the output of the pair. -/
theorem Row.step_pair {outer : Statement} {order : List Slot} {inner : Slot → Text} (h : Row outer order inner)
    {options : Options} {read : Text → Report Node}
    (hread : ∀ c hc t, outer.get (.complex c hc) = some ((Node.nested t).withComponent c) →
      read (inner (.complex c hc)) = .done (.nested t))
    (hheight : ∀ c n, outer.get (.simple c) = some n → n.height ≤ options.depthLimit)
    (ho : o.isSynthetic = false) {e : Text} {es : List Text} (hes : es ≠ []) (hatom : ∀ x ∈ e :: es, Atom .braces x)
    (hlimit : es.length ≤ options.depthLimit) {out : Report Node}
    (hout : pairOutput options read outer (Piece.braced (e ++ chain o es))
      (Node.joined o (.coded e) (es.map .coded)) = out) :
    Reading.step options read (joinSpaced (order.map fun slot => slot.written (inner slot)) ++
        ' ' :: Piece.braced (e ++ chain o es)) = ⟨out.result, out.ignored, some outer⟩ := by
  let tree := Node.joined o (.coded e) (es.map .coded)
  let block (off : Nat) : Block :=
    ⟨off + 1, off + 1 + (Piece.braced (e ++ chain o es)).size, Piece.braced (e ++ chain o es), .pair tree⟩
  have htidy : Tidy (e ++ chain o es) :=
    (hatom e (by simp)).tidy.append (tidy_chain ho fun x hx => (hatom x (by simp [hx])).tidy)
  have hsound : ∀ x ∈ [Piece.gap [' '], .block none (e ++ chain o es)], x.Sound := by
    intro x hx
    rcases List.mem_cons.1 hx with hx | hx
    · subst hx; exact Gap.of_allBlank rfl
    · rw [List.mem_singleton.1 hx]; exact htidy
  have hblocks : ∀ off, blocksOf options.depthLimit off [.gap [' '], .block none (e ++ chain o es)] =
      .ok [block off] := by
    intro off
    have hcontent := untaggedContent_chain ho hes hatom hlimit
    simp only [blocksOf, Piece.blocks, Piece.meaning, hcontent, ok_bind, pure_eq_ok]
    rfl
  obtain ⟨outline, bs, off, hdraft, hb, hbs⟩ := h.draft _ hsound (fun _ => rfl) hblocks hheight
  have hcomplete : Reading.complete options read outline outer.simples = .done outer :=
    h.complete hread hb hbs (by
      intro b hb
      rw [List.mem_singleton.1 hb]
      exact ⟨tree, rfl⟩)
  have hpairs : Reading.pairs outline.blocks = [(Piece.braced (e ++ chain o es), tree)] := by
    rw [hb, pairs_row hbs]
    rfl
  rw [List.flatMap_append, written_pieces] at hdraft
  have htext : [Piece.gap [' '], .block none (e ++ chain o es)].flatMap Piece.written =
      ' ' :: Piece.braced (e ++ chain o es) := by
    simp [Piece.written, Piece.braced, tagText]
  rw [htext] at hdraft
  unfold Reading.step
  rw [hdraft]
  simp only [hcomplete, Report.done]
  unfold Reading.output
  rw [hpairs]
  simp only [tree, hout, List.nil_append]

/-- A plain statement is an element of a pair when it may nest one level deeper. -/
theorem Statement.Plain.isElement {s : Statement} (hs : s.Plain) {options : Options} {budget : Nat}
    (hnesting : s.nesting < budget)
    (hheight : ∀ u ∈ s.statements, ∀ p ∈ u.populated, p.2.height ≤ options.depthLimit) :
    IsElement (Reading.within options budget) s.render s := by
  obtain ⟨order, inner, hrow, hwritten⟩ := hs.arranged_render.row hs
  have hoperators : outerOperators s.render = [] := by
    rw [hwritten, ← Row.written_pieces]
    exact outerOperators_pieces hrow.sound
  exact ⟨hs.arranged_render.atom hs, hoperators, within_arranged hs.arranged_render hs hnesting hheight,
    hrow.unsuffixed⟩

/-- Expanding a pair is exact: each element becomes its union with the outer statement, in order and
    under the operator of the pair, unless one of them differs from the outer statement in a slot
    that both populate. -/
theorem parse_pair {outer e : Statement} {es : List Statement} {options : Options}
    (houter : outer.Plain ∨ outer = .empty) (hplain : ∀ s ∈ e :: es, s.Plain) (hes : es ≠ [])
    (ho : o.isSynthetic = false) (hcount : es.length ≤ options.depthLimit)
    (hnesting : outer.nesting ≤ options.depthLimit) (hdeeper : ∀ s ∈ e :: es, s.nesting + 1 ≤ options.depthLimit)
    (hheight : ∀ s ∈ outer :: e :: es, ∀ u ∈ s.statements, ∀ p ∈ u.populated, p.2.height ≤ options.depthLimit) :
    ((∀ s ∈ e :: es, s.Agree outer) → parse options (outer.renderPair o e es) =
      .ok ⟨Node.joined o (.nested (e.union outer)) (es.map fun s => .nested (s.union outer)), []⟩) ∧
    ((¬ ∀ s ∈ e :: es, s.Agree outer) → ∃ r x, parse options (outer.renderPair o e es) = .error r ∧
      r.cause = .rejected x ∧ x.code = "CONFLICTING_PAIR_FIELD") := by
  have helements : ∀ s ∈ e :: es, IsElement (Reading.within options options.depthLimit) s.render s :=
    fun s hs => (hplain s hs).isElement (hdeeper s hs) fun u hu => hheight s (List.mem_cons_of_mem _ hs) u hu
  have hatom : ∀ x ∈ e.render :: es.map Statement.render, Atom .braces x := by
    intro x hx
    rw [← List.map_cons (f := Statement.render)] at hx
    obtain ⟨s, hs, rfl⟩ := List.mem_map.1 hx
    exact (helements s hs).atom
  obtain ⟨order, inner, hrow, hwritten⟩ : ∃ order inner, Row outer order inner ∧
      outer.render = joinSpaced (order.map fun slot => slot.written (inner slot)) := by
    rcases houter with hp | he
    · exact hp.arranged_render.row hp
    · subst he
      exact ⟨[], fun _ => [], Row.empty _, by decide⟩
  have hread := hrow.reads hnesting (hheight outer (by simp))
  have hstep : ∀ out, pairOutput options (Reading.within options options.depthLimit) outer
      (Piece.braced (e.render ++ chain o (es.map Statement.render)))
      (Node.joined o (.coded e.render) ((es.map Statement.render).map .coded)) = out →
        Reading.of options (outer.renderPair o e es) = ⟨out.result, out.ignored, some outer⟩ := by
    intro out hout
    unfold Reading.of Statement.renderPair
    rw [hwritten]
    exact hrow.step_pair hread (fun c n hn => hheight outer (by simp) outer outer.mem_statements_self (.simple c, n)
      (Statement.mem_populated.2 hn)) ho (by simpa using hes) hatom (by simpa using hcount) hout
  constructor
  · intro hagree
    unfold parse
    rw [hstep _ (pairOutput_agree hrow.unsuffixed _ helements hagree)]
    rfl
  · intro hagree
    obtain ⟨c, hc⟩ := pairOutput_conflict hrow.unsuffixed _ helements hagree
    unfold parse
    rw [hstep _ hc]
    exact ⟨_, _, rfl, rfl, rfl⟩

/-- Statements about different components agree. -/
theorem Statement.agree_only {c d : Component} (h : c ≠ d) (v w : Text) : (only c v).Agree (only d w) := by
  intro slot n m hn hm
  simp only [only, get_put, get_empty] at hn hm
  split at hn
  · rename_i hc
    rw [hc, if_neg (by simpa using h)] at hm
    cases hm
  · cases hn

theorem parse_pair_two_aims :
    let word (c : Component) (v : Char) := Statement.only c [v]
    parse {} ((word .attributes 'a').renderPair .xor (word .aim 'x') [word .aim 'y']) =
      .ok ⟨.combination .xor (.nested ((word .aim 'x').union (word .attributes 'a')))
        (.nested ((word .aim 'y').union (word .attributes 'a'))) {} [], []⟩ := by
  have hx := Statement.plain_only .aim (v := ['x']) (by decide)
  have hy := Statement.plain_only .aim (v := ['y']) (by decide)
  have ha := Statement.plain_only .attributes (v := ['a']) (by decide)
  refine (parse_pair (Or.inl ha) (by simp [hx, hy]) (by decide) rfl (by decide) (by decide +kernel) (by decide +kernel)
    (by decide +kernel)).1 ?_
  intro s hs
  rcases List.mem_cons.1 hs with hs | hs
  · subst hs; exact Statement.agree_only (by decide) _ _
  · obtain rfl := List.mem_singleton.1 hs
    exact Statement.agree_only (by decide) _ _

end InstitutionalGrammar
