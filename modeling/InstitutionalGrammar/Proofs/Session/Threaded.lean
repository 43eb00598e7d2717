/-
  InstitutionalGrammar.Proofs.Session.Threaded — reading a text step by step in a session.

  A session that changes while a text is read ends as one that changes once, behind the text.
  - `ofReport_bind`: a report acts on the session by appending its ignored blocks.
  - `within_eq`, `assemble_eq`: all of a reading is one append and one overwrite, so a session
    changes as `Session.read` says.
-/

import InstitutionalGrammar.Session
import InstitutionalGrammar.Proofs.Outcome

namespace InstitutionalGrammar.Session

/-! ## What a report does to a session -/

section Reports

variable {α β γ : Type}

/-- The computation that gives the result of a report and notes its ignored blocks. -/
def ofReport (r : Report α) : Run α := fun σ => (r.result, { σ with ignored := σ.ignored ++ r.ignored })

theorem ofReport_done (a : α) : ofReport (Report.done a) = pure a := by
  funext σ
  show (Except.ok a, { σ with ignored := σ.ignored ++ [] }) = (Except.ok a, σ)
  rw [List.append_nil]

theorem ofReport_bind (r : Report α) (f : α → Report β) :
    ofReport (r >>= f) = ofReport r >>= fun a => ofReport (f a) := by
  obtain ⟨blocks, result⟩ := r
  funext σ
  cases result with
  | error cause => rfl
  | ok a =>
    show ((f a).result, { σ with ignored := σ.ignored ++ (blocks ++ (f a).ignored) }) =
      ((f a).result, { σ with ignored := σ.ignored ++ blocks ++ (f a).ignored })
    rw [List.append_assoc]

theorem ofReport_outcome (r : Outcome α) : ofReport (liftM r : Report α) = liftM r := by
  funext σ
  show (r, { σ with ignored := σ.ignored ++ [] }) = (r, σ)
  rw [List.append_nil]

theorem ofReport_except (r : Except ParseError α) : ofReport (liftM r : Report α) = liftM r := by
  funext σ
  show (r.mapError .rejected, { σ with ignored := σ.ignored ++ [] }) = (r.mapError Failure.rejected, σ)
  rw [List.append_nil]

theorem ofReport_ignore (block : Text) : ofReport (Report.ignore block) = Run.ignore block := rfl

/-- The same beside a state of its own. -/
def ofReportT (x : StateT γ Report α) : StateT γ Run α := fun c => ofReport (x c)

theorem ofReportT_pure (a : α) : ofReportT (pure a : StateT γ Report α) = pure a := by
  funext c
  exact ofReport_done (a, c)

theorem ofReportT_bind (x : StateT γ Report α) (f : α → StateT γ Report β) :
    ofReportT (x >>= f) = ofReportT x >>= fun a => ofReportT (f a) := by
  funext c
  exact ofReport_bind (x c) fun p => f p.1 p.2

theorem ofReportT_outcome (r : Outcome α) : ofReportT (liftM r : StateT γ Report α) = liftM r := by
  funext c
  show ofReport (liftM r >>= fun a => pure (a, c)) = liftM r >>= fun a => pure (a, c)
  rw [ofReport_bind, ofReport_outcome]
  congr 1
  funext a
  exact ofReport_done (a, c)

theorem ofReportT_lift (r : Report α) : ofReportT (liftM r : StateT γ Report α) = liftM (ofReport r) := by
  funext c
  show ofReport (r >>= fun a => pure (a, c)) = ofReport r >>= fun a => pure (a, c)
  rw [ofReport_bind]
  congr 1
  funext a
  exact ofReport_done (a, c)

theorem ofReportT_get : ofReportT (get : StateT γ Report γ) = get := by
  funext c
  exact ofReport_done (c, c)

theorem ofReportT_set (c : γ) : ofReportT (set c : StateT γ Report PUnit) = set c := by
  funext _
  exact ofReport_done (PUnit.unit, c)

end Reports

/-- Replacing the leaves of a tree commutes with a translation of computations. -/
theorem mapLeavesM_translated {m m' : Type → Type} [Monad m] [Monad m'] (φ : {α : Type} → m α → m' α)
    (hpure : ∀ {α : Type} (a : α), φ (pure a : m α) = pure a)
    (hbind : ∀ {α β : Type} (x : m α) (f : α → m β), φ (x >>= f) = φ x >>= fun a => φ (f a))
    (f : Node → m Node) (n : Node) : n.mapLeavesM (fun leaf => φ (f leaf)) = φ (n.mapLeavesM f) := by
  induction n with
  | leaf => rfl
  | combination o l r marks p ihl ihr =>
    rw [Node.mapLeavesM, Node.mapLeavesM, hbind, ihl]
    congr 1
    funext a
    rw [hbind, ihr]
    congr 1
    funext b
    exact (hpure _).symm

/-! ## The effect of a reading -/

section Effect

variable (options : Options) (read : Text → Report Node) (raw : Text)

theorem nestedLeaf_eq (leaf : Node) :
    nestedLeaf (fun t => ofReport (read t)) raw leaf = ofReportT (InstitutionalGrammar.nestedLeaf read raw leaf) := by
  simp only [nestedLeaf, InstitutionalGrammar.nestedLeaf, ofReportT_bind, ofReportT_outcome]
  congr 1
  funext found
  rcases found with _ | ⟨header, inner⟩
  · exact (ofReportT_outcome _).symm
  simp only [ofReportT_bind, ofReportT_get]
  congr 1
  funext seen
  rcases seen with _ | c
  · simp only [ofReportT_bind, ofReportT_set, ofReportT_lift, ofReportT_pure]
  · by_cases hc : c ≠ header.component
    · simp only [if_pos hc, ofReportT_bind, ofReportT_outcome, ofReportT_lift, ofReportT_pure]
    · simp only [if_neg hc, ofReportT_bind, ofReportT_lift, ofReportT_pure]

theorem attachCombination_eq (header : Header) (tree : Node) (s : Statement) :
    attachCombination (fun t => ofReport (read t)) raw header tree s =
      ofReport (InstitutionalGrammar.attachCombination read raw header tree s) := by
  have hleaves : tree.mapLeavesM (nestedLeaf (fun t => ofReport (read t)) raw) =
      ofReportT (tree.mapLeavesM (InstitutionalGrammar.nestedLeaf read raw)) := by
    rw [show nestedLeaf (fun t => ofReport (read t)) raw = _ from funext (nestedLeaf_eq read raw)]
    exact mapLeavesM_translated ofReportT ofReportT_pure ofReportT_bind _ tree
  unfold attachCombination InstitutionalGrammar.attachCombination
  rw [ofReport_bind, hleaves]
  congr 1
  funext filled
  obtain ⟨tree', tag⟩ := filled
  by_cases hc : tag.getD header.component ≠ header.component
  · simp only [if_pos hc, ofReport_bind, ofReport_outcome, ofReport_except]
  · simp only [if_neg hc, ofReport_except]

theorem nestedGroups_eq (groups : List NestedGroup) (blocks : List Block) :
    nestedGroups (fun t => ofReport (read t)) groups blocks =
      ofReport (InstitutionalGrammar.nestedGroups read groups blocks) := by
  induction blocks generalizing groups with
  | nil => exact (ofReport_done groups).symm
  | cons b bs ih =>
    unfold nestedGroups InstitutionalGrammar.nestedGroups
    cases b.content with
    | nested header inner =>
      simp only [ofReport_bind]
      congr 1
      funext tree
      exact ih _
    | combined header tree => exact ih groups
    | pair tree => exact ih groups
    | stray => exact ih groups

theorem attachCombinations_eq (s : Statement) (blocks : List Block) :
    attachCombinations (fun t => ofReport (read t)) s blocks =
      ofReport (InstitutionalGrammar.attachCombinations read s blocks) := by
  induction blocks generalizing s with
  | nil => exact (ofReport_done s).symm
  | cons b bs ih =>
    unfold attachCombinations InstitutionalGrammar.attachCombinations
    cases b.content with
    | stray => simp only [ofReport_bind, ofReport_ignore, ih]
    | combined header tree => simp only [ofReport_bind, attachCombination_eq, ih]
    | nested header inner => exact ih s
    | pair tree => exact ih s

theorem attachBlocks_eq (outline : Outline) (s : Statement) :
    attachBlocks options (fun t => ofReport (read t)) outline s =
      ofReport (InstitutionalGrammar.attachBlocks options read outline s) := by
  simp only [attachBlocks, InstitutionalGrammar.attachBlocks, ofReport_bind, ofReport_except,
    attachCombinations_eq, nestedGroups_eq]

theorem elementOutput_eq (outer : Statement) (leaf : Node) :
    elementOutput options (fun t => ofReport (read t)) raw outer leaf =
      ofReport (InstitutionalGrammar.elementOutput options read outer raw leaf) := by
  unfold elementOutput InstitutionalGrammar.elementOutput
  by_cases hempty : (leaf.text?.getD []).isEmpty
  · simp only [if_pos hempty, ofReport_bind, ofReport_outcome]
    congr 1
    funext _
    cases outerOperators (leaf.text?.getD []) with
    | nil => simp only [ofReport_bind, ofReport_except]
    | cons o os => exact (ofReport_outcome _).symm
  · simp only [if_neg hempty]
    cases outerOperators (leaf.text?.getD []) with
    | nil => simp only [ofReport_bind, ofReport_except]
    | cons o os => exact (ofReport_outcome _).symm

theorem pairOutput_eq (outer : Statement) (tree : Node) :
    pairOutput options (fun t => ofReport (read t)) raw outer tree =
      ofReport (InstitutionalGrammar.pairOutput options read outer raw tree) := by
  have hleaves : (tree.spreadShared [] []).mapLeavesM (elementOutput options (fun t => ofReport (read t)) raw outer) =
      ofReport ((tree.spreadShared [] []).mapLeavesM (InstitutionalGrammar.elementOutput options read outer raw)) := by
    rw [show elementOutput options (fun t => ofReport (read t)) raw outer = _ from
      funext (elementOutput_eq options read raw outer)]
    exact mapLeavesM_translated ofReport ofReport_done ofReport_bind _ _
  unfold pairOutput InstitutionalGrammar.pairOutput
  rw [ofReport_bind, hleaves]
  congr 1
  funext tree'
  by_cases hlinks : options.linksProperties
  · simp only [if_pos hlinks, ofReport_except]
  · simp only [if_neg hlinks]
    exact (ofReport_done tree').symm

theorem output_eq (outline : Outline) (s : Statement) :
    output options (fun t => ofReport (read t)) outline s = ofReport (Reading.output options read outline s) := by
  unfold output Reading.output
  rcases Reading.pairs outline.blocks with _ | ⟨⟨raw, tree⟩, _ | ⟨p, ps⟩⟩
  · by_cases hempty : s.isEmpty
    · simp only [if_pos hempty, ofReport_outcome]
    · simp only [if_neg hempty]
      exact (ofReport_done _).symm
  · exact pairOutput_eq options read raw s tree
  · exact (ofReport_outcome _).symm

/-- What reading a text makes of a session: the ignored blocks are appended, and the outermost
    statement, as far as it was built, takes the place of the one before. -/
def note (outermost : Bool) (r : Reading) (σ : Session) : Session :=
  { σ with ignored := σ.ignored ++ r.ignored, outer := (if outermost then r.outer else none).or σ.outer }

theorem step_eq (outermost : Bool) (text : Text) (σ : Session) :
    step options (fun t => ofReport (read t)) outermost text σ =
      ((Reading.step options read text).result, note outermost (Reading.step options read text) σ) := by
  unfold step Reading.step
  rcases Reading.draft options text with cause | ⟨outline, s⟩
  · cases outermost <;> simp [note] <;> rfl
  have hcomplete : (attachBlocks options (fun t => ofReport (read t)) outline s >>= fun s =>
      (Reading.linked options .complex s : Run Statement)) = ofReport (Reading.complete options read outline s) := by
    simp only [Reading.complete, ofReport_bind, ofReport_except, attachBlocks_eq]
  have hrest : (attachBlocks options (fun t => ofReport (read t)) outline s >>= fun s =>
      (Reading.linked options .complex s : Run Statement) >>= fun s => Run.keep outermost s >>= fun _ =>
        output options (fun t => ofReport (read t)) outline s) =
      ofReport (Reading.complete options read outline s) >>= fun s => Run.keep outermost s >>= fun _ =>
        ofReport (Reading.output options read outline s) := by
    simp only [← hcomplete, bind_assoc, output_eq]
  show (Run.keep outermost s >>= fun _ => _) σ = _
  rw [hrest]
  dsimp only
  -- The drafted statement is noted before the completion can fail, and then the completed one.
  generalize Reading.complete options read outline s = completed
  obtain ⟨blocks, completion⟩ := completed
  cases completion with
  | error cause => cases outermost <;> rfl
  | ok t =>
    cases outermost
    · show ((Reading.output options read outline t).result, { σ with
          ignored := σ.ignored ++ blocks ++ (Reading.output options read outline t).ignored }) = _
      rw [List.append_assoc]
      rfl
    · show ((Reading.output options read outline t).result, { σ with
          ignored := σ.ignored ++ blocks ++ (Reading.output options read outline t).ignored
          outer := some t }) = _
      rw [List.append_assoc]
      rfl

theorem within_eq (budget : Nat) : within options budget = fun text => ofReport (Reading.within options budget text) := by
  induction budget with
  | zero =>
    funext text
    exact (ofReport_outcome _).symm
  | succ budget ih =>
    funext text σ
    rw [within, ih, step_eq]
    rfl

end Effect

/-- Read step by step, a text changes a session as it does at once. -/
theorem assemble_eq (text : Text) (σ : Session) : assemble text σ = ((σ.read text).2, (σ.read text).1) := by
  rw [assemble, within_eq, step_eq]
  rfl

end InstitutionalGrammar.Session
