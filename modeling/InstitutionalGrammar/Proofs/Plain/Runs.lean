/-
  InstitutionalGrammar.Proofs.Plain.Runs — nested statements of several components, one after another.

  A run is a row of blocks of one component. Between two blocks, and between two runs, stands a
  separator: white space, and operators set off by white space.
  - `NestedRun.Sound.blocks`: the blocks of a run make one group.
  - `attachGroup_run`: a group is joined by the operators inside its run, or refused.
  - `attachRuns`: so are the groups of a row, one after another.
  - `parse_runs`: the parse of a row of runs of different components.
-/

import InstitutionalGrammar.Proofs.Plain.Joining

namespace InstitutionalGrammar

/-! ## Separators -/

/-- White space, and operators with the white space behind each of them. -/
structure Separator where
  lead : Text
  operators : List (Operator × Text)

namespace Separator

def text (x : Separator) : Text := x.lead ++ x.operators.flatMap fun o => o.1.token ++ o.2

/-- The operators are written, and white space stands behind each of them. -/
structure Sound (x : Separator) : Prop where
  lead : Text.allBlank x.lead = true
  written : ∀ o ∈ x.operators, o.1.isSynthetic = false
  set_off : ∀ o ∈ x.operators, o.2 ≠ [] ∧ Text.allBlank o.2 = true

/-- No more than white space. -/
def white (t : Text) : Separator := ⟨t, []⟩

/-- One operator with a space on both sides. -/
def single (o : Operator) : Separator := ⟨[' '], [(o, [' '])]⟩

variable {x : Separator}

theorem gap_operator {o : Operator} (ho : o.isSynthetic = false) {t : Text} (hne : t ≠ []) (ht : Text.allBlank t = true) :
    Gap (o.token ++ t) where
  tidy := by simpa using Tidy.operator ho (Tidy.of_allBlank ht)
  quiet := (Quiet.token o ho).append (.of_allBlank ht)
  clear := by
    intro c hc
    rw [List.getLast?_append, List.getLast?_eq_some_getLast hne] at hc
    exact Clear.of_allBlank ht c (by rw [List.getLast?_eq_some_getLast hne]; exact hc)
  bare := by
    intro c hc
    rcases List.mem_append.1 hc with hc | hc
    · have hopening : ∀ c ∈ o.token, isOpening c = false := Text.forall_of_all (by cases o <;> decide)
      have hclosing : ∀ c ∈ o.token, isClosing c = false := Text.forall_of_all (by cases o <;> decide)
      exact ⟨hopening c hc, hclosing c hc⟩
    · exact (Gap.of_allBlank ht).bare c hc

theorem Sound.gap (h : x.Sound) : Gap x.text := by
  obtain ⟨lead, operators⟩ := x
  obtain ⟨hlead, hwritten, hset⟩ := h
  refine (Gap.of_allBlank hlead).append ?_
  induction operators with
  | nil => exact .nil
  | cons o os ih =>
    obtain ⟨hne, hblank⟩ := hset o (by simp)
    exact (gap_operator (hwritten o (by simp)) hne hblank).append
      (ih hlead (fun y hy => hwritten y (by simp [hy])) fun y hy => hset y (by simp [hy]))

theorem outerFrom_blank {t : Text} (h : Text.allBlank t = true) (p : Position) (ts : List Token) :
    outerFrom 0 (signs p t ++ ts) = outerFrom 0 ts := by
  have hplain := signs_plain (fun c hc => isReserved_of_blank (List.all_eq_true.1 h c hc)) p []
  rw [List.append_nil, signs_nil] at hplain
  rw [hplain, List.nil_append]

/-- The operators of a separator are what an operator scan finds in it. -/
theorem Sound.outerFrom (h : x.Sound) (p : Position) :
    (outerFrom 0 (signs p x.text)).map Prod.fst = x.operators.map Prod.fst := by
  obtain ⟨lead, operators⟩ := x
  obtain ⟨hlead, hwritten, hset⟩ := h
  rw [text, (Tidy.of_allBlank hlead).signs_append, outerFrom_blank hlead]
  generalize p.past lead = q
  induction operators generalizing q with
  | nil => rfl
  | cons o os ih =>
    have hblank := (hset o (by simp)).2
    have hlater := ih hlead (fun y hy => hwritten y (by simp [hy])) (fun y hy => hset y (by simp [hy]))
      ((q.past o.1.token).past o.2)
    rw [List.flatMap_cons, List.append_assoc, signs_operator (hwritten o (by simp)),
      (Tidy.of_allBlank hblank).signs_append]
    simp only [InstitutionalGrammar.outerFrom, if_true, outerFrom_blank hblank, List.map_cons, hlater]

end Separator

/-! ## Runs -/

/-- Statements in blocks of one component, each behind the first one with the separator in front of it. -/
structure NestedRun where
  component : Component
  first : Statement
  later : List (Separator × Statement)

namespace NestedRun

variable {r : NestedRun}

def statements (r : NestedRun) : List Statement := r.first :: r.later.map Prod.snd

/-- The operators between the statements. -/
def operators (r : NestedRun) : List Operator := r.later.flatMap fun x => x.1.operators.map Prod.fst

/-- Whether two different operators stand between the statements. -/
def Mixed (r : NestedRun) : Prop := ∃ x ∈ r.operators, ∃ y ∈ r.operators, x ≠ y

instance (r : NestedRun) : Decidable r.Mixed :=
  inferInstanceAs (Decidable (∃ x ∈ r.operators, ∃ y ∈ r.operators, x ≠ y))

/-- Whether the options leave the choice of the operator to a run that has two. -/
def Undecided (options : Options) (r : NestedRun) : Prop := options.nestedOperator = none ∧ r.Mixed

instance (options : Options) (r : NestedRun) : Decidable (r.Undecided options) :=
  inferInstanceAs (Decidable (options.nestedOperator = none ∧ r.Mixed))

def laterPieces (c : Component) (later : List (Separator × Statement)) : List Piece :=
  later.flatMap fun x => [.gap x.1.text, .block (some c) x.2.render]

def pieces (r : NestedRun) : List Piece := .block (some r.component) r.first.render :: laterPieces r.component r.later

def text (r : NestedRun) : Text :=
  blockText r.component r.first.render ++ r.later.flatMap fun x => x.1.text ++ blockText r.component x.2.render

/-- The operator that joins the statements, when they are not mixed. -/
def operator (options : Options) (r : NestedRun) : Operator :=
  options.nestedOperator.getD (r.operators.headD .syntheticAnd)

/-- The statements joined from the left. -/
def tree (options : Options) (r : NestedRun) : Node :=
  let leaf (s : Statement) : Node := (Node.nested s).withComponent r.component
  Node.joinedUnder r.component (r.operator options) (leaf r.first) ((r.later.map Prod.snd).map leaf)

structure Sound (r : NestedRun) : Prop where
  nests : r.component.nests = true
  plain : ∀ s ∈ r.statements, s.Plain
  separators : ∀ x ∈ r.later, x.1.Sound

/-- The group that the blocks of the run make when the first of them stands at byte `off`. -/
def group (r : NestedRun) (off : Nat) : NestedGroup :=
  ⟨r.component, r.statements.map fun s => (Node.nested s).withComponent r.component, off, off + r.text.size⟩

theorem written_laterPieces (c : Component) (later : List (Separator × Statement)) :
    (laterPieces c later).flatMap Piece.written = later.flatMap fun x => x.1.text ++ blockText c x.2.render := by
  rw [laterPieces, List.flatMap_assoc]
  refine congrArg (later.flatMap ·) (funext fun x => ?_)
  simp [Piece.written, blockText, Piece.braced, tagText]

theorem written_pieces (r : NestedRun) : r.pieces.flatMap Piece.written = r.text := by
  rw [pieces, List.flatMap_cons, written_block, written_laterPieces, text]

theorem Sound.pieces (h : r.Sound) : ∀ x ∈ r.pieces, x.Sound ∧ x.isContent = false := by
  have hblock : ∀ s ∈ r.statements, (Piece.block (some r.component) s.render).Sound := by
    intro s hs
    exact ((h.plain s hs).arranged_render.atom (h.plain s hs)).tidy
  intro x hx
  rcases List.mem_cons.1 hx with hx | hx
  · rw [hx]
    exact ⟨hblock _ (by simp [statements]), rfl⟩
  · obtain ⟨y, hy, hx⟩ := List.mem_flatMap.1 hx
    rcases List.mem_cons.1 hx with hx | hx
    · rw [hx]
      exact ⟨(h.separators y hy).gap, rfl⟩
    · rw [List.mem_singleton.1 hx]
      exact ⟨hblock _ (List.mem_cons_of_mem _ (List.mem_map_of_mem hy)), rfl⟩

end NestedRun

/-! ## The atomic text -/

theorem size_atomicOf (ps : List Piece) : (atomicOf ps).size = Text.size (ps.flatMap Piece.written) := by
  induction ps with
  | nil => rfl
  | cons x ps ih =>
    have hcons : atomicOf (x :: ps) = x.blank.written ++ atomicOf ps := rfl
    have hsize : x.blank.written.size = x.written.size := by
      cases x with
      | gap t => rfl
      | content c inner => rfl
      | block tag inner => exact size_replicate_space _
    rw [hcons, Text.size_append, ih, hsize, List.flatMap_cons, Text.size_append]

/-- Without contents, nothing but gaps is left of a text when its blocks are blanked out. -/
theorem gap_atomicOf {ps : List Piece} (h : ∀ x ∈ ps, x.Sound ∧ x.isContent = false) : Gap (atomicOf ps) := by
  induction ps with
  | nil => exact .nil
  | cons x ps ih =>
    have hx := h x (by simp)
    refine Gap.append (a := x.blank.written) ?_ (ih fun y hy => h y (by simp [hy]))
    cases x with
    | gap t => exact hx.1
    | content c inner => cases hx.2
    | block tag inner => exact hx.1.blank.1

namespace NestedRun

variable {r : NestedRun}

/-- The operators of the blanked run are those between its statements. -/
theorem Sound.operators (h : r.Sound) (p : Position) :
    (outerFrom 0 (signs p (atomicOf r.pieces))).map Prod.fst = r.operators := by
  have hblank : ∀ (x : Text) (p : Position) (rest : Text),
      outerFrom 0 (signs p ((Piece.block (some r.component) x).blank.written ++ rest)) =
        outerFrom 0 (signs (p.past (Piece.block (some r.component) x).blank.written) rest) := by
    intro x p rest
    have hall : Text.allBlank (Piece.block (some r.component) x).blank.written = true := by
      rw [Text.allBlank, List.all_eq_true]
      intro e he
      rw [List.eq_of_mem_replicate he]
      rfl
    rw [(Tidy.of_allBlank hall).signs_append, Separator.outerFrom_blank hall]
  have hlater : ∀ (later : List (Separator × Statement)), (∀ x ∈ later, x.1.Sound) → ∀ p,
      (outerFrom 0 (signs p (atomicOf (laterPieces r.component later)))).map Prod.fst =
        later.flatMap fun x => x.1.operators.map Prod.fst := by
    intro later
    induction later with
    | nil => intro _ p; rfl
    | cons x later ih =>
      intro hs p
      have hx := hs x (by simp)
      have hcons : atomicOf (laterPieces r.component (x :: later)) =
          x.1.text ++ ((Piece.block (some r.component) x.2.render).blank.written ++
            atomicOf (laterPieces r.component later)) := by
        simp [laterPieces, atomicOf, Piece.blank, Piece.written]
      rw [hcons, hx.gap.tidy.signs_append, hx.gap.outerFrom_append, List.map_append, hx.outerFrom, hblank,
        ih fun y hy => hs y (by simp [hy])]
      rfl
  have hcons : atomicOf r.pieces = (Piece.block (some r.component) r.first.render).blank.written ++
      atomicOf (laterPieces r.component r.later) := rfl
  rw [hcons, hblank, hlater r.later h.separators]
  rfl

end NestedRun

/-! ## Groups -/

theorem addToGroup_last {c : Component} {groups : List NestedGroup} (h : ∀ g ∈ groups, g.component ≠ c) (tree : Node)
    (trees : List Node) (first last start stop : Nat) :
    addToGroup c tree start stop (groups ++ [⟨c, trees, first, last⟩]) =
      groups ++ [⟨c, trees ++ [tree], first, stop⟩] := by
  induction groups with
  | nil => simp [addToGroup]
  | cons g groups ih =>
    rw [List.cons_append, addToGroup, if_neg (h g (by simp)), ih fun x hx => h x (by simp [hx])]
    rfl

/-- Whether the block is one nested statement. -/
def Block.IsNested (b : Block) : Prop := ∃ header inner, b.content = .nested header inner

theorem attachCombinations_nested {bs : List Block} (h : ∀ b ∈ bs, b.IsNested) (read : Text → Report Node)
    (s : Statement) : attachCombinations read s bs = .done s := by
  induction bs with
  | nil => rfl
  | cons b bs ih =>
    obtain ⟨header, inner, hb⟩ := h b (by simp)
    rw [attachCombinations, hb]
    exact ih fun x hx => h x (by simp [hx])

theorem pairs_nested {bs : List Block} (h : ∀ b ∈ bs, b.IsNested) : Reading.pairs bs = [] := by
  unfold Reading.pairs
  rw [List.filterMap_eq_nil_iff]
  intro b hb
  obtain ⟨header, inner, hcontent⟩ := h b hb
  rw [hcontent]

/-- The block of a statement behind the symbol of a component. -/
def nestedBlock (c : Component) (off : Nat) (inner : Text) : Block :=
  ⟨off, off + (blockText c inner).size, blockText c inner, .nested (c.headerAt off .braces) inner⟩

theorem blocks_nested {c : Component} (hc : c.nests = true) {x : Text} (hx : Atom .braces x) (limit off : Nat) :
    (Piece.block (some c) x).blocks limit off = .ok [nestedBlock c off x] := by
  simp only [Piece.blocks, Piece.meaning, taggedContent_atom hx limit (c.headerAt off .braces) hc, ok_bind]
  rfl

section Groups

variable {read : Text → Report Node}

theorem NestedRun.laterBlocks (limit : Nat) {c : Component} (hc : c.nests = true) {later : List (Separator × Statement)}
    (hplain : ∀ x ∈ later, x.2.Plain) (hread : ∀ x ∈ later, read x.2.render = .done (.nested x.2)) (off : Nat) :
    ∃ bs, blocksOf limit off (laterPieces c later) = .ok bs ∧ (∀ b ∈ bs, b.IsNested) ∧
      ∀ groups : List NestedGroup, (∀ g ∈ groups, g.component ≠ c) → ∀ trees start more,
        nestedGroups read (groups ++ [⟨c, trees, start, off⟩]) (bs ++ more) =
          nestedGroups read (groups ++ [⟨c, trees ++ later.map fun x => (Node.nested x.2).withComponent c, start,
            off + Text.size ((laterPieces c later).flatMap Piece.written)⟩]) more := by
  induction later generalizing off with
  | nil => exact ⟨[], rfl, nofun, fun groups _ trees start more => by simp [laterPieces]⟩
  | cons x later ih =>
    have hx := hplain x (by simp)
    have hblock := blocks_nested hc (hx.arranged_render.atom hx) limit (off + x.1.text.size)
    obtain ⟨bs, hbs, hnested, hgroups⟩ := ih (fun y hy => hplain y (by simp [hy]))
      (fun y hy => hread y (by simp [hy])) (off + x.1.text.size + (blockText c x.2.render).size)
    refine ⟨nestedBlock c (off + x.1.text.size) x.2.render :: bs, ?_, ?_, ?_⟩
    · have hcons : laterPieces c (x :: later) =
          .gap x.1.text :: .block (some c) x.2.render :: laterPieces c later := rfl
      have hgap : (Piece.gap x.1.text).written = x.1.text := rfl
      rw [hcons, blocksOf, blocksOf, hgap, hblock, written_block, hbs]
      rfl
    · intro b hb
      rcases List.mem_cons.1 hb with hb | hb
      · rw [hb]
        exact ⟨_, _, rfl⟩
      · exact hnested b hb
    · intro groups hfresh trees start more
      have hadd := addToGroup_last hfresh ((Node.nested x.2).withComponent c) trees start off
        (off + x.1.text.size) (off + x.1.text.size + (blockText c x.2.render).size)
      have hstep : nestedGroups read (groups ++ [⟨c, trees, start, off⟩])
          (nestedBlock c (off + x.1.text.size) x.2.render :: (bs ++ more)) =
            nestedGroups read (groups ++ [⟨c, trees ++ [(Node.nested x.2).withComponent c], start,
              off + x.1.text.size + (blockText c x.2.render).size⟩]) (bs ++ more) := by
        rw [nestedGroups, ← hadd]
        simp only [nestedBlock, hread x (by simp), Report.done_bind]
        rfl
      rw [List.cons_append, hstep, hgroups groups hfresh]
      simp [written_laterPieces, Nat.add_assoc]

/-- The blocks of a run make one group, from the first block to the last. -/
theorem NestedRun.Sound.blocks {r : NestedRun} (h : r.Sound)
    (hread : ∀ s ∈ r.statements, read s.render = .done (.nested s)) (limit off : Nat) :
    ∃ bs, blocksOf limit off r.pieces = .ok bs ∧ (∀ b ∈ bs, b.IsNested) ∧
      ∀ groups : List NestedGroup, (∀ g ∈ groups, g.component ≠ r.component) → ∀ more,
        nestedGroups read groups (bs ++ more) = nestedGroups read (groups ++ [r.group off]) more := by
  have hfirst := h.plain r.first (by simp [statements])
  have hblock := blocks_nested h.nests (hfirst.arranged_render.atom hfirst) limit off
  obtain ⟨bs, hbs, hnested, hgroups⟩ := laterBlocks limit h.nests
    (fun x hx => h.plain x.2 (List.mem_cons_of_mem _ (List.mem_map_of_mem hx)))
    (fun x hx => hread x.2 (List.mem_cons_of_mem _ (List.mem_map_of_mem hx)))
    (off + (blockText r.component r.first.render).size)
  refine ⟨nestedBlock r.component off r.first.render :: bs, ?_, ?_, ?_⟩
  · rw [NestedRun.pieces, blocksOf, hblock, written_block, hbs]
    rfl
  · intro b hb
    rcases List.mem_cons.1 hb with hb | hb
    · rw [hb]
      exact ⟨_, _, rfl⟩
    · exact hnested b hb
  · intro groups hfresh more
    have hadd := Row.addToGroup_new hfresh ((Node.nested r.first).withComponent r.component) off
      (off + (blockText r.component r.first.render).size)
    have hstep : nestedGroups read groups (nestedBlock r.component off r.first.render :: (bs ++ more)) =
        nestedGroups read (groups ++ [⟨r.component, [(Node.nested r.first).withComponent r.component], off,
          off + (blockText r.component r.first.render).size⟩]) (bs ++ more) := by
      rw [nestedGroups, ← hadd]
      simp only [nestedBlock, hread r.first (by simp [statements]), Report.done_bind]
      rfl
    rw [List.cons_append, hstep, hgroups groups hfresh]
    simp [group, statements, NestedRun.text, written_laterPieces, Nat.add_assoc]
    rfl

end Groups

/-! ## Rows of runs -/

/-- The runs one after another, each behind the separator in front of it. -/
def runsPieces (rs : List (Separator × NestedRun)) : List Piece := rs.flatMap fun x => .gap x.1.text :: x.2.pieces

def runsText (rs : List (Separator × NestedRun)) : Text := rs.flatMap fun x => x.1.text ++ x.2.text

/-- The groups of the runs, when the first separator stands at byte `off`. -/
def groupsFrom (off : Nat) : List (Separator × NestedRun) → List NestedGroup
  | [] => []
  | x :: rs => x.2.group (off + x.1.text.size) :: groupsFrom (off + x.1.text.size + x.2.text.size) rs

/-- The statement whose complex slots hold the trees of the runs. -/
def Statement.ofRuns (options : Options) (rs : List (Separator × NestedRun)) : Statement :=
  .of fun slot => match slot with
    | .simple _ => none
    | .complex c _ => (rs.find? (·.2.component = c)).map (·.2.tree options)

/-- Filling the slot of a run in front of others that have other components. -/
theorem Statement.get_ofRuns_cons (options : Options) {x : Separator × NestedRun} {rs : List (Separator × NestedRun)}
    (hn : x.2.component.nests = true) (hfirst : x.2.component ∉ rs.map (·.2.component)) (s : Statement) (slot : Slot) :
    ((ofRuns options rs).get slot).or ((s.put (.complex x.2.component hn) (some (x.2.tree options))).get slot) =
      ((ofRuns options (x :: rs)).get slot).or (s.get slot) := by
  cases slot with
  | simple c => rfl
  | complex c hc =>
    by_cases hc' : x.2.component = c
    · subst hc'
      have hnone : rs.find? (·.2.component = x.2.component) = none := by
        rw [List.find?_eq_none]
        intro y hy e
        exact hfirst (List.mem_map.2 ⟨y, hy, of_decide_eq_true e⟩)
      simp [ofRuns, get_put, hnone]
    · have hne : ¬ Slot.complex c hc = .complex x.2.component hn := by
        intro e
        cases e
        exact hc' rfl
      simp [ofRuns, get_put, hne, hc']

theorem written_runsPieces (rs : List (Separator × NestedRun)) :
    (runsPieces rs).flatMap Piece.written = runsText rs := by
  rw [runsPieces, List.flatMap_assoc, runsText]
  refine congrArg (rs.flatMap ·) (funext fun x => ?_)
  rw [List.flatMap_cons, x.2.written_pieces]
  rfl

section Runs

variable {read : Text → Report Node} {rs : List (Separator × NestedRun)}

theorem sound_runsPieces (h : ∀ x ∈ rs, x.1.Sound ∧ x.2.Sound) : ∀ x ∈ runsPieces rs, x.Sound ∧ x.isContent = false := by
  intro x hx
  obtain ⟨y, hy, hx⟩ := List.mem_flatMap.1 hx
  rcases List.mem_cons.1 hx with hx | hx
  · rw [hx]
    exact ⟨(h y hy).1.gap, rfl⟩
  · exact (h y hy).2.pieces x hx

/-- The blocks of a row of runs make one group for each run. -/
theorem runs_blocks (h : ∀ x ∈ rs, x.1.Sound ∧ x.2.Sound)
    (hread : ∀ x ∈ rs, ∀ s ∈ x.2.statements, read s.render = .done (.nested s))
    (hdistinct : (rs.map (·.2.component)).Nodup) (limit off : Nat) :
    ∃ bs, blocksOf limit off (runsPieces rs) = .ok bs ∧ (∀ b ∈ bs, b.IsNested) ∧
      ∀ groups : List NestedGroup, (∀ g ∈ groups, g.component ∉ rs.map (·.2.component)) →
        nestedGroups read groups bs = .done (groups ++ groupsFrom off rs) := by
  induction rs generalizing off with
  | nil => exact ⟨[], rfl, nofun, fun groups _ => by simp [groupsFrom, nestedGroups]⟩
  | cons x rs ih =>
    obtain ⟨hfirst, hrest⟩ := List.nodup_cons.1 hdistinct
    obtain ⟨bs, hbs, hnested, hgroup⟩ := (h x (by simp)).2.blocks (hread x (by simp)) limit
      (off + x.1.text.size)
    obtain ⟨later, hlater, hnested', hgroups⟩ := ih (fun y hy => h y (by simp [hy])) (fun y hy => hread y (by simp [hy]))
      hrest (off + x.1.text.size + x.2.text.size)
    refine ⟨bs ++ later, ?_, ?_, ?_⟩
    · have hcons : runsPieces (x :: rs) = .gap x.1.text :: (x.2.pieces ++ runsPieces rs) := by simp [runsPieces]
      have hgap : (Piece.gap x.1.text).written = x.1.text := rfl
      rw [hcons, blocksOf, blocksOf_append, hgap, hbs, x.2.written_pieces, ok_bind, hlater]
      rfl
    · intro b hb
      rcases List.mem_append.1 hb with hb | hb
      · exact hnested b hb
      · exact hnested' b hb
    · intro groups hfresh
      have hnew : ∀ g ∈ groups, g.component ≠ x.2.component := by
        intro g hg e
        exact hfresh g hg (by simp [e])
      rw [hgroup groups hnew, hgroups]
      · simp [groupsFrom]
      · intro g hg
        rcases List.mem_append.1 hg with hg | hg
        · intro hm
          exact hfresh g hg (by simp [hm])
        · rw [List.mem_singleton.1 hg]
          exact hfirst

/-! ## Joining -/

/-- The operators between the statements of a run are those between the offsets of its group. -/
theorem joiningOperator_run (options : Options) {a b : Text} {r : NestedRun} (hr : r.Sound) (ha : Gap a) (hb : Gap b) :
    (¬ r.Undecided options →
      joiningOperator options (a ++ (atomicOf r.pieces ++ b)) a.size (a.size + r.text.size) =
        .ok (r.operator options)) ∧
    (r.Undecided options → ∃ e,
      joiningOperator options (a ++ (atomicOf r.pieces ++ b)) a.size (a.size + r.text.size) = .error e ∧
        e.code = "MIXED_OPERATORS") := by
  have hgap := gap_atomicOf hr.pieces
  have hsize : (atomicOf r.pieces).size = r.text.size := by rw [size_atomicOf, r.written_pieces]
  rw [← hsize]
  constructor
  · intro hmixed
    refine joiningOperator_uniform ha hgap hb hr.operators ?_
    intro hnone x hx y hy
    by_cases hxy : x = y
    · exact hxy
    · exact absurd ⟨hnone, x, hx, y, hy, hxy⟩ hmixed
  · intro hmixed
    exact joiningOperator_mixed ha hgap hb hr.operators hmixed.1 hmixed.2

/-- A group is attached as the tree of its run, or refused if its operators are mixed. -/
theorem attachGroup_run (options : Options) {a b : Text} {r : NestedRun} (hr : r.Sound) (ha : Gap a) (hb : Gap b) (s : Statement) :
    (¬ r.Undecided options →
      attachGroup options (a ++ (atomicOf r.pieces ++ b)) s (r.group a.size) = s.nest r.component (r.tree options)) ∧
    (r.Undecided options → ∃ e,
      attachGroup options (a ++ (atomicOf r.pieces ++ b)) s (r.group a.size) = .error e ∧
        e.code = "MIXED_OPERATORS") := by
  obtain ⟨huniform, hmixed⟩ := joiningOperator_run options hr ha hb
  constructor
  · intro h
    refine attachGroup_joined ?_ (huniform h)
    intro x hx
    rw [← List.map_cons (f := fun s => (Node.nested s).withComponent r.component)] at hx
    obtain ⟨u, -, rfl⟩ := List.mem_map.1 hx
    rfl
  · intro h
    obtain ⟨e, he, hcode⟩ := hmixed h
    refine ⟨e, attachGroup_mixed ?_ he, hcode⟩
    obtain ⟨-, x, hx, -⟩ := h
    intro hnil
    simp only [List.map_eq_nil_iff] at hnil
    rw [NestedRun.operators, hnil] at hx
    cases hx

/-- The groups are attached one after another; the first one without an operator is refused. -/
theorem attachRuns (options : Options) (h : ∀ x ∈ rs, x.1.Sound ∧ x.2.Sound) (hdistinct : (rs.map (·.2.component)).Nodup)
    {a atomic : Text} (ha : Gap a) (hatomic : atomic = a ++ atomicOf (runsPieces rs)) {s : Statement}
    (hs : ∀ c hc, c ∈ rs.map (·.2.component) → s.get (.complex c hc) = none) :
    ((∀ x ∈ rs, ¬ x.2.Undecided options) →
      ∃ s', (groupsFrom a.size rs).foldlM (attachGroup options atomic) s = .ok s' ∧
        ∀ slot, s'.get slot = ((Statement.ofRuns options rs).get slot).or (s.get slot)) ∧
    ((∃ x ∈ rs, x.2.Undecided options) →
      ∃ e, (groupsFrom a.size rs).foldlM (attachGroup options atomic) s = .error e ∧ e.code = "MIXED_OPERATORS") := by
  induction rs generalizing a s with
  | nil =>
    refine ⟨fun _ => ⟨s, rfl, fun slot => ?_⟩, nofun⟩
    cases slot <;> rfl
  | cons x rs ih =>
    obtain ⟨hfirst, hrest⟩ := List.nodup_cons.1 hdistinct
    obtain ⟨hsep, hrun⟩ := h x (by simp)
    have hrs : ∀ y ∈ rs, y.1.Sound ∧ y.2.Sound := fun y hy => h y (by simp [hy])
    have hsplit : atomic = (a ++ x.1.text) ++ (atomicOf x.2.pieces ++ atomicOf (runsPieces rs)) := by
      rw [hatomic]
      simp [runsPieces, atomicOf, Piece.blank, Piece.written]
    have hbefore := ha.append hsep.gap
    obtain ⟨hnest, hrefused⟩ := attachGroup_run options hrun hbefore
      (gap_atomicOf (sound_runsPieces hrs)) s
    rw [← hsplit, Text.size_append] at hnest hrefused
    rw [groupsFrom, List.foldlM_cons]
    by_cases hx : x.2.Undecided options
    · obtain ⟨e, he, hcode⟩ := hrefused hx
      refine ⟨fun hall => absurd hx (hall x (by simp)), fun _ => ⟨e, ?_, hcode⟩⟩
      rw [he, error_bind]
    · rw [hnest hx, Statement.nest_fresh hrun.nests _ (hs _ _ (by simp)), ok_bind]
      have hoff : a.size + x.1.text.size + x.2.text.size = Text.size ((a ++ x.1.text) ++ atomicOf x.2.pieces) := by
        rw [Text.size_append, Text.size_append, size_atomicOf, x.2.written_pieces]
      rw [hoff]
      obtain ⟨huniform, hmixed⟩ := ih hrs hrest (a := (a ++ x.1.text) ++ atomicOf x.2.pieces)
        (hbefore.append (gap_atomicOf hrun.pieces)) (by simpa using hsplit)
        (s := s.put (.complex x.2.component hrun.nests) (some (x.2.tree options))) (by
          intro c hc hm
          have hne : ¬ Slot.complex c hc = .complex x.2.component hrun.nests := by
            intro e
            cases e
            exact hfirst hm
          rw [Statement.get_put, if_neg hne]
          exact hs c hc (by simp [hm]))
      constructor
      · intro hall
        obtain ⟨s', hs', hget⟩ := huniform fun y hy => hall y (by simp [hy])
        exact ⟨s', hs', fun slot => (hget slot).trans (Statement.get_ofRuns_cons options hrun.nests hfirst s slot)⟩
      · intro hsome
        obtain ⟨y, hy, hundecided⟩ := hsome
        rcases List.mem_cons.1 hy with hy | hy
        · exact absurd (hy ▸ hundecided) hx
        · exact hmixed ⟨y, hy, hundecided⟩

end Runs

/-! ## The whole row -/

theorem NestedRun.unsuffixed_tree (options : Options) (r : NestedRun) : (r.tree options).Unsuffixed := by
  refine Node.unsuffixed_joinedUnder fun x hx => ?_
  rw [← List.map_cons (f := fun s => (Node.nested s).withComponent r.component)] at hx
  obtain ⟨s, -, rfl⟩ := List.mem_map.1 hx
  rfl

/-- The plain nested statements of each component are joined by the operator written between them,
    whatever stands between those of other components. -/
theorem parse_runs {rs : List (Separator × NestedRun)} (hne : rs ≠ []) (hsound : ∀ x ∈ rs, x.1.Sound ∧ x.2.Sound)
    (hdistinct : (rs.map (·.2.component)).Nodup) {options : Options}
    (hnesting : ∀ x ∈ rs, ∀ s ∈ x.2.statements, s.nesting + 1 ≤ options.depthLimit)
    (hheight : ∀ x ∈ rs, ∀ s ∈ x.2.statements, ∀ u ∈ s.statements, ∀ p ∈ u.populated,
      p.2.height ≤ options.depthLimit) :
    ((∀ x ∈ rs, ¬ x.2.Undecided options) →
      parse options (runsText rs) = .ok ⟨.nested (.ofRuns options rs), []⟩) ∧
    ((∃ x ∈ rs, x.2.Undecided options) → ∃ r e, parse options (runsText rs) = .error r ∧
      r.cause = .rejected e ∧ e.code = "MIXED_OPERATORS") := by
  have hread : ∀ x ∈ rs, ∀ s ∈ x.2.statements,
      Reading.within options options.depthLimit s.render = .done (.nested s) := by
    intro x hx s hs
    have hplain := (hsound x hx).2.plain s hs
    exact within_arranged hplain.arranged_render hplain (hnesting x hx s hs) (hheight x hx s hs)
  obtain ⟨bs, hbs, hnested, hgroups⟩ := runs_blocks hsound hread hdistinct options.depthLimit 0
  have hattach : attachBlocks options (Reading.within options options.depthLimit) ⟨atomicOf (runsPieces rs), bs⟩ .empty =
      liftM ((groupsFrom 0 rs).foldlM (attachGroup options (atomicOf (runsPieces rs))) Statement.empty) := by
    unfold attachBlocks
    rw [attachCombinations_nested hnested, Report.done_bind, hgroups [] nofun, Report.done_bind]
    rfl
  obtain ⟨huniform, hmixed⟩ := attachRuns options hsound hdistinct Gap.nil (List.nil_append _).symm
    (s := .empty) fun _ _ _ => rfl
  unfold parse Reading.of
  rw [← written_runsPieces]
  constructor
  · intro hall
    obtain ⟨s, hs, hget⟩ := huniform hall
    have hstatement : s = .ofRuns options rs := Statement.ext_get fun slot => by simp [hget]
    subst hstatement
    have hdone : attachBlocks options (Reading.within options options.depthLimit) ⟨atomicOf (runsPieces rs), bs⟩ .empty =
        .done (.ofRuns options rs) := hattach.trans (congrArg liftM hs)
    have hunsuffixed : (Statement.ofRuns options rs).Unsuffixed := by
      intro slot n hn
      cases slot with
      | simple c => cases hn
      | complex c hc =>
        obtain ⟨x, -, rfl⟩ := Option.map_eq_some_iff.1 hn
        exact x.2.unsuffixed_tree options
    have hfull : (Statement.ofRuns options rs).isEmpty = false := by
      obtain ⟨x, later, rfl⟩ := List.exists_cons_of_ne_nil hne
      have hget : (Statement.ofRuns options (x :: later)).get (.complex x.2.component (hsound x (by simp)).2.nests) =
          some (x.2.tree options) := by
        simp [Statement.ofRuns]
      exact Statement.isEmpty_eq_false hget
    rw [Reading.step_blocks (sound_runsPieces hsound) hbs (pairs_nested hnested) hdone hunsuffixed hfull]
    rfl
  · intro hsome
    obtain ⟨e, he, hcode⟩ := hmixed hsome
    have hfailed : attachBlocks options (Reading.within options options.depthLimit) ⟨atomicOf (runsPieces rs), bs⟩ .empty =
        .failed e := hattach.trans (congrArg liftM he)
    rw [Reading.step_refused (sound_runsPieces hsound) hbs hfailed]
    exact ⟨_, _, rfl, rfl, hcode⟩

/-- Two conditions under one operator, and behind another one three constraints, the last of them under `o`. -/
def conditionsThenConstraints (o : Operator) : List (Separator × NestedRun) :=
  let word (v : Char) := Statement.only .aim [v]
  [(.white [], ⟨.activationCondition, word 'a', [(.single .or, word 'b')]⟩),
    (.single .xor, ⟨.executionConstraint, word 'c', [(.single .and, word 'd'), (.single o, word 'e')]⟩)]

theorem sound_conditionsThenConstraints {o : Operator} (ho : o.isSynthetic = false) :
    ∀ x ∈ conditionsThenConstraints o, x.1.Sound ∧ x.2.Sound := by
  have hword : ∀ v, PlainText [v] → (Statement.only .aim [v]).Plain := fun v hv => Statement.plain_only .aim hv
  have hsingle : ∀ p : Operator, p.isSynthetic = false → (Separator.single p).Sound := by
    intro p hp
    refine ⟨rfl, fun x hx => ?_, fun x hx => ?_⟩
    · rw [List.mem_singleton.1 hx]
      exact hp
    · rw [List.mem_singleton.1 hx]
      exact ⟨List.cons_ne_nil _ _, rfl⟩
  have hwhite : (Separator.white []).Sound := ⟨rfl, nofun, nofun⟩
  have ha := hword 'a' (by decide)
  have hb := hword 'b' (by decide)
  have hc := hword 'c' (by decide)
  have hd := hword 'd' (by decide)
  have he := hword 'e' (by decide)
  simp only [conditionsThenConstraints, List.forall_mem_cons, List.not_mem_nil, false_implies, implies_true, and_true]
  refine ⟨⟨hwhite, rfl, ?_, ?_⟩, hsingle _ rfl, rfl, ?_, ?_⟩
  · simp [NestedRun.statements, ha, hb]
  · simpa using hsingle _ rfl
  · simp [NestedRun.statements, hc, hd, he]
  · simpa using ⟨hsingle _ rfl, hsingle o ho⟩

theorem parse_runs_conditionsThenConstraints :
    parse {} (runsText (conditionsThenConstraints .and)) =
      .ok ⟨.nested (.ofRuns {} (conditionsThenConstraints .and)), []⟩ ∧
    ∃ r e, parse {} (runsText (conditionsThenConstraints .or)) = .error r ∧ r.cause = .rejected e ∧
      e.code = "MIXED_OPERATORS" := by
  constructor
  · exact (parse_runs (by decide) (sound_conditionsThenConstraints rfl) (by decide) (by decide +kernel)
      (by decide +kernel)).1 (by decide)
  · exact (parse_runs (by decide) (sound_conditionsThenConstraints rfl) (by decide) (by decide +kernel)
      (by decide +kernel)).2 (by decide)

end InstitutionalGrammar
