/-
  InstitutionalGrammar.Proofs.Plain.Reading — a row of slots is read as the statement it codes.

  Behind the row other pieces may follow that are no contents and no nested statements.
  - `Row.atomic`: the atomic text fills the simple slots.
  - `Row.attach`: the nested statements fill the complex ones.
  - `Row.draft`, `Row.complete`: both steps of a reading.
-/

import InstitutionalGrammar.Proofs.Ownership.Unsuffixed
import InstitutionalGrammar.Proofs.Plain.Rows

namespace InstitutionalGrammar

/-- The statement with its complex slots empty. -/
def Statement.simples (s : Statement) : Statement :=
  .of fun slot => match slot with
    | .simple c => s.get (.simple c)
    | .complex .. => none

/-! ## Simple slots -/

theorem contentsOf_append (c : Component) (ps qs : List Piece) :
    contentsOf c (ps ++ qs) = contentsOf c ps ++ contentsOf c qs := List.flatMap_append

theorem contentsOf_spaced (c : Component) (ps : List Piece) :
    contentsOf c ((spaced ps).map Piece.blank) = contentsOf c (ps.map Piece.blank) := by
  have htail : ∀ ps : List Piece, contentsOf c ((ps.flatMap fun y => [.gap [' '], y]).map Piece.blank) =
      contentsOf c (ps.map Piece.blank) := by
    intro ps
    induction ps with
    | nil => rfl
    | cons y ps ih => exact congrArg (y.blank.inners c ++ ·) ih
  cases ps with
  | nil => rfl
  | cons x ps => exact congrArg (x.blank.inners c ++ ·) (htail ps)

theorem inners_piece (c : Component) (slot : Slot) (inner : Text) :
    (slot.piece inner).blank.inners c = if slot = .simple c then [inner] else [] := by
  cases slot with
  | simple e => by_cases h : e = c <;> simp [Slot.piece, Piece.blank, Piece.inners, h]
  | complex e h => rfl

/-- The contents of a component in a row: at most one, for no slot stands there twice. -/
theorem contentsOf_row {order : List Slot} (h : order.Nodup) (c : Component) (inner : Slot → Text) :
    contentsOf c ((Row.pieces order inner).map Piece.blank) =
      if Slot.simple c ∈ order then [inner (.simple c)] else [] := by
  rw [Row.pieces, contentsOf_spaced]
  induction order with
  | nil => rfl
  | cons slot order ih =>
    have hcons : contentsOf c (((slot :: order).map fun slot => slot.piece (inner slot)).map Piece.blank) =
        (slot.piece (inner slot)).blank.inners c ++
          contentsOf c ((order.map fun slot => slot.piece (inner slot)).map Piece.blank) := rfl
    obtain ⟨hslot, horder⟩ := List.nodup_cons.1 h
    rw [hcons, ih horder, inners_piece]
    by_cases hc : slot = .simple c
    · subst hc
      simp [hslot]
    · have hc' : ¬ Slot.simple c = slot := fun e => hc e.symm
      simp [hc, hc']

theorem Piece.Sound.blank {x : Piece} (h : x.Sound) : x.blank.Sound ∧ x.blank.isBlock = false := by
  cases x with
  | gap t => exact ⟨h, rfl⟩
  | content c inner => exact ⟨h, rfl⟩
  | block tag inner =>
    exact ⟨Gap.of_allBlank (by rw [Text.allBlank, List.all_eq_true]; intro c hc; rw [List.eq_of_mem_replicate hc]; rfl),
      rfl⟩

namespace Row

variable {s : Statement} {order : List Slot} {inner : Slot → Text}

/-- The atomic text fills the simple slots. -/
theorem atomic (h : Row s order inner) {tail : List Piece} (htail : ∀ x ∈ tail, x.Sound)
    (hcontents : ∀ c, contentsOf c (tail.map Piece.blank) = []) {limit : Nat}
    (hheight : ∀ c n, s.get (.simple c) = some n → n.height ≤ limit) :
    Reading.atomicStatement limit (((pieces order inner ++ tail).map Piece.blank).flatMap Piece.written) =
      .ok s.simples := by
  have hsound : ∀ x ∈ (pieces order inner ++ tail).map Piece.blank, x.Sound ∧ x.isBlock = false := by
    intro x hx
    obtain ⟨y, hy, rfl⟩ := List.mem_map.1 hx
    rcases List.mem_append.1 hy with hy | hy
    · exact (h.sound y hy).1.blank
    · exact (htail y hy).blank
  have hof : ∀ c, contentsOf c ((pieces order inner ++ tail).map Piece.blank) =
      if Slot.simple c ∈ order then [inner (.simple c)] else [] := by
    intro c
    rw [List.map_append, contentsOf_append, contentsOf_row h.nodup, hcontents, List.append_nil]
  refine atomicStatement_eq (f := fun c => s.get (.simple c)) fun c => ?_
  cases hn : s.get (.simple c) with
  | none =>
    have hc : Slot.simple c ∉ order := by
      intro hm
      obtain ⟨n, hn'⟩ := h.mem_iff.1 hm
      rw [hn] at hn'
      cases hn'
    exact componentTree?_none hsound (by rw [hof, if_neg hc])
  | some n =>
    obtain ⟨t, ht, rfl, hinner⟩ := h.simple c n hn
    have hle := hheight c _ hn
    rw [Node.height_withComponent] at hle
    have htree : combinationTree .parentheses limit
        (Delimiters.parentheses.opening :: (inner (.simple c) ++ [Delimiters.parentheses.closing])) = .ok t := by
      rw [hinner]
      exact treeWithin_enclosed (ht.atoms .parentheses) (Nat.lt_succ_of_le hle)
    exact componentTree?_single hsound (by rw [hof, if_pos (h.mem_iff.2 ⟨_, hn⟩)]) (by cases ht <;> rfl)
      (by cases ht <;> rfl) htree

/-! ## Complex slots -/

theorem attachCombinations_row {bs : List Block} (h : NestedBlocks inner order bs) (read : Text → Report Node)
    (s : Statement) (later : List Block) :
    attachCombinations read s (bs ++ later) = attachCombinations read s later := by
  induction h with
  | nil => rfl
  | simple _ ih => exact ih
  | complex hb _ ih =>
    rw [List.cons_append, attachCombinations, hb]
    exact ih

theorem addToGroup_new {c : Component} {groups : List NestedGroup} (h : ∀ g ∈ groups, g.component ≠ c) (tree : Node)
    (start stop : Nat) : addToGroup c tree start stop groups = groups ++ [⟨c, [tree], start, stop⟩] := by
  induction groups with
  | nil => rfl
  | cons g groups ih =>
    rw [addToGroup, if_neg (h g (by simp)), ih fun x hx => h x (by simp [hx])]
    rfl

/-- The groups that the complex slots of `order` make: each has one tree. -/
inductive SingleGroups (s : Statement) : List Slot → List NestedGroup → Prop
  | nil : SingleGroups s [] []
  | simple {c : Component} {order : List Slot} {gs : List NestedGroup} :
      SingleGroups s order gs → SingleGroups s (.simple c :: order) gs
  | complex {c : Component} {h : c.nests = true} {order : List Slot} {gs : List NestedGroup} {n : Node}
      {start stop : Nat} : s.get (.complex c h) = some n → SingleGroups s order gs →
        SingleGroups s (.complex c h :: order) (⟨c, [n], start, stop⟩ :: gs)

theorem nestedGroups_row {bs : List Block} (h : NestedBlocks inner order bs) (horder : order.Nodup)
    {read : Text → Report Node}
    (hread : ∀ c hc, Slot.complex c hc ∈ order → ∃ m, s.get (.complex c hc) = some (m.label c none none) ∧
      read (inner (.complex c hc)) = .done m)
    (groups : List NestedGroup) (hfresh : ∀ g ∈ groups, ∀ hc, Slot.complex g.component hc ∉ order)
    (later : List Block) :
    ∃ gs, nestedGroups read groups (bs ++ later) = nestedGroups read (groups ++ gs) later ∧
      SingleGroups s order gs := by
  induction h generalizing groups with
  | nil => exact ⟨[], by simp, .nil⟩
  | simple _ ih =>
    obtain ⟨gs, hgs, hsingle⟩ := ih (List.nodup_cons.1 horder).2 (fun c hc hm => hread c hc (by simp [hm])) groups
      fun g hg hc hm => hfresh g hg hc (by simp [hm])
    exact ⟨gs, hgs, .simple hsingle⟩
  | @complex c hc order b bs off hb _ ih =>
    obtain ⟨hslot, hnodup⟩ := List.nodup_cons.1 horder
    obtain ⟨m, hm, hdone⟩ := hread c hc (by simp)
    have hnew : ∀ g ∈ groups, g.component ≠ c := by
      intro g hg e
      exact hfresh g hg (e ▸ hc) (by simp [e])
    obtain ⟨gs, hgs, hsingle⟩ := ih hnodup (fun c hc hm => hread c hc (by simp [hm]))
      (groups ++ [⟨c, [m.label c none none], b.start, b.stop⟩]) (by
        intro g hg hc' hm'
        rcases List.mem_append.1 hg with hg | hg
        · exact hfresh g hg hc' (by simp [hm'])
        · obtain rfl := List.mem_singleton.1 hg
          exact hslot hm')
    refine ⟨⟨c, [m.label c none none], b.start, b.stop⟩ :: gs, ?_, .complex hm hsingle⟩
    rw [List.cons_append, nestedGroups, hb]
    simp only [hdone, Report.done_bind]
    have hadd := addToGroup_new hnew (m.label c none none) b.start b.stop
    rw [List.append_assoc, List.singleton_append] at hgs
    rw [← hgs]
    exact congrArg (fun gs => nestedGroups read gs (bs ++ later)) hadd

theorem attachGroup_single {options : Options} {text : Text} {c : Component} {hc : c.nests = true} {n : Node}
    {start stop : Nat} {s : Statement} (hs : s.get (.complex c hc) = none) :
    attachGroup options text s ⟨c, [n], start, stop⟩ = .ok (s.put (.complex c hc) (some n)) := by
  have hslot : Slot.of? c .complex = some (.complex c hc) := by simp [Slot.of?, hc]
  simp only [attachGroup, List.length_singleton, Nat.lt_irrefl, if_false, pure_eq_ok, ok_bind, Node.fold?,
    List.foldlM_nil]
  simp [Statement.nest, hslot, hs]

theorem attachGroups_row {gs : List NestedGroup} (h : SingleGroups s order gs) (horder : order.Nodup)
    (options : Options) (text : Text) (start : Statement)
    (hstart : ∀ c hc, Slot.complex c hc ∈ order → start.get (.complex c hc) = none) :
    ∃ s', gs.foldlM (attachGroup options text) start = .ok s' ∧
      (∀ c, s'.get (.simple c) = start.get (.simple c)) ∧
      ∀ c hc, s'.get (.complex c hc) =
        if Slot.complex c hc ∈ order then s.get (.complex c hc) else start.get (.complex c hc) := by
  induction h generalizing start with
  | nil => exact ⟨start, rfl, fun _ => rfl, fun _ _ => by simp⟩
  | simple _ ih =>
    obtain ⟨s', hs', hsimple, hcomplex⟩ := ih (List.nodup_cons.1 horder).2 start
      fun c hc hm => hstart c hc (by simp [hm])
    exact ⟨s', hs', hsimple, fun c hc => by rw [hcomplex]; simp⟩
  | @complex c hc order gs n first last hn _ ih =>
    obtain ⟨hslot, hnodup⟩ := List.nodup_cons.1 horder
    obtain ⟨s', hs', hsimple, hcomplex⟩ := ih hnodup (start.put (.complex c hc) (some n)) (by
      intro e he hm
      have hne : ¬ Slot.complex e he = .complex c hc := fun h => hslot (h ▸ hm)
      rw [Statement.get_put, if_neg hne]
      exact hstart e he (by simp [hm]))
    refine ⟨s', ?_, ?_, ?_⟩
    · rw [List.foldlM_cons, attachGroup_single (hstart c hc (by simp)), ok_bind, hs']
    · intro e
      rw [hsimple, Statement.get_put, if_neg (by intro h; cases h)]
    · intro e he
      rw [hcomplex, Statement.get_put]
      by_cases hm : Slot.complex e he ∈ order
      · simp [hm]
      · by_cases hec : Slot.complex e he = .complex c hc
        · rw [if_neg hm, if_pos hec, if_pos (by simp [hec]), hec, hn]
        · rw [if_neg hm, if_neg hec, if_neg (by simp [hm, hec])]

/-! ## Both steps -/

theorem unsuffixed (h : Row s order inner) : s.Unsuffixed := by
  intro slot n hn
  cases slot with
  | simple c =>
    obtain ⟨t, ht, rfl, -⟩ := h.simple c n hn
    have hcoded : ∀ t : Node, t.Coded PlainText → t.Unsuffixed := by
      intro t ht
      induction ht with
      | leaf => rfl
      | combination _ _ _ _ _ ihl ihr => exact ⟨rfl, ihl, ihr⟩
    have := hcoded t ht
    cases t with
    | leaf e m p => exact this
    | combination o l r m p => exact this
  | complex c hc =>
    obtain ⟨t, rfl, -⟩ := h.complex c hc n hn
    rfl

theorem unsuffixed_simples (h : Row s order inner) : s.simples.Unsuffixed := by
  intro slot n hn
  cases slot with
  | simple c => exact h.unsuffixed (.simple c) n hn
  | complex c hc => cases hn

end Row

theorem Reading.linked_unsuffixed {s : Statement} (h : s.Unsuffixed) (options : Options) (kind : SlotKind) :
    linked options kind s = .ok s := by
  unfold linked
  rw [Statement.link_unsuffixed h]
  cases options.linksProperties <;> rfl

namespace Row

variable {s : Statement} {order : List Slot} {inner : Slot → Text}

/-- The outline of a row with pieces behind it, and the statement of its atomic text. -/
theorem draft (h : Row s order inner) {options : Options} (tail : List Piece) (htail : ∀ x ∈ tail, x.Sound)
    (hcontents : ∀ c, contentsOf c (tail.map Piece.blank) = []) {bt : Nat → List Block}
    (hbt : ∀ off, blocksOf options.depthLimit off tail = .ok (bt off))
    (hheight : ∀ c n, s.get (.simple c) = some n → n.height ≤ options.depthLimit) :
    ∃ outline bs off, Reading.draft options ((pieces order inner ++ tail).flatMap Piece.written) =
        .ok (outline, s.simples) ∧ outline.blocks = bs ++ bt off ∧ NestedBlocks inner order bs := by
  obtain ⟨bs, hbs, hnested⟩ := h.blocks options.depthLimit 0
  have hsound : ∀ x ∈ pieces order inner ++ tail, x.Sound := by
    intro x hx
    rcases List.mem_append.1 hx with hx | hx
    · exact (h.sound x hx).1
    · exact htail x hx
  let off := 0 + Text.size ((pieces order inner).flatMap Piece.written)
  have hblocks : blocksOf options.depthLimit 0 (pieces order inner ++ tail) = .ok (bs ++ bt off) := by
    rw [blocksOf_append, hbs, ok_bind, hbt]
    rfl
  refine ⟨⟨((pieces order inner ++ tail).map Piece.blank).flatMap Piece.written, bs ++ bt off⟩, bs, off, ?_, rfl,
    hnested⟩
  unfold Reading.draft
  rw [(written_tidy hsound).nested.requireBalanced, outline_pieces hsound hblocks]
  simp only [liftM_ok, ok_bind, h.atomic htail hcontents hheight, Reading.linked_unsuffixed h.unsuffixed_simples]
  rfl

/-- The nested statements of a row fill the complex slots. -/
theorem complete (h : Row s order inner) {options : Options} {read : Text → Report Node}
    (hread : ∀ c hc t, s.get (.complex c hc) = some ((Node.nested t).withComponent c) →
      read (inner (.complex c hc)) = .done (.nested t))
    {outline : Outline} {bs later : List Block} (hblocks : outline.blocks = bs ++ later)
    (hbs : NestedBlocks inner order bs) (hlater : ∀ b ∈ later, ∃ tree, b.content = .pair tree) :
    Reading.complete options read outline s.simples = .done s := by
  have hcomb : attachCombinations read s.simples later = .done s.simples := by
    clear hblocks
    induction later with
    | nil => rfl
    | cons b later ih =>
      obtain ⟨tree, hb⟩ := hlater b (by simp)
      rw [attachCombinations, hb]
      exact ih fun x hx => hlater x (by simp [hx])
  have hgroups : ∀ gs, nestedGroups read gs later = .done gs := by
    clear hblocks hcomb
    intro gs
    induction later with
    | nil => rfl
    | cons b later ih =>
      obtain ⟨tree, hb⟩ := hlater b (by simp)
      rw [nestedGroups, hb]
      exact ih fun x hx => hlater x (by simp [hx])
  have hread' : ∀ c hc, Slot.complex c hc ∈ order → ∃ m, s.get (.complex c hc) = some (m.label c none none) ∧
      read (inner (.complex c hc)) = .done m := by
    intro c hc hm
    obtain ⟨n, hn⟩ := h.mem_iff.1 hm
    obtain ⟨t, rfl, -⟩ := h.complex c hc n hn
    exact ⟨.nested t, hn, hread c hc t hn⟩
  obtain ⟨gs, hgs, hsingle⟩ := nestedGroups_row hbs h.nodup hread' [] (by simp) later
  rw [hgroups, List.nil_append] at hgs
  obtain ⟨s', hs', hsimple, hcomplex⟩ := attachGroups_row hsingle h.nodup options outline.atomic
    s.simples fun c hc _ => rfl
  have hs : s' = s := by
    refine Statement.ext_get fun slot => ?_
    cases slot with
    | simple c => rw [hsimple]; rfl
    | complex c hc =>
      rw [hcomplex]
      by_cases hm : Slot.complex c hc ∈ order
      · rw [if_pos hm]
      · rw [if_neg hm]
        cases hn : s.get (.complex c hc) with
        | none => rfl
        | some n => exact absurd (h.mem_iff.2 ⟨n, hn⟩) hm
  unfold Reading.complete attachBlocks
  rw [hblocks, attachCombinations_row hbs, hcomb, Report.done_bind, hgs, Report.done_bind, hs', hs,
    Report.liftM_except_ok, Report.done_bind, Reading.linked_unsuffixed h.unsuffixed]
  rfl

theorem pairs_row {bs : List Block} (h : NestedBlocks inner order bs) (later : List Block) :
    Reading.pairs (bs ++ later) = Reading.pairs later := by
  induction h with
  | nil => rfl
  | simple _ ih => exact ih
  | complex hb _ ih =>
    unfold Reading.pairs at ih ⊢
    rw [List.cons_append, List.filterMap_cons, hb]
    exact ih

/-- Reading a row alone gives its statement. -/
theorem step (h : Row s order inner) (hne : order ≠ []) {options : Options} {read : Text → Report Node}
    (hread : ∀ c hc t, s.get (.complex c hc) = some ((Node.nested t).withComponent c) →
      read (inner (.complex c hc)) = .done (.nested t))
    (hheight : ∀ c n, s.get (.simple c) = some n → n.height ≤ options.depthLimit) :
    Reading.step options read (joinSpaced (order.map fun slot => slot.written (inner slot))) =
      ⟨.ok (.nested s), [], some s⟩ := by
  obtain ⟨outline, bs, off, hdraft, hblocks, hbs⟩ := h.draft [] nofun (fun _ => rfl) (fun _ => rfl) hheight
  rw [List.append_nil, written_pieces] at hdraft
  have hcomplete : Reading.complete options read outline s.simples = .done s := h.complete hread hblocks hbs nofun
  have hpairs : Reading.pairs outline.blocks = [] := by
    rw [hblocks, pairs_row hbs]
    rfl
  have hfull : s.isEmpty = false := by
    obtain ⟨slot, hslot⟩ := List.exists_mem_of_ne_nil _ hne
    obtain ⟨n, hn⟩ := h.mem_iff.1 hslot
    unfold Statement.isEmpty
    rw [List.isEmpty_eq_false_iff]
    exact List.ne_nil_of_mem (Statement.mem_populated.2 hn)
  unfold Reading.step
  rw [hdraft]
  simp only [hcomplete, Report.done]
  unfold Reading.output
  rw [hpairs]
  simp only [hfull]
  rfl

end Row

end InstitutionalGrammar
