/-
  InstitutionalGrammar.Proofs.Plain.Blocks — texts of blocks alone, without contents between them.

  The simple slots of such a text stay empty, and its statement is what the blocks make of it.
  - `Reading.draft_blocks`: the outline, and the empty statement of the atomic text.
  - `Reading.step_blocks`, `Reading.step_refused`: reading the text is attaching its blocks.
  - `blockText_atom`, `TaggedBlock.read_blockText`: a block behind a symbol is an operand, and it is
    read back from its text.
-/

import InstitutionalGrammar.Proofs.Plain.RoundTrip

namespace InstitutionalGrammar

/-! ## Texts of blocks -/

/-- Whether something stands in parentheses. -/
def Piece.isContent : Piece → Bool
  | content .. => true
  | _ => false

theorem contentsOf_blocks {ps : List Piece} (h : ∀ x ∈ ps, x.isContent = false) (c : Component) :
    contentsOf c (ps.map Piece.blank) = [] := by
  induction ps with
  | nil => rfl
  | cons x ps ih =>
    have hcons : contentsOf c ((x :: ps).map Piece.blank) = x.blank.inners c ++ contentsOf c (ps.map Piece.blank) :=
      rfl
    rw [hcons, ih fun y hy => h y (by simp [hy])]
    cases x with
    | gap t => rfl
    | content e inner => cases h (.content e inner) (by simp)
    | block tag inner => rfl

/-- The text with spaces in place of the blocks. -/
def atomicOf (ps : List Piece) : Text := (ps.map Piece.blank).flatMap Piece.written

/-- The statement with one slot populated. -/
def Statement.single (slot : Slot) (n : Node) : Statement := empty.put slot (some n)

theorem Statement.get_single (slot other : Slot) (n : Node) :
    (single slot n).get other = if other = slot then some n else none := get_put ..

theorem Statement.get_single_self (slot : Slot) (n : Node) : (single slot n).get slot = some n := by
  rw [get_single, if_pos rfl]

theorem Node.Unsuffixed.label {n : Node} (h : n.Unsuffixed) (c : Component) : (n.label c none none).Unsuffixed := by
  cases n with
  | leaf e m p => rfl
  | combination o l r m p => exact ⟨rfl, h.2⟩

theorem Statement.unsuffixed_single {slot : Slot} {n : Node} (h : n.Unsuffixed) : (single slot n).Unsuffixed := by
  intro other m hm
  rw [get_single] at hm
  split at hm
  · cases hm
    exact h
  · cases hm

theorem Statement.isEmpty_eq_false {s : Statement} {slot : Slot} {n : Node} (h : s.get slot = some n) :
    s.isEmpty = false := by
  unfold isEmpty
  rw [List.isEmpty_eq_false_iff]
  exact List.ne_nil_of_mem (mem_populated.2 h)

/-- What is nested in an empty slot fills it. -/
theorem Statement.nest_fresh {s : Statement} {c : Component} (hc : c.nests = true) (n : Node)
    (hs : s.get (.complex c hc) = none) : s.nest c n = .ok (s.put (.complex c hc) (some n)) := by
  have hslot : Slot.of? c .complex = some (.complex c hc) := by simp [Slot.of?, hc]
  simp [nest, hslot, hs]

namespace Reading

variable {ps : List Piece} {options : Options} {bs : List Block} {read : Text → Report Node}

/-- The simple slots of a text of blocks stay empty. -/
theorem draft_blocks (h : ∀ x ∈ ps, x.Sound ∧ x.isContent = false)
    (hbs : blocksOf options.depthLimit 0 ps = .ok bs) :
    draft options (ps.flatMap Piece.written) = .ok (⟨atomicOf ps, bs⟩, .empty) := by
  have hsound : ∀ x ∈ ps, x.Sound := fun x hx => (h x hx).1
  have hblank : ∀ x ∈ ps.map Piece.blank, x.Sound ∧ x.isBlock = false := by
    intro x hx
    obtain ⟨y, hy, rfl⟩ := List.mem_map.1 hx
    exact (hsound y hy).blank
  have hatomic : atomicStatement options.depthLimit (atomicOf ps) = .ok .empty := by
    refine (atomicStatement_eq (f := fun _ => none) fun c => ?_).trans (congrArg Except.ok ?_)
    · exact componentTree?_none hblank (contentsOf_blocks (fun x hx => (h x hx).2) c)
    · refine Statement.ext_get fun slot => ?_
      cases slot <;> rfl
  have hunsuffixed : Statement.empty.Unsuffixed := nofun
  unfold draft
  rw [(written_tidy hsound).nested.requireBalanced, outline_pieces hsound hbs]
  simp only [liftM_ok, ok_bind]
  rw [← atomicOf, hatomic]
  simp only [liftM_ok, ok_bind, linked_unsuffixed hunsuffixed]
  rfl

/-- Reading a text of blocks gives what attaching them to the empty statement gives. -/
theorem step_blocks (h : ∀ x ∈ ps, x.Sound ∧ x.isContent = false)
    (hbs : blocksOf options.depthLimit 0 ps = .ok bs) (hpairs : pairs bs = []) {s : Statement}
    (hattach : attachBlocks options read ⟨atomicOf ps, bs⟩ .empty = .done s) (hs : s.Unsuffixed)
    (hfull : s.isEmpty = false) :
    step options read (ps.flatMap Piece.written) = ⟨.ok (.nested s), [], some s⟩ := by
  have hcomplete : complete options read ⟨atomicOf ps, bs⟩ .empty = .done s := by
    unfold complete
    rw [hattach, Report.done_bind, linked_unsuffixed hs]
    rfl
  unfold step
  rw [draft_blocks h hbs]
  simp only [hcomplete, Report.done]
  unfold output
  rw [hpairs]
  simp only [hfull]
  rfl

/-- Where the blocks cannot be attached, the text is refused for the same reason. -/
theorem step_refused (h : ∀ x ∈ ps, x.Sound ∧ x.isContent = false)
    (hbs : blocksOf options.depthLimit 0 ps = .ok bs) {e : ParseError}
    (hattach : attachBlocks options read ⟨atomicOf ps, bs⟩ .empty = .failed e) :
    step options read (ps.flatMap Piece.written) = ⟨reject e, [], some .empty⟩ := by
  have hcomplete : complete options read ⟨atomicOf ps, bs⟩ .empty = .failed e := by
    unfold complete
    rw [hattach, Report.failed_bind]
  unfold step
  rw [draft_blocks h hbs]
  simp only [hcomplete, Report.failed]
  rfl

end Reading

/-! ## Blocks behind a symbol -/

/-- A block behind the symbol of a component. -/
def blockText (c : Component) (inner : Text) : Text := c.symbol ++ Piece.braced inner

theorem written_block (c : Component) (inner : Text) : (Piece.block (some c) inner).written = blockText c inner := rfl

/-- A block behind a symbol is an operand. -/
theorem blockText_atom (c : Component) {inner : Text} (h : Tidy inner) : Atom .braces (blockText c inner) := by
  refine Framed.atom ⟨?_, c.symbol ++ Delimiters.braces.opening :: inner, .braces, by simp [blockText, Piece.braced]⟩
    (.block c h)
  have hsymbol : ∃ e r, c.symbol = e :: r ∧ isReserved e = false ∧ isBlank e = false := by
    cases c <;> exact ⟨_, _, rfl, by decide, by decide⟩
  obtain ⟨e, r, he, hreserved, hblank⟩ := hsymbol
  exact ⟨e, r ++ Piece.braced inner, by rw [blockText, he]; rfl, hreserved, hblank⟩

theorem Component.read?_symbol (c : Component) (d : Delimiters) (rest : Text) :
    Shape.read? (c.symbol ++ d.opening :: rest) = some (c.shape d) := by
  cases c <;> cases d <;> rfl

/-- A block behind a symbol is read as what stands in it. -/
theorem TaggedBlock.read_blockText (c : Component) {inner : Text} (h : Tidy inner) :
    TaggedBlock.read (blockText c inner) = .ok (some ⟨c.headerAt 0 .braces, inner⟩) := by
  have htrim := (blockText_atom c h).trimmed
  have hshape : Shape.read? (blockText c inner) = some (c.shape .braces) :=
    c.read?_symbol .braces (inner ++ [Delimiters.braces.closing])
  have hclose : closeOf (blockText c inner) c.symbol.size .braces = .ok (some (c.symbol.size + 1 + inner.size)) :=
    h.nested.closeOf .braces c.symbol []
  have hsize : c.symbol.size + 1 + inner.size + 1 = (blockText c inner).size := by
    simp [blockText, Piece.braced]
    omega
  have hslice : (blockText c inner).slice (c.symbol.size + 1) (c.symbol.size + 1 + inner.size) = .ok inner :=
    Text.slice_parts (a := c.symbol ++ [Delimiters.braces.opening]) (c := [Delimiters.braces.closing])
      (by simp [blockText, Piece.braced]) (by simp) (by simp)
  unfold read
  simp only [htrim, hshape, Option.bind_some, c.header?_symbol]
  simp only [Component.headerAt, Nat.zero_add, hclose, ok_bind, hsize, hslice, ne_eq, not_true_eq_false, if_false]
  rfl

end InstitutionalGrammar
