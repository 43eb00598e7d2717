/-
  InstitutionalGrammar.Proofs.Plain.Rows — a plain statement as a row of pieces.

  - `Row`: the slots of a plain statement in the order in which they are written, with what their
    delimiters enclose.
  - `Arranged.atom`: a written statement is an operand like any other text.
  - `Row.blocks`, `Row.contents`: the blocks and the contents among its pieces.
-/

import InstitutionalGrammar.Proofs.Layout.Blocks
import InstitutionalGrammar.Proofs.Layout.Contents
import InstitutionalGrammar.Proofs.Plain.Basic

namespace InstitutionalGrammar

/-- The piece in which a slot is written. -/
def Slot.piece (slot : Slot) (inner : Text) : Piece :=
  match slot with
  | .simple c => .content c inner
  | .complex c _ => .block (some c) inner

theorem Slot.written_piece (slot : Slot) (inner : Text) : (slot.piece inner).written = slot.written inner := by
  cases slot <;> rfl

/-- The pieces with a space between each two. -/
def spaced : List Piece → List Piece
  | [] => []
  | x :: ps => x :: ps.flatMap fun y => [.gap [' '], y]

theorem mem_spaced {x : Piece} {ps : List Piece} (h : x ∈ spaced ps) : x ∈ ps ∨ x = .gap [' '] := by
  cases ps with
  | nil => cases h
  | cons y ps =>
    rcases List.mem_cons.1 h with h | h
    · exact Or.inl (by simp [h])
    · obtain ⟨z, hz, hx⟩ := List.mem_flatMap.1 h
      rcases List.mem_cons.1 hx with hx | hx
      · exact Or.inr hx
      · exact Or.inl (by simp [List.mem_singleton.1 hx, hz])

theorem written_spaced (ps : List Piece) :
    (spaced ps).flatMap Piece.written = joinSpaced (ps.map Piece.written) := by
  cases ps with
  | nil => rfl
  | cons x ps =>
    rw [List.map_cons, joinSpaced_cons, spaced, List.flatMap_cons, List.flatMap_assoc, List.flatMap_map]
    simp [Piece.written]

/-! ## Rows -/

/-- The slots of a plain statement in the order `order`, each with what its delimiters enclose. -/
structure Row (s : Statement) (order : List Slot) (inner : Slot → Text) : Prop where
  populated : order.Perm (s.populated.map Prod.fst)
  simple : ∀ c n, s.get (.simple c) = some n →
    ∃ t : Node, t.Coded PlainText ∧ n = t.withComponent c ∧ inner (.simple c) = t.write .parentheses
  complex : ∀ c h n, s.get (.complex c h) = some n →
    ∃ t : Statement, n = (Node.nested t).withComponent c ∧ t.Plain ∧ t.Arranged (inner (.complex c h))

namespace Statement

theorem populated_fst (s : Statement) : s.populated.map Prod.fst = Slot.all.filter fun slot => (s.get slot).isSome := by
  unfold populated
  rw [List.map_filterMap]
  induction Slot.all with
  | nil => rfl
  | cons slot slots ih =>
    rw [List.filterMap_cons, List.filter_cons]
    cases h : s.get slot with
    | none => simpa [h] using ih
    | some n => simpa [h] using ih

/-- The slots of a plain statement, in the order in which they are written, are a row. -/
theorem Plain.row {s : Statement} (hs : s.Plain) {order : List Slot} {inner : Slot → Text}
    (hperm : order.Perm (s.populated.map Prod.fst))
    (hsimple : ∀ c n, s.get (.simple c) = some n → inner (.simple c) = n.render)
    (hcomplex : ∀ c h t, s.get (.complex c h) = some ((Node.nested t).withComponent c) →
      t.Arranged (inner (.complex c h))) : Row s order inner := by
  obtain ⟨-, htree, hnested, hinner⟩ := hs
  refine ⟨hperm, ?_, ?_⟩
  · intro c n hn
    obtain ⟨t, ht, htn⟩ := htree c n hn
    refine ⟨t, ht, htn, ?_⟩
    rw [hsimple c n hn, htn, Node.render_withComponent, write_parentheses]
  · intro c h n hn
    obtain ⟨t, rfl⟩ := hnested c h n hn
    exact ⟨t, rfl, hinner c h t hn, hcomplex c h t hn⟩

theorem Arranged.row {s : Statement} {x : Text} (hx : s.Arranged x) (hs : s.Plain) :
    ∃ order inner, Row s order inner ∧ x = joinSpaced (order.map fun slot => slot.written (inner slot)) := by
  obtain ⟨order, inner, hperm, hsimple, hcomplex⟩ := hx
  exact ⟨order, inner, hs.row hperm hsimple hcomplex, rfl⟩

end Statement

theorem Slot.nodup_all : Slot.all.Nodup := by decide

namespace Row

variable {s : Statement} {order : List Slot} {inner : Slot → Text}

theorem mem_iff (h : Row s order inner) {slot : Slot} : slot ∈ order ↔ ∃ n, s.get slot = some n := by
  rw [h.populated.mem_iff, List.mem_map]
  constructor
  · intro hx
    obtain ⟨x, hx, rfl⟩ := hx
    exact ⟨x.2, Statement.mem_populated.1 hx⟩
  · intro hx
    obtain ⟨n, hn⟩ := hx
    exact ⟨(slot, n), Statement.mem_populated.2 hn, rfl⟩

theorem nodup (h : Row s order inner) : order.Nodup := by
  rw [h.populated.nodup_iff, Statement.populated_fst]
  exact Slot.nodup_all.filter _

theorem ne_nil (h : Row s order inner) (hs : s.Plain) : order ≠ [] := by
  obtain ⟨⟨slot, hslot⟩, -⟩ := hs
  exact List.ne_nil_of_mem (h.mem_iff.2 (Option.ne_none_iff_exists'.1 hslot))

end Row

/-! ## Contents in parentheses -/

theorem Quiet.token (o : Operator) (ho : o.isSynthetic = false) : Quiet o.token := by
  have hname : Quiet (o.name ++ [']']) := plain_snoc (Text.forall_of_all (by cases o <;> decide)) (by decide)
  have hopen : Quiet ['['] := single (by decide)
  cases o with
  | syntheticAnd => cases ho
  | _ => simpa [Operator.token] using append hopen hname

/-- No header starts in a written tree, nor at the character behind it. -/
theorem Node.Coded.quiet {d : Delimiters} {t : Node} (ht : t.Coded PlainText) {e : Char}
    (he : Suffix.isSuffixChar e = false ∧ isOpening e = false ∧ e ≠ '[') : Quiet (t.write d ++ [e]) := by
  induction ht generalizing e with
  | leaf hv =>
    rw [write_leaf]
    exact .plain_snoc hv.unreserved he
  | @combination o l r before after ho _ _ hb ha ihl ihr =>
    have hopen : Quiet [d.opening] := .single (by cases d <;> decide)
    have hspace : Quiet [' '] := .single (by decide)
    have hlead : Quiet (Marks.lead { sharedLeft := before.toList, sharedRight := after.toList }) := by
      cases before with
      | none => trivial
      | some v => simpa [Marks.lead] using Quiet.plain_snoc (hb v rfl).unreserved (e := ' ') (by decide)
    have htrail : Quiet (Marks.trail { sharedLeft := before.toList, sharedRight := after.toList } ++ [e]) := by
      cases after with
      | none => exact .single he.1
      | some v => simpa [Marks.trail] using hspace.append (.plain_snoc (ha v rfl).unreserved he)
    have hleft := ihl (e := ' ') (by decide)
    have hright := ihr (e := d.closing) (by cases d <;> decide)
    rw [write_combination]
    simpa using hlead.append (hopen.append (hleft.append ((Quiet.token o ho).append
      (hspace.append (hright.append htrail)))))

theorem Node.Coded.content_sound {t : Node} (ht : t.Coded PlainText) (c : Component) :
    (Piece.content c (t.write .parentheses)).Sound :=
  ⟨(ht.atoms .parentheses).tidy, ht.quiet (by decide)⟩

/-! ## Rows as operands -/

/-- The ends of a written slot: no delimiter, bracket or blank in front, a closing delimiter behind. -/
def Framed (t : Text) : Prop :=
  (∃ c r, t = c :: r ∧ isReserved c = false ∧ isBlank c = false) ∧ ∃ (u : Text) (d : Delimiters), t = u ++ [d.closing]

theorem Slot.framed_written (slot : Slot) (inner : Text) : Framed (slot.written inner) := by
  have hsymbol : ∀ c : Component, ∃ e r, c.symbol = e :: r ∧ isReserved e = false ∧ isBlank e = false := by
    intro c
    cases c <;> exact ⟨_, _, rfl, by decide, by decide⟩
  obtain ⟨e, r, he, hr, hb⟩ := hsymbol slot.component
  cases slot with
  | simple c =>
    rw [Slot.component] at he
    exact ⟨⟨e, _, by rw [written, he]; rfl, hr, hb⟩,
      c.symbol ++ Delimiters.parentheses.opening :: inner, .parentheses, by simp [written]⟩
  | complex c h =>
    rw [Slot.component] at he
    exact ⟨⟨e, _, by rw [written, he]; rfl, hr, hb⟩,
      c.symbol ++ Delimiters.braces.opening :: inner, .braces, by simp [written]⟩

theorem framed_joinSpaced {ts : List Text} (hne : ts ≠ []) (h : ∀ t ∈ ts, Framed t) : Framed (joinSpaced ts) := by
  induction ts with
  | nil => exact absurd rfl hne
  | cons t ts ih =>
    cases ts with
    | nil => exact h t (by simp)
    | cons u us =>
      obtain ⟨c, r, hc, hr⟩ := (h t (by simp)).1
      obtain ⟨v, d, hv⟩ := (ih (by simp) fun x hx => h x (by simp [hx])).2
      rw [joinSpaced_cons_of_ne_nil t (by simp)]
      exact ⟨⟨c, _, by rw [hc]; rfl, hr⟩, t ++ ' ' :: v, d, by rw [hv]; simp⟩

theorem Framed.atom {t : Text} (h : Framed t) (hs : Silent .braces t) : Atom .braces t where
  toSilent := hs
  ne_nil := by
    obtain ⟨⟨c, r, rfl, -⟩, -⟩ := h
    simp
  trimmed := by
    obtain ⟨⟨c, r, hc, -, hb⟩, u, d, hu⟩ := h
    refine Text.trim_eq_self_iff.2 ⟨?_, ?_⟩
    · intro e he
      rw [hc] at he
      cases he
      exact hb
    · intro e he
      rw [hu, List.getLast?_concat] at he
      cases he
      cases d <;> decide
  head := by
    obtain ⟨⟨c, r, rfl, hr, -⟩, -⟩ := h
    intro e he
    cases he
    exact head_of_unreserved hr .braces
  last := by
    obtain ⟨-, u, d, rfl⟩ := h
    intro e he
    rw [List.getLast?_concat] at he
    cases he
    cases d <;> decide

namespace Row

variable {s : Statement} {order : List Slot} {inner : Slot → Text}

/-- The pieces in which the row is written. -/
def pieces (order : List Slot) (inner : Slot → Text) : List Piece :=
  spaced (order.map fun slot => slot.piece (inner slot))

theorem written_pieces (order : List Slot) (inner : Slot → Text) :
    (pieces order inner).flatMap Piece.written = joinSpaced (order.map fun slot => slot.written (inner slot)) := by
  rw [pieces, written_spaced, List.map_map]
  exact congrArg joinSpaced (List.map_congr_left fun slot _ => slot.written_piece (inner slot))

theorem sound_pieces (h : Row s order inner)
    (hin : ∀ c hc, Slot.complex c hc ∈ order → Tidy (inner (.complex c hc))) :
    ∀ x ∈ pieces order inner, x.Sound ∧ x.isFragment := by
  intro x hx
  rcases mem_spaced hx with hx | hx
  · obtain ⟨slot, hslot, rfl⟩ := List.mem_map.1 hx
    cases slot with
    | simple c =>
      obtain ⟨n, hn⟩ := h.mem_iff.1 hslot
      obtain ⟨t, ht, -, hti⟩ := h.simple c n hn
      rw [hti]
      exact ⟨ht.content_sound c, trivial⟩
    | complex c hc => exact ⟨hin c hc hslot, rfl⟩
  · subst hx
    exact ⟨Gap.of_allBlank rfl, by simp [Piece.isFragment]; decide⟩

end Row

/-- A written statement is an operand. -/
theorem Statement.Arranged.atom {s : Statement} {x : Text} (hx : s.Arranged x) (hs : s.Plain) : Atom .braces x := by
  induction hx with
  | @intro s order inner hperm hsimple hcomplex ih =>
    have hrow := hs.row hperm hsimple hcomplex
    have hin : ∀ c hc, Slot.complex c hc ∈ order → Tidy (inner (.complex c hc)) := by
      intro c hc hmem
      obtain ⟨n, hn⟩ := hrow.mem_iff.1 hmem
      obtain ⟨t, rfl, ht, -⟩ := hrow.complex c hc n hn
      exact (ih c hc t hn ht).tidy
    have hsilent := written_silent (hrow.sound_pieces hin)
    rw [Row.written_pieces] at hsilent
    refine Framed.atom (framed_joinSpaced (by simpa using hrow.ne_nil hs) ?_) hsilent
    intro t ht
    obtain ⟨slot, -, rfl⟩ := List.mem_map.1 ht
    exact slot.framed_written _

namespace Row

variable {s : Statement} {order : List Slot} {inner : Slot → Text}

theorem atom (h : Row s order inner) {c : Component} {hc : c.nests = true} (hm : Slot.complex c hc ∈ order) :
    Atom .braces (inner (.complex c hc)) := by
  obtain ⟨n, hn⟩ := h.mem_iff.1 hm
  obtain ⟨t, -, ht, hx⟩ := h.complex c hc n hn
  exact hx.atom ht

theorem sound (h : Row s order inner) : ∀ x ∈ pieces order inner, x.Sound ∧ x.isFragment :=
  h.sound_pieces fun _ _ hm => (h.atom hm).tidy

end Row

/-! ## Blocks -/

/-- The blocks of the complex slots, in order. -/
inductive NestedBlocks (inner : Slot → Text) : List Slot → List Block → Prop
  | nil : NestedBlocks inner [] []
  | simple {c : Component} {order : List Slot} {bs : List Block} :
      NestedBlocks inner order bs → NestedBlocks inner (.simple c :: order) bs
  | complex {c : Component} {h : c.nests = true} {order : List Slot} {b : Block} {bs : List Block} {off : Nat} :
      b.content = .nested (c.headerAt off .braces) (inner (.complex c h)) → NestedBlocks inner order bs →
        NestedBlocks inner (.complex c h :: order) (b :: bs)

/-- An operand in braces behind a header is one nested statement. -/
theorem taggedContent_atom {x : Text} (hx : Atom .braces x) (limit : Nat) (header : Header)
    (hn : header.component.nests = true) :
    taggedContent limit header x (Piece.braced x) = .ok (.nested header x) := by
  have htree : combinationTree .braces limit (Piece.braced x) = .ok (.leaf (.text x) {} []) := by
    rw [Piece.braced, ← write_leaf .braces x]
    exact treeWithin_enclosed (.leaf hx) (Nat.succ_pos limit)
  unfold taggedContent taggedTree?
  rw [htree, hn]
  rfl

/-- The blocks of a slot, in front of those of other slots. -/
theorem blocks_piece (limit off : Nat) {inner : Slot → Text} {slot : Slot}
    (h : ∀ c hc, slot = .complex c hc → Atom .braces (inner (.complex c hc))) :
    ∃ bs, (slot.piece (inner slot)).blocks limit off = .ok bs ∧
      ∀ order later, NestedBlocks inner order later → NestedBlocks inner (slot :: order) (bs ++ later) := by
  cases slot with
  | simple c => exact ⟨[], rfl, fun order later hl => .simple hl⟩
  | complex c hc =>
    have hcontent := taggedContent_atom (h c hc rfl) limit (c.headerAt off .braces) hc
    let raw := (Piece.block (some c) (inner (.complex c hc))).written
    refine ⟨[⟨off, off + raw.size, raw, .nested (c.headerAt off .braces) (inner (.complex c hc))⟩], ?_, ?_⟩
    · simp only [Slot.piece, Piece.blocks, Piece.meaning, hcontent, ok_bind]
      rfl
    · intro order later hl
      exact .complex rfl hl

/-- The blocks of a row. -/
theorem Row.blocks {s : Statement} {order : List Slot} {inner : Slot → Text} (hrow : Row s order inner)
    (limit off : Nat) :
    ∃ bs, blocksOf limit off (Row.pieces order inner) = .ok bs ∧ NestedBlocks inner order bs := by
  have hatom : ∀ slot ∈ order, ∀ c hc, slot = .complex c hc → Atom .braces (inner (.complex c hc)) := by
    intro slot hslot c hc he
    exact hrow.atom (he ▸ hslot)
  have hspaced : ∀ (slots : List Slot) (off : Nat), (∀ slot ∈ slots, slot ∈ order) →
      ∃ bs, blocksOf limit off ((slots.map fun slot => slot.piece (inner slot)).flatMap fun y => [.gap [' '], y]) =
        .ok bs ∧ NestedBlocks inner slots bs := by
    intro slots
    induction slots with
    | nil => intro off _; exact ⟨[], rfl, .nil⟩
    | cons slot slots ih =>
      intro off hmem
      obtain ⟨bs, hbs, hcons⟩ := blocks_piece limit (off + 1) (hatom slot (hmem slot (by simp)))
      obtain ⟨later, hlater, hn⟩ := ih (off + 1 + (slot.piece (inner slot)).written.size)
        fun x hx => hmem x (by simp [hx])
      have hone : Text.size (Piece.gap [' ']).written = 1 := rfl
      refine ⟨bs ++ later, ?_, hcons _ _ hn⟩
      simp only [List.map_cons, List.flatMap_cons, List.cons_append, List.nil_append, blocksOf, hone, hbs, hlater,
        ok_bind]
      rfl
  unfold Row.pieces
  cases order with
  | nil => exact ⟨[], rfl, .nil⟩
  | cons slot slots =>
    obtain ⟨bs, hbs, hcons⟩ := blocks_piece limit off (hatom slot (by simp))
    obtain ⟨later, hlater, hn⟩ := hspaced slots (off + (slot.piece (inner slot)).written.size)
      fun x hx => by simp [hx]
    refine ⟨bs ++ later, ?_, hcons _ _ hn⟩
    simp only [List.map_cons, spaced, blocksOf, hbs, hlater, ok_bind]
    rfl

end InstitutionalGrammar
