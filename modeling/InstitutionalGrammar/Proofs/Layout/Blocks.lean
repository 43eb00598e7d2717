/-
  InstitutionalGrammar.Proofs.Layout.Blocks — the outline of a text written in pieces.

  - `outline_pieces`: the blocks of the outline are the blocks among the pieces, in order, and its
    atomic text is the pieces with spaces in place of the blocks.
-/

import InstitutionalGrammar.Proofs.Layout.Pieces
import InstitutionalGrammar.Proofs.Outcome

namespace InstitutionalGrammar

namespace Piece

/-- The text of a block with its braces. -/
def braced (inner : Text) : Text := Delimiters.braces.opening :: (inner ++ [Delimiters.braces.closing])

/-- The offsets of the braces, if the piece is a block; it stands at byte `off`. -/
def bounds (off : Nat) : Piece → List (Nat × Nat)
  | block tag inner => [(off + (tagText tag).size, off + (tagText tag).size + 1 + inner.size)]
  | _ => []

/-- What a block stands for. -/
def meaning (limit off : Nat) (tag : Option Component) (inner : Text) : Outcome BlockContent :=
  match tag with
  | some c => taggedContent limit (c.headerAt off .braces) inner (braced inner)
  | none => untaggedContent limit inner (braced inner)

/-- The block that the piece is, if it is one. -/
def blocks (limit off : Nat) : Piece → Outcome (List Block)
  | block tag inner => do
    let content ← meaning limit off tag inner
    return [⟨off, off + (block tag inner).written.size, (block tag inner).written, content⟩]
  | _ => return []

/-- Spaces in place of a block. -/
def blank : Piece → Piece
  | block tag inner => gap (List.replicate (block tag inner).written.size ' ')
  | x => x

end Piece

/-- The offsets of the braces of all blocks, when the first piece stands at byte `off`. -/
def braceOffsets (off : Nat) : List Piece → List (Nat × Nat)
  | [] => []
  | x :: ps => x.bounds off ++ braceOffsets (off + x.written.size) ps

/-- The blocks among the pieces. -/
def blocksOf (limit off : Nat) : List Piece → Outcome (List Block)
  | [] => return []
  | x :: ps => do
    let bs ← x.blocks limit off
    return bs ++ (← blocksOf limit (off + x.written.size) ps)

/-! ## Braces -/

theorem braceBounds_gap {t : Text} (ht : Gap t) (p : Position) (ts : List Token) :
    braceBounds 0 0 none (signs p t ++ ts) = braceBounds 0 0 none ts := by
  obtain ⟨htidy, -, -, hbare⟩ := ht
  induction htidy generalizing p ts with
  | nil => rfl
  | char hc _ ih => rw [signs_char hc, ih _ _ fun e he => hbare e (by simp [he])]
  | operator ho _ ih =>
    rw [signs_operator ho, List.cons_append]
    exact ih _ _ fun e he => hbare e (by simp [he])
  | @enclosed d a t _ _ _ _ =>
    have := (hbare d.opening (by simp)).1
    cases d <;> exact absurd this (by decide)

/-- The parentheses of a content hide its braces. -/
theorem braceBounds_content {x : Text} (hx : Tidy x) (k : Nat) (p : Position) (ts : List Token) :
    braceBounds (k + 1) 0 none (signs p x ++ ts) = braceBounds (k + 1) 0 none ts := by
  refine hx.scan_signs (fun d => d = .parentheses) (f := fun k ts => braceBounds (k + 1) 0 none ts) ?_ ?_ ?_ k p ts
  · intro k t ts d ht hd
    obtain rfl := of_decide_eq_true hd
    simp [braceBounds, ht]
  · intro k t ts d ht hd
    obtain rfl := of_decide_eq_true hd
    simp [braceBounds, ht]
  · intro k t ts ht
    have h := ht .parentheses rfl
    obtain ⟨l, q, stop⟩ := t
    cases l with
    | opening e => cases e <;> simp_all [braceBounds]
    | closing e => cases e <;> simp_all [braceBounds]
    | operator o => simp [braceBounds]
    | text v => simp [braceBounds]

/-- Inside a block only its own end counts. -/
theorem braceBounds_block {x : Text} (hx : Tidy x) (k : Nat) (opened : Option Nat) (p : Position) (ts : List Token) :
    braceBounds 0 (k + 1) opened (signs p x ++ ts) = braceBounds 0 (k + 1) opened ts := by
  refine hx.scan_signs (fun d => d = .braces) (f := fun k ts => braceBounds 0 (k + 1) opened ts) ?_ ?_ ?_ k p ts
  · intro k t ts d ht hd
    obtain rfl := of_decide_eq_true hd
    simp [braceBounds, ht]
  · intro k t ts d ht hd
    obtain rfl := of_decide_eq_true hd
    simp [braceBounds, ht]
  · intro k t ts ht
    have h := ht .braces rfl
    obtain ⟨l, q, stop⟩ := t
    cases l with
    | opening e => cases e <;> simp_all [braceBounds]
    | closing e => cases e <;> simp_all [braceBounds]
    | operator o => simp [braceBounds]
    | text v => simp [braceBounds]

theorem braceBounds_piece {x : Piece} (hx : x.Sound) (p : Position) (ts : List Token) :
    braceBounds 0 0 none (signs p x.written ++ ts) = x.bounds p.offset ++ braceBounds 0 0 none ts := by
  cases x with
  | gap t => exact braceBounds_gap hx p ts
  | content c inner =>
    obtain ⟨p₁, p₂, p₃, hs, -⟩ := signs_enclosed c.symbol_plain hx.1 .parentheses p
    have hopen : ∀ ts, braceBounds 0 0 none (⟨.opening .parentheses, p₁, p₁.offset + 1⟩ :: ts) =
        braceBounds 1 0 none ts := fun _ => rfl
    have hclose : ∀ ts, braceBounds 1 0 none (⟨.closing .parentheses, p₃, p₃.offset + 1⟩ :: ts) =
        braceBounds 0 0 none ts := fun _ => rfl
    rw [Piece.written, hs, List.cons_append, hopen, List.append_assoc, braceBounds_content hx.1, List.cons_append,
      hclose]
    rfl
  | block tag inner =>
    obtain ⟨p₁, p₂, p₃, hs, hp₁, hp₃⟩ := signs_enclosed (tagText_plain tag) hx .braces p
    have hopen : ∀ ts, braceBounds 0 0 none (⟨.opening .braces, p₁, p₁.offset + 1⟩ :: ts) =
        braceBounds 0 1 (some p₁.offset) ts := fun _ => rfl
    have hclose : ∀ ts, braceBounds 0 1 (some p₁.offset) (⟨.closing .braces, p₃, p₃.offset + 1⟩ :: ts) =
        (p₁.offset, p₃.offset) :: braceBounds 0 0 none ts := fun _ => rfl
    rw [Piece.written, hs, List.cons_append, hopen, List.append_assoc, braceBounds_block hx, List.cons_append, hclose,
      hp₃, hp₁]
    rfl

theorem braceBounds_pieces {ps : List Piece} (h : ∀ x ∈ ps, x.Sound) (p : Position) :
    braceBounds 0 0 none (signs p (ps.flatMap Piece.written)) = braceOffsets p.offset ps := by
  induction ps generalizing p with
  | nil => rfl
  | cons x ps ih =>
    have hps := ih (fun y hy => h y (by simp [hy])) (p.past x.written)
    rw [Position.offset_past] at hps
    rw [List.flatMap_cons, (h x (by simp)).tidy.signs_append, braceBounds_piece (h x (by simp)), hps, braceOffsets]

/-! ## Blocks -/

/-- The block between two braces is the piece that they belong to. -/
theorem mapM_blockAt_piece {x : Piece} (hx : x.Sound) {u : Text} (hu : Clear u) (v : Text) (limit : Nat) :
    (x.bounds u.size).mapM (blockAt limit (u ++ (x.written ++ v)) (PlacedShape.all (u ++ (x.written ++ v)))) =
      x.blocks limit u.size := by
  cases x with
  | gap t => rfl
  | content c inner => rfl
  | block tag inner =>
    have hinner : Text.slice (u ++ ((Piece.block tag inner).written ++ v)) (u.size + (tagText tag).size + 1)
        (u.size + (tagText tag).size + 1 + inner.size) = .ok inner :=
      Text.slice_parts (a := u ++ (tagText tag ++ [Delimiters.braces.opening]))
        (c := Delimiters.braces.closing :: v) (by simp [Piece.written]) (by simp; omega) (by simp; omega)
    have hbraced : Text.slice (u ++ ((Piece.block tag inner).written ++ v)) (u.size + (tagText tag).size)
        (u.size + (tagText tag).size + 1 + inner.size + 1) = .ok (Piece.braced inner) :=
      Text.slice_parts (a := u ++ tagText tag) (c := v) (by simp [Piece.written, Piece.braced]) (by simp)
        (by simp [Piece.braced]; omega)
    have hraw : Text.slice (u ++ ((Piece.block tag inner).written ++ v)) u.size
        (u.size + (tagText tag).size + 1 + inner.size + 1) = .ok (Piece.block tag inner).written :=
      Text.slice_parts (a := u) (c := v) (by simp) rfl (by simp [Piece.written]; omega)
    have hsize : u.size + (tagText tag).size + 1 + inner.size + 1 = u.size + (Piece.block tag inner).written.size := by
      simp [Piece.written]; omega
    simp only [Piece.bounds, Piece.blocks, List.mapM_cons, List.mapM_nil, blockAt, hinner, ok_bind, pure_eq_ok]
    cases tag with
    | none =>
      have hnone := Header.among?_clear hu .braces (inner ++ [Delimiters.braces.closing] ++ v)
      have hwritten : (Piece.block none inner).written = Piece.braced inner := rfl
      simp only [tagText, Option.map_none, Option.getD_none, Text.size_nil, Nat.add_zero] at hraw hsize ⊢
      have htext : u ++ ((Piece.block none inner).written ++ v) =
          u ++ Delimiters.braces.opening :: (inner ++ [Delimiters.braces.closing] ++ v) := by
        simp [Piece.written, tagText]
      rw [htext, hsize] at hraw
      rw [htext]
      simp only [hnone, hsize, hraw, ok_bind, Piece.meaning]
      rw [hwritten]
      cases untaggedContent limit inner (Piece.braced inner) <;> rfl
    | some c =>
      have hsome := Header.among?_symbol hu c .braces (inner ++ [Delimiters.braces.closing] ++ v)
      have htext : u ++ ((Piece.block (some c) inner).written ++ v) =
          u ++ (c.symbol ++ Delimiters.braces.opening :: (inner ++ [Delimiters.braces.closing] ++ v)) := by
        simp [Piece.written, tagText]
      have htag : tagText (some c) = c.symbol := rfl
      rw [htag] at hraw hbraced hsize ⊢
      rw [htext, hsize] at hraw hbraced
      rw [htext]
      have hstart : (c.headerAt u.size .braces).start = u.size := rfl
      simp only [hsome, hstart, hsize, hraw, hbraced, ok_bind, Piece.meaning]
      cases taggedContent limit (c.headerAt u.size .braces) inner (Piece.braced inner) <;> rfl

theorem mapM_blockAt_pieces {ps : List Piece} (h : ∀ x ∈ ps, x.Sound) {u : Text} (hu : Clear u) (text : Text)
    (ht : text = u ++ ps.flatMap Piece.written) (limit : Nat) :
    (braceOffsets u.size ps).mapM (blockAt limit text (PlacedShape.all text)) = blocksOf limit u.size ps := by
  induction ps generalizing u with
  | nil => rfl
  | cons x ps ih =>
    have hx := h x (by simp)
    have hps := ih (fun y hy => h y (by simp [hy])) (hu.append hx.clear) (by rw [ht]; simp)
    rw [Text.size_append] at hps
    have hhead := mapM_blockAt_piece hx hu (ps.flatMap Piece.written) limit
    rw [List.flatMap_cons] at ht
    rw [← ht] at hhead
    rw [braceOffsets, List.mapM_append, hhead, hps, blocksOf]

theorem blocksOf_append (limit off : Nat) (ps qs : List Piece) :
    blocksOf limit off (ps ++ qs) = do
      let bs ← blocksOf limit off ps
      return bs ++ (← blocksOf limit (off + Text.size (ps.flatMap Piece.written)) qs) := by
  induction ps generalizing off with
  | nil =>
    simp only [blocksOf, List.nil_append, List.flatMap_nil, Text.size_nil, Nat.add_zero, pure_eq_ok, ok_bind]
    cases blocksOf limit off qs <;> rfl
  | cons x ps ih =>
    simp only [List.cons_append, blocksOf, ih, List.flatMap_cons, Text.size_append, Nat.add_assoc]
    cases x.blocks limit off with
    | error e => rfl
    | ok bx =>
      cases blocksOf limit (off + x.written.size) ps with
      | error e => rfl
      | ok bs => cases blocksOf limit (off + (x.written.size + Text.size (ps.flatMap Piece.written))) qs <;> simp

/-! ## The atomic text -/

/-- The text from the end of one block on: `w` and the pieces, with spaces in place of the blocks. -/
theorem blankOut_pieces {ps : List Piece} {limit : Nat} {a w text : Text} {bs : List Block}
    (ht : text = a ++ (w ++ ps.flatMap Piece.written)) (hbs : blocksOf limit (a.size + w.size) ps = .ok bs) :
    blankOut text a.size bs = .ok (w ++ (ps.map Piece.blank).flatMap Piece.written) := by
  induction ps generalizing a w bs with
  | nil =>
    cases hbs
    rw [blankOut]
    exact Text.slice_parts (a := a) (c := []) (by rw [ht]; simp) rfl (by rw [ht]; simp)
  | cons x ps ih =>
    obtain ⟨bx, hbx, hrest⟩ := bind_eq_ok.1 hbs
    obtain ⟨later, hlater, hcat⟩ := bind_eq_ok.1 hrest
    cases hcat
    cases x with
    | block tag inner =>
      obtain ⟨content, -, hcontent⟩ := bind_eq_ok.1 hbx
      cases hcontent
      have hstep := ih (a := a ++ (w ++ (Piece.block tag inner).written)) (w := []) (by rw [ht]; simp)
        (by simpa [Nat.add_assoc] using hlater)
      have hcut : text.slice a.size (a.size + w.size) = .ok w :=
        Text.slice_parts (a := a) (c := (Piece.block tag inner).written ++ ps.flatMap Piece.written)
          (by rw [ht]; simp) rfl rfl
      have hat : a.size + w.size + (Piece.block tag inner).written.size =
          Text.size (a ++ (w ++ (Piece.block tag inner).written)) := by simp; omega
      simp only [List.singleton_append, blankOut, hcut, ok_bind, Nat.add_sub_cancel_left]
      rw [hat, hstep]
      simp [Piece.blank, Piece.written]
    | gap t =>
      cases hbx
      have hstep := ih (a := a) (w := w ++ t) (by rw [ht]; simp [Piece.written])
        (by simpa [Piece.written, Nat.add_assoc] using hlater)
      simpa [Piece.blank, Piece.written] using hstep
    | content c inner =>
      cases hbx
      have hstep := ih (a := a) (w := w ++ (Piece.content c inner).written) (by rw [ht]; simp)
        (by simpa [Nat.add_assoc] using hlater)
      simpa [Piece.blank] using hstep

/-- The outline of a text written in pieces. -/
theorem outline_pieces {ps : List Piece} (h : ∀ x ∈ ps, x.Sound) {limit : Nat} {bs : List Block}
    (hbs : blocksOf limit 0 ps = .ok bs) :
    Outline.of limit (ps.flatMap Piece.written) = .ok ⟨(ps.map Piece.blank).flatMap Piece.written, bs⟩ := by
  have hbounds : braceBounds 0 0 none (tokens (ps.flatMap Piece.written)) = braceOffsets 0 ps := by
    rw [← braceBounds_signs]
    exact braceBounds_pieces h .start
  have hmap := mapM_blockAt_pieces h Clear.nil (ps.flatMap Piece.written) rfl limit
  rw [Text.size_nil, hbs] at hmap
  have hblank := blankOut_pieces (a := []) (w := []) rfl hbs
  unfold Outline.of
  rw [hbounds]
  simp only [hmap, ok_bind, Text.size_nil, List.nil_append] at hblank ⊢
  rw [hblank]
  rfl

end InstitutionalGrammar
