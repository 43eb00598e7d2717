/-
  InstitutionalGrammar.Proofs.Layout.Partition — how blocks divide a balanced text.

  Blocks are found from left to right, and a block ends before the next one opens. What can still go wrong is a
  header: it is found from the brace of its block backwards, and an annotation in it can hold a block in front of
  that. Then the two overlap, and there is nothing between them to keep.
  - `behind_iff`: two blocks in a row overlap only so.
  - `blankOut_iff`: the blocks can be blanked out just if none of them overlaps another.
  - `outline_partitions`: all of the outline of a balanced text.
-/

import Mathlib.Data.List.Chain
import Mathlib.Data.List.Forall2
import InstitutionalGrammar.Proofs.Layout.Braces
import InstitutionalGrammar.Proofs.Layout.Gaps

namespace InstitutionalGrammar

variable {text : Text} {limit cursor i : Nat} {found : List (Nat × Nat)} {blocks : List Block} {x y : Nat × Nat}
  {a b : Block}

theorem forall₂_of_mapM {ε α β : Type} {f : α → Except ε β} {l : List α} {ys : List β} (h : l.mapM f = .ok ys) :
    List.Forall₂ (fun x y => f x = .ok y) l ys := by
  induction l generalizing ys with
  | nil =>
    cases h
    exact .nil
  | cons x l ih =>
    rw [List.mapM_cons] at h
    obtain ⟨y, hy, h⟩ := bind_eq_ok.1 h
    obtain ⟨ys, hys, hcons⟩ := bind_eq_ok.1 h
    cases hcons
    exact .cons hy (ih hys)

/-! ## Headers that reach back -/

/-- The header of a block starts before the closing brace of the block in front of it. -/
def ReachesBack (text : Text) (bounds : List (Nat × Nat)) : Prop :=
  ∃ i, ∃ h : i + 1 < bounds.length, ∃ header,
    Header.endingAt? text bounds[i + 1].1 = some header ∧ header.start < bounds[i].2

/-- A symbol starts a header, and so no brace does. -/
theorem Header.start_ne {header : Header} {left : Nat} (h : Header.endingAt? text left = some header)
    (hcloses : text.At i [endBrace]) : header.start ≠ i := by
  rintro rfl
  obtain ⟨p, hmem, -, hstart, -⟩ := Header.among?_shape h
  obtain ⟨-, b, -, -, hread⟩ := PlacedShape.read?_of_mem_allFrom hmem
  obtain ⟨-, -, ⟨hne, hbase⟩, -⟩ := read?_parts hread
  have hpos : Text.size p.shape.base ≠ 0 := fun h => hne (Text.size_eq_zero.1 h)
  have hat : text.At p.start p.shape.base := (PlacedShape.written_at hmem).left.left.left
  have hin := hat.mem hcloses (by omega) (by omega)
  exact absurd (List.all_eq_true.1 hbase _ hin) (by decide)

/-- A block starts and ends between characters, and it starts at its brace at the latest. -/
theorem blockAt_cuts (hx : Braces text x) (ha : blockAt limit text (PlacedShape.all text) x = .ok a) :
    text.Cut a.start ∧ text.Cut a.stop ∧ a.start ≤ x.1 := by
  obtain ⟨left, right⟩ := x
  obtain ⟨hstart, hstop⟩ := blockAt_bounds ha
  have hcut := cut_closing hx.closes
  rw [hstart, hstop]
  cases hheader : Header.among? (PlacedShape.all text) left with
  | none => exact ⟨hx.opens.cut, hcut, Nat.le_refl _⟩
  | some header =>
    obtain ⟨hstands, hat⟩ := Header.among?_stands hheader
    exact ⟨hstands.start, hcut, hat ▸ hstands.before⟩

/-- A block starts behind the block in front of it unless its header reaches back. -/
theorem behind_iff (hx : Braces text x) (ha : blockAt limit text (PlacedShape.all text) x = .ok a)
    (hb : blockAt limit text (PlacedShape.all text) y = .ok b) (hxy : x.2 < y.1) : a.stop ≤ b.start ↔
      ¬ ∃ header, Header.endingAt? text y.1 = some header ∧ header.start < x.2 := by
  obtain ⟨hstart, -⟩ := blockAt_bounds hb
  obtain ⟨-, hstop⟩ := blockAt_bounds ha
  rw [hstart, hstop]
  cases hheader : Header.endingAt? text y.1 with
  | none =>
    rw [show Header.among? (PlacedShape.all text) y.1 = none from hheader, Option.map_none, Option.getD_none]
    exact iff_of_true hxy (by simp)
  | some header =>
    have hne := Header.start_ne hheader hx.closes
    rw [show Header.among? (PlacedShape.all text) y.1 = some header from hheader, Option.map_some, Option.getD_some]
    simp only [Option.some.injEq, exists_eq_left', not_lt]
    omega

/-- The blocks stand one behind another if no header reaches back. -/
theorem isChain_iff (hfound : BracesFrom text 0 none found)
    (hblocks : found.mapM (blockAt limit text (PlacedShape.all text)) = .ok blocks) :
    blocks.IsChain (fun a b => a.stop ≤ b.start) ↔ ¬ ReachesBack text found := by
  obtain ⟨hlength, hall⟩ := List.forall₂_iff_get.1 (forall₂_of_mapM hblocks)
  have hpair : ∀ i (h : i + 1 < found.length) (h' : i + 1 < blocks.length), blocks[i].stop ≤ blocks[i + 1].start ↔
      ¬ ∃ header, Header.endingAt? text found[i + 1].1 = some header ∧ header.start < found[i].2 := by
    intro i h h'
    exact behind_iff (hfound.braces _ (List.getElem_mem _)).1 (hall i (by omega) (by omega)) (hall (i + 1) h h')
      (List.pairwise_iff_getElem.1 hfound.order i (i + 1) (by omega) h (by omega))
  rw [List.isChain_iff_getElem]
  unfold ReachesBack
  constructor
  · rintro hchain ⟨i, h, hheader⟩
    exact (hpair i h (hlength ▸ h)).1 (hchain i (hlength ▸ h)) hheader
  · intro hreach i h
    exact (hpair i (hlength ▸ h) h).2 fun hheader => hreach ⟨i, hlength ▸ h, hheader⟩

/-! ## Blanking out -/

theorem exists_blankOut (hcursor : text.Cut cursor) (hcuts : ∀ b ∈ blocks, text.Cut b.start ∧ text.Cut b.stop)
    (hfirst : ∀ b ∈ blocks.head?, cursor ≤ b.start) (hchain : blocks.IsChain fun a b => a.stop ≤ b.start) :
    ∃ atomic, blankOut text cursor blocks = .ok atomic := by
  induction blocks generalizing cursor with
  | nil => exact Text.exists_slice hcursor (Text.Cut.all text) hcursor.le
  | cons b blocks ih =>
    obtain ⟨⟨hstart, hstop⟩, hcuts⟩ := List.forall_mem_cons.1 hcuts
    obtain ⟨hnext, hchain⟩ := List.isChain_cons.1 hchain
    obtain ⟨before, hbefore⟩ := Text.exists_slice hcursor hstart (hfirst b rfl)
    obtain ⟨rest, hrest⟩ := ih hstop hcuts hnext hchain
    exact ⟨_, by rw [blankOut, hbefore, ok_bind, hrest]; rfl⟩

theorem blocks_cuts (hblocks : (braceBounds 0 0 none (tokens text)).mapM (blockAt limit text (PlacedShape.all text)) =
    .ok blocks) : ∀ b ∈ blocks, text.Cut b.start ∧ text.Cut b.stop ∧ b.start < b.stop := by
  refine (Meets.mapM (E := fun _ => True) (Q := fun b : Block => text.Cut b.start ∧ text.Cut b.stop ∧ b.start < b.stop)
    fun x hx => ?_).value hblocks
  have hbraces := ((braceBounds_tokens text).braces x hx).1
  cases hb : blockAt limit text (PlacedShape.all text) x with
  | error e => trivial
  | ok b =>
    obtain ⟨hstart, hstop, hle⟩ := blockAt_cuts hbraces hb
    have hinside := hbraces.inside
    have hright := (blockAt_bounds hb).2
    exact ⟨hstart, hstop, by omega⟩

/-- The outline of a text whose blocks can be told. -/
theorem outline_eq (hblocks : (braceBounds 0 0 none (tokens text)).mapM (blockAt limit text (PlacedShape.all text)) =
    .ok blocks) : Outline.of limit text = (blankOut text 0 blocks).map fun atomic => ⟨atomic, blocks⟩ := by
  unfold Outline.of
  simp only [hblocks, ok_bind]
  cases blankOut text 0 blocks <;> rfl

theorem blankOut_iff (hblocks : (braceBounds 0 0 none (tokens text)).mapM (blockAt limit text (PlacedShape.all text)) =
    .ok blocks) :
    (∃ atomic, blankOut text 0 blocks = .ok atomic) ↔ ¬ ReachesBack text (braceBounds 0 0 none (tokens text)) := by
  have hcuts := blocks_cuts hblocks
  rw [← isChain_iff (braceBounds_tokens text) hblocks]
  constructor
  · rintro ⟨atomic, hatomic⟩
    obtain ⟨a, t, -, -, hblanked⟩ := blankOut_blanked (fun b hb => (hcuts b hb).2.2.le) hatomic
    exact hblanked.order.2.isChain
  · intro hchain
    exact exists_blankOut (Text.Cut.zero text) (fun b hb => ⟨(hcuts b hb).1, (hcuts b hb).2.1⟩) (fun _ _ => Nat.zero_le _)
      hchain

/-! ## The outline -/

/-- A block between two braces: it starts with the header in front of the opening one, or with that brace if there is
    none, and it ends behind the closing one, where the count of braces from the opening one on first returns to
    zero. -/
structure Block.Stands (text : Text) (bounds : Nat × Nat) (b : Block) : Prop where
  start : b.start = ((Header.endingAt? text bounds.1).map Header.start).getD bounds.1
  stop : b.stop = bounds.2 + 1
  closes : ∃ inner : Text, text.At bounds.1 (brace :: (inner ++ [endBrace])) ∧ Balanced .braces inner ∧
    bounds.2 = bounds.1 + 1 + inner.size

theorem Block.stands (hbalanced : Balanced .braces text) (hx : x ∈ braceBounds 0 0 none (tokens text))
    (ha : blockAt limit text (PlacedShape.all text) x = .ok a) : a.Stands text x := by
  obtain ⟨hstart, hstop⟩ := blockAt_bounds ha
  obtain ⟨u, inner, v, htext, -, hinner, hleft, hright⟩ := (bounds_iff hbalanced).1 hx
  refine ⟨hstart, hstop, inner, ⟨u, v, ?_, hleft.symm⟩, hinner, hright⟩
  rw [htext]
  simp

/-- The blocks of an outline divide the text, and the atomic text has spaces in their place. -/
structure Outline.Divides (outline : Outline) (text : Text) : Prop where
  stands : List.Forall₂ (fun bounds b => Block.Stands text bounds b) (braceBounds 0 0 none (tokens text)) outline.blocks
  nonempty : ∀ b ∈ outline.blocks, b.start < b.stop
  order : outline.blocks.Pairwise fun a b => a.stop ≤ b.start
  /-- A block that opens is closed: one stands wherever a brace opens outside all parentheses and blocks. -/
  closed : ∀ left, (∃ right, (left, right) ∈ braceBounds 0 0 none (tokens text)) ↔
    ∃ a t, text = a ++ brace :: t ∧ a.size = left ∧ openIn a = (0, 0)
  size_eq : outline.atomic.size = text.size
  outside : ∀ i part, (∀ b ∈ outline.blocks, i + Text.size part ≤ b.start ∨ b.stop ≤ i) →
    (text.At i part ↔ outline.atomic.At i part)
  inside : ∀ b ∈ outline.blocks, outline.atomic.At b.start (List.replicate (b.stop - b.start) ' ')

/-- Blanking out the blocks of a balanced text divides it. -/
theorem blankOut_divides {atomic : Text} (hbalanced : Balanced .braces text)
    (hblocks : (braceBounds 0 0 none (tokens text)).mapM (blockAt limit text (PlacedShape.all text)) = .ok blocks)
    (hatomic : blankOut text 0 blocks = .ok atomic) : Outline.Divides ⟨atomic, blocks⟩ text := by
  have hnonempty : ∀ b ∈ blocks, b.start < b.stop := fun b hb => (blocks_cuts hblocks b hb).2.2
  obtain ⟨a, t, htext, hsize, hblanked⟩ := blankOut_blanked (fun b hb => (hnonempty b hb).le) hatomic
  obtain rfl : a = [] := Text.size_eq_zero.1 hsize
  obtain rfl : text = t := htext
  constructor
  case stands =>
    have hstands := (List.forall₂_and_left _ _).2 ⟨fun _ hx => hx, forall₂_of_mapM hblocks⟩
    exact hstands.imp fun x b h => Block.stands hbalanced h.1 h.2
  case nonempty => exact hnonempty
  case order => exact hblanked.order.2
  case closed =>
    intro left
    constructor
    · rintro ⟨right, hmem⟩
      obtain ⟨a, x, b, ht, hopen, -, rfl, -⟩ := (bounds_iff hbalanced).1 hmem
      exact ⟨a, _, ht, rfl, hopen⟩
    · rintro ⟨a, t, rfl, rfl, hopen⟩
      obtain ⟨x, s, rfl, hx⟩ := hbalanced.falling.behind.closes
      exact ⟨_, (bounds_iff hbalanced).2 ⟨a, x, s, rfl, hopen, hx, rfl, rfl⟩⟩
  case size_eq => exact hblanked.size_eq
  case outside =>
    intro i part hout
    exact hblanked.at_iff fun b hb => by rw [Nat.zero_add]; exact hout b hb
  case inside =>
    intro b hb
    obtain ⟨i, hi, hat⟩ := hblanked.spaces_at b hb
    rw [Nat.zero_add] at hi
    subst hi
    exact hat

/-- The blocks of a balanced text, if all of them can be told, are blanked out unless the header of one starts before
    the closing brace of the one in front of it. -/
theorem outline_partitions (hbalanced : requireBalanced text = .ok ())
    (hblocks : (braceBounds 0 0 none (tokens text)).mapM (blockAt limit text (PlacedShape.all text)) = .ok blocks) :
    (Outline.of limit text = .error .misplacedCut ↔ ReachesBack text (braceBounds 0 0 none (tokens text))) ∧
    (¬ ReachesBack text (braceBounds 0 0 none (tokens text)) →
      ∃ outline, Outline.of limit text = .ok outline ∧ outline.blocks = blocks ∧ outline.Divides text) := by
  have hblanks := blankOut_iff hblocks
  rw [outline_eq hblocks]
  constructor
  · rw [← not_iff_not, ← hblanks]
    cases hatomic : blankOut text 0 blocks with
    | ok atomic => exact iff_of_true nofun ⟨atomic, rfl⟩
    | error e =>
      obtain rfl := (blankOut_meets (E := (· = .misplacedCut)) rfl text 0 blocks).failure hatomic
      exact iff_of_false (fun h => h rfl) nofun
  · intro hreach
    obtain ⟨atomic, hatomic⟩ := hblanks.2 hreach
    exact ⟨⟨atomic, blocks⟩, by rw [hatomic]; rfl, rfl,
      blankOut_divides (requireBalanced_iff.1 hbalanced .braces) hblocks hatomic⟩

/-- A nested statement with braces in its annotation. -/
def bracedAnnotation : Text := "A(x) Cac[\x7bsee\x7d]\x7bI(y)\x7d".toList

/-- The braces of the annotation are a block of their own, and the header starts in front of it. -/
theorem bracedAnnotation_reachesBack :
    ReachesBack bracedAnnotation (braceBounds 0 0 none (tokens bracedAnnotation)) := by
  have hany : (Header.endingAt? bracedAnnotation 15).any (decide <| Header.start · < 13) = true := by decide +kernel
  obtain ⟨header, hheader, hstart⟩ := (Option.any_eq_true _ _).1 hany
  exact ⟨0, by decide, header, hheader, of_decide_eq_true hstart⟩

/-- Two nested statements. A parenthesis opens in the first one and closes behind it. -/
def crossedBlocks : Text := "Cac\x7bI(z\x7d Bdir(w)) Cex\x7bD(y)\x7d".toList

theorem outline_partitions_crossedBlocks : Outline.of 8 bracedAnnotation = .error .misplacedCut ∧
    ∃ outline, Outline.of 8 crossedBlocks = .ok outline ∧ outline.Divides crossedBlocks ∧ outline.blocks.length = 2 := by
  constructor
  · have hbalanced : requireBalanced bracedAnnotation = .ok () := by decide
    obtain ⟨blocks, hblocks, -⟩ := exists_ok (x := (braceBounds 0 0 none (tokens bracedAnnotation)).mapM
      (blockAt 8 bracedAnnotation (PlacedShape.all bracedAnnotation))) (p := fun _ => true) (by decide +kernel)
    exact (outline_partitions hbalanced hblocks).1.2 bracedAnnotation_reachesBack
  · have hbalanced : requireBalanced crossedBlocks = .ok () := by decide
    obtain ⟨blocks, hblocks, hcount⟩ := exists_ok (x := (braceBounds 0 0 none (tokens crossedBlocks)).mapM
      (blockAt 8 crossedBlocks (PlacedShape.all crossedBlocks))) (p := (·.length == 2)) (by decide +kernel)
    obtain ⟨hreaches, hpartition⟩ := outline_partitions hbalanced hblocks
    have hok : (Outline.of 8 crossedBlocks).toOption.isSome = true := by decide +kernel
    have hreach : ¬ ReachesBack crossedBlocks (braceBounds 0 0 none (tokens crossedBlocks)) := by
      intro h
      rw [hreaches.2 h] at hok
      cases hok
    obtain ⟨outline, hof, rfl, hdivides⟩ := hpartition hreach
    exact ⟨outline, hof, hdivides, by simpa using hcount⟩

end InstitutionalGrammar
