/-
  InstitutionalGrammar.Proofs.Layout.Braces — the blocks of any text, and what they hold.

  The braces of a block stand where the scan says, and what is read inside a block is a piece of the
  text or is put together from pieces that stand apart in it. So it weighs no more than the text, and
  has fewer operators or is shorter.
  - `braceBounds_at`: where the braces of the blocks stand.
  - `blockAt_smaller`: the texts that a block has read as statements.
  - `blankOut_blanked`: the atomic text is the text with spaces in place of the blocks.
-/

import InstitutionalGrammar.Proofs.Combination.Drawn
import InstitutionalGrammar.Proofs.Reading.Stages

namespace InstitutionalGrammar

variable {E : Failure → Prop} {text : Text} {i limit : Nat}

/-! ## Braces -/

/-- An opening and a closing brace behind it. -/
structure Braces (text : Text) (bounds : Nat × Nat) : Prop where
  opens : text.At bounds.1 [Delimiters.braces.opening]
  closes : text.At bounds.2 [Delimiters.braces.closing]
  inside : bounds.1 + 1 ≤ bounds.2

/-- The blocks found from byte `i` on stand one behind another; the first of them may have opened before. -/
structure BracesFrom (text : Text) (i : Nat) (opened : Option Nat) (found : List (Nat × Nat)) : Prop where
  braces : ∀ x ∈ found, Braces text x ∧ (x.1 ∈ opened ∨ i ≤ x.1)
  order : found.Pairwise fun earlier later => earlier.2 < later.1

theorem BracesFrom.mono {j : Nat} {opened : Option Nat} {found : List (Nat × Nat)} (h : BracesFrom text j opened found)
    (hij : i ≤ j) : BracesFrom text i opened found where
  braces := fun x hx => ⟨(h.braces x hx).1, (h.braces x hx).2.imp_right (Nat.le_trans hij)⟩
  order := h.order

/-- A block opens at the byte. -/
theorem BracesFrom.opening {opened : Option Nat} {found : List (Nat × Nat)} (h : BracesFrom text (i + 1) (some i) found) :
    BracesFrom text i opened found where
  braces := by
    intro x hx
    refine ⟨(h.braces x hx).1, Or.inr ?_⟩
    rcases (h.braces x hx).2 with hfirst | hlater
    · exact (Option.some.inj hfirst).le
    · exact Nat.le_of_succ_le hlater
  order := h.order

/-- A block that opened before closes at the byte. -/
theorem BracesFrom.closing {left : Nat} {found : List (Nat × Nat)} (h : BracesFrom text (i + 1) none found)
    (hblock : Braces text (left, i)) : BracesFrom text i (some left) ((left, i) :: found) where
  braces := by
    intro x hx
    rcases List.mem_cons.1 hx with rfl | hx
    · exact ⟨hblock, Or.inl rfl⟩
    · exact ⟨(h.braces x hx).1, Or.inr (Nat.le_of_succ_le ((h.braces x hx).2.resolve_left nofun))⟩
  order := List.pairwise_cons.2 ⟨fun x hx => (h.braces x hx).2.resolve_left nofun, h.order⟩

theorem braceBounds_at {ts : List Token} (hts : Tiled text i ts) (parens braces : Nat) {opened : Option Nat}
    (hopened : ∀ left ∈ opened, text.At left [Delimiters.braces.opening] ∧ left + 1 ≤ i) :
    BracesFrom text i opened (braceBounds parens braces opened ts) := by
  induction ts generalizing i parens braces opened with
  | nil => exact ⟨nofun, .nil⟩
  | cons t ts ih =>
    obtain ⟨hstart, hstands, hstop, hrest⟩ := hts
    have hle : i ≤ t.stop := by omega
    have hskip : ∀ parens braces, BracesFrom text i opened (braceBounds parens braces opened ts) := by
      intro parens braces
      refine (ih hrest parens braces fun left hleft => ?_).mono hle
      exact ⟨(hopened left hleft).1, Nat.le_trans (hopened left hleft).2 hle⟩
    rw [braceBounds]
    split
    · exact hskip _ _
    · exact hskip _ _
    · rename_i hlexeme
      rw [hlexeme, Lexeme.written] at hstands hstop
      rw [size_opening] at hstop
      split
      · by_cases hzero : braces = 0
        · rw [if_pos hzero, hstart]
          rw [hstop] at hrest
          refine (ih hrest parens (braces + 1) ?_).opening
          rintro left ⟨⟩
          exact ⟨hstands, Nat.le_refl _⟩
        · rw [if_neg hzero]
          exact hskip _ _
      · exact hskip _ _
    · rename_i hlexeme
      rw [hlexeme, Lexeme.written] at hstands hstop
      rw [size_closing] at hstop
      split
      · split
        · rw [hstop] at hrest
          have hnone : BracesFrom text (i + 1) none (braceBounds parens 0 none ts) := by
            apply ih hrest parens 0
            intro left hleft
            cases hleft
          cases opened with
          | none => exact hnone.mono (Nat.le_succ i)
          | some left =>
            obtain ⟨hopens, hbefore⟩ := hopened left rfl
            rw [hstart]
            exact hnone.closing ⟨hopens, hstands, hbefore⟩
        · exact hskip _ _
      · exact hskip _ _
    · exact hskip _ _

theorem braceBounds_tokens (text : Text) : BracesFrom text 0 none (braceBounds 0 0 none (tokens text)) :=
  braceBounds_at (tokens_tiled text) 0 0 fun _ hleft => nomatch hleft

/-! ## What blocks hold -/

namespace Node

variable {n leaf : Node} {w : Text → Nat} {unit : Nat}

/-- A leaf stands at the end of one way down. -/
theorem heaviest_leaf (hw : Weight w unit) (h : leaf ∈ n.leaves) : w (leaf.text?.getD []) ≤ n.heaviest w := by
  induction n with
  | leaf e m p =>
    rw [List.mem_singleton.1 h]
    cases e with
    | text v => exact Nat.le_refl (w v)
    | empty => exact hw.nil.le
    | nested s => exact hw.nil.le
    | group ns => exact hw.nil.le
  | combination o l r m p ihl ihr =>
    rw [leaves, List.mem_append] at h
    rw [heaviest]
    rcases h with h | h
    · have := ihl h
      omega
    · have := ihr h
      omega

/-- What is spread to a leaf was shared on its way. -/
theorem heaviest_spread (hw : Weight w unit) {before after : List Text}
    (h : leaf ∈ (n.spreadShared before after).leaves) :
    w (leaf.text?.getD []) ≤ (before.map w).sum + n.heaviest w + (after.map w).sum := by
  induction n generalizing before after with
  | leaf e m p =>
    cases e with
    | text v =>
      obtain rfl := List.mem_singleton.1 h
      show w (joinSpaced (before ++ [v] ++ after)) ≤ (before.map w).sum + w v + (after.map w).sum
      rw [hw.joinSpaced]
      simp
      omega
    | empty =>
      obtain rfl := List.mem_singleton.1 h
      exact hw.nil.le.trans (Nat.zero_le _)
    | nested s =>
      obtain rfl := List.mem_singleton.1 h
      exact hw.nil.le.trans (Nat.zero_le _)
    | group ns =>
      obtain rfl := List.mem_singleton.1 h
      exact hw.nil.le.trans (Nat.zero_le _)
  | combination o l r m p ihl ihr =>
    rw [spreadShared, leaves, List.mem_append] at h
    rw [heaviest]
    rcases h with h | h
    · have := ihl h
      simp only [List.map_append, List.sum_append] at this
      omega
    · have := ihr h
      simp only [List.map_append, List.sum_append] at this
      omega

end Node

/-- What is read inside a text weighs no more, and has fewer operators or is shorter. -/
structure Smaller (inner text : Text) : Prop where
  light : ∀ w unit, Weight w unit → w inner ≤ w text
  less : operatorCount inner < operatorCount text ∨ inner.size < text.size

/-- Of what is read inside a combination an operator is left out. -/
def LeavesOut (inner text : Text) : Prop := ∀ w unit, Weight w unit → w inner + unit ≤ w text

theorem LeavesOut.smaller {inner text : Text} (h : LeavesOut inner text) : Smaller inner text where
  light := fun w unit hw => Nat.le_of_add_right_le (h w unit hw)
  less := Or.inl (h operatorCount 1 operatorCount_weight)

section Blocks

variable (hE : ∀ f : Failure, f.Ordinary → E f)
include hE

/-- Whether a block is a combination can be told under any limit. -/
theorem taggedTree?_drawn (limit : Nat) (braced : Text) :
    Meets E (fun found => ∀ tree ∈ found, tree.Joins braced) (taggedTree? limit braced) := by
  have htree : Meets (fun f => (∃ e, f = .rejected e) ∨ E f) (·.Drawn braced) (combinationTree .braces limit braced) :=
    treeWithin_drawn (fun f hf => Or.inr (hE f hf)) .braces (Or.inl (Or.inl ⟨_, rfl⟩))
  refine (Meets.trial htree ?_).weaken fun found hfound tree hmem => (hfound tree hmem).symm
  rintro f (⟨e, rfl⟩ | hf) hother
  · exact absurd rfl (hother e)
  · exact hf

omit hE in
theorem Node.Joins.leaf {n leaf : Node} (h : n.Joins text) (hleaf : leaf ∈ n.leaves) :
    LeavesOut (leaf.text?.getD []) text := by
  intro w unit hw
  have hway := n.heaviest_leaf hw hleaf
  have hall := h.2 w unit hw
  rw [h.1] at hall
  exact Nat.le_trans (Nat.add_le_add_right hway unit) hall

omit hE in
theorem Node.Joins.spread {n leaf : Node} (h : n.Joins text) (hleaf : leaf ∈ (n.spreadShared [] []).leaves) :
    LeavesOut (leaf.text?.getD []) text := by
  intro w unit hw
  have hway := n.heaviest_spread hw hleaf
  have hall := h.2 w unit hw
  rw [h.1] at hall
  simp only [List.map_nil, List.sum_nil, Nat.zero_add, Nat.add_zero] at hway
  exact Nat.le_trans (Nat.add_le_add_right hway unit) hall

/-- Behind a header stands one nested statement or a combination. -/
theorem taggedContent_drawn (limit : Nat) (header : Header) (inner braced : Text) :
    Meets E (fun content => ∀ x, content.Holds x → x = inner ∨ LeavesOut x braced)
      (taggedContent limit header inner braced) := by
  refine Meets.headed (taggedTree?_drawn hE limit braced) (fun _ => nofun) ?_ fun _ x hx => Or.inl hx
  rintro tree - htree x ⟨leaf, hleaf, header', hread⟩
  obtain ⟨-, j, hat, hcloses⟩ := (TaggedBlock.read_part (E := fun _ => False) _).value hread _ rfl
  refine Or.inr fun w unit hw => ?_
  have hinner : w x ≤ w (leaf.text?.getD []) := by
    rw [← hw.trim (leaf.text?.getD [])]
    exact hw.part hat (Or.inr hcloses)
  exact Nat.le_trans (Nat.add_le_add_right hinner unit) (htree.leaf hleaf w unit hw)

/-- Without a header there is a pair at most. -/
theorem untaggedContent_drawn {inner braced : Text}
    (hdeep : E (.rejected (.nestingTooDeep limit)) ∨ operatorCount braced ≤ limit) :
    Meets E (fun content => ∀ x, content.Holds x → LeavesOut x braced) (untaggedContent limit inner braced) := by
  refine Meets.headless (treeWithin_drawn hE .braces (hdeep.imp_right Nat.lt_succ_of_le)) (fun _ => hE _ nofun) ?_
    (fun _ _ => nofun) fun _ _ _ _ => nofun
  rintro tree htree - hcombination x ⟨leaf, hleaf, rfl⟩
  have hjoins : tree.Joins braced := ⟨by simpa [Node.isCombination] using hcombination, htree⟩
  exact hjoins.spread hleaf

/-- The block between two braces. -/
theorem blockAt_smaller {bounds : Nat × Nat} (hbounds : Braces text bounds)
    (hdeep : E (.rejected (.nestingTooDeep limit)) ∨ operatorCount text ≤ limit) :
    Meets E (fun b => (b.start < b.stop) ∧ ∀ x, b.content.Holds x → Smaller x text)
      (blockAt limit text (PlacedShape.all text) bounds) := by
  obtain ⟨left, right⟩ := bounds
  obtain ⟨hopens, hcloses, hle⟩ := hbounds
  simp only at hopens hcloses hle
  have hbraced : ∀ braced, text.At left braced → left + Text.size braced = right + 1 →
      ∀ w unit, Weight w unit → w braced ≤ w text := by
    intro braced hbraced hsize w unit hw
    exact hw.enclosed hbraced hcloses (by omega) hsize
  unfold blockAt
  refine (Meets.cut (cut_opening hopens) hcloses.cut hle).bind fun inner hinner => ?_
  have hinnerSmaller : Smaller inner text := by
    refine ⟨fun w unit hw => ?_, Or.inr ?_⟩
    · exact hw.part (d := .braces) hinner.1 (Or.inr (by rw [hinner.2]; exact hcloses))
    · have hend := (cut_closing hcloses).le
      have hsize := hinner.2
      omega
  split
  · rename_i header hheader
    obtain ⟨hstands, hat⟩ := Header.among?_stands hheader
    have hbefore := hstands.before
    refine (Meets.cut hstands.start (cut_closing hcloses) (by omega)).bind fun raw _ => ?_
    refine (Meets.cut hopens.cut (cut_closing hcloses) (by omega)).bind fun braced hbracedAt => ?_
    refine (taggedContent_drawn hE limit header inner braced).bind fun content hcontent => ⟨?_, fun x hx => ?_⟩
    · show header.start < right + 1
      omega
    · rcases hcontent x hx with rfl | hout
      · exact hinnerSmaller
      · exact LeavesOut.smaller fun w unit hw =>
          (hout w unit hw).trans (hbraced braced hbracedAt.1 hbracedAt.2 w unit hw)
  · refine (Meets.cut hopens.cut (cut_closing hcloses) (by omega)).bind fun braced hbracedAt => ?_
    have hlight := hbraced braced hbracedAt.1 hbracedAt.2
    have hdeep' : E (.rejected (.nestingTooDeep limit)) ∨ operatorCount braced ≤ limit :=
      hdeep.imp_right (Nat.le_trans (hlight operatorCount 1 operatorCount_weight))
    refine (untaggedContent_drawn hE hdeep').bind fun content hcontent => ⟨?_, fun x hx => ?_⟩
    · show left < right + 1
      omega
    · exact LeavesOut.smaller fun w unit hw => (hcontent x hx w unit hw).trans (hlight w unit hw)

end Blocks

/-! ## The atomic text -/

theorem Weight.spaces {w : Text → Nat} {unit : Nat} (hw : Weight w unit) (k : Nat) (t : Text) :
    w (List.replicate k ' ' ++ t) = w t := by
  induction k with
  | zero => rfl
  | succ k ih => rw [List.replicate_succ, List.cons_append, hw.char _ (by decide), ih]

/-- A text from the byte on, and the same with spaces in place of the blocks. -/
inductive Blanked : (cursor : Nat) → List Block → Text → Text → Prop
  | nil (cursor : Nat) (t : Text) : Blanked cursor [] t t
  | block {cursor : Nat} {b : Block} {bs : List Block} {before inner t rest : Text} :
    b.start = cursor + before.size → b.stop = b.start + inner.size → Blanked b.stop bs t rest →
    Blanked cursor (b :: bs) (before ++ (inner ++ t)) (before ++ (List.replicate inner.size ' ' ++ rest))

theorem blankOut_blanked {cursor : Nat} {blocks : List Block} {rest : Text} (hblocks : ∀ b ∈ blocks, b.start ≤ b.stop)
    (h : blankOut text cursor blocks = .ok rest) :
    ∃ a t : Text, text = a ++ t ∧ a.size = cursor ∧ Blanked cursor blocks t rest := by
  induction blocks generalizing cursor rest with
  | nil =>
    obtain ⟨⟨a, b, ht, ha⟩, hsize⟩ := Text.slice_eq_ok.1 h
    have hall := congrArg Text.size ht
    rw [Text.size_append, Text.size_append] at hall
    have hnil : b = [] := Text.size_eq_zero.1 (by omega)
    subst hnil
    exact ⟨a, rest, by simpa using ht, ha, .nil cursor rest⟩
  | cons b blocks ih =>
    obtain ⟨before, hbefore, h⟩ := bind_eq_ok.1 h
    obtain ⟨rest, hrest, h⟩ := bind_eq_ok.1 h
    cases h
    obtain ⟨⟨a, c, ht, ha⟩, hsize⟩ := Text.slice_eq_ok.1 hbefore
    obtain ⟨a', t, ht', ha', hblanked⟩ := ih (fun x hx => hblocks x (List.mem_cons_of_mem _ hx)) hrest
    have hle := hblocks b List.mem_cons_self
    -- the block ends at a boundary behind its start
    have hinner : ∃ inner : Text, c = inner ++ t ∧ b.stop = b.start + inner.size := by
      rw [ht, ← List.append_assoc] at ht'
      rcases List.append_eq_append_iff.1 ht' with ⟨u, rfl, hc⟩ | ⟨u, hu, ht''⟩
      · refine ⟨u, hc, ?_⟩
        rw [← ha', Text.size_append, Text.size_append]
        omega
      · have hsizes : a.size + before.size = a'.size + Text.size u := by
          rw [← Text.size_append, hu, Text.size_append]
        have hnil : u = [] := Text.size_eq_zero.1 (by omega)
        subst hnil
        exact ⟨[], by simpa using ht''.symm, by simp at hsizes ⊢; omega⟩
    obtain ⟨inner, rfl, hstop⟩ := hinner
    refine ⟨a, before ++ (inner ++ t), ht, ha, ?_⟩
    have hwidth : b.stop - b.start = inner.size := by omega
    rw [hwidth, List.append_assoc]
    exact .block (by omega) hstop hblanked

namespace Blanked

variable {cursor : Nat} {blocks : List Block} {t rest part : Text} (h : Blanked cursor blocks t rest)
include h

theorem size_eq : rest.size = t.size := by
  induction h with
  | nil => rfl
  | @block cursor b bs before inner t rest _ _ _ ih =>
    rw [Text.size_append, Text.size_append, Text.size_append, Text.size_append, size_replicate_space, ih]

/-- The blocks stand behind the byte and one behind another. -/
theorem order : (∀ b ∈ blocks, cursor ≤ b.start ∧ b.start ≤ b.stop) ∧ blocks.Pairwise fun a b => a.stop ≤ b.start := by
  induction h with
  | nil => exact ⟨nofun, .nil⟩
  | block hstart hstop _ ih =>
    obtain ⟨hbehind, horder⟩ := ih
    refine ⟨List.forall_mem_cons.2 ⟨by omega, fun x hx => ?_⟩, List.pairwise_cons.2 ⟨fun x hx => (hbehind x hx).1, horder⟩⟩
    have := hbehind x hx
    omega

/-- In place of a block there are spaces. -/
theorem spaces_at : ∀ b ∈ blocks, ∃ i, b.start = cursor + i ∧ rest.At i (List.replicate (b.stop - b.start) ' ') := by
  induction h with
  | nil => nofun
  | @block cursor b bs before inner t rest hstart hstop _ ih =>
    refine List.forall_mem_cons.2 ⟨⟨before.size, hstart, before, rest, ?_, rfl⟩, fun x hx => ?_⟩
    · rw [hstop, Nat.add_sub_cancel_left]
    · obtain ⟨i, hi, hat⟩ := ih x hx
      have hmoved := (hat.prepend (List.replicate inner.size ' ')).prepend before
      rw [size_replicate_space] at hmoved
      exact ⟨_, by omega, hmoved⟩

/-- Outside the blocks they are the same. -/
theorem at_iff (hout : ∀ b ∈ blocks, cursor + i + part.size ≤ b.start ∨ b.stop ≤ cursor + i) :
    t.At i part ↔ rest.At i part := by
  induction h generalizing i with
  | nil => exact Iff.rfl
  | @block cursor b bs before inner t rest hstart hstop _ ih =>
    obtain ⟨hfirst, hlater⟩ := List.forall_mem_cons.1 hout
    rcases hfirst with hle | hle
    · have hin : i + part.size ≤ before.size := by omega
      exact ⟨fun h => (h.front hin).extend _, fun h => (h.front hin).extend _⟩
    · obtain ⟨j, rfl⟩ : ∃ j, i = before.size + (inner.size + j) := ⟨i - (before.size + inner.size), by omega⟩
      have hsame : t.At j part ↔ rest.At j part := by
        refine ih fun x hx => ?_
        rcases hlater x hx with hx | hx
        · exact Or.inl (by omega)
        · exact Or.inr (by omega)
      have hspaces := size_replicate_space inner.size
      constructor
      · intro hat
        have hmoved := (hsame.1 hat.shift.shift).prepend (List.replicate inner.size ' ')
        rw [hspaces] at hmoved
        exact hmoved.prepend before
      · intro hat
        have hbehind : rest.At j part := by
          refine Text.At.shift (a := List.replicate inner.size ' ') ?_
          rw [hspaces]
          exact hat.shift
        exact ((hsame.2 hbehind).prepend inner).prepend before

/-- What is left of a text are pieces of it that stand apart. -/
theorem count_le (hblocks : ∀ b ∈ blocks, b.start < b.stop) : operatorCount rest ≤ operatorCount t := by
  induction h with
  | nil => exact Nat.le_refl _
  | @block cursor b bs before inner t rest _ hstop _ ih =>
    have hlater := ih fun x hx => hblocks x (List.mem_cons_of_mem _ hx)
    obtain ⟨k, hk⟩ := Nat.exists_eq_add_of_lt (hblocks b List.mem_cons_self)
    have hwidth : inner.size = k + 1 := by omega
    have hrest : operatorCount (before ++ (List.replicate inner.size ' ' ++ rest)) =
        operatorCount before + operatorCount rest := by
      rw [hwidth, List.replicate_succ, List.cons_append, operatorCount_weight.around ⟨by decide, by decide⟩,
        operatorCount_weight.spaces]
    have hbehind := operatorCount_part (List.suffix_append inner t).isInfix
    have hpieces := operatorCount_append_le before (inner ++ t)
    omega

end Blanked


/-- The outline of a text, if blanking out its blocks fails in no other way than `E` says. -/
theorem Outline.of_smaller (hE : ∀ f : Failure, f.Ordinary → E f)
    (hdeep : E (.rejected (.nestingTooDeep limit)) ∨ operatorCount text ≤ limit)
    (hblank : ∀ blocks, (braceBounds 0 0 none (tokens text)).mapM (blockAt limit text (PlacedShape.all text)) = .ok blocks →
      Meets E (fun _ => True) (blankOut text 0 blocks)) :
    Meets E (fun outline => operatorCount outline.atomic ≤ operatorCount text ∧
      ∀ b ∈ outline.blocks, ∀ x, b.content.Holds x → Smaller x text) (Outline.of limit text) := by
  have hblocks := Meets.mapM fun bounds hbounds =>
    blockAt_smaller hE ((braceBounds_tokens text).braces bounds hbounds).1 hdeep
  unfold Outline.of
  refine hblocks.and_eq.bind fun blocks hblocks => ?_
  obtain ⟨hsmaller, heq⟩ := hblocks
  refine (hblank blocks heq).and_eq.bind fun atomic hatomic => ⟨?_, fun b hb => (hsmaller b hb).2⟩
  obtain ⟨a, t, ht, -, hblanked⟩ := blankOut_blanked (fun b hb => (hsmaller b hb).1.le) hatomic.2
  refine (hblanked.count_le fun b hb => (hsmaller b hb).1).trans ?_
  rw [ht]
  exact operatorCount_part (List.suffix_append a t).isInfix

end InstitutionalGrammar
