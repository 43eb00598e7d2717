/-
  InstitutionalGrammar.Proofs.Layout.Gaps — what stands between the blocks of a nested text.

  A nested text is a row of gaps with blocks between them. Where no gap has a bracket, the header of a
  block is the end of the gap in front of it, so the atomic text is the gaps without their headers and
  spaces for the blocks: what a block holds decides no more than how many spaces there are.
  - `WellNested.interleaved`: a nested text as gaps and blocks.
  - `braceBounds_interleave`, `WellNested.bounds`: where the blocks stand.
  - `among?_gap`, `blockAt_bounds`: where the header of a block starts.
  - `outline_atomic`: the atomic text, from the gaps.
-/

import InstitutionalGrammar.Proofs.Header.Reach
import InstitutionalGrammar.Proofs.Layout.Scanned

namespace InstitutionalGrammar

/-! ## Gaps and blocks -/

/-- A nested text whose braces all stand in parentheses. -/
inductive Blockless : Text → Prop
  | nil : Blockless []
  | char {c : Char} {t : Text} : isDelimiter c = false → Blockless t → Blockless (c :: t)
  | content {a t : Text} : WellNested a → Blockless t →
      Blockless (Delimiters.parentheses.opening :: (a ++ Delimiters.parentheses.closing :: t))

theorem Blockless.nested {t : Text} (h : Blockless t) : WellNested t := by
  induction h with
  | nil => exact .nil
  | char hc _ ih => exact .char hc ih
  | content ha _ ih => exact .enclosed ha ih

/-- A gap, and then the insides of blocks in braces, each with the gap behind it. -/
def interleave (gap : Text) : List (Text × Text) → Text
  | [] => gap
  | (inner, next) :: blocks => gap ++ brace :: (inner ++ endBrace :: interleave next blocks)

variable {gap next inner t : Text} {blocks later : List (Text × Text)}

theorem interleave_append (gap inner next : Text) (blocks later : List (Text × Text)) :
    interleave gap (blocks ++ (inner, next) :: later) =
      interleave gap blocks ++ brace :: (inner ++ endBrace :: interleave next later) := by
  induction blocks generalizing gap with
  | nil => rfl
  | cons b blocks ih => simp [interleave, ih]

theorem interleave_prepend (a gap : Text) (blocks : List (Text × Text)) :
    interleave (a ++ gap) blocks = a ++ interleave gap blocks := by
  cases blocks with
  | nil => rfl
  | cons b blocks => simp [interleave]

/-- The insides of the blocks are nested, and nothing in the gaps is a block. -/
structure Interleaved (gap : Text) (blocks : List (Text × Text)) : Prop where
  gap : Blockless gap
  inner : ∀ b ∈ blocks, WellNested b.1
  next : ∀ b ∈ blocks, Blockless b.2

theorem Interleaved.behind (h : Interleaved gap ((inner, next) :: blocks)) : Interleaved next blocks where
  gap := h.next _ List.mem_cons_self
  inner := fun b hb => h.inner b (List.mem_cons_of_mem _ hb)
  next := fun b hb => h.next b (List.mem_cons_of_mem _ hb)

theorem Interleaved.append (h : Interleaved gap blocks) (hinner : WellNested inner) (hlater : Interleaved next later) :
    Interleaved gap (blocks ++ (inner, next) :: later) where
  gap := h.gap
  inner := List.forall_mem_append.2 ⟨h.inner, List.forall_mem_cons.2 ⟨hinner, hlater.inner⟩⟩
  next := List.forall_mem_append.2 ⟨h.next, List.forall_mem_cons.2 ⟨hlater.gap, hlater.next⟩⟩

def Unbracketed (t : Text) : Prop := ∀ c ∈ t, Shape.isBracket c = false

/-- No gap has a bracket. -/
structure FreeGaps (gap : Text) (blocks : List (Text × Text)) : Prop where
  gap : Unbracketed gap
  next : ∀ b ∈ blocks, Unbracketed b.2

theorem FreeGaps.behind (h : FreeGaps gap ((inner, next) :: blocks)) : FreeGaps next blocks where
  gap := h.next _ List.mem_cons_self
  next := fun b hb => h.next b (List.mem_cons_of_mem _ hb)

theorem FreeGaps.append (h : FreeGaps gap blocks) (inner : Text) (hlater : FreeGaps next later) :
    FreeGaps gap (blocks ++ (inner, next) :: later) where
  gap := h.gap
  next := List.forall_mem_append.2 ⟨h.next, List.forall_mem_cons.2 ⟨hlater.gap, hlater.next⟩⟩

theorem Unbracketed.freeGaps (h : Unbracketed (interleave gap blocks)) : FreeGaps gap blocks := by
  induction blocks generalizing gap with
  | nil => exact ⟨h, nofun⟩
  | cons b blocks ih =>
    obtain ⟨inner, next⟩ := b
    rw [interleave] at h
    have hlater : FreeGaps next blocks := ih fun c hc => h c (by simp [hc])
    exact ⟨fun c hc => h c (by simp [hc]), List.forall_mem_cons.2 ⟨hlater.gap, hlater.next⟩⟩

theorem WellNested.interleaved (h : WellNested t) : ∃ gap blocks, t = interleave gap blocks ∧ Interleaved gap blocks := by
  induction h with
  | nil => exact ⟨[], [], rfl, .nil, nofun, nofun⟩
  | @char c t hc _ ih =>
    obtain ⟨gap, blocks, rfl, hs⟩ := ih
    exact ⟨c :: gap, blocks, (interleave_prepend [c] gap blocks).symm, .char hc hs.gap, hs.inner, hs.next⟩
  | @enclosed d a t ha _ _ ih =>
    obtain ⟨gap, blocks, rfl, hs⟩ := ih
    cases d with
    | parentheses =>
      refine ⟨Delimiters.parentheses.opening :: (a ++ Delimiters.parentheses.closing :: gap), blocks, ?_,
        .content ha hs.gap, hs.inner, hs.next⟩
      have hprepend := interleave_prepend
        (Delimiters.parentheses.opening :: (a ++ [Delimiters.parentheses.closing])) gap blocks
      simpa using hprepend.symm
    | braces =>
      refine ⟨[], (a, gap) :: blocks, rfl, .nil, ?_, ?_⟩
      · exact List.forall_mem_cons.2 ⟨ha, hs.inner⟩
      · exact List.forall_mem_cons.2 ⟨hs.gap, hs.next⟩

/-! ## Braces -/

/-- A scan passes over what stands in the parentheses of a content. -/
theorem boundsFrom_content {x : Text} (hx : WellNested x) (k off : Nat) (rest : Text) :
    boundsFrom (k + 1) 0 none off (x ++ rest) = boundsFrom (k + 1) 0 none (off + x.size) rest := by
  apply hx.scan_append (d := .parentheses) (f := fun k off t => boundsFrom (k + 1) 0 none off t)
  · intro k off t
    rfl
  · intro k off t
    rfl
  · intro k off c t h1 h2
    show boundsFrom (k + 1) 0 none off (c :: t) = boundsFrom (k + 1) 0 none (off + c.utf8Size) t
    rw [boundsFrom, if_neg h1, if_neg h2]
    by_cases h3 : c = brace
    · rw [if_pos h3, if_neg k.succ_ne_zero]
    · by_cases h4 : c = endBrace
      · rw [if_neg h3, if_pos h4, if_neg k.succ_ne_zero]
      · rw [if_neg h3, if_neg h4]

theorem boundsFrom_gap (h : Blockless gap) (off : Nat) (rest : Text) :
    boundsFrom 0 0 none off (gap ++ rest) = boundsFrom 0 0 none (off + gap.size) rest := by
  induction h generalizing off with
  | nil => rfl
  | char hc _ ih => rw [List.cons_append, boundsFrom_char hc, ih, Text.size_cons, Nat.add_assoc]
  | @content a t ha _ ih =>
    have hopen : ∀ u, boundsFrom 0 0 none off (Delimiters.parentheses.opening :: u) = boundsFrom 1 0 none (off + 1) u :=
      fun _ => rfl
    have hclose : ∀ off u, boundsFrom 1 0 none off (Delimiters.parentheses.closing :: u) = boundsFrom 0 0 none (off + 1) u :=
      fun _ _ => rfl
    rw [List.cons_append, hopen, List.append_assoc, boundsFrom_content ha, List.cons_append, hclose, ih]
    congr 1
    simp only [Text.size_cons, Text.size_append, Delimiters.utf8Size_opening, Delimiters.utf8Size_closing]
    omega

/-- The braces of the blocks, when the first gap stands at byte `off`. -/
def bracesOf (off : Nat) (gap : Text) : List (Text × Text) → List (Nat × Nat)
  | [] => []
  | (inner, next) :: blocks =>
    (off + gap.size, off + gap.size + 1 + inner.size) :: bracesOf (off + gap.size + 1 + inner.size + 1) next blocks

theorem boundsFrom_interleave (h : Interleaved gap blocks) (off : Nat) :
    boundsFrom 0 0 none off (interleave gap blocks) = bracesOf off gap blocks := by
  induction blocks generalizing gap off with
  | nil =>
    have hgap := boundsFrom_gap h.gap off []
    rw [List.append_nil] at hgap
    exact hgap
  | cons b blocks ih =>
    obtain ⟨inner, next⟩ := b
    have hopen : ∀ off u, boundsFrom 0 0 none off (brace :: u) = boundsFrom 0 1 (some off) (off + 1) u :=
      fun _ _ => rfl
    have hclose : ∀ left off u, boundsFrom 0 1 (some left) off (endBrace :: u) =
        (left, off) :: boundsFrom 0 0 none (off + 1) u := fun _ _ _ => rfl
    have hinner := requireBalanced_iff.1 (h.inner _ List.mem_cons_self).requireBalanced .braces
    rw [interleave, boundsFrom_gap h.gap, hopen, boundsFrom_inside (balanced_iff.1 hinner), hclose, ih h.behind, bracesOf]

theorem braceBounds_interleave (h : Interleaved gap blocks) :
    braceBounds 0 0 none (tokens (interleave gap blocks)) = bracesOf 0 gap blocks := by
  unfold tokens
  rw [braceBounds_chars]
  exact boundsFrom_interleave h 0

theorem bracesOf_parts {left right off : Nat} (h : Interleaved gap blocks) (hmem : (left, right) ∈ bracesOf off gap blocks) :
    ∃ (a x b : Text), interleave gap blocks = a ++ brace :: (x ++ endBrace :: b) ∧ WellNested x ∧ left = off + a.size ∧
      right = left + 1 + x.size := by
  induction blocks generalizing gap off with
  | nil => cases hmem
  | cons block blocks ih =>
    obtain ⟨inner, next⟩ := block
    rw [bracesOf] at hmem
    rcases List.mem_cons.1 hmem with hfirst | hlater
    · obtain ⟨rfl, rfl⟩ := Prod.mk.inj hfirst
      exact ⟨gap, inner, interleave next blocks, rfl, h.inner _ List.mem_cons_self, rfl, rfl⟩
    · obtain ⟨a, x, b, htext, hx, hleft, hright⟩ := ih h.behind hlater
      refine ⟨gap ++ brace :: (inner ++ endBrace :: a), x, b, by rw [interleave, htext]; simp, hx, ?_, hright⟩
      rw [hleft]
      simp only [Text.size_append, Text.size_cons, Delimiters.utf8Size_opening, Delimiters.utf8Size_closing]
      omega

/-- Where the blocks of a nested text stand. -/
theorem WellNested.bounds {text : Text} {left right : Nat} (h : WellNested text)
    (hmem : (left, right) ∈ braceBounds 0 0 none (tokens text)) :
    ∃ (a x b : Text), text = a ++ brace :: (x ++ endBrace :: b) ∧ WellNested x ∧ left = a.size ∧
      right = a.size + 1 + x.size := by
  obtain ⟨gap, blocks, rfl, hblocks⟩ := h.interleaved
  rw [braceBounds_interleave hblocks] at hmem
  obtain ⟨a, x, b, htext, hx, hleft, hright⟩ := bracesOf_parts hblocks hmem
  rw [Nat.zero_add] at hleft
  exact ⟨a, x, b, htext, hx, hleft, by rw [hright, hleft]⟩

/-! ## Headers of blocks -/

/-- The header that a block behind the gap has. -/
def tagOf (gap : Text) : Text :=
  match Shape.firstLead? false gap with
  | some x => if (Component.ofSymbol? x.1 (Suffix.split x.2).1).isSome then x.1 ++ x.2 else []
  | none => []

/-- The gap without the header of the block behind it. -/
def untagged (gap : Text) : Text := gap.take (gap.length - (tagOf gap).length)

namespace Shape

/-- Without brackets a header is a run of suffix characters. -/
theorem lead?_run {x : Text × Text} (ht : Unbracketed t) (h : lead? t = some x) :
    x.1 ++ x.2 = t ∧ ∀ c ∈ t, Suffix.isSuffixChar c = true := by
  unfold lead? at h
  split at h
  · rename_i hends
    have hrun := List.takeWhile_append_dropWhile (p := Suffix.isSuffixChar) (l := t)
    have hnil : t.dropWhile Suffix.isSuffixChar = [] := by
      rcases endsLead_iff.1 hends with hnil | ⟨v, hv, -⟩
      · exact hnil
      · have hmem : '[' ∈ t := by
          rw [← hrun, hv]
          simp
        exact absurd (ht '[' hmem) (by decide)
    rw [hnil, List.append_nil] at hrun
    refine ⟨(symbol?_append h).trans hrun, ?_⟩
    rw [← hrun]
    exact List.all_eq_true.1 List.all_takeWhile
  · cases h

theorem firstLead?_suffix {w : Bool} {x : Text × Text} (ht : Unbracketed t) (h : firstLead? w t = some x) :
    x.1 ++ x.2 <:+ t ∧ ∀ c ∈ x.1 ++ x.2, Suffix.isSuffixChar c = true := by
  induction t generalizing w with
  | nil => cases h
  | cons c t ih =>
    have hlater : ∀ w, firstLead? w t = some x →
        x.1 ++ x.2 <:+ c :: t ∧ ∀ c ∈ x.1 ++ x.2, Suffix.isSuffixChar c = true := by
      intro w hw
      obtain ⟨hsuffix, hchars⟩ := ih (fun d hd => ht d (by simp [hd])) hw
      exact ⟨hsuffix.trans (List.suffix_cons c t), hchars⟩
    rw [firstLead?] at h
    split at h
    · exact hlater _ h
    · split at h
      · rename_i y hy
        cases h
        obtain ⟨hall, hchars⟩ := lead?_run ht hy
        rw [hall]
        exact ⟨List.suffix_refl _, hchars⟩
      · exact hlater _ h

/-- The last character of a clear text and a gap ends no annotation. -/
theorem last_ne {a : Text} (ha : Clear a) (hgap : Unbracketed gap) : (a ++ gap).getLast? ≠ some ']' := by
  intro h
  rw [List.getLast?_append] at h
  cases hlast : gap.getLast? with
  | some c =>
    rw [hlast, Option.some_or] at h
    obtain rfl := Option.some.inj h
    exact absurd (hgap ']' (List.mem_of_getLast? hlast)) (by decide)
  | none =>
    rw [hlast, Option.none_or] at h
    exact (ha ']' h).2.2 rfl

/-- No header reaches over a clear text. -/
theorem firstLead?_clear {a : Text} (ha : Clear a) (hgap : Unbracketed gap) : firstLead? false (a ++ gap) = firstLead? false gap := by
  have hfree : Bracketed gap := .of_not_mem fun hmem => absurd (hgap ']' hmem) (by decide)
  rcases List.eq_nil_or_concat' a with rfl | ⟨a, c, rfl⟩
  · rfl
  · obtain ⟨hsuffix, hword, hbracket⟩ := ha c List.getLast?_concat
    rw [List.append_assoc, List.singleton_append, firstLead?_reach hsuffix hfree (Or.inr hbracket), hword]

end Shape

theorem untagged_append (hgap : Unbracketed gap) : untagged gap ++ tagOf gap = gap ∧
    ∀ c ∈ tagOf gap, Suffix.isSuffixChar c = true := by
  have htag : tagOf gap <:+ gap ∧ ∀ c ∈ tagOf gap, Suffix.isSuffixChar c = true := by
    unfold tagOf
    split
    · rename_i x hx
      split
      · exact Shape.firstLead?_suffix hgap hx
      · exact ⟨List.nil_suffix, nofun⟩
    · exact ⟨List.nil_suffix, nofun⟩
  obtain ⟨⟨u, hu⟩, hchars⟩ := htag
  refine ⟨?_, hchars⟩
  have hlength : gap.length - (tagOf gap).length = u.length := by
    have := congrArg List.length hu
    rw [List.length_append] at this
    omega
  unfold untagged
  rw [hlength]
  nth_rewrite 1 [← hu]
  rw [List.take_left, hu]

/-- The shape that is found in front of the brace behind a gap is the header of the gap, if it is one. -/
theorem tagOf_found {a rest : Text} (ha : Clear a) (hgap : Unbracketed gap) {p : PlacedShape}
    (hp : p ∈ PlacedShape.all (a ++ gap ++ brace :: rest)) (hat : p.delimiterAt = (a ++ gap).size)
    (hfirst : Shape.firstLead? false gap = some (p.shape.base, p.shape.suffix)) :
    tagOf gap = (if p.header?.isSome then p.shape.lead else []) ∧ p.start + p.shape.lead.size = a.size + gap.size := by
  obtain ⟨u, hlead, hstart, hread⟩ := PlacedShape.ends_in_front hp hat
  obtain ⟨tail, -, -, -, hremark⟩ := read?_parts hread
  -- an annotation would end the gap with a bracket
  have hbare : p.shape.lead = p.shape.base ++ p.shape.suffix := by
    cases hm : p.shape.remark with
    | none => rw [Shape.lead, hm, Option.getD_none, List.append_nil]
    | some r =>
      obtain ⟨x, rfl, -⟩ := hremark r hm
      refine absurd ?_ (Shape.last_ne ha hgap)
      rw [hlead, Shape.lead, hm, Option.getD_some, List.cons_append, List.getLast?_append, List.getLast?_append]
      simp [List.getLast?_cons]
  have hsize := congrArg Text.size hlead
  rw [Text.size_append, Text.size_append] at hsize
  have hheader : p.header?.isSome = (Component.ofSymbol? p.shape.base (Suffix.split p.shape.suffix).1).isSome :=
    Option.isSome_map
  refine ⟨?_, by omega⟩
  unfold tagOf
  rw [hfirst, hbare, hheader]

theorem PlacedShape.header?_start {p : PlacedShape} {header : Header} (h : p.header? = some header) : header.start = p.start := by
  obtain ⟨c, -, rfl⟩ := Option.map_eq_some_iff.1 h
  rfl

/-- Where the header of the brace behind a gap starts, or the brace itself. -/
theorem among?_gap {a : Text} (ha : Clear a) (hgap : Unbracketed gap) (rest : Text) :
    ((Header.among? (PlacedShape.all (a ++ gap ++ brace :: rest)) (a.size + gap.size)).map Header.start).getD
      (a.size + gap.size) = a.size + (untagged gap).size := by
  have hsizes : (untagged gap).size + (tagOf gap).size = gap.size := by
    rw [← Text.size_append, (untagged_append hgap).1]
  have hfind := Shape.find?_allFrom false 0 (a ++ gap) rest
  rw [Nat.zero_add, Text.size_append, Shape.firstLead?_clear ha hgap] at hfind
  unfold Header.among?
  cases hfound : (PlacedShape.all (a ++ gap ++ brace :: rest)).find? (·.delimiterAt = a.size + gap.size) with
  | none =>
    have htag : tagOf gap = [] := by
      rw [tagOf, ← hfind, show (PlacedShape.allFrom false 0 (a ++ gap ++ brace :: rest)).find? _ = none from hfound]
      rfl
    rw [htag, Text.size_nil] at hsizes
    show a.size + gap.size = _
    omega
  | some p =>
    have hfirst : Shape.firstLead? false gap = some (p.shape.base, p.shape.suffix) := by
      rw [← hfind, show (PlacedShape.allFrom false 0 (a ++ gap ++ brace :: rest)).find? _ = some p from hfound]
      rfl
    have hat : p.delimiterAt = (a ++ gap).size := by simpa using List.find?_some hfound
    obtain ⟨htag, hends⟩ := tagOf_found ha hgap (List.mem_of_find?_eq_some hfound) hat hfirst
    show (p.header?.map Header.start).getD (a.size + gap.size) = _
    cases hheader : p.header? with
    | none =>
      rw [hheader, Option.isSome_none, if_neg (by decide)] at htag
      rw [htag, Text.size_nil] at hsizes
      show a.size + gap.size = _
      omega
    | some header =>
      rw [hheader, Option.isSome_some, if_pos rfl] at htag
      rw [htag] at hsizes
      show header.start = _
      rw [PlacedShape.header?_start hheader]
      omega

/-- A block starts with its header, if it has one, and ends behind its closing brace. -/
theorem blockAt_bounds {limit left right : Nat} {text : Text} {b : Block}
    (h : blockAt limit text (PlacedShape.all text) (left, right) = .ok b) :
    b.start = ((Header.among? (PlacedShape.all text) left).map Header.start).getD left ∧ b.stop = right + 1 := by
  unfold blockAt at h
  obtain ⟨inner, -, h⟩ := bind_eq_ok.1 h
  cases hheader : Header.among? (PlacedShape.all text) left with
  | some header =>
    rw [hheader] at h
    obtain ⟨raw, -, h⟩ := bind_eq_ok.1 h
    obtain ⟨braced, -, h⟩ := bind_eq_ok.1 h
    obtain ⟨content, -, h⟩ := bind_eq_ok.1 h
    cases h
    exact ⟨rfl, rfl⟩
  | none =>
    rw [hheader] at h
    obtain ⟨raw, -, h⟩ := bind_eq_ok.1 h
    obtain ⟨content, -, h⟩ := bind_eq_ok.1 h
    cases h
    exact ⟨rfl, rfl⟩

/-! ## The atomic text -/

/-- One space more than `n`. -/
def spaces (n : Nat) : Text := List.replicate (n + 1) ' '

/-- The gaps without the headers at their ends, and spaces in place of the blocks and their headers. -/
def blanked (gap : Text) : List (Text × Text) → Text
  | [] => gap
  | (inner, next) :: blocks => untagged gap ++ (spaces ((tagOf gap).size + inner.size + 1) ++ blanked next blocks)

theorem blankOut_interleave {limit : Nat} {a text : Text} (ha : Clear a) (htext : text = a ++ interleave gap blocks)
    (hfree : FreeGaps gap blocks) {found : List Block}
    (hfound : (bracesOf a.size gap blocks).mapM (blockAt limit text (PlacedShape.all text)) = .ok found) :
    blankOut text a.size found = .ok (blanked gap blocks) := by
  induction blocks generalizing a gap found with
  | nil =>
    cases hfound
    exact Text.slice_parts (a := a) (c := []) (by rw [htext]; simp [interleave, blanked]) rfl
      (by rw [htext, Text.size_append]; rfl)
  | cons x blocks ih =>
    obtain ⟨inner, next⟩ := x
    rw [bracesOf, List.mapM_cons] at hfound
    obtain ⟨b, hb, hfound⟩ := bind_eq_ok.1 hfound
    obtain ⟨found, hlater, hcons⟩ := bind_eq_ok.1 hfound
    cases hcons
    obtain ⟨hstart, hstop⟩ := blockAt_bounds hb
    obtain ⟨hparts, -⟩ := untagged_append hfree.gap
    have hbrace : text = a ++ gap ++ brace :: (inner ++ endBrace :: interleave next blocks) := by
      rw [htext, interleave, List.append_assoc]
    rw [hbrace, among?_gap ha hfree.gap] at hstart
    have hsizes : (untagged gap).size + (tagOf gap).size = gap.size := by
      rw [← Text.size_append, hparts]
    have hbefore : text.slice a.size b.start = .ok (untagged gap) := by
      refine Text.slice_parts (a := a)
        (c := tagOf gap ++ brace :: (inner ++ endBrace :: interleave next blocks)) ?_ rfl hstart.symm
      rw [hbrace]
      nth_rewrite 1 [← hparts]
      simp
    have hbehind : text = (a ++ gap ++ brace :: (inner ++ [endBrace])) ++ interleave next blocks := by
      rw [hbrace]
      simp
    have hsize : (a ++ gap ++ brace :: (inner ++ [endBrace])).size = b.stop := by
      rw [hstop]
      simp [brace, endBrace]
      omega
    have hrest : blankOut text b.stop found = .ok (blanked next blocks) := by
      rw [← hsize]
      refine ih ?_ hbehind hfree.behind ?_
      · have hclosing := Clear.closing (a ++ gap ++ brace :: inner) .braces
        simpa using hclosing
      · rw [hsize, hstop]
        exact hlater
    have hspaces : b.stop - b.start = (tagOf gap).size + inner.size + 1 + 1 := by omega
    rw [blankOut, hbefore, ok_bind, hrest, ok_bind, hspaces, List.append_assoc]
    rfl

/-- The atomic text of a nested text, if its blocks can be told. -/
theorem outline_atomic (h : Interleaved gap blocks) (hfree : FreeGaps gap blocks) {limit : Nat} {outline : Outline}
    (houtline : Outline.of limit (interleave gap blocks) = .ok outline) :
    outline.atomic = blanked gap blocks := by
  unfold Outline.of at houtline
  obtain ⟨found, hfound, houtline⟩ := bind_eq_ok.1 houtline
  rw [braceBounds_interleave h] at hfound
  have hatomic : blankOut (interleave gap blocks) 0 found = .ok (blanked gap blocks) :=
    blankOut_interleave (a := []) Clear.nil rfl hfree hfound
  rw [hatomic] at houtline
  cases houtline
  rfl

end InstitutionalGrammar
