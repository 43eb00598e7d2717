/-
  InstitutionalGrammar.Proofs.Combination.Marks — the tokens of a text and their marks, one at a time.

  The tokens of a text stand one behind another. What the next one means depends on how many blocks and
  parentheses are open, and, if it is a brace, on whether it is behind a header.
  - `marks_eq`: the marks, from depths to depths.
  - `marks_marked`: a mark says of its token what the lexeme of the token is.
-/

import InstitutionalGrammar.Combination.Sweep
import InstitutionalGrammar.Proofs.Text.Tokens

namespace InstitutionalGrammar

variable {d : Delimiters} {text : Text} {i : Nat}

/-! ## Marks -/

/-- The mark says of the token what its lexeme is. -/
def Mark.Means (d : Delimiters) : Mark → Lexeme → Prop
  | .opening, l => l = .opening d
  | .closing, l => l = .closing d
  | .operator o, l => l = .operator o ∧ o.isSynthetic = false
  | .plain, _ => True

theorem Mark.ofLexeme_means (d : Delimiters) {l : Lexeme} (hl : l.Writable) : (Mark.ofLexeme d l).Means d l := by
  cases l with
  | opening e =>
    by_cases h : e = d
    · simp [ofLexeme, h, Means]
    · simp [ofLexeme, h, Means]
  | closing e =>
    by_cases h : e = d
    · simp [ofLexeme, h, Means]
    · simp [ofLexeme, h, Means]
  | operator o => exact ⟨rfl, hl.operator o rfl⟩
  | text t => trivial

/-! ## Depths -/

/-- How many braces of a tagged block and how many parentheses of content are open. -/
structure Depths where
  block : Nat
  content : Nat
  deriving DecidableEq

namespace Depths

def zero : Depths := ⟨0, 0⟩

/-- What a lexeme means at these depths; `isTagged` tells of a brace whether it is behind a header. -/
def mark (n : Depths) (d : Delimiters) (isTagged : Bool) (l : Lexeme) : Mark :=
  match d with
  | .parentheses => Mark.ofLexeme .parentheses l
  | .braces =>
    if n = zero ∧ ¬ (isTagged = true ∧ l = .opening .braces) then Mark.ofLexeme .braces l else .plain

/-- The depths behind a lexeme. -/
def next (n : Depths) (d : Delimiters) (isTagged : Bool) (l : Lexeme) : Depths :=
  match d with
  | .parentheses => n
  | .braces => match n.block, l with
    | 0, .opening .parentheses => { n with content := n.content + 1 }
    | 0, .closing .parentheses => { n with content := n.content - 1 }
    | 0, .opening .braces => if n.content = 0 ∧ isTagged = true then { n with block := 1 } else n
    | block + 1, .opening .braces => { n with block := block + 2 }
    | block + 1, .closing .braces => { n with block }
    | _, _ => n

/-- Spans open and close here. -/
def Bare (d : Delimiters) (n : Depths) : Prop := d = .braces → n = zero

variable {n : Depths} {isTagged : Bool} {l : Lexeme}

/-- The mark tells of the lexeme, and where it is not plain, of the depths. -/
theorem mark_ne_plain (h : n.mark d isTagged l ≠ .plain) :
    n.mark d isTagged l = Mark.ofLexeme d l ∧ n.Bare d ∧ (d = .braces → l = .opening .braces → isTagged = false) := by
  cases d with
  | parentheses => exact ⟨rfl, nofun, nofun⟩
  | braces =>
    unfold mark at h ⊢
    simp only at h ⊢
    split at h
    · rename_i hbare
      rw [if_pos hbare]
      refine ⟨rfl, fun _ => hbare.1, fun _ hl => ?_⟩
      simpa [hl] using hbare.2
    · exact absurd rfl h

theorem mark_means (hl : l.Writable) : (n.mark d isTagged l).Means d l := by
  by_cases h : n.mark d isTagged l = .plain
  · rw [h]
    trivial
  · rw [(mark_ne_plain h).1]
    exact Mark.ofLexeme_means d hl

/-- Being behind a header matters to braces only. -/
theorem mark_congr {isTagged' : Bool} (h : l = .opening .braces → isTagged = isTagged') (n : Depths) (d : Delimiters) :
    n.mark d isTagged l = n.mark d isTagged' l := by
  by_cases hl : l = .opening .braces
  · rw [h hl]
  · cases d with
    | parentheses => rfl
    | braces => simp [mark, hl]

theorem next_congr {isTagged' : Bool} (h : l = .opening .braces → isTagged = isTagged') (n : Depths) (d : Delimiters) :
    n.next d isTagged l = n.next d isTagged' l := by
  by_cases hl : l = .opening .braces
  · rw [h hl]
  · cases d with
    | parentheses => rfl
    | braces =>
      unfold next
      cases n.block <;> cases l with
      | opening e => cases e with
        | parentheses => rfl
        | braces => exact absurd rfl hl
      | closing e => cases e <;> rfl
      | operator o => rfl
      | text v => rfl

/-- Nothing but a block or content changes the depths. -/
theorem next_of_ne_plain (h : n.mark d isTagged l ≠ .plain) : n.next d isTagged l = n := by
  obtain ⟨hmark, hbare, htagged⟩ := mark_ne_plain h
  rw [hmark] at h
  cases d with
  | parentheses => rfl
  | braces =>
    rw [hbare rfl]
    cases l with
    | opening e => cases e with
      | parentheses => exact absurd rfl h
      | braces =>
        rw [htagged rfl rfl]
        rfl
    | closing e => cases e with
      | parentheses => exact absurd rfl h
      | braces => rfl
    | operator o => rfl
    | text v => rfl

end Depths

/-! ## The marks of a text -/

/-- The marks of tokens that stand at these depths. -/
def marksFrom (d : Delimiters) (shapes : List PlacedShape) (n : Depths) : List Token → List (Mark × Token)
  | [] => []
  | t :: ts =>
    let isTagged := (Header.among? shapes t.position.offset).isSome
    (n.mark d isTagged t.lexeme, t) :: marksFrom d shapes (n.next d isTagged t.lexeme) ts

theorem fragmentMarks_eq (shapes : List PlacedShape) (n : Depths) (ts : List Token) :
    fragmentMarks shapes n.block n.content ts = marksFrom .braces shapes n ts := by
  induction ts generalizing n with
  | nil => obtain ⟨block, content⟩ := n; cases block <;> rfl
  | cons t ts ih =>
    obtain ⟨block, content⟩ := n
    obtain ⟨l, p, stop⟩ := t
    cases block with
    | succ block => cases l with
      | opening e => cases e <;> simp [fragmentMarks, marksFrom, Depths.mark, Depths.next, Depths.zero, ← ih]
      | closing e => cases e <;> simp [fragmentMarks, marksFrom, Depths.mark, Depths.next, Depths.zero, ← ih]
      | operator o => simp [fragmentMarks, marksFrom, Depths.mark, Depths.next, Depths.zero, ← ih]
      | text v => simp [fragmentMarks, marksFrom, Depths.mark, Depths.next, Depths.zero, ← ih]
    | zero => cases l with
      | opening e =>
        cases e with
        | parentheses => simp [fragmentMarks, marksFrom, Depths.mark, Depths.next, Mark.ofLexeme, ← ih]
        | braces =>
          by_cases hc : content = 0
          · by_cases ht : (Header.among? shapes p.offset).isSome = true
            · simp [fragmentMarks, marksFrom, Depths.mark, Depths.next, Depths.zero, hc, ht, ← ih]
            · simp [fragmentMarks, marksFrom, Depths.mark, Depths.next, Depths.zero, Mark.ofLexeme, hc, ht, ← ih]
          · simp [fragmentMarks, marksFrom, Depths.mark, Depths.next, Depths.zero, hc, ← ih]
      | closing e => cases e <;> simp [fragmentMarks, marksFrom, Depths.mark, Depths.next, Depths.zero, Mark.ofLexeme, ← ih]
      | operator o => simp [fragmentMarks, marksFrom, Depths.mark, Depths.next, Depths.zero, ← ih]
      | text v => simp [fragmentMarks, marksFrom, Depths.mark, Depths.next, Depths.zero, Mark.ofLexeme, ← ih]

theorem marksFrom_parentheses (shapes : List PlacedShape) (n : Depths) (ts : List Token) :
    marksFrom .parentheses shapes n ts = ts.map fun t => (Mark.ofLexeme .parentheses t.lexeme, t) := by
  induction ts generalizing n with
  | nil => rfl
  | cons t ts ih => rw [marksFrom, ih]; rfl

theorem marks_eq (d : Delimiters) (text : Text) :
    marks d text = marksFrom d (PlacedShape.all text) .zero (tokens text) := by
  cases d with
  | parentheses => exact (marksFrom_parentheses _ .zero (tokens text)).symm
  | braces => exact fragmentMarks_eq (PlacedShape.all text) .zero (tokens text)

/-- Marked tokens that stand one behind another. -/
def Marked (d : Delimiters) (text : Text) (i : Nat) (ms : List (Mark × Token)) : Prop :=
  Tiled text i (ms.map Prod.snd) ∧ ∀ x ∈ ms, x.1.Means d x.2.lexeme

theorem marksFrom_tokens (shapes : List PlacedShape) (n : Depths) (ts : List Token) :
    (marksFrom d shapes n ts).map Prod.snd = ts := by
  induction ts generalizing n with
  | nil => rfl
  | cons t ts ih => rw [marksFrom, List.map_cons, ih]

theorem marksFrom_means (shapes : List PlacedShape) (n : Depths) {ts : List Token} (hts : ∀ t ∈ ts, t.lexeme.Writable) :
    ∀ x ∈ marksFrom d shapes n ts, x.1.Means d x.2.lexeme := by
  induction ts generalizing n with
  | nil => exact nofun
  | cons t ts ih =>
    rw [marksFrom]
    refine List.forall_mem_cons.2 ⟨Depths.mark_means (hts t List.mem_cons_self), ?_⟩
    exact ih _ fun u hu => hts u (List.mem_cons_of_mem _ hu)

/-- The marks of a text stand one behind another. -/
theorem marks_marked (d : Delimiters) (text : Text) : Marked d text 0 (marks d text) := by
  rw [marks_eq]
  refine ⟨?_, marksFrom_means _ .zero (tokens_writable text)⟩
  rw [marksFrom_tokens]
  exact tokens_tiled text

end InstitutionalGrammar
