/-
  InstitutionalGrammar.Proofs.Reading.Balance — what the balance check accepts, and what it is good for.

  The check counts each kind of delimiter by itself. A text that it refuses is not read at all. In a text that it
  accepts the kinds may cross, but no more of a kind close than have opened, wherever one stops. So one count over
  both kinds never falls below zero, and it is zero exactly where both kinds have closed what they opened.
  - `requireBalanced_structural`, `parse_unbalanced`: a refusal.
  - `outerFrom_place`: one count over both kinds, and one count for each.
  - `requireBalanced_exact`: the check, and both ways it can go.
-/

import InstitutionalGrammar.Parse
import InstitutionalGrammar.Proofs.Meets
import InstitutionalGrammar.Proofs.Text.Balance
import InstitutionalGrammar.Proofs.Text.Tokens

namespace InstitutionalGrammar

variable {d : Delimiters} {text u : Text} {ls : List Lexeme} {depth : Nat}

/-! ## A refusal -/

theorem requireBalanced_structural (text : Text) :
    Meets (fun e => e.category = .structural) (fun _ => True) (requireBalanced text) :=
  requireBalanced_meets (fun _ _ _ _ => rfl) (fun _ _ => rfl) text

/-- Nothing is read of a text whose delimiters are not balanced. -/
theorem Reading.of_unbalanced (options : Options) {e : ParseError} (h : requireBalanced text = .error e) :
    Reading.of options text = ⟨.error (.rejected e), [], none⟩ := by
  have hdraft : Reading.draft options text = .error (.rejected e) := by
    unfold Reading.draft
    rw [h]
    rfl
  unfold Reading.of Reading.step
  rw [hdraft]

theorem parse_unbalanced (options : Options) {e : ParseError} (h : requireBalanced text = .error e) :
    parse options text = .error ⟨.rejected e, none, []⟩ := by
  unfold parse
  rw [Reading.of_unbalanced options h]
  rfl

/-! ## Counting -/

/-- How many delimiters of the kind are open at a byte: of those in front of it, how many more have opened than
    closed. There is no such number where no character starts. -/
def openAt (d : Delimiters) (text : Text) (i : Nat) : Option Int :=
  (text.takeBytes? i).map fun p => (p.count d.opening : Int) - p.count d.closing

/-- The operator of a token at which nothing is open, with its place. -/
def outsideOperator? (text : Text) (t : Token) : Option (Operator × Position) :=
  if openAt .parentheses text t.position.offset = some 0 ∧ openAt .braces text t.position.offset = some 0 then
    t.operator?.map (·, t.position)
  else none

theorem openAt_size (d : Delimiters) (a b : Text) :
    openAt d (a ++ b) a.size = some ((a.count d.opening : Int) - a.count d.closing) := by
  rw [openAt, Text.takeBytes?_eq_some_iff.2 ⟨b, rfl, rfl⟩, Option.map_some]

/-- One count over both kinds, when neither closes more than it has opened. -/
structure Counted (depth : Nat) (u : Text) : Prop where
  ordered : ∀ d : Delimiters, u.count d.closing ≤ u.count d.opening
  total : depth + u.count Delimiters.parentheses.closing + u.count Delimiters.braces.closing =
    u.count Delimiters.parentheses.opening + u.count Delimiters.braces.opening

namespace Counted

theorem nil : Counted 0 [] where
  ordered := fun _ => Nat.le_refl 0
  total := rfl

theorem opening (h : Counted depth u) (d : Delimiters) : Counted (depth + 1) (u ++ [d.opening]) := by
  have htotal := h.total
  constructor
  · intro e
    have he := h.ordered e
    cases d <;> cases e <;> simp [Delimiters.opening, Delimiters.closing] at he ⊢ <;> omega
  · cases d <;> simp [Delimiters.opening, Delimiters.closing] at htotal ⊢ <;> omega

theorem closing (h : Counted depth u)
    (hu : ∀ e : Delimiters, (u ++ [d.closing]).count e.closing ≤ (u ++ [d.closing]).count e.opening) :
    Counted (depth - 1) (u ++ [d.closing]) := by
  have htotal := h.total
  have hd := hu d
  have hparentheses := h.ordered .parentheses
  have hbraces := h.ordered .braces
  refine ⟨hu, ?_⟩
  cases d <;> simp [Delimiters.opening, Delimiters.closing] at htotal hd hparentheses hbraces ⊢ <;> omega

theorem plain {v : Text} (h : Counted depth u) (hv : ∀ c ∈ v, isDelimiter c = false) : Counted depth (u ++ v) := by
  have hcount : ∀ d : Delimiters, v.count d.opening = 0 ∧ v.count d.closing = 0 := by
    intro d
    exact ⟨List.count_eq_zero.2 fun hmem => ne_opening (hv _ hmem) d rfl,
      List.count_eq_zero.2 fun hmem => ne_closing (hv _ hmem) d rfl⟩
  constructor
  · intro d
    have hd := h.ordered d
    rw [List.count_append, List.count_append, (hcount d).1, (hcount d).2]
    exact hd
  · simp only [List.count_append, (hcount _).1, (hcount _).2, Nat.add_zero]
    exact h.total

/-- The one count is zero where both are. -/
theorem eq_zero_iff (h : Counted depth u) (b : Text) :
    openAt .parentheses (u ++ b) u.size = some 0 ∧ openAt .braces (u ++ b) u.size = some 0 ↔ depth = 0 := by
  have htotal := h.total
  have hparentheses := h.ordered .parentheses
  have hbraces := h.ordered .braces
  rw [openAt_size, openAt_size, Option.some.injEq, Option.some.injEq]
  omega

end Counted

/-- A scan that has counted what is open goes on to find the operators at which nothing is. -/
theorem outerFrom_place (hordered : ∀ (d : Delimiters) (p : Text), p <+: text → p.count d.closing ≤ p.count d.opening)
    (hls : ∀ l ∈ ls, l.Pure) (ht : text = u ++ ls.flatMap Lexeme.written) (hu : Counted depth u) :
    outerFrom depth (place (Position.start.past u) ls) =
      (place (Position.start.past u) ls).filterMap (outsideOperator? text) := by
  induction ls generalizing u depth with
  | nil => rfl
  | cons l ls ih =>
    obtain ⟨hl, hls⟩ := List.forall_mem_cons.1 hls
    have hwritten : text = (u ++ l.written) ++ ls.flatMap Lexeme.written := by simpa using ht
    have hprefix : u ++ l.written <+: text := by
      rw [hwritten]
      exact List.prefix_append _ _
    -- what the scan finds behind the lexeme, at the depth that it has there
    have hbehind : ∀ {depth}, Counted depth (u ++ l.written) →
        outerFrom depth (place ((Position.start.past u).past l.written) ls) =
          (place ((Position.start.past u).past l.written) ls).filterMap (outsideOperator? text) := by
      intro depth hdepth
      rw [← Position.past_append]
      exact ih hls hwritten hdepth
    rw [place]
    cases l with
    | opening d =>
      rw [List.filterMap_cons_none (by simp [outsideOperator?, Token.operator?])]
      exact hbehind (hu.opening d)
    | closing d =>
      rw [List.filterMap_cons_none (by simp [outsideOperator?, Token.operator?])]
      exact hbehind (hu.closing fun e => hordered e _ hprefix)
    | text v =>
      rw [List.filterMap_cons_none (by simp [outsideOperator?, Token.operator?])]
      exact hbehind (hu.plain hl.1)
    | operator o =>
      have hrest := hbehind (hu.plain fun _ hc => token_delimiter hc)
      have hopen : openAt .parentheses text (Position.start.past u).offset = some 0 ∧
          openAt .braces text (Position.start.past u).offset = some 0 ↔ depth = 0 := by
        rw [Position.offset_past, Position.start, Nat.zero_add, ht]
        exact hu.eq_zero_iff _
      show (if depth = 0 then
          (o, Position.start.past u) ::
            outerFrom depth (place ((Position.start.past u).past (Lexeme.operator o).written) ls)
        else outerFrom depth (place ((Position.start.past u).past (Lexeme.operator o).written) ls)) = _
      rw [hrest, List.filterMap_cons, outsideOperator?]
      by_cases hdepth : depth = 0
      · rw [if_pos hdepth, if_pos (hopen.2 hdepth)]
        rfl
      · rw [if_neg hdepth, if_neg (mt hopen.1 hdepth)]
        rfl

/-! ## The check -/

/-- The check accepts exactly the texts in which, for each kind of delimiter, no leading part closes more than it
    opens and the whole closes what it opens. A text that it does not accept is refused under all options with a
    structural error, and nothing of it is shown or reported. In a text that it accepts, one count over both kinds
    finds exactly the operators at which neither kind has an open delimiter, in order and with their places. -/
theorem requireBalanced_exact (text : Text) :
    (requireBalanced text = .ok () ↔ ∀ d, Balanced d text) ∧
    (requireBalanced text ≠ .ok () → ∀ options : Options, ∃ e, e.category = .structural ∧
      parse options text = .error ⟨.rejected e, none, []⟩) ∧
    (requireBalanced text = .ok () →
      outerOperators text = (tokens text).filterMap (outsideOperator? text)) := by
  refine ⟨requireBalanced_iff, fun hnot options => ?_, fun h => ?_⟩
  · cases hcheck : requireBalanced text with
    | ok => exact absurd hcheck hnot
    | error e => exact ⟨e, (requireBalanced_structural text).failure hcheck, parse_unbalanced options hcheck⟩
  · have hordered : ∀ (d : Delimiters) (p : Text), p <+: text → p.count d.closing ≤ p.count d.opening :=
      fun d => (requireBalanced_iff.1 h d).ordered
    exact outerFrom_place (u := []) hordered (lex_maximal text).pure (lex_written text).symm .nil

/-- A parenthesis and a brace that cross, an operator in both and one behind. -/
def crossedDelimiters : Text := "(\x7b [AND] )\x7d é [OR]".toList

/-- The operator behind the crossed delimiters is outside, the one in them is not. With a closing parenthesis in
    front the text is refused. -/
theorem requireBalanced_exact_crossed :
    requireBalanced crossedDelimiters = .ok () ∧
      outerOperators crossedDelimiters = [(.or, ⟨1, 15, 15⟩)] ∧
      ∃ e, e.category = .structural ∧ parse {} (')' :: crossedDelimiters) = .error ⟨.rejected e, none, []⟩ := by
  obtain ⟨-, -, houtside⟩ := requireBalanced_exact crossedDelimiters
  obtain ⟨-, hrefused, -⟩ := requireBalanced_exact (')' :: crossedDelimiters)
  have hok : requireBalanced crossedDelimiters = .ok () := by decide
  refine ⟨hok, (houtside hok).trans (by decide), hrefused (by decide) {}⟩

end InstitutionalGrammar
