/-
  InstitutionalGrammar.Proofs.Combination.Restarts — how often a text is swept, and where sweeps stop.

  Regrouping keeps the operators of a text and their order, so a stop can be told by the number of its operator
  through all rounds. Each stop is at a later operator than the one before it; so the rounds come to an end of
  themselves, and the number of operators is allowance enough for them.
  - `Stop.restarts`: a stop, by the number of its operator.
  - `exists_rounds`: all rounds of a text.
  - `Rounds.settle_eq`: what any allowance makes of them; `Rounds.lasts`: what lasts through them.
-/

import Mathlib.Data.List.Perm.Subperm
import InstitutionalGrammar.Proofs.Combination.Drawn
import InstitutionalGrammar.Proofs.Combination.Traces

namespace InstitutionalGrammar

variable {d : Delimiters} {text a operands rest : Text} {o : Operator}

/-- The tokens of the written operators, in order. -/
def operatorTokens (text : Text) : List Token := (tokens text).filter (·.operator?.isSome)

/-- A sweep of the text stops at its operator number `k`, and regrouping makes `next` of the text. -/
structure Restarts (d : Delimiters) (text : Text) (k : Nat) (next : Text) : Prop where
  stops : ∃ left token, sweep d text = .ok (.repetition left token.position.offset) ∧
    (operatorTokens text)[k]? = some token ∧ regroup d text left token.position.offset = .ok next

/-- A sweep that stopped: the number of the operator, and the regrouped text. -/
structure Round where
  stop : Nat
  next : Text

/-- The rounds from a text on, and what the sweep behind the last of them ends with. -/
inductive Rounds (d : Delimiters) : Text → List Round → Outcome SpanTable → Prop
  | settled {text : Text} {table : SpanTable} : sweep d text = .ok (.settled table) → Rounds d text [] (.ok table)
  | failed {text : Text} {cause : Failure} : sweep d text = .error cause → Rounds d text [] (.error cause)
  | again {text : Text} {round : Round} {rounds : List Round} {result : Outcome SpanTable} :
      Restarts d text round.stop round.next → Rounds d round.next rounds result →
      Rounds d text (round :: rounds) result

/-! ## One stop -/

theorem place_append (p : Position) (ls ls' : List Lexeme) :
    place p (ls ++ ls') = place p ls ++ place (p.past (writtenOf ls)) ls' := by
  induction ls generalizing p with
  | nil => rfl
  | cons l ls ih =>
    rw [List.cons_append, place, place, ih, List.cons_append]
    simp [writtenOf, Position.past]

/-- The token of an operator, by the number of operators in front of it. -/
theorem operatorTokens_behind (ho : o.isSynthetic = false) (u v : Text) :
    ∃ token, (operatorTokens (u ++ (o.token ++ v)))[operatorCount u]? = some token ∧ token.position.offset = u.size := by
  have hlex : lex (u ++ (o.token ++ v)) = lex u ++ .operator o :: lex v := by
    rw [lex_append u (Sharp.token ho v), lex_token ho]
  refine ⟨⟨.operator o, Position.start.past u, ((Position.start.past u).past o.token).offset⟩, ?_, ?_⟩
  · unfold operatorTokens operatorCount
    rw [tokens, hlex, place_append, List.filter_append, show writtenOf (lex u) = u from lex_written u, ← tokens,
      List.getElem?_append_right (Nat.le_refl _), Nat.sub_self]
    rfl
  · show (Position.start.past u).offset = u.size
    rw [Position.offset_past]
    exact Nat.zero_add u.size

namespace Stop

variable (h : Stop d text a operands o rest)
include h

theorem text_split : text = (a ++ d.opening :: operands) ++ (o.token ++ rest) := by
  rw [h.text_eq]
  simp

/-- The operators in front of a stop, with those from it on, are all. -/
theorem count_eq : operatorCount (a ++ d.opening :: operands) + operatorCount (o.token ++ rest) = operatorCount text := by
  rw [← length_operatorsOf, ← length_operatorsOf, ← length_operatorsOf, ← List.length_append,
    ← operatorsOf_append _ (Sharp.token h.written rest), ← h.text_split]

theorem operatorsOf_eq : operatorsOf (regrouped d a operands o rest) = operatorsOf text := by
  rw [h.text_eq]
  exact operatorsOf_trace.regrouped (isGap_opening d) (isGap_closing d) h.written a operands rest

/-- The number of the operator at which the sweep stops. -/
theorem restarts (hsweep : sweep d text = .ok (.repetition a.size (a.size + 1 + operands.size))) :
    Restarts d text (operatorCount (a ++ d.opening :: operands)) (regrouped d a operands o rest) := by
  obtain ⟨token, htoken, hoffset⟩ := operatorTokens_behind h.written (a ++ d.opening :: operands) rest
  have hsize : token.position.offset = a.size + 1 + operands.size := by
    rw [hoffset, Text.size_append, Text.size_cons, Delimiters.utf8Size_opening, Nat.add_assoc]
  refine ⟨a.size, token, by rw [hsize, hsweep], by rw [h.text_split, htoken], ?_⟩
  rw [hsize]
  exact h.regroup_eq

end Stop

/-- Where a sweep stops, and what regrouping makes of the text. -/
theorem Restarts.exists_stop {k : Nat} {next : Text} (h : Restarts d text k next) :
    ∃ a operands o rest, Stop d text a operands o rest ∧ next = regrouped d a operands o rest := by
  obtain ⟨left, token, hsweep, -, hregroup⟩ := h.stops
  obtain ⟨a, operands, o, rest, hstop, rfl, hoperator⟩ := sweep_stops hsweep
  rw [hoperator, hstop.regroup_eq] at hregroup
  exact ⟨a, operands, o, rest, hstop, (Except.ok.inj hregroup).symm⟩

/-! ## All rounds -/

/-- If no more than `n` operators stand from the first stop on, the rounds end, each at a later operator. -/
theorem exists_rounds_of_count {n : Nat}
    (hn : ∀ a operands o rest, Stop d text a operands o rest → operatorCount (o.token ++ rest) ≤ n) :
    ∃ rounds result, Rounds d text rounds result ∧ (rounds.map Round.stop).Pairwise (· < ·) ∧
      ∀ round ∈ rounds, operatorCount text ≤ round.stop + n ∧ round.stop < operatorCount text ∧
        operatorsOf round.next = operatorsOf text := by
  induction n using Nat.strongRecOn generalizing text with
  | ind n ih =>
    cases hsweep : sweep d text with
    | error cause => exact ⟨[], .error cause, .failed hsweep, .nil, nofun⟩
    | ok found =>
      cases found with
      | settled table => exact ⟨[], .ok table, .settled hsweep, .nil, nofun⟩
      | repetition left operator =>
        obtain ⟨a, operands, o, rest, hstop, rfl, rfl⟩ := sweep_stops hsweep
        have hcount := hstop.count_eq
        have hsame : operatorCount (regrouped d a operands o rest) = operatorCount text := by
          rw [← length_operatorsOf, hstop.operatorsOf_eq, length_operatorsOf]
        have hpos : operatorCount (o.token ++ rest) = operatorCount rest + 1 := operatorCount_token hstop.written rest
        have hle := hn a operands o rest hstop
        have hbehind : ∀ a' operands' o' rest', Stop d (regrouped d a operands o rest) a' operands' o' rest' →
            operatorCount (o'.token ++ rest') ≤ operatorCount rest := by
          intro a' operands' o' rest' hstop'
          have hfewer := hstop.fewer hstop'
          omega
        obtain ⟨rounds, result, hrounds, hincreasing, hbounds⟩ := ih (operatorCount rest) (by omega) hbehind
        refine ⟨⟨operatorCount (a ++ d.opening :: operands), regrouped d a operands o rest⟩ :: rounds, result,
          .again (hstop.restarts hsweep) hrounds, ?_, ?_⟩
        · rw [List.map_cons, List.pairwise_cons]
          refine ⟨fun k hk => ?_, hincreasing⟩
          obtain ⟨round, hround, rfl⟩ := List.mem_map.1 hk
          have hbound := (hbounds round hround).1
          show operatorCount (a ++ d.opening :: operands) < round.stop
          omega
        · refine List.forall_mem_cons.2 ⟨⟨?_, ?_, hstop.operatorsOf_eq⟩, fun round hround => ?_⟩
          · show operatorCount text ≤ operatorCount (a ++ d.opening :: operands) + n
            omega
          · show operatorCount (a ++ d.opening :: operands) < operatorCount text
            omega
          · obtain ⟨hbehind, hbefore, hoperators⟩ := hbounds round hround
            exact ⟨by omega, by omega, hoperators.trans hstop.operatorsOf_eq⟩

/-- Numbers that increase and stay below a bound are no more than the bound. -/
theorem length_le_of_increasing {ks : List Nat} {n : Nat} (hks : ks.Pairwise (· < ·)) (hlt : ∀ k ∈ ks, k < n) :
    ks.length ≤ n := by
  have hnodup : ks.Nodup := hks.imp Nat.ne_of_lt
  have hsub := List.subperm_of_subset hnodup (fun k hk => List.mem_range.2 (hlt k hk))
  simpa using hsub.length_le

theorem exists_rounds (d : Delimiters) (text : Text) :
    ∃ rounds result, Rounds d text rounds result ∧ (rounds.map Round.stop).Pairwise (· < ·) ∧
      (∀ round ∈ rounds, round.stop < operatorCount text ∧ operatorsOf round.next = operatorsOf text) ∧
      rounds.length ≤ operatorCount text := by
  have hcount : ∀ a operands o rest, Stop d text a operands o rest → operatorCount (o.token ++ rest) ≤ operatorCount text := by
    intro a operands o rest hstop
    have hcount := hstop.count_eq
    omega
  obtain ⟨rounds, result, hrounds, hincreasing, hbounds⟩ := exists_rounds_of_count hcount
  refine ⟨rounds, result, hrounds, hincreasing, fun round hround => (hbounds round hround).2, ?_⟩
  have hlength : (rounds.map Round.stop).length = rounds.length := List.length_map Round.stop
  rw [← hlength]
  refine length_le_of_increasing hincreasing fun k hk => ?_
  obtain ⟨round, hround, rfl⟩ := List.mem_map.1 hk
  exact (hbounds round hround).2.1

namespace Rounds

variable {rounds : List Round} {result : Outcome SpanTable}

/-- An allowance that covers the rounds leads to their end, and any smaller one to none. -/
theorem settle_eq (h : Rounds d text rounds result) (fuel : Nat) :
    settle d fuel text = if rounds.length ≤ fuel then result else .error .unsettled := by
  induction h generalizing fuel with
  | settled hsweep =>
    rw [settle, hsweep]
    simp
  | failed hsweep =>
    rw [settle, hsweep]
    simp
  | again hrestarts hrounds ih =>
    obtain ⟨left, token, hsweep, -, hregroup⟩ := hrestarts.stops
    rw [settle, hsweep, ok_bind]
    cases fuel with
    | zero => simp
    | succ fuel => simp [hregroup, ih]

/-- What every round keeps lasts until a sweep settles, and that sweep is one of the input of its table. -/
theorem lasts {P : Text → Prop} {table : SpanTable}
    (hP : ∀ {text a operands o rest}, Stop d text a operands o rest → P text → P (regrouped d a operands o rest))
    (h : Rounds d text rounds (.ok table)) (htext : P text) :
    P table.input ∧ sweep d table.input = .ok (.settled table) := by
  generalize hresult : (.ok table : Outcome SpanTable) = result at h
  induction h with
  | settled hsweep =>
    cases hresult
    obtain ⟨hinput, -⟩ := (sweep_sound d _).value hsweep
    rw [hinput]
    exact ⟨htext, hsweep⟩
  | failed _ => cases hresult
  | again hrestarts _ ih =>
    obtain ⟨a, operands, o, rest, hstop, hnext⟩ := hrestarts.exists_stop
    rw [hnext] at ih
    exact ih (hP hstop htext) hresult

end Rounds

/-- Sweeping ends by itself: each sweep that stops does so at a later operator than the one before it, counted
    through all rounds, so there is at most one sweep more than there are operators. -/
theorem sweeps_bounded (d : Delimiters) (text : Text) :
    ∃ rounds result, Rounds d text rounds result ∧
      spanTable d text = (do requireBalanced text; result) ∧
      (∀ fuel, settle d fuel text = if rounds.length ≤ fuel then result else .error .unsettled) ∧
      (rounds.map Round.stop).Pairwise (· < ·) ∧
      (∀ round ∈ rounds, round.stop < operatorCount text ∧ operatorsOf round.next = operatorsOf text) ∧
      rounds.length ≤ operatorCount text := by
  obtain ⟨rounds, result, hrounds, hincreasing, hbounds, hlength⟩ := exists_rounds d text
  refine ⟨rounds, result, hrounds, ?_, hrounds.settle_eq, hincreasing, hbounds, hlength⟩
  rw [spanTable, hrounds.settle_eq, if_pos hlength]

end InstitutionalGrammar
