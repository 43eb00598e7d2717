/-
  InstitutionalGrammar.Proofs.WellFormed.Parse — what a parse ends with.

  - `parse_wellFormed`: every statement in a result is well formed, at any depth.
  - `parse_refusal`: every refusal is fatal and a fault of the text.
-/

import InstitutionalGrammar.Proofs.WellFormed.Reading

namespace InstitutionalGrammar

open Statement Node

variable {options : Options} {text : Text}

theorem read_wellFormed (options : Options) (budget : Nat) : Reads (Entry.Read WellFormed) (Reading.within options budget) :=
  Reading.within_reads (fun _ _ _ _ _ _ _ hs => hs.wellFormed) budget

/-- Every successful parse yields well-formed statements: those at the leaves of the tree, which
    holds nothing else, and all that are nested in them, in slots and in private nodes. -/
theorem parse_wellFormed {p : Parsed} (h : parse options text = .ok p) :
    (∀ path leaf, p.tree.get? path = some leaf → leaf.isLeaf = true → ∃ s, leaf.entry? = some (.nested s)) ∧
    (∀ path n, p.tree.get? path = some n → n.privates = []) ∧
    ∀ s ∈ p.tree.statements, s.WellFormed := by
  have htree := (read_wellFormed options (options.depthLimit + 1) text).value (Reading.step_of_parse h)
  refine ⟨fun path leaf hget hleaf => ?_, fun path n hget => htree.built.bare.get? hget, fun s hs => ?_⟩
  · cases leaf with
    | combination => cases hleaf
    | leaf e m ps =>
      obtain ⟨s, he, -⟩ := htree.built.get? hget
      exact ⟨s, congrArg some he⟩
  · obtain ⟨e, he, hs⟩ := htree.built.statements hs
    exact he.statements s hs

/-- An owner with a property, a combination and a nested statement. -/
def ownerAndNested : Text := "A1(x) A1,p(y) I((a [AND] b)) Cac\x7bI(c)\x7d".toList

theorem parse_wellFormed_ownerAndNested : ∃ p, parse {} ownerAndNested = .ok p ∧
    (∃ s ∈ p.tree.statements, ∃ n, s.get (.simple .attributes) = some n ∧ n.privates ≠ []) ∧
    ∀ s ∈ p.tree.statements, s.WellFormed := by
  obtain ⟨p, hp, hprivate⟩ := exists_ok (x := parse {} ownerAndNested) (p := fun p =>
    p.tree.statements.any fun s => (s.get (.simple .attributes)).any fun n : Node => decide (n.privates ≠ []))
    (by decide +kernel)
  obtain ⟨s, hs, hprivate⟩ := List.any_eq_true.1 hprivate
  obtain ⟨n, hn, hprivate⟩ := (Option.any_eq_true _ _).1 hprivate
  exact ⟨p, hp, ⟨s, hs, n, hn, of_decide_eq_true hprivate⟩, (parse_wellFormed hp).2.2⟩

/-- Every refusal is fatal, and its code is none of those that no text is refused for. -/
theorem parse_refusal {r : Refusal} (h : parse options text = .error r) {e : ParseError} (he : r.cause = .rejected e) :
    e.isFatal = true ∧ e.code ∉ ParseError.internalCodes := by
  have hmeets := read_wellFormed options (options.depthLimit + 1) text
  unfold parse at h
  simp only at h
  split at h
  · cases h
  · rename_i cause hcause
    cases h
    obtain rfl : cause = .rejected e := he
    exact (ParseError.ofInput_iff e).1 (hmeets.failure hcause)

/-- A nested statement of a component that holds none is ignored, and nothing else is left. -/
theorem parse_refusal_unsupported : ∃ r, parse {} "A\x7bI(x)\x7d".toList = .error r ∧
    r.cause = .rejected .emptyStatement ∧ ParseError.emptyStatement.isFatal = true ∧
    ParseError.emptyStatement.code ∉ ParseError.internalCodes := by
  obtain ⟨r, hr, hcause⟩ := exists_error (x := parse {} "A\x7bI(x)\x7d".toList)
    (p := fun r => decide (r.cause = .rejected .emptyStatement)) (by decide +kernel)
  exact ⟨r, hr, of_decide_eq_true hcause, parse_refusal hr (of_decide_eq_true hcause)⟩

end InstitutionalGrammar
