/-
  InstitutionalGrammar.Proofs.Header.Reach — how far a header reaches back.

  A header is a run of symbol and suffix characters, and one annotation behind it at most. If every
  closing bracket of a text ends a pair that holds neither brackets nor delimiters, no annotation starts
  in front of a delimiter and ends behind it, so a header reaches over no delimiter and over no blank.
  - `Bracketed`: such texts; `Bracketed.append`, `Bracketed.behind`: their parts.
  - `Shape.firstLead?_reach`, `tagged_reach`: the header in front of a brace.
  - `Shape.lead_reach`: a header behind a character that ends none.
-/

import InstitutionalGrammar.Proofs.Header.Leads

namespace InstitutionalGrammar

open Suffix (isSuffixChar)

/-- Every closing bracket ends a pair of brackets that holds no bracket and no delimiter. -/
def Bracketed (t : Text) : Prop :=
  ∀ q r, t = q ++ ']' :: r → ∃ p v, q = p ++ '[' :: v ∧ ∀ c ∈ v, isReserved c = false

variable {a b t u v w : Text} {c : Char} {x : Text × Text}

namespace Bracketed

theorem of_not_mem (h : ']' ∉ t) : Bracketed t := by
  rintro q r rfl
  exact absurd (by simp) h

theorem pair (h : ∀ c ∈ v, isReserved c = false) : Bracketed ('[' :: (v ++ [']'])) := by
  intro q r hq
  rcases List.eq_nil_or_concat' r with rfl | ⟨r, e, rfl⟩
  · have hends : ('[' :: v) ++ [']'] = q ++ [']'] := hq
    exact ⟨[], v, (List.append_cancel_right hends).symm, h⟩
  · have hends : ('[' :: v) ++ [']'] = (q ++ ']' :: r) ++ [e] := by simpa using hq
    have hmem : ']' ∈ '[' :: v := by
      rw [(List.append_inj' hends rfl).1]
      simp
    rcases List.mem_cons.1 hmem with hopen | hinside
    · exact absurd hopen (by decide)
    · exact absurd (h _ hinside) (by decide)

theorem token (o : Operator) : Bracketed o.token := by
  cases o with
  | syntheticAnd => exact .of_not_mem (by decide)
  | _ => exact .pair (Text.forall_of_all (by decide))

theorem front (h : Bracketed (a ++ b)) : Bracketed a := by
  rintro q r rfl
  exact h q (r ++ b) (by simp)

theorem append (ha : Bracketed a) (hb : Bracketed b) : Bracketed (a ++ b) := by
  intro q r h
  rcases List.append_eq_append_iff.1 h with ⟨m, rfl, hm⟩ | ⟨m, rfl, hm⟩
  · obtain ⟨p, v, rfl, hv⟩ := hb m r hm
    exact ⟨a ++ p, v, by simp, hv⟩
  · cases m with
    | nil =>
      obtain ⟨p, v, hq, -⟩ := hb [] r hm.symm
      simp at hq
    | cons e m =>
      obtain ⟨rfl, -⟩ := List.cons.inj hm
      exact ha q m rfl

/-- No pair of brackets starts in the part in front and ends in the one behind. -/
theorem drop (h : Bracketed (a ++ b)) (ha : ∀ p v, a = p ++ '[' :: v → ∃ c ∈ v, isReserved c = true) : Bracketed b := by
  rintro q r rfl
  obtain ⟨p, v, hq, hv⟩ := h (a ++ q) r (by simp)
  rcases List.append_eq_append_iff.1 hq with ⟨m, rfl, hm⟩ | ⟨m, hm, hq⟩
  · exact ⟨m, v, hm, hv⟩
  · cases m with
    | nil => exact ⟨[], v, hq.symm, hv⟩
    | cons e m =>
      obtain ⟨rfl, rfl⟩ := List.cons.inj hq
      obtain ⟨c, hc, hreserved⟩ := ha p m hm
      rw [hv c (List.mem_append_left _ hc)] at hreserved
      cases hreserved

/-- Behind a delimiter or a closing bracket. -/
theorem behind (h : Bracketed (a ++ c :: b)) (hc : isReserved c = true) (hopen : c ≠ '[') : Bracketed b := by
  have hsplit : a ++ c :: b = (a ++ [c]) ++ b := by simp
  rw [hsplit] at h
  refine h.drop fun p v hp => ⟨c, ?_, hc⟩
  rcases List.eq_nil_or_concat' v with rfl | ⟨v, e, rfl⟩
  · exact absurd (List.append_inj' hp rfl).2 (by simpa using hopen)
  · have hlast : a ++ [c] = (p ++ '[' :: v) ++ [e] := by simpa using hp
    obtain rfl := List.singleton_inj.1 (List.append_inj' hlast rfl).2
    simp

end Bracketed

/-! ## Headers -/

namespace Shape

theorem lead?_parts (h : lead? t = some x) : ∃ run, (∀ c ∈ run, isSuffixChar c = true) ∧
    (t = run ∨ ∃ v, t = run ++ '[' :: (v ++ [']']) ∧ ∀ c ∈ v, isBracket c = false) := by
  have hrun := List.takeWhile_append_dropWhile (p := isSuffixChar) (l := t)
  refine ⟨t.takeWhile isSuffixChar, List.all_eq_true.1 List.all_takeWhile, ?_⟩
  unfold lead? at h
  split at h
  · rename_i hends
    rcases endsLead_iff.1 hends with hnil | ⟨v, hv, hfree⟩
    · rw [hnil, List.append_nil] at hrun
      exact Or.inl hrun.symm
    · rw [hv] at hrun
      exact Or.inr ⟨v, hrun.symm, hfree⟩
  · cases h

/-- A header that reaches over another character than one of a suffix ends with a closing bracket there. -/
theorem lead?_over (h : lead? (w ++ c :: u) = some x) (hc : isSuffixChar c = false) (hu : Bracketed u) :
    u = [] ∧ c = ']' := by
  obtain ⟨run, hrun, hall | ⟨v, hv, hfree⟩⟩ := lead?_parts h
  · have hmem := hrun c (by rw [← hall]; simp)
    rw [hc] at hmem
    cases hmem
  · have hno : ∀ y, run ≠ w ++ c :: y := by
      rintro y rfl
      have hmem := hrun c (by simp)
      rw [hc] at hmem
      cases hmem
    rcases List.eq_nil_or_concat' u with rfl | ⟨y, e, rfl⟩
    · have hlast : w ++ [c] = (run ++ '[' :: v) ++ [']'] := by simpa using hv
      exact ⟨rfl, List.singleton_inj.1 (List.append_inj' hlast rfl).2⟩
    · -- the annotation would have to open twice
      have hlast : (w ++ c :: y) ++ [e] = (run ++ '[' :: v) ++ [']'] := by simpa using hv
      obtain ⟨hsame, he⟩ := List.append_inj' hlast rfl
      obtain rfl := List.singleton_inj.1 he
      obtain ⟨p, z, rfl, -⟩ := hu y [] rfl
      have hopen : (w ++ c :: p) ++ '[' :: z = run ++ '[' :: v := by simpa using hsame
      rcases List.append_eq_append_iff.1 hopen with ⟨m, hm, -⟩ | ⟨m, hm, hrest⟩
      · exact absurd (by rw [hm]; simp) (hno (p ++ m))
      · cases m with
        | nil => exact absurd (by rw [hm, List.append_nil]) (hno p)
        | cons e m =>
          obtain ⟨-, hv⟩ := List.cons.inj hrest
          exact absurd (hfree '[' (by rw [hv]; simp)) (by decide)

theorem firstLead?_reach (hc : isSuffixChar c = false) (hu : Bracketed u) (hend : u ≠ [] ∨ c ≠ ']') (inWord : Bool)
    (a : Text) : firstLead? inWord (a ++ c :: u) = firstLead? (isWord c) u := by
  have hnone : ∀ w : Text, lead? (w ++ c :: u) = none := by
    intro w
    cases h : lead? (w ++ c :: u) with
    | none => rfl
    | some x =>
      obtain ⟨hnil, hbracket⟩ := lead?_over h hc hu
      rcases hend with hend | hend
      · exact absurd hnil hend
      · exact absurd hbracket hend
  induction a generalizing inWord with
  | nil =>
    have hfirst : lead? (c :: u) = none := hnone []
    rw [List.nil_append, firstLead?, hfirst]
    exact ite_self _
  | cons e a ih =>
    rw [List.cons_append, firstLead?, ← List.cons_append, hnone, ih]
    exact ite_self _

/-- A header in front of whose end such a character stands starts behind it. -/
theorem lead_reach (h : lead? v = some x) (hc : isSuffixChar c = false) (hu : Bracketed u) (hend : u ≠ [] ∨ c ≠ ']')
    (heq : a ++ v = w ++ c :: u) : ∃ z, a = w ++ c :: z ∧ u = z ++ v := by
  have hsplit : a ++ v = (w ++ [c]) ++ u := by simpa using heq
  rcases List.append_eq_append_iff.1 hsplit with ⟨m, hm, rfl⟩ | ⟨m, rfl, rfl⟩
  · rcases List.eq_nil_or_concat' m with rfl | ⟨m, e, rfl⟩
    · exact ⟨[], by simpa using hm.symm, rfl⟩
    · have hlast : w ++ [c] = (a ++ m) ++ [e] := by simpa using hm
      obtain rfl := List.singleton_inj.1 (List.append_inj' hlast rfl).2
      have hover : lead? (m ++ c :: u) = some x := by simpa using h
      obtain ⟨hnil, hbracket⟩ := lead?_over hover hc hu
      rcases hend with hend | hend
      · exact absurd hnil hend
      · exact absurd hbracket hend
  · exact ⟨m, by simp, rfl⟩

end Shape

/-- Whether a brace stands behind a header is told by what stands behind the last such character. -/
theorem tagged_reach (hc : isSuffixChar c = false ∧ isWord c = false) (hu : Bracketed u) (hend : u ≠ [] ∨ c ≠ ']')
    (a : Text) : tagged (a ++ c :: u) = tagged u := by
  unfold tagged
  rw [Shape.firstLead?_reach hc.1 hu hend, hc.2]

end InstitutionalGrammar
