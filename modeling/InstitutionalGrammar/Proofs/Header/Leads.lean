/-
  InstitutionalGrammar.Proofs.Header.Leads — which braces stand behind a header.

  Whether a header ends at a brace is decided by the text in front of the brace: a header is a run of
  symbol and suffix characters with at most one annotation behind it, and only the annotation can hold a
  brace. So a brace put right behind another one changes nothing for those that follow.
  - `among?_isSome`: the decision, from the text in front; `among?_lead`: where the header stands.
  - `tagged_behind`, `tagged_doubled`: braces behind braces.
-/

import Mathlib.Data.List.Find
import InstitutionalGrammar.Proofs.Header.Stands

namespace InstitutionalGrammar

open Suffix (isSuffixChar)

/-- The brace that opens a block. -/
abbrev brace : Char := Delimiters.braces.opening

/-- The brace that closes a block. -/
abbrev endBrace : Char := Delimiters.braces.closing

namespace Shape

/-- The symbol and the suffix that a run of suffix characters is made of. -/
def symbol? (run : Text) : Option (Text × Text) :=
  match Component.bases.find? (·.isPrefixOf run) with
  | none => none
  | some base => if Suffix.isWritten (run.drop base.length) then some (base, run.drop base.length) else none

/-- Whether what stands behind the run is nothing or one whole annotation. -/
def endsLead : Text → Bool
  | [] => true
  | '[' :: t => t.dropWhile (!isBracket ·) = [']']
  | _ => false

/-- The symbol and the suffix of the header that the text is, but for its delimiter. -/
def lead? (t : Text) : Option (Text × Text) :=
  if endsLead (t.dropWhile isSuffixChar) then symbol? (t.takeWhile isSuffixChar) else none

/-- A shape is read in three steps, of which the first sees nothing but the run. -/
theorem read?_eq (t : Text) : read? t = (symbol? (t.takeWhile isSuffixChar)).bind fun x =>
    (readRemark? (t.dropWhile isSuffixChar)).bind fun r => (readDelimiter? r.2).map fun d => ⟨x.1, x.2, r.1, d⟩ := by
  have hbase : ∀ b ∈ Component.bases, b.isPrefixOf t = b.isPrefixOf (t.takeWhile isSuffixChar) := by
    intro b hb
    rw [Bool.eq_iff_iff, List.isPrefixOf_iff_prefix, List.isPrefixOf_iff_prefix]
    constructor
    · rintro ⟨u, rfl⟩
      rw [List.takeWhile_append_of_pos (List.all_eq_true.1 (base_suffixChars hb).2)]
      exact List.prefix_append _ _
    · exact fun h => h.trans (List.takeWhile_prefix _)
  have hfind : Component.bases.find? (·.isPrefixOf t) = Component.bases.find? (·.isPrefixOf (t.takeWhile isSuffixChar)) :=
    List.find?_congr hbase
  unfold read? symbol?
  rw [hfind]
  cases hfound : Component.bases.find? (·.isPrefixOf (t.takeWhile isSuffixChar)) with
  | none => rfl
  | some base =>
    rw [← hfind] at hfound
    have hprefix := List.find?_some hfound
    obtain ⟨u, rfl⟩ := List.isPrefixOf_iff_prefix.1 hprefix
    have hall := List.all_eq_true.1 (base_suffixChars (List.mem_of_find?_eq_some hfound)).2
    rw [List.takeWhile_append_of_pos hall, List.dropWhile_append_of_pos hall]
    simp only [List.drop_left]
    split
    · cases readRemark? (u.dropWhile isSuffixChar) <;> rfl
    · rfl

theorem symbol?_append {run : Text} {x : Text × Text} (h : symbol? run = some x) : x.1 ++ x.2 = run := by
  unfold symbol? at h
  split at h
  · cases h
  · rename_i base hbase
    split at h
    · cases h
      have hprefix := List.find?_some hbase
      obtain ⟨u, rfl⟩ := List.isPrefixOf_iff_prefix.1 hprefix
      rw [List.drop_left]
    · cases h

/-- No run of suffix characters reaches over another character. -/
theorem takeWhile_break {c : Char} (hc : isSuffixChar c = false) (t v : Text) :
    (t ++ c :: v).takeWhile isSuffixChar = t.takeWhile isSuffixChar := by
  induction t with
  | nil => simp [hc]
  | cons e t ih =>
    rw [List.cons_append, List.takeWhile_cons, List.takeWhile_cons, ih]

theorem dropWhile_break {c : Char} (hc : isSuffixChar c = false) (t v : Text) :
    (t ++ c :: v).dropWhile isSuffixChar = t.dropWhile isSuffixChar ++ c :: v := by
  induction t with
  | nil => simp [hc]
  | cons e t ih =>
    rw [List.cons_append, List.dropWhile_cons, List.dropWhile_cons, ih]
    split <;> rfl

theorem takeWhile_brace (t v : Text) : (t ++ brace :: v).takeWhile isSuffixChar = t.takeWhile isSuffixChar :=
  takeWhile_break (by decide) t v

theorem dropWhile_brace (t v : Text) :
    (t ++ brace :: v).dropWhile isSuffixChar = t.dropWhile isSuffixChar ++ brace :: v :=
  dropWhile_break (by decide) t v

/-- A bracket that closes ends the search for one. -/
theorem dropWhile_remark {v : Text} (hv : ∀ c ∈ v, isBracket c = false) (rest : Text) :
    (v ++ ']' :: rest).takeWhile (!isBracket ·) = v ∧ (v ++ ']' :: rest).dropWhile (!isBracket ·) = ']' :: rest := by
  have hpos : ∀ c ∈ v, (!isBracket c) = true := fun c hc => by rw [hv c hc]; rfl
  rw [List.takeWhile_append_of_pos hpos, List.dropWhile_append_of_pos hpos]
  simp [isBracket]

theorem readRemark?_closed {v : Text} (hv : ∀ c ∈ v, isBracket c = false) (rest : Text) :
    readRemark? ('[' :: (v ++ ']' :: rest)) = some (some ('[' :: v ++ [']']), rest) := by
  obtain ⟨htake, hdrop⟩ := dropWhile_remark hv rest
  unfold readRemark?
  simp only [hdrop, htake]

theorem endsLead_iff {t : Text} :
    endsLead t = true ↔ t = [] ∨ ∃ v : Text, t = '[' :: (v ++ [']']) ∧ ∀ c ∈ v, isBracket c = false := by
  constructor
  · intro h
    unfold endsLead at h
    split at h
    · exact Or.inl rfl
    · rename_i v
      have hclose : v.dropWhile (!isBracket ·) = [']'] := of_decide_eq_true h
      have hv := List.takeWhile_append_dropWhile (p := (!isBracket ·)) (l := v)
      rw [hclose] at hv
      refine Or.inr ⟨v.takeWhile (!isBracket ·), by rw [hv], fun c hc => ?_⟩
      simpa using List.all_eq_true.1 List.all_takeWhile c hc
    · cases h
  · rintro (rfl | ⟨v, rfl, hv⟩)
    · rfl
    · exact decide_eq_true (dropWhile_remark hv []).2

theorem lead?_of_read? {t rest : Text} {s : Shape} (hs : read? (t ++ brace :: rest) = some s)
    (hsize : s.lead.size = t.size) : lead? t = some (s.base, s.suffix) := by
  rw [read?_eq, takeWhile_brace, dropWhile_brace] at hs
  obtain ⟨⟨b, u⟩, hx, hs⟩ := Option.bind_eq_some_iff.1 hs
  obtain ⟨⟨remark, tail⟩, hr, hs⟩ := Option.bind_eq_some_iff.1 hs
  obtain ⟨d, hd, rfl⟩ := Option.map_eq_some_iff.1 hs
  -- the annotation is all that stands behind the run
  have hrest : remark.getD [] = t.dropWhile isSuffixChar := by
    have hsame : remark.getD [] ++ tail = t.dropWhile isSuffixChar ++ brace :: rest := (readRemark?_parts hr).1.symm
    refine (Text.append_inj_size hsame ?_).1
    have htotal : t.size = Text.size (b ++ u) + Text.size (t.dropWhile isSuffixChar) := by
      rw [symbol?_append hx, ← Text.size_append, List.takeWhile_append_dropWhile]
    have hlead : Text.size (b ++ u ++ remark.getD []) = t.size := hsize
    rw [Text.size_append] at hlead
    omega
  have hends : endsLead (t.dropWhile isSuffixChar) = true := by
    rw [endsLead_iff, ← hrest]
    cases remark with
    | none => exact Or.inl rfl
    | some r =>
      obtain ⟨v, rfl, hv⟩ := (readRemark?_parts hr).2 r rfl
      exact Or.inr ⟨v, rfl, hv⟩
  rw [lead?, if_pos hends, hx]

theorem read?_of_lead? {t : Text} {x : Text × Text} (h : lead? t = some x) (rest : Text) :
    ∃ s, read? (t ++ brace :: rest) = some s ∧ s.lead.size = t.size ∧ (s.base, s.suffix) = x := by
  unfold lead? at h
  split at h
  · rename_i hends
    obtain ⟨remark, hr, hremark⟩ : ∃ remark : Option Text, readRemark? (t.dropWhile isSuffixChar ++ brace :: rest) =
        some (remark, brace :: rest) ∧ remark.getD [] = t.dropWhile isSuffixChar := by
      rcases endsLead_iff.1 hends with hnil | ⟨v, hv, hfree⟩
      · exact ⟨none, by rw [hnil]; rfl, hnil.symm⟩
      · refine ⟨some ('[' :: v ++ [']']), ?_, hv.symm⟩
        rw [hv, List.cons_append, List.append_assoc, List.singleton_append]
        exact readRemark?_closed hfree (brace :: rest)
    refine ⟨⟨x.1, x.2, remark, .braces⟩, ?_, ?_, rfl⟩
    · rw [read?_eq, takeWhile_brace, dropWhile_brace, h, Option.bind_some, hr]
      rfl
    · show Text.size (x.1 ++ x.2 ++ remark.getD []) = t.size
      rw [symbol?_append h, hremark, List.takeWhile_append_dropWhile]
  · cases h

/-- A shape that ends right at a brace is told by the text in front. -/
theorem lead?_eq (t rest : Text) : lead? t =
    (read? (t ++ brace :: rest)).bind fun s => if s.lead.size = t.size then some (s.base, s.suffix) else none := by
  cases hlead : lead? t with
  | some x =>
    obtain ⟨s, hs, hsize, rfl⟩ := read?_of_lead? hlead rest
    rw [hs, Option.bind_some, if_pos hsize]
  | none =>
    cases hs : read? (t ++ brace :: rest) with
    | none => rfl
    | some s =>
      have hsize : s.lead.size ≠ t.size := by
        intro hsize
        rw [lead?_of_read? hs hsize] at hlead
        cases hlead
      rw [Option.bind_some, if_neg hsize]

/-! ## Behind a text -/

/-- The symbol and the suffix of the first header that starts in the text and ends with it; `inWord`
    tells whether a word character stands before the text. -/
def firstLead? (inWord : Bool) : Text → Option (Text × Text)
  | [] => none
  | c :: t =>
    if inWord then firstLead? (isWord c) t
    else match lead? (c :: t) with
      | some x => some x
      | none => firstLead? (isWord c) t

theorem find?_allFrom (inWord : Bool) (offset : Nat) (t rest : Text) :
    ((PlacedShape.allFrom inWord offset (t ++ brace :: rest)).find? (·.delimiterAt = offset + t.size)).map
      (fun p => (p.shape.base, p.shape.suffix)) = firstLead? inWord t := by
  induction t generalizing inWord offset with
  | nil =>
    have hnone : (PlacedShape.allFrom inWord offset (brace :: rest)).find? (·.delimiterAt = offset + Text.size []) = none := by
      rw [List.find?_eq_none]
      intro p hp
      have := PlacedShape.allFrom_bounds hp
      rw [Text.size_nil, decide_eq_true_eq]
      omega
    rw [List.nil_append, hnone]
    rfl
  | cons c t ih =>
    have hlater := ih (isWord c) (offset + c.utf8Size)
    rw [Nat.add_assoc, ← Text.size_cons] at hlater
    rw [List.cons_append, PlacedShape.allFrom, firstLead?]
    by_cases hw : inWord = true
    · rw [if_pos hw, if_pos hw, hlater]
    · rw [if_neg hw, if_neg hw, lead?_eq (c :: t) rest, List.cons_append]
      cases read? (c :: (t ++ brace :: rest)) with
      | none => exact hlater
      | some s =>
        have hat : decide ((⟨s, offset⟩ : PlacedShape).delimiterAt = offset + Text.size (c :: t)) =
            decide (s.lead.size = Text.size (c :: t)) := by
          rw [decide_eq_decide]
          exact Nat.add_left_cancel_iff
        simp only [List.find?_cons, Option.bind_some, hat]
        by_cases hsize : s.lead.size = Text.size (c :: t)
        · rw [if_pos hsize, decide_eq_true hsize]
          rfl
        · rw [if_neg hsize, decide_eq_false hsize]
          exact hlater

theorem lead?_opening (t : Text) : lead? (t ++ [brace]) = none := by
  have hends : ¬ endsLead (t.dropWhile isSuffixChar ++ [brace]) = true := by
    rw [endsLead_iff]
    rintro (hnil | ⟨v, hv, -⟩)
    · simp at hnil
    · rw [← List.cons_append] at hv
      exact absurd (List.append_inj' hv rfl).2 (by decide)
  unfold lead?
  rw [dropWhile_brace, if_neg hends]

theorem endsLead_doubled (t v : Text) : endsLead (t ++ brace :: brace :: v) = endsLead (t ++ brace :: v) := by
  cases t with
  | nil => rfl
  | cons c t =>
    by_cases hc : c = '['
    · subst hc
      show decide ((t ++ brace :: brace :: v).dropWhile (!isBracket ·) = [']']) =
        decide ((t ++ brace :: v).dropWhile (!isBracket ·) = [']'])
      rw [List.dropWhile_append, List.dropWhile_append]
      by_cases hfree : (t.dropWhile (!isBracket ·)).isEmpty = true
      · rw [if_pos hfree, if_pos hfree]
        rfl
      · -- the annotation closes before the braces
        rw [if_neg hfree, if_neg hfree]
        cases hrest : t.dropWhile (!isBracket ·) with
        | nil => exact absurd (by rw [hrest]; rfl) hfree
        | cons e r => simp
    · have hother : ∀ u : Text, endsLead (c :: u) = false := by
        intro u
        unfold endsLead
        split
        · rename_i h
          cases h
        · rename_i h
          exact absurd (List.cons.inj h).1 hc
        · rfl
      rw [List.cons_append, List.cons_append, hother, hother]

/-- The annotation is all that can hold a brace, and it holds two of them as well as one. -/
theorem lead?_doubled (t v : Text) : lead? (t ++ brace :: brace :: v) = lead? (t ++ brace :: v) := by
  unfold lead?
  rw [takeWhile_brace, takeWhile_brace, dropWhile_brace, dropWhile_brace, endsLead_doubled]

theorem firstLead?_opening (inWord : Bool) (t : Text) : firstLead? inWord (t ++ [brace]) = none := by
  induction t generalizing inWord with
  | nil => cases inWord <;> rfl
  | cons c t ih =>
    rw [List.cons_append, firstLead?, ih, ← List.cons_append, lead?_opening]
    split <;> rfl

theorem firstLead?_doubled (inWord : Bool) (t v : Text) :
    firstLead? inWord (t ++ brace :: brace :: v) = firstLead? inWord (t ++ brace :: v) := by
  induction t generalizing inWord with
  | nil =>
    have hnone : ∀ u : Text, lead? (brace :: u) = none := fun u => rfl
    have hword : isWord brace = false := by decide
    simp only [List.nil_append, firstLead?, hnone, hword]
    cases inWord <;> rfl
  | cons c t ih =>
    rw [List.cons_append, List.cons_append, firstLead?, firstLead?, ih, ← List.cons_append, ← List.cons_append,
      lead?_doubled]

end Shape

/-! ## Tagged braces -/

/-- Whether a brace behind the text stands behind a header. -/
def tagged (before : Text) : Bool :=
  ((Shape.firstLead? false before).bind fun x => Component.ofSymbol? x.1 (Suffix.split x.2).1).isSome

theorem among?_isSome (before rest : Text) :
    (Header.among? (PlacedShape.all (before ++ brace :: rest)) before.size).isSome = tagged before := by
  have hfind := Shape.find?_allFrom false 0 before rest
  rw [Nat.zero_add] at hfind
  unfold tagged Header.among? PlacedShape.all
  rw [← hfind]
  cases (PlacedShape.allFrom false 0 (before ++ brace :: rest)).find? (·.delimiterAt = before.size) with
  | none => rfl
  | some p =>
    show p.header?.isSome = (Component.ofSymbol? p.shape.base (Suffix.split p.shape.suffix).1).isSome
    exact Option.isSome_map

/-- The header in front of a brace ends there. -/
theorem among?_lead {a rest : Text} {header : Header}
    (h : Header.among? (PlacedShape.all (a ++ brace :: rest)) a.size = some header) :
    ∃ u lead, a = u ++ lead ∧ header.start = u.size ∧ (Shape.lead? lead).isSome = true ∧ tagged a = true := by
  have htagged := among?_isSome a rest
  rw [h] at htagged
  obtain ⟨p, hp, -, hsame, hat⟩ := Header.among?_shape h
  obtain ⟨u, ha, hstart, hread⟩ := PlacedShape.ends_in_front hp hat
  refine ⟨u, p.shape.lead, ha, hsame ▸ hstart, ?_, htagged.symm⟩
  rw [Shape.lead?_of_read? hread rfl]
  rfl

/-- No header reaches a brace over another one right in front of it. -/
theorem tagged_behind (before : Text) : tagged (before ++ [brace]) = false := by
  rw [tagged, Shape.firstLead?_opening]
  rfl

theorem tagged_doubled (before between : Text) :
    tagged (before ++ brace :: brace :: between) = tagged (before ++ brace :: between) := by
  rw [tagged, Shape.firstLead?_doubled, tagged]

end InstitutionalGrammar
