/-
  InstitutionalGrammar.Proofs.Header.Stands — where headers, and what they enclose, stand in a text.

  A header starts and ends between characters and its delimiter stands where it says, so a search for the
  closing delimiter and the cuts around it never miss the text.
  - `closeOf_at`: the search from an opening delimiter.
  - `Header.all_stands`, `Header.among?_stands`: the headers of a text.
  - `TaggedBlock.read_part`: the inside of a tagged block.
-/

import InstitutionalGrammar.Proofs.Header.Keys
import InstitutionalGrammar.Proofs.Header.Places
import InstitutionalGrammar.Proofs.Meets
import InstitutionalGrammar.Proofs.Text.Matching

namespace InstitutionalGrammar

variable {d : Delimiters} {text : Text} {E : Failure → Prop} {i : Nat}

/-! ## Delimiters -/

/-- The search from an opening delimiter finds a closing one behind it, if it finds any. -/
theorem closeOf_at (hstart : text.At i [d.opening]) :
    Meets E (fun found => ∀ close ∈ found, text.At close [d.closing] ∧ i + 1 ≤ close) (closeOf text i d) := by
  cases hfound : closeOf text i d with
  | error e =>
    obtain ⟨a, b, rfl, rfl⟩ := hstart
    rw [closeOf, Text.dropBytes?_append] at hfound
    cases hfound
  | ok found =>
    rintro close rfl
    have hmatched : Matched d text i close := ⟨hstart, hfound⟩
    exact ⟨hmatched.closes, hmatched.lt⟩

/-! ## Headers -/

/-- The header starts between characters, and its delimiter stands behind its start. -/
structure Header.Stands (text : Text) (h : Header) : Prop where
  start : text.Cut h.start
  opens : text.At h.delimiterAt [h.delimiter.opening]
  before : h.start ≤ h.delimiterAt

/-- A shape stands at the start of the text that it is read from. -/
theorem Shape.read?_written {s : Shape} (h : read? text = some s) : text.At 0 s.written := by
  obtain ⟨rest, htext, -⟩ := read?_parts h
  refine ⟨[], rest, ?_, rfl⟩
  rw [htext, written, lead]
  simp

namespace PlacedShape

theorem written_at {p : PlacedShape} (hp : p ∈ all text) : text.At p.start p.shape.written := by
  obtain ⟨a, b, rfl, hstart, hread⟩ := read?_of_mem_allFrom hp
  obtain ⟨rest, hb, -⟩ := read?_parts hread
  refine ⟨a, rest, ?_, by rw [hstart, Nat.zero_add]⟩
  rw [hb, Shape.written, Shape.lead]
  simp

theorem header?_stands {p : PlacedShape} {h : Header} (hp : text.At p.start p.shape.written) (hh : p.header? = some h) :
    h.Stands text ∧ h.delimiterAt = p.delimiterAt := by
  obtain ⟨c, -, rfl⟩ := Option.map_eq_some_iff.1 hh
  exact ⟨⟨hp.cut, hp.right, Nat.le_add_right _ _⟩, rfl⟩

end PlacedShape

namespace Header

theorem all_stands {h : Header} (hh : h ∈ all text) : h.Stands text := by
  obtain ⟨p, hp, hh⟩ := List.mem_filterMap.1 hh
  exact (PlacedShape.header?_stands (PlacedShape.written_at (PlacedShape.mem_disjointFrom hp)) hh).1

theorem among?_stands {h : Header} (hh : among? (PlacedShape.all text) i = some h) :
    h.Stands text ∧ h.delimiterAt = i := by
  obtain ⟨p, hp, hheader, -, rfl⟩ := among?_shape hh
  exact PlacedShape.header?_stands (PlacedShape.written_at hp) hheader

end Header

/-- Whether the trimmed text is a tagged block can always be told, and its inside ends at the closing brace. -/
theorem TaggedBlock.read_part (text : Text) :
    Meets E (fun found => ∀ b ∈ found, KeyedSuffix b.header.suffix ∧
      ∃ i, text.trim.At i b.inner ∧ text.trim.At (i + b.inner.size) [Delimiters.braces.closing]) (read text) := by
  have hnone : ∀ b ∈ (none : Option TaggedBlock), KeyedSuffix b.header.suffix ∧
      ∃ i, text.trim.At i b.inner ∧ text.trim.At (i + b.inner.size) [Delimiters.braces.closing] := nofun
  unfold read
  simp only
  split
  · exact hnone
  · rename_i header hheader
    obtain ⟨s, hs, hheader⟩ := Option.bind_eq_some_iff.1 hheader
    obtain ⟨hstands, -⟩ := PlacedShape.header?_stands (p := ⟨s, 0⟩) (Shape.read?_written hs) hheader
    split
    · exact hnone
    · rename_i hbraces
      have hopens := hstands.opens
      rw [not_not.1 hbraces] at hopens
      refine (closeOf_at hopens).bind fun close hclose => ?_
      cases close with
      | none => exact hnone
      | some close =>
        obtain ⟨hcloses, hle⟩ := hclose close rfl
        simp only
        split
        · exact hnone
        · refine (Meets.cut (cut_opening hopens) hcloses.cut hle).bind fun inner hinner => ?_
          rintro b ⟨⟩
          refine ⟨PlacedShape.header?_keyed (Shape.read?_isWritten hs) hheader, header.delimiterAt + 1, hinner.1, ?_⟩
          rw [hinner.2]
          exact hcloses

end InstitutionalGrammar
