/-
  InstitutionalGrammar.Proofs.Header.Keys — every suffix that a header leaves behind has a key.

  A written suffix has no empty segment behind the first, and an empty first one is left out, so
  what remains of it starts with a segment that links. No segment holds a comma, so the segments
  of a suffix are read back from it.
  - `Text.pieces_join`: joined segments are the pieces of the text.
  - `Suffix.Unmarks`: what the first property marker leaves of the later segments.
  - `Suffix.split_pieces`, `Suffix.compose_segments`: the suffix that is left, and its key.
  - `Header.all_keyed`, `Header.among?_keyed`: the suffixes of headers.
-/

import InstitutionalGrammar.Proofs.Header.Places
import InstitutionalGrammar.Proofs.Outcome

namespace InstitutionalGrammar

/-- The suffix, if there is one, has a key. -/
def KeyedSuffix (suffix : Option Text) : Prop := ∀ t ∈ suffix, (Suffix.key? t).isSome

namespace KeyedSuffix

theorem or {a b : Option Text} (ha : KeyedSuffix a) (hb : KeyedSuffix b) : KeyedSuffix (a.or b) := by
  cases a with
  | none => exact hb
  | some t => exact ha

theorem bind_or {a : Option Text} (ha : KeyedSuffix a) (b : Option Text) :
    (a.or b).bind Suffix.key? = (a.bind Suffix.key?).or (b.bind Suffix.key?) := by
  cases a with
  | none => rfl
  | some t =>
    obtain ⟨k, hk⟩ := Option.isSome_iff_exists.1 (ha t rfl)
    simp [hk]

end KeyedSuffix

/-! ## Pieces -/

namespace Text

variable {c : Char} {a : Text}

theorem join_cons (c : Char) (t : Text) (ts : List Text) : join [c] (t :: ts) = t ++ ts.flatMap (c :: ·) := by
  induction ts generalizing t with
  | nil => simp [join]
  | cons s ts ih =>
    have hjoin : join [c] (t :: s :: ts) = t ++ [c] ++ join [c] (s :: ts) := rfl
    rw [hjoin, ih]
    simp

theorem pieces_of_not_mem (h : c ∉ a) : pieces c a = [a] := by
  induction a with
  | nil => rfl
  | cons e a ih =>
    obtain ⟨he, ha⟩ := not_or.1 (mt List.mem_cons.2 h)
    rw [pieces, if_neg (Ne.symm he), ih ha]

theorem pieces_append (h : c ∉ a) (t : Text) : pieces c (a ++ c :: t) = a :: pieces c t := by
  induction a with
  | nil => rw [List.nil_append, pieces, if_pos rfl]
  | cons e a ih =>
    obtain ⟨he, ha⟩ := not_or.1 (mt List.mem_cons.2 h)
    rw [List.cons_append, pieces, if_neg (Ne.symm he), ih ha]

theorem pieces_join {ts : List Text} (h : ∀ t ∈ ts, c ∉ t) (hne : ts ≠ []) : pieces c (join [c] ts) = ts := by
  induction ts with
  | nil => exact absurd rfl hne
  | cons t ts ih =>
    have ht : c ∉ t := h t (by simp)
    cases ts with
    | nil => exact pieces_of_not_mem ht
    | cons s ts =>
      have hjoin : join [c] (t :: s :: ts) = t ++ c :: join [c] (s :: ts) := by simp [join]
      rw [hjoin, pieces_append ht, ih (fun x hx => h x (List.mem_cons_of_mem _ hx)) (by simp)]

theorem pieces_ne_nil (c : Char) (t : Text) : pieces c t ≠ [] := by
  cases t with
  | nil => simp [pieces]
  | cons e t =>
    rw [pieces]
    split
    · simp
    · split <;> simp

theorem join_pieces (c : Char) (t : Text) : join [c] (pieces c t) = t := by
  induction t with
  | nil => rfl
  | cons e t ih =>
    obtain ⟨p, ps, hp⟩ := List.exists_cons_of_ne_nil (pieces_ne_nil c t)
    rw [hp, join_cons] at ih
    rw [pieces, hp]
    split
    · rename_i he
      rw [join_cons, he, List.nil_append, List.flatMap_cons, List.cons_append, ih]
    · rw [join_cons, List.cons_append, ih]

end Text

/-! ## Segments -/

namespace Suffix

variable {first raw : Text} {later before after rest segments : List Text} {s digits : Text} {property : Bool}

/-- A segment that is not empty. -/
def Segment (t : Text) : Prop := t ≠ [] ∧ ',' ∉ t

theorem not_mem_pieces (t : Text) : ∀ p ∈ Text.pieces ',' t, ',' ∉ p := by
  induction t with
  | nil => simp [Text.pieces]
  | cons c t ih =>
    intro p hp
    rw [Text.pieces] at hp
    split at hp
    · rcases List.mem_cons.1 hp with h | h
      · simp [h]
      · exact ih p h
    · rename_i hc
      split at hp
      · simp only [List.mem_singleton] at hp
        simp [hp, Ne.symm hc]
      · rename_i q qs hq
        rw [hq] at ih
        rcases List.mem_cons.1 hp with h | h
        · have := ih q (by simp)
          simp [h, this, Ne.symm hc]
        · exact ih p (by simp [h])

/-- A segment that marks a property. -/
def Marker (s : Text) : Prop := ∃ digits, s = 'p' :: digits ∧ ∀ c ∈ digits, c.isDigit = true

/-- The segment, unless it is empty. -/
def nonempty (s : Text) : List Text := if s = [] then [] else [s]

/-- What remains of the later segments, and whether one of them is a marker. The first marker loses its `p`, and is left
    out if that was all of it. -/
inductive Unmarks : List Text → Bool → List Text → Prop
  | plain {later : List Text} (h : ∀ s ∈ later, ¬ Marker s) : Unmarks later false later
  | marked {before after : List Text} {digits : Text} (h : ∀ s ∈ before, ¬ Marker s)
      (hdigits : ∀ c ∈ digits, c.isDigit = true) :
      Unmarks (before ++ ('p' :: digits) :: after) true (before ++ nonempty digits ++ after)

theorem markerDigits?_eq_none (h : ¬ Marker s) : markerDigits? s = none := by
  unfold markerDigits?
  split
  · rename_i digits
    rw [if_neg]
    exact fun hdigits => h ⟨digits, rfl, List.all_eq_true.1 hdigits⟩
  · rfl

theorem markerDigits?_marker (h : ∀ c ∈ digits, c.isDigit = true) : markerDigits? ('p' :: digits) = some digits :=
  if_pos (List.all_eq_true.2 h)

theorem dropMarker?_append (h : ∀ s ∈ before, ¬ Marker s) (ss : List Text) :
    dropMarker? (before ++ ss) = (dropMarker? ss).map (before ++ ·) := by
  induction before with
  | nil => simp
  | cons s before ih =>
    rw [List.cons_append, dropMarker?, markerDigits?_eq_none (h s (by simp))]
    simp only [ih fun x hx => h x (List.mem_cons_of_mem _ hx), Option.map_map]
    rfl

theorem dropMarker?_marker (h : ∀ c ∈ digits, c.isDigit = true) (ss : List Text) :
    dropMarker? (('p' :: digits) :: ss) = some (nonempty digits ++ ss) := by
  rw [dropMarker?, markerDigits?_marker h]
  cases digits <;> rfl

namespace Unmarks

theorem dropMarker? (h : Unmarks later property rest) :
    Suffix.dropMarker? later = if property then some rest else none := by
  cases h with
  | plain h =>
    have := dropMarker?_append h []
    rwa [List.append_nil] at this
  | marked h hdigits =>
    rw [dropMarker?_append h, dropMarker?_marker hdigits]
    simp

theorem marked_iff (h : Unmarks later property rest) : property = true ↔ ∃ s ∈ later, Marker s := by
  cases h with
  | plain h =>
    refine iff_of_false Bool.false_ne_true ?_
    rintro ⟨s, hs, hmarker⟩
    exact h s hs hmarker
  | @marked before after digits h hdigits => exact iff_of_true rfl ⟨'p' :: digits, by simp, digits, rfl, hdigits⟩

theorem total (later : List Text) : ∃ property rest, Unmarks later property rest := by
  induction later with
  | nil => exact ⟨false, [], .plain nofun⟩
  | cons s later ih =>
    by_cases hs : Marker s
    · obtain ⟨digits, rfl, hdigits⟩ := hs
      exact ⟨true, _, @marked [] later digits nofun hdigits⟩
    · obtain ⟨property, rest, h⟩ := ih
      have hcons : ∀ {ss : List Text}, (∀ x ∈ ss, ¬ Marker x) → ∀ x ∈ s :: ss, ¬ Marker x := fun hss x hx =>
        (List.mem_cons.1 hx).elim (fun e => e ▸ hs) (hss x)
      cases h with
      | plain h => exact ⟨false, _, .plain (hcons h)⟩
      | marked h hdigits => exact ⟨true, _, .marked (hcons h) hdigits⟩

/-- Which marker is the first is no matter of choice. -/
theorem functional {property' : Bool} {rest' : List Text} (h : Unmarks later property rest)
    (h' : Unmarks later property' rest') : property = property' ∧ rest = rest' := by
  obtain rfl : property = property' := Bool.eq_iff_iff.2 (h.marked_iff.trans h'.marked_iff.symm)
  refine ⟨rfl, ?_⟩
  cases property with
  | true => simpa [h'.dropMarker?] using h.dropMarker?.symm
  | false =>
    cases h
    cases h'
    rfl

/-- What is left of a suffix has no comma in its segments, and none of them is empty. -/
theorem segment (h : Unmarks later property rest) (hfirst : ',' ∉ first) (hlater : ∀ s ∈ later, Segment s) :
    ∀ s ∈ nonempty first ++ rest, Segment s := by
  have hnonempty : ∀ {t : Text}, ',' ∉ t → ∀ s ∈ nonempty t, Segment s := by
    intro t ht s hs
    unfold nonempty at hs
    split at hs
    · cases hs
    · rw [List.mem_singleton.1 hs]
      exact ⟨by assumption, ht⟩
  intro s hs
  rcases List.mem_append.1 hs with hs | hs
  · exact hnonempty hfirst s hs
  · cases h with
    | plain => exact hlater s hs
    | marked _ hdigits =>
      rcases List.mem_append.1 hs with hs | hs
      · rcases List.mem_append.1 hs with hs | hs
        · exact hlater s (by simp [hs])
        · exact hnonempty (fun hmem => absurd (hdigits ',' hmem) (by decide)) s hs
      · exact hlater s (by simp [hs])

end Unmarks

/-- Nothing is lost in a suffix: its segments stand between its commas. -/
theorem compose_segments (h : ∀ s ∈ segments, Segment s) :
    compose segments = (if segments = [] then none else some (Text.join [','] segments)) ∧
      (compose segments).bind key? = segments.head? := by
  cases segments with
  | nil => exact ⟨rfl, rfl⟩
  | cons s ss =>
    have hne : s ≠ [] := (h s (by simp)).1
    have hjoin : Text.join [','] (s :: ss) ≠ [] := by
      rw [Text.join_cons]
      exact List.append_ne_nil_of_left_ne_nil hne _
    have hcompose : compose (s :: ss) = some (Text.join [','] (s :: ss)) := by
      unfold compose
      split
      · contradiction
      · rfl
    have hpieces := Text.pieces_join (fun t ht => (h t ht).2) (List.cons_ne_nil s ss)
    refine ⟨by simpa using hcompose, ?_⟩
    rw [hcompose, Option.bind_some, key?, hpieces]
    cases s with
    | nil => contradiction
    | cons c s => rfl

theorem compose_keyed (h : ∀ s ∈ segments, Segment s) : KeyedSuffix (compose segments) := by
  intro t ht
  have hkey := (compose_segments h).2
  rw [Option.mem_def.1 ht, Option.bind_some] at hkey
  cases segments with
  | nil => cases ht
  | cons s ss => rw [hkey]; rfl

/-- What is left of a suffix is the first segment, unless it is empty, and what is left of the later ones. -/
theorem split_pieces (hp : Text.pieces ',' raw = first :: later) (hrest : Unmarks later property rest) :
    split raw = (property, compose (nonempty first ++ rest)) := by
  have hdrop := hrest.dropMarker?
  unfold split
  rw [hp]
  cases hrest with
  | plain =>
    simp only [hdrop]
    rfl
  | marked =>
    simp only [hdrop]
    rfl

theorem split_keyed (h : isWritten raw = true) : KeyedSuffix (split raw).2 := by
  have hcommas := not_mem_pieces raw
  obtain ⟨first, later, hp⟩ := List.exists_cons_of_ne_nil (Text.pieces_ne_nil ',' raw)
  obtain ⟨property, rest, hrest⟩ := Unmarks.total later
  rw [hp] at hcommas
  unfold isWritten at h
  rw [hp] at h
  simp only [Bool.and_eq_true, List.all_eq_true, decide_eq_true_eq] at h
  have hlater : ∀ s ∈ later, Segment s := fun s hs => ⟨(h.2 s hs).1, hcommas s (by simp [hs])⟩
  rw [split_pieces hp hrest]
  exact compose_keyed (hrest.segment (hcommas first (by simp)) hlater)

end Suffix

/-! ## Headers -/

theorem Shape.read?_isWritten {t : Text} {s : Shape} (h : Shape.read? t = some s) :
    Suffix.isWritten s.suffix = true := by
  unfold Shape.read? at h
  split at h
  · cases h
  · simp only at h
    split at h
    · rename_i hwritten
      split at h
      · obtain ⟨d, -, rfl⟩ := Option.map_eq_some_iff.1 h
        exact hwritten
      · cases h
    · cases h

namespace PlacedShape

theorem allFrom_isWritten {inWord : Bool} {offset : Nat} {t : Text} :
    ∀ p ∈ allFrom inWord offset t, Suffix.isWritten p.shape.suffix = true := by
  intro p hp
  obtain ⟨-, b, -, -, hread⟩ := read?_of_mem_allFrom hp
  exact Shape.read?_isWritten hread

theorem mem_disjointFrom {stop : Nat} {ps : List PlacedShape} {p : PlacedShape} (h : p ∈ disjointFrom stop ps) :
    p ∈ ps := by
  induction ps generalizing stop with
  | nil => cases h
  | cons q ps ih =>
    rw [disjointFrom] at h
    split at h
    · rcases List.mem_cons.1 h with h | h
      · simp [h]
      · exact List.mem_cons_of_mem _ (ih h)
    · exact List.mem_cons_of_mem _ (ih h)

theorem header?_keyed {p : PlacedShape} (hp : Suffix.isWritten p.shape.suffix = true) {h : Header}
    (hh : p.header? = some h) : KeyedSuffix h.suffix := by
  obtain ⟨c, -, rfl⟩ := Option.map_eq_some_iff.1 hh
  exact Suffix.split_keyed hp

end PlacedShape

namespace Header

/-- The shape that decides stands where the header does. -/
theorem among?_shape {shapes : List PlacedShape} {offset : Nat} {h : Header} (hh : among? shapes offset = some h) :
    ∃ p ∈ shapes, p.header? = some h ∧ p.start = h.start ∧ p.delimiterAt = offset := by
  obtain ⟨p, hp, hheader⟩ := Option.bind_eq_some_iff.1 hh
  have hstart : p.start = h.start := by
    obtain ⟨c, -, rfl⟩ := Option.map_eq_some_iff.1 hheader
    rfl
  have hat := List.find?_some hp
  exact ⟨p, List.mem_of_find?_eq_some hp, hheader, hstart, of_decide_eq_true hat⟩

theorem all_keyed {text : Text} {h : Header} (hh : h ∈ all text) : KeyedSuffix h.suffix := by
  obtain ⟨p, hp, hh⟩ := List.mem_filterMap.1 hh
  exact PlacedShape.header?_keyed (PlacedShape.allFrom_isWritten p (PlacedShape.mem_disjointFrom hp)) hh

theorem among?_keyed {text : Text} {offset : Nat} {h : Header}
    (hh : among? (PlacedShape.all text) offset = some h) : KeyedSuffix h.suffix := by
  obtain ⟨p, hp, hh, -⟩ := among?_shape hh
  exact PlacedShape.header?_keyed (PlacedShape.allFrom_isWritten p hp) hh

end Header

/-- A tagged block is a header at the start, braces that close at the end, and what stands between them. -/
theorem TaggedBlock.read_parts {text : Text} {b : TaggedBlock} (h : read text = .ok (some b)) :
    ∃ s, Shape.read? text.trim = some s ∧ PlacedShape.header? ⟨s, 0⟩ = some b.header ∧ b.header.delimiter = .braces ∧
      ∃ close, closeOf text.trim b.header.delimiterAt .braces = .ok (some close) ∧ close + 1 = text.trim.size ∧
        text.trim.slice (b.header.delimiterAt + 1) close = .ok b.inner := by
  unfold read at h
  simp only at h
  split at h
  · cases h
  · rename_i header hheader
    obtain ⟨s, hs, hheader⟩ := Option.bind_eq_some_iff.1 hheader
    split at h
    · cases h
    · rename_i hbraces
      obtain ⟨close, hclose, h⟩ := bind_eq_ok.1 h
      cases close with
      | none => cases h
      | some close =>
        simp only at h
        split at h
        · cases h
        · rename_i hend
          obtain ⟨inner, hinner, h⟩ := bind_eq_ok.1 h
          cases h
          exact ⟨s, hs, hheader, Decidable.not_not.1 hbraces, close, hclose, Decidable.not_not.1 hend, hinner⟩

end InstitutionalGrammar
