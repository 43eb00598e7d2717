/-
  InstitutionalGrammar.Proofs.Header.Written — written headers are read back.

  A header is written as a symbol, the segments of a suffix, an annotation and a delimiter. Behind a text
  that holds no bracket and ends in a blank it is found where it was written: no shape that starts in that
  text reaches over its end. The suffix that the header gets is the segments that remain, for none of them
  holds a comma.
  - `WrittenHeader`, `WrittenHeader.Leaves`, `WrittenHeader.ReadAs`: the written form and its reading.
  - `WrittenHeader.mem_all_iff`: the header that stands at the written form, if there is one.
  - `written_read_back`: the reading of every written header.
-/

import InstitutionalGrammar.Proofs.Header.Search

namespace InstitutionalGrammar

/-! ## Symbols -/

theorem Component.ofSymbol?_iff {b : Text} {property : Bool} {c : Component} :
    ofSymbol? b property = some c ↔ c.base = b ∧ c.isProperty = property := by
  constructor
  · intro h
    simpa using List.find?_some h
  · rintro ⟨rfl, rfl⟩
    exact ofSymbol?_base c

/-! ## Margins -/

/-- A text in front of a header: no bracket, and a blank at the end unless it is empty. -/
structure Margin (u : Text) : Prop where
  free : ∀ c ∈ u, Shape.isBracket c = false
  blank : ∀ c ∈ u.getLast?, isBlank c = true

/-- No shape that starts in a margin reaches over its end. -/
theorem Margin.ends_before {u t : Text} {p : PlacedShape} (hu : Margin u) (hp : p ∈ PlacedShape.all (u ++ t))
    (hlt : p.start < u.size) : p.delimiterAt < u.size := by
  obtain ⟨a, b, hab, hstart, -, hread⟩ := PlacedShape.mem_all_iff.1 hp
  obtain ⟨m, rfl, rfl⟩ := Text.append_inj_size_le hab.symm (by omega)
  rw [Text.size_append] at hlt ⊢
  rcases List.eq_nil_or_concat' m with rfl | ⟨m, c, rfl⟩
  · rw [Text.size_nil] at hlt
    omega
  · have hc : isBlank c = true := hu.blank c (by simp [← List.append_assoc])
    have hopening : ∀ d, isBlank d = false → c ≠ d := by
      rintro d hd rfl
      rw [hc] at hd
      cases hd
    have hstop : c ≠ '[' ∧ isOpening c = false := by
      refine ⟨hopening _ (by decide), ?_⟩
      simp [isOpening, hopening _ (show isBlank Delimiters.parentheses.opening = false by decide),
        hopening _ (show isBlank Delimiters.braces.opening = false by decide)]
    have hends := Shape.read?_stops (u := m) (t := t) (fun e he => hu.free e (by simp [he])) (isWord_of_isBlank hc).2 hstop
      (by simpa using hread)
    unfold PlacedShape.delimiterAt
    rw [Text.size_append]
    omega

/-! ## Written headers -/

/-- A header as it is written. -/
structure WrittenHeader where
  base : Text
  /-- The first segment of the suffix, or nothing. -/
  first : Text
  /-- The segments behind commas. -/
  later : List Text
  /-- What the brackets of the annotation enclose. -/
  note : Option Text
  delimiter : Delimiters
  base_mem : base ∈ Component.bases
  leading : Suffix.Leading first
  trailing : ∀ s ∈ later, Suffix.Trailing s
  free : ∀ v ∈ note, ∀ c ∈ v, Shape.isBracket c = false

namespace WrittenHeader

variable {w w' : WrittenHeader} {u v : Text} {later rest segments : List Text} {property : Bool} {h : Header}

def suffix (w : WrittenHeader) : Text := w.first ++ w.later.flatMap (',' :: ·)

def remark (w : WrittenHeader) : Option Text := w.note.map fun v => '[' :: v ++ [']']

def text (w : WrittenHeader) : Text := w.base ++ w.suffix ++ w.remark.getD [] ++ [w.delimiter.opening]

/-- Some segment behind a comma marks a property. -/
def Marked (w : WrittenHeader) : Prop := ∃ s ∈ w.later, Suffix.Marker s

/-- The segments that remain of the suffix: the first one, unless it is empty, and what is left of the later ones. -/
def Leaves (w : WrittenHeader) (segments : List Text) : Prop :=
  ∃ property rest, Suffix.Unmarks w.later property rest ∧ segments = Suffix.nonempty w.first ++ rest

/-- The header is the written one, when that starts at the byte. -/
structure ReadAs (w : WrittenHeader) (start : Nat) (h : Header) : Prop where
  base : h.component.base = w.base
  property : h.component.isProperty = true ↔ w.Marked
  remark : h.remark = w.remark
  delimiter : h.delimiter = w.delimiter
  ends : h.delimiterAt + 1 = start + w.text.size
  suffix : ∃ segments, w.Leaves segments ∧ h.suffix = if segments = [] then none else some (Text.join [','] segments)
  /-- The key is the first segment that remains. -/
  key : ∃ segments, w.Leaves segments ∧ h.suffix.bind Suffix.key? = segments.head?

def shape (w : WrittenHeader) : Shape := ⟨w.base, w.suffix, w.remark, w.delimiter⟩

theorem suffix_eq (w : WrittenHeader) : w.suffix = Text.join [','] (w.first :: w.later) := (Text.join_cons _ _ _).symm

theorem shape_sound (w : WrittenHeader) : w.shape.Sound where
  base := w.base_mem
  suffix := Suffix.isWritten_iff.2 ⟨w.first, w.later, w.suffix_eq, w.leading, w.trailing⟩
  remark := by
    intro r hr
    obtain ⟨v, hv, rfl⟩ := Option.map_eq_some_iff.1 hr
    exact ⟨v, rfl, w.free v hv⟩

theorem read?_text (w : WrittenHeader) (v : Text) : Shape.read? (w.text ++ v) = some w.shape :=
  Shape.read?_iff.2 ⟨w.shape_sound, v, rfl⟩

theorem Leaves.segment (h : w.Leaves segments) : ∀ s ∈ segments, Suffix.Segment s := by
  obtain ⟨property, rest, hrest, rfl⟩ := h
  exact hrest.segment (Suffix.comma_not_mem w.leading.tails) fun s hs => (w.trailing s hs).segment

theorem split_suffix (hrest : Suffix.Unmarks w.later property rest) :
    Suffix.split w.suffix = (property, Suffix.compose (Suffix.nonempty w.first ++ rest)) := by
  rw [suffix_eq, Suffix.split_pieces (Suffix.pieces_written w.leading w.trailing) hrest]

/-! ## Reading -/

theorem mem_all_text (w : WrittenHeader) (hu : Margin u) (v : Text) :
    ⟨w.shape, u.size⟩ ∈ PlacedShape.all (u ++ (w.text ++ v)) := by
  refine PlacedShape.mem_all_iff.2 ⟨u, w.text ++ v, rfl, rfl, ?_, w.read?_text v⟩
  unfold wordAfter
  cases hlast : u.getLast? with
  | none => rfl
  | some c => exact (isWord_of_isBlank (hu.blank c hlast)).1

/-- The search from the left does not leave out the written form. -/
theorem mem_disjointFrom (w : WrittenHeader) (hu : Margin u) (v : Text) :
    ⟨w.shape, u.size⟩ ∈ PlacedShape.disjointFrom 0 (PlacedShape.all (u ++ (w.text ++ v))) := by
  rcases PlacedShape.disjointFrom_hides (PlacedShape.allFrom_increasing _ _ _) (w.mem_all_text hu v) (Nat.zero_le _)
    with h | ⟨m, hm, hlt, hle⟩
  · exact h
  · exact absurd (hu.ends_before (PlacedShape.mem_disjointFrom hm) hlt) (Nat.not_lt.2 hle)

/-- A header at a byte with the parts that are not left to the symbol and the suffix. -/
def header (w : WrittenHeader) (c : Component) (suffix : Option Text) (start : Nat) : Header :=
  ⟨c, suffix, w.remark, start, start + w.shape.lead.size, w.delimiter⟩

/-- The header at the written form, if there is one, is told by the symbol and the marker alone. -/
theorem mem_all_iff (hu : Margin u) (v : Text) (hrest : Suffix.Unmarks w.later property rest) :
    h ∈ Header.all (u ++ (w.text ++ v)) ∧ h.start = u.size ↔ ∃ c : Component, c.base = w.base ∧
      c.isProperty = property ∧ h = w.header c (Suffix.compose (Suffix.nonempty w.first ++ rest)) u.size := by
  have hheader : PlacedShape.header? ⟨w.shape, u.size⟩ = some h ↔ ∃ c : Component, c.base = w.base ∧
      c.isProperty = property ∧ h = w.header c (Suffix.compose (Suffix.nonempty w.first ++ rest)) u.size := by
    have hsplit : Suffix.split w.shape.suffix = _ := split_suffix hrest
    unfold PlacedShape.header?
    rw [hsplit]
    simp only [Option.map_eq_some_iff, Component.ofSymbol?_iff, and_assoc, eq_comm (b := h)]
    rfl
  rw [← hheader]
  constructor
  · rintro ⟨hh, hstart⟩
    obtain ⟨p, hp, hh⟩ := Header.mem_all_iff.1 hh
    have hsame : p.start = u.size := (PlacedShape.header?_places hh).1.symm.trans hstart
    rwa [PlacedShape.all_start_inj (PlacedShape.mem_disjointFrom hp) (w.mem_all_text hu v) hsame] at hh
  · intro hh
    exact ⟨Header.mem_all_iff.2 ⟨_, w.mem_disjointFrom hu v, hh⟩, (PlacedShape.header?_places hh).1⟩

theorem readAs (w : WrittenHeader) (hu : Margin u) (hh : h ∈ Header.all (u ++ (w.text ++ v)))
    (hstart : h.start = u.size) : w.ReadAs u.size h := by
  obtain ⟨property, rest, hrest⟩ := Suffix.Unmarks.total w.later
  obtain ⟨c, hbase, hproperty, rfl⟩ := (mem_all_iff hu v hrest).1 ⟨hh, hstart⟩
  have hleaves : w.Leaves (Suffix.nonempty w.first ++ rest) := ⟨property, rest, hrest, rfl⟩
  obtain ⟨hsuffix, hkey⟩ := Suffix.compose_segments hleaves.segment
  exact {
    base := hbase
    property := by
      show c.isProperty = true ↔ _
      rw [hproperty]
      exact hrest.marked_iff
    remark := rfl
    delimiter := rfl
    ends := by
      have hsize : w.text.size = w.shape.lead.size + 1 := by
        show Text.size (w.shape.lead ++ [w.delimiter.opening]) = _
        rw [Text.size_append, size_opening]
      show u.size + w.shape.lead.size + 1 = _
      omega
    suffix := ⟨_, hleaves, hsuffix⟩
    key := ⟨_, hleaves, hkey⟩ }

theorem Leaves.functional {segments' : List Text} (h : w.Leaves segments) (h' : w.Leaves segments') :
    segments = segments' := by
  obtain ⟨_, _, hrest, rfl⟩ := h
  obtain ⟨_, _, hrest', rfl⟩ := h'
  rw [(hrest.functional hrest').2]

theorem Leaves.head? (h : w.Leaves segments) (hfirst : w.first ≠ []) : segments.head? = some w.first := by
  obtain ⟨_, _, -, rfl⟩ := h
  rw [Suffix.nonempty, if_neg hfirst]
  rfl

end WrittenHeader

/-- A header written behind a margin is found exactly if its symbol has a component for the marker. It is then read as
    it was written, and its suffix has a key. Two headers that leave the same segments, as a component and its property
    do that differ in the marker alone, get the same suffix; two with the same first segment get the same key. -/
theorem written_read_back (w : WrittenHeader) {u : Text} (hu : Margin u) (v : Text) :
    ((∃ h ∈ Header.all (u ++ (w.text ++ v)), h.start = u.size) ↔
      ∃ c : Component, c.base = w.base ∧ (c.isProperty = true ↔ w.Marked)) ∧
    (∀ h ∈ Header.all (u ++ (w.text ++ v)), h.start = u.size → w.ReadAs u.size h ∧ KeyedSuffix h.suffix) ∧
    (∀ (w' : WrittenHeader) (u' : Text), Margin u' → ∀ v' : Text,
      ∀ h ∈ Header.all (u ++ (w.text ++ v)), h.start = u.size →
      ∀ h' ∈ Header.all (u' ++ (w'.text ++ v')), h'.start = u'.size →
        ((∃ segments, w.Leaves segments ∧ w'.Leaves segments) → h'.suffix = h.suffix) ∧
        (w.first ≠ [] → w'.first = w.first →
          h.suffix.bind Suffix.key? = some w.first ∧ h'.suffix.bind Suffix.key? = some w.first)) := by
  refine ⟨?_, fun h hh hstart => ⟨w.readAs hu hh hstart, Header.all_keyed hh⟩, ?_⟩
  · obtain ⟨property, rest, hrest⟩ := Suffix.Unmarks.total w.later
    have hfound := fun h => WrittenHeader.mem_all_iff (h := h) hu v hrest
    have hmarked : ∀ c : Component, (c.isProperty = true ↔ w.Marked) ↔ c.isProperty = property := fun c => by
      have hw : property = true ↔ w.Marked := hrest.marked_iff
      rw [← hw, ← Bool.eq_iff_iff]
    simp only [hfound, hmarked]
    constructor
    · rintro ⟨h, c, hbase, hproperty, -⟩
      exact ⟨c, hbase, hproperty⟩
    · rintro ⟨c, hbase, hproperty⟩
      exact ⟨_, c, hbase, hproperty, rfl⟩
  · intro w' u' hu' v' h hh hstart h' hh' hstart'
    have hread := w.readAs hu hh hstart
    have hread' := w'.readAs hu' hh' hstart'
    constructor
    · rintro ⟨segments, hleaves, hleaves'⟩
      obtain ⟨_, hs, hsuffix⟩ := hread.suffix
      obtain ⟨_, hs', hsuffix'⟩ := hread'.suffix
      rw [hsuffix, hsuffix', hs.functional hleaves, hs'.functional hleaves']
    · intro hne hfirst
      obtain ⟨_, hs, hkey⟩ := hread.key
      obtain ⟨_, hs', hkey'⟩ := hread'.key
      rw [hkey, hkey', hs.head? hne, hs'.head? (hfirst ▸ hne), hfirst]
      exact ⟨rfl, rfl⟩

/-- The property of the second of some attributes. -/
def describedAttributes : WrittenHeader where
  base := ['A']
  first := ['1']
  later := [['p', '2']]
  note := some ['n']
  delimiter := .parentheses
  base_mem := by decide
  leading := ⟨Or.inl (by decide), nofun⟩
  trailing := List.forall_mem_singleton.2 ⟨by decide, Text.forall_of_all (by decide)⟩
  free := by
    rintro v ⟨⟩
    exact Text.forall_of_all (by decide)

/-- The attributes that it describes. -/
def plainAttributes : WrittenHeader where
  base := ['A']
  first := ['1']
  later := [['2']]
  note := none
  delimiter := .braces
  base_mem := by decide
  leading := ⟨Or.inl (by decide), nofun⟩
  trailing := List.forall_mem_singleton.2 ⟨by decide, Text.forall_of_all (by decide)⟩
  free := nofun

theorem written_read_back_attributes :
    ∃ h ∈ Header.all ("x ".toList ++ (describedAttributes.text ++ "y) z".toList)),
      h.start = 2 ∧ describedAttributes.ReadAs 2 h ∧ h.component.isProperty = true ∧
      ∃ h' ∈ Header.all ([] ++ (plainAttributes.text ++ "I(y)\x7d".toList)),
        h'.start = 0 ∧ h'.component.isProperty = false ∧ h'.suffix = h.suffix ∧
          h'.suffix.bind Suffix.key? = some ['1'] := by
  have hmargin : Margin "x ".toList := ⟨Text.forall_of_all (by decide), by rintro c ⟨⟩; decide⟩
  have hempty : Margin [] := ⟨nofun, nofun⟩
  have hmarked : describedAttributes.Marked := ⟨['p', '2'], by decide, ['2'], rfl, Text.forall_of_all (by decide)⟩
  have hunmarked : ∀ s ∈ plainAttributes.later, ¬ Suffix.Marker s := by
    rintro s hs ⟨digits, rfl, -⟩
    simp [plainAttributes] at hs
  have hplain : ¬ plainAttributes.Marked := fun ⟨s, hs, hmarker⟩ => hunmarked s hs hmarker
  obtain ⟨hfound, hread, hpair⟩ := written_read_back describedAttributes hmargin "y) z".toList
  obtain ⟨hfound', hread', -⟩ := written_read_back plainAttributes hempty "I(y)\x7d".toList
  obtain ⟨h, hh, hstart⟩ := hfound.2 ⟨.attributesProperty, rfl, iff_of_true rfl hmarked⟩
  obtain ⟨h', hh', hstart'⟩ := hfound'.2 ⟨.attributes, rfl, iff_of_false Bool.false_ne_true hplain⟩
  obtain ⟨hsame, hkeys⟩ := hpair plainAttributes [] hempty "I(y)\x7d".toList h hh hstart h' hh' hstart'
  have hsegments : describedAttributes.Leaves [['1'], ['2']] ∧ plainAttributes.Leaves [['1'], ['2']] :=
    ⟨⟨true, _, @Suffix.Unmarks.marked [] [] ['2'] nofun (Text.forall_of_all (by decide)), rfl⟩,
      ⟨false, _, .plain hunmarked, rfl⟩⟩
  refine ⟨h, hh, hstart, (hread h hh hstart).1, (hread h hh hstart).1.property.2 hmarked, h', hh', hstart', ?_,
    hsame ⟨_, hsegments⟩, (hkeys (by decide) rfl).2⟩
  rw [Bool.eq_false_iff, Ne, (hread' h' hh' hstart').1.property]
  exact hplain

end InstitutionalGrammar
