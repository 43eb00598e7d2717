/-
  InstitutionalGrammar.Proofs.Layout.Contents — the simple slots of a text without blocks.

  - `occurrences_pieces`: the occurrences of a component are its contents among the pieces.
  - `componentTree?_none`, `componentTree?_single`: the tree of a component that has no content or
    one.
  - `atomicStatement_eq`: the statement with the trees of all components in its simple slots.
-/

import InstitutionalGrammar.Proofs.Layout.Pieces
import InstitutionalGrammar.Proofs.Outcome
import InstitutionalGrammar.Proofs.Text.Matching
import InstitutionalGrammar.Reading.Basic

namespace InstitutionalGrammar

/-- The content of a component, in parentheses. -/
structure Content where
  /-- The byte of the symbol. -/
  start : Nat
  component : Component
  inner : Text

namespace Content

def header (x : Content) : Header := x.component.headerAt x.start .parentheses

def occurrence (x : Content) : Occurrence where
  header := x.header
  close := x.start + x.component.symbol.size + 1 + x.inner.size
  raw := (Piece.content x.component x.inner).written
  body := Delimiters.parentheses.opening :: (x.inner ++ [Delimiters.parentheses.closing])

end Content

def Piece.isBlock : Piece → Bool
  | block .. => true
  | _ => false

/-- The content that a piece at byte `off` is, if it is one. -/
def Piece.contents (off : Nat) : Piece → List Content
  | content c inner => [⟨off, c, inner⟩]
  | _ => []

/-- The contents among the pieces, when the first piece stands at byte `off`. -/
def contentsFrom (off : Nat) : List Piece → List Content
  | [] => []
  | x :: ps => x.contents off ++ contentsFrom (off + x.written.size) ps

/-! ## Headers -/

/-- The shapes of a piece that is no block. -/
theorem allFrom_piece {x : Piece} (hx : x.Sound) (hb : x.isBlock = false) (off : Nat) (rest : Text) :
    PlacedShape.allFrom false off (x.written ++ rest) =
      (x.contents off).map (fun y => ⟨y.component.shape .parentheses, y.start⟩) ++
        PlacedShape.allFrom false (off + x.written.size) rest := by
  cases x with
  | gap t =>
    have ht : Gap t := hx
    rw [Piece.written, PlacedShape.allFrom_quiet ht.quiet, ht.clear.wordAfter]
    rfl
  | content c inner =>
    have hclear : Clear (inner ++ [Delimiters.parentheses.closing]) := .closing inner .parentheses
    rw [Piece.written, List.append_assoc, List.cons_append, c.allFrom_symbol, PlacedShape.allFrom_quiet hx.2,
      hclear.wordAfter]
    simp [Piece.contents, Nat.add_assoc]
  | block tag inner => cases hb

theorem allFrom_pieces {ps : List Piece} (h : ∀ x ∈ ps, x.Sound ∧ x.isBlock = false) (off : Nat) :
    PlacedShape.allFrom false off (ps.flatMap Piece.written) =
      (contentsFrom off ps).map fun y => ⟨y.component.shape .parentheses, y.start⟩ := by
  induction ps generalizing off with
  | nil => rfl
  | cons x ps ih =>
    have hx := h x (by simp)
    rw [List.flatMap_cons, allFrom_piece hx.1 hx.2, ih (fun y hy => h y (by simp [hy])), contentsFrom, List.map_append]

/-- The headers of contents do not overlap. -/
theorem disjointFrom_contents (ps : List Piece) {stop off : Nat} (h : stop ≤ off) :
    PlacedShape.disjointFrom stop
        ((contentsFrom off ps).map fun y => ⟨y.component.shape .parentheses, y.start⟩) =
      (contentsFrom off ps).map fun y => ⟨y.component.shape .parentheses, y.start⟩ := by
  induction ps generalizing stop off with
  | nil => rfl
  | cons x ps ih =>
    cases x with
    | gap t => exact ih (Nat.le_trans h (Nat.le_add_right _ _))
    | block tag inner => exact ih (Nat.le_trans h (Nat.le_add_right _ _))
    | content c inner =>
      have hstop : (⟨c.shape .parentheses, off⟩ : PlacedShape).delimiterAt + 1 ≤
          off + (Piece.content c inner).written.size := by
        simp only [PlacedShape.delimiterAt, c.lead_shape, Piece.written, Text.size_append, Text.size_cons,
          Delimiters.utf8Size_opening]
        omega
      simp only [contentsFrom, Piece.contents, List.singleton_append, List.map_cons, PlacedShape.disjointFrom, h,
        if_true]
      rw [ih hstop]

theorem headers_pieces {ps : List Piece} (h : ∀ x ∈ ps, x.Sound ∧ x.isBlock = false) :
    Header.all (ps.flatMap Piece.written) = (contentsFrom 0 ps).map Content.header := by
  unfold Header.all PlacedShape.all
  rw [allFrom_pieces h, disjointFrom_contents ps (Nat.le_refl 0), List.filterMap_map]
  have hsome : (PlacedShape.header? ∘ fun y : Content => ⟨y.component.shape .parentheses, y.start⟩) =
      fun y => some y.header := funext fun y => y.component.header?_symbol .parentheses y.start
  rw [hsome, List.filterMap_eq_map']

/-! ## Occurrences -/

theorem ofHeader_content {u : Text} {c : Component} {inner : Text} (hi : Tidy inner) (v : Text) :
    Occurrence.ofHeader (u ++ ((Piece.content c inner).written ++ v)) (Content.header ⟨u.size, c, inner⟩) =
      .ok (Content.occurrence ⟨u.size, c, inner⟩) := by
  have htext : u ++ ((Piece.content c inner).written ++ v) =
      (u ++ c.symbol) ++ Delimiters.parentheses.opening :: (inner ++ Delimiters.parentheses.closing :: v) := by
    simp [Piece.written]
  have hclose := hi.nested.closeOf .parentheses (u ++ c.symbol) v
  have hraw : Text.slice (u ++ ((Piece.content c inner).written ++ v)) u.size
      (u.size + c.symbol.size + 1 + inner.size + 1) = .ok (Piece.content c inner).written :=
    Text.slice_parts (a := u) (c := v) (by simp) rfl (by simp [Piece.written]; omega)
  have hbody : Text.slice (u ++ ((Piece.content c inner).written ++ v)) (u.size + c.symbol.size)
      (u.size + c.symbol.size + 1 + inner.size + 1) =
        .ok (Delimiters.parentheses.opening :: (inner ++ [Delimiters.parentheses.closing])) :=
    Text.slice_parts (a := u ++ c.symbol) (c := v) (by simp [Piece.written]) (by simp) (by simp; omega)
  rw [← htext, Text.size_append] at hclose
  unfold Occurrence.ofHeader
  simp only [Content.header, Component.headerAt, hclose, hraw, hbody, ok_bind]
  rfl

theorem mapM_ofHeader_pieces {ps : List Piece} (h : ∀ x ∈ ps, x.Sound) (c : Component) {u text : Text}
    (ht : text = u ++ ps.flatMap Piece.written) :
    (((contentsFrom u.size ps).filter (·.component = c)).map Content.header).mapM (Occurrence.ofHeader text) =
      .ok (((contentsFrom u.size ps).filter (·.component = c)).map Content.occurrence) := by
  induction ps generalizing u with
  | nil => rfl
  | cons x ps ih =>
    have hps := ih (u := u ++ x.written) (fun y hy => h y (by simp [hy])) (by rw [ht]; simp)
    rw [Text.size_append] at hps
    simp only [contentsFrom, List.filter_append, List.map_append, List.mapM_append, hps]
    cases x with
    | gap t => rfl
    | block tag inner => rfl
    | content e inner =>
      by_cases hc : e = c
      · have hsound := h (.content e inner) (by simp)
        have hhead := ofHeader_content (u := u) (c := e) hsound.1 (ps.flatMap Piece.written)
        rw [List.flatMap_cons] at ht
        rw [← ht] at hhead
        simp only [Piece.contents, hc, decide_true, List.filter_cons_of_pos, List.filter_nil, List.map_cons,
          List.map_nil, List.mapM_cons, List.mapM_nil] at hhead ⊢
        rw [hhead]
        rfl
      · simp [Piece.contents, hc]

/-- The occurrences of a component are its contents. -/
theorem occurrences_pieces {ps : List Piece} (h : ∀ x ∈ ps, x.Sound ∧ x.isBlock = false) (c : Component) :
    Occurrence.all (ps.flatMap Piece.written) c .parentheses =
      .ok (((contentsFrom 0 ps).filter (·.component = c)).map Content.occurrence) := by
  unfold Occurrence.all
  rw [headers_pieces h, List.filter_map]
  have hfilter : ((fun e : Header => decide (e.component = c) && decide (e.delimiter = Delimiters.parentheses)) ∘
      Content.header) = fun y : Content => decide (y.component = c) := by
    funext y
    exact Bool.and_true _
  rw [hfilter]
  exact mapM_ofHeader_pieces (u := []) (fun x hx => (h x hx).1) c rfl

/-! ## Trees -/

/-- What stands in the parentheses of a content of the component `c`. -/
def Piece.inners (c : Component) : Piece → List Text
  | content e inner => if e = c then [inner] else []
  | _ => []

/-- What stands in the parentheses of all contents of a component. -/
def contentsOf (c : Component) (ps : List Piece) : List Text := ps.flatMap (Piece.inners c)

theorem map_inner_contentsFrom (c : Component) (ps : List Piece) (off : Nat) :
    ((contentsFrom off ps).filter (·.component = c)).map Content.inner = contentsOf c ps := by
  induction ps generalizing off with
  | nil => rfl
  | cons x ps ih =>
    have hcons : contentsOf c (x :: ps) = x.inners c ++ contentsOf c ps := rfl
    rw [contentsFrom, List.filter_append, List.map_append, ih, hcons]
    cases x with
    | gap t => rfl
    | block tag inner => rfl
    | content e inner => by_cases hc : e = c <;> simp [Piece.contents, Piece.inners, hc]

section Tree

variable {ps : List Piece} {c : Component} {limit : Nat}

/-- A component without content has no tree. -/
theorem componentTree?_none (h : ∀ x ∈ ps, x.Sound ∧ x.isBlock = false) (hc : contentsOf c ps = []) :
    componentTree? limit c (ps.flatMap Piece.written) = .ok none := by
  have hnil : (contentsFrom 0 ps).filter (·.component = c) = [] := by
    rw [← List.map_eq_nil_iff (f := Content.inner), map_inner_contentsFrom, hc]
  unfold componentTree? componentTree
  rw [occurrences_pieces h, hnil]
  rfl

/-- A component with one content has the tree of that content. -/
theorem componentTree?_single (h : ∀ x ∈ ps, x.Sound ∧ x.isBlock = false) {inner : Text}
    (hc : contentsOf c ps = [inner]) {t : Node} (hs : t.suffix? = none) (hr : t.marks.remark = none)
    (ht : combinationTree .parentheses limit
      (Delimiters.parentheses.opening :: (inner ++ [Delimiters.parentheses.closing])) = .ok t) :
    componentTree? limit c (ps.flatMap Piece.written) = .ok (some (t.withComponent c)) := by
  have hmap := map_inner_contentsFrom c ps 0
  rw [hc] at hmap
  obtain ⟨y, hy, hinner⟩ := List.map_eq_singleton_iff.1 hmap
  have hcomp : y.component = c := by
    have hmem : y ∈ (contentsFrom 0 ps).filter (·.component = c) := by rw [hy]; simp
    simpa using (List.mem_filter.1 hmem).2
  have hlabel : (t.label c none none).withComponent c = t.withComponent c := by
    cases t with
    | leaf e m p => simp_all [Node.label, Node.withComponent, Node.withMarks, Node.suffix?, Node.marks]
    | combination o l r m p => simp_all [Node.label, Node.withComponent, Node.withMarks, Node.suffix?, Node.marks]
  unfold componentTree? componentTree
  rw [occurrences_pieces h, hy]
  simp only [List.map_cons, List.map_nil, ok_bind, occurrenceTrees, List.contains_nil, Bool.false_eq_true, if_false,
    occurrenceTree, Content.occurrence, Content.header, Component.headerAt, hinner, ht, hcomp, pure_eq_ok,
    Node.fold?, List.foldlM_nil]
  exact congrArg (fun n => Except.ok (some n)) hlabel

end Tree

/-! ## The statement of the simple slots -/

theorem foldlM_simple {f : Component → Option Node} {limit : Nat} {text : Text}
    (h : ∀ c, componentTree? limit c text = .ok (f c)) (cs : List Component) (s : Statement) :
    ∃ s', cs.foldlM (fun s c => do
        match ← componentTree? limit c text with
        | none => return s
        | some tree => return s.put (.simple c) (some tree)) s = Except.ok s' ∧
      (∀ c, s'.get (.simple c) = if c ∈ cs then (f c).or (s.get (.simple c)) else s.get (.simple c)) ∧
      ∀ c hc, s'.get (.complex c hc) = s.get (.complex c hc) := by
  induction cs generalizing s with
  | nil => exact ⟨s, rfl, by simp, fun _ _ => rfl⟩
  | cons d cs ih =>
    rw [List.foldlM_cons, h d, ok_bind]
    cases hd : f d with
    | none =>
      obtain ⟨s', hs', hsimple, hcomplex⟩ := ih s
      refine ⟨s', hs', ?_, hcomplex⟩
      intro c
      by_cases hcd : c = d
      · subst hcd; rw [hsimple, hd]; simp
      · rw [hsimple]; simp [hcd]
    | some tree =>
      obtain ⟨s', hs', hsimple, hcomplex⟩ := ih (s.put (.simple d) (some tree))
      refine ⟨s', hs', ?_, fun c hc => by rw [hcomplex, Statement.get_put]; simp⟩
      intro c
      rw [hsimple, Statement.get_put]
      by_cases hcd : c = d
      · subst hcd; simp [hd]
      · simp [hcd]

/-- The statement with the trees of all components in the simple slots. -/
theorem atomicStatement_eq {f : Component → Option Node} {limit : Nat} {text : Text}
    (h : ∀ c, componentTree? limit c text = .ok (f c)) :
    Reading.atomicStatement limit text =
      .ok (.of fun slot => match slot with | .simple c => f c | .complex .. => none) := by
  obtain ⟨s, hs, hsimple, hcomplex⟩ := foldlM_simple h Component.all .empty
  refine Eq.trans hs (congrArg Except.ok (Statement.ext_get fun slot => ?_))
  cases slot with
  | simple c => rw [hsimple, if_pos c.mem_all]; simp
  | complex c hc => rw [hcomplex]; rfl

end InstitutionalGrammar
