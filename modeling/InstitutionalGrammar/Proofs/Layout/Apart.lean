/-
  InstitutionalGrammar.Proofs.Layout.Apart — contents of texts with spaces between them.

  A header without annotation reaches over no space, and a content closes inside the nested text it
  stands in. So the occurrences of a component in two texts with spaces between them are those of the
  one and then those of the other, as far behind as the other stands.
  - `allFrom_apart`, `Header.all_apart`: shapes and headers.
  - `Occurrence.ofHeader_within`: an occurrence of a part of a text.
  - `Occurrence.all_apart`: all occurrences.
  - `occurrenceTrees_alike`: where occurrences stand does not matter to their trees.
-/

import Mathlib.Data.List.Forall2
import InstitutionalGrammar.ComponentTree
import InstitutionalGrammar.Proofs.Layout.Gaps

namespace InstitutionalGrammar

variable {a t u v rest : Text} {d : Delimiters} {c : Component} {n off : Nat} {w : Bool}

@[simp] theorem size_spaces (n : Nat) : (spaces n).size = n + 1 := by
  induction n with
  | zero => rfl
  | succ n ih =>
    have hcons : spaces (n + 1) = ' ' :: spaces n := rfl
    rw [hcons, Text.size_cons, ih, utf8Size_space]
    omega

theorem spaces_blank (n : Nat) : Text.allBlank (spaces n) = true := by
  refine List.all_eq_true.2 fun c hc => ?_
  rw [List.eq_of_mem_replicate hc]
  decide

/-! ## Shapes -/

/-- The same shape, so much further behind. -/
def PlacedShape.shift (k : Nat) (p : PlacedShape) : PlacedShape := { p with start := k + p.start }

def Header.shift (k : Nat) (h : Header) : Header := { h with start := k + h.start, delimiterAt := k + h.delimiterAt }

theorem PlacedShape.delimiterAt_shift (k : Nat) (p : PlacedShape) : (p.shift k).delimiterAt = k + p.delimiterAt :=
  Nat.add_assoc k p.start p.shape.lead.size

theorem PlacedShape.header?_shift (k : Nat) (p : PlacedShape) : (p.shift k).header? = p.header?.map (Header.shift k) := by
  unfold header?
  rw [delimiterAt_shift]
  show Option.map _ _ = Option.map _ (Option.map _ _)
  rw [Option.map_map]
  rfl

/-- What stands behind a space is not read. -/
theorem read?_apart (ha : Unbracketed a) (rest : Text) : Shape.read? (a ++ ' ' :: rest) = Shape.read? a := by
  rw [Shape.read?_eq, Shape.read?_eq, Shape.takeWhile_break (by decide), Shape.dropWhile_break (by decide)]
  cases hdrop : a.dropWhile Suffix.isSuffixChar with
  | nil => rfl
  | cons e b =>
    have he : e ≠ '[' := by
      rintro rfl
      have hmem : '[' ∈ a := (List.dropWhile_suffix _).subset (by rw [hdrop]; exact List.mem_cons_self)
      exact absurd (ha '[' hmem) (by decide)
    rw [List.cons_append, readRemark?_of_ne he, readRemark?_of_ne he]
    rfl

theorem allFrom_apart (ha : Unbracketed a) (w : Bool) (off n : Nat) (rest : Text) :
    PlacedShape.allFrom w off (a ++ (spaces n ++ rest)) =
      PlacedShape.allFrom w off a ++ PlacedShape.allFrom false (off + a.size + (n + 1)) rest := by
  induction a generalizing w off with
  | nil =>
    rw [List.nil_append, PlacedShape.allFrom_quiet (Quiet.of_allBlank (spaces_blank n)), size_spaces]
    have hword : wordAfter w (spaces n) = false := by
      have hlast : (spaces n).getLast? = some ' ' := by simp [spaces, List.getLast?_replicate]
      rw [wordAfter, hlast]
      exact (by decide : isWord ' ' = false)
    rw [hword]
    rfl
  | cons e a ih =>
    have hlater := ih (fun x hx => ha x (by simp [hx])) (isWord e) (off + e.utf8Size)
    have hread : Shape.read? (e :: (a ++ (spaces n ++ rest))) = Shape.read? (e :: a) := by
      have hcons : spaces n ++ rest = ' ' :: (List.replicate n ' ' ++ rest) := rfl
      rw [hcons]
      exact read?_apart ha (List.replicate n ' ' ++ rest)
    have hoff : off + Text.size (e :: a) + (n + 1) = off + e.utf8Size + Text.size a + (n + 1) := by
      rw [Text.size_cons]
      omega
    rw [List.cons_append, PlacedShape.allFrom, PlacedShape.allFrom, hread, hlater, hoff]
    by_cases hw : w = true
    · rw [if_pos hw, if_pos hw]
    · rw [if_neg hw, if_neg hw]
      cases Shape.read? (e :: a) <;> rfl

theorem allFrom_shift (k : Nat) (w : Bool) (off : Nat) (t : Text) :
    PlacedShape.allFrom w (k + off) t = (PlacedShape.allFrom w off t).map (PlacedShape.shift k) := by
  induction t generalizing w off with
  | nil => rfl
  | cons e t ih =>
    have hlater := ih (isWord e) (off + e.utf8Size)
    rw [← Nat.add_assoc] at hlater
    rw [PlacedShape.allFrom, PlacedShape.allFrom, hlater]
    by_cases hw : w = true
    · rw [if_pos hw, if_pos hw]
    · rw [if_neg hw, if_neg hw]
      cases Shape.read? (e :: t) <;> rfl

/-! ## Headers -/

theorem disjointFrom_shift (k stop : Nat) (ps : List PlacedShape) :
    PlacedShape.disjointFrom (k + stop) (ps.map (PlacedShape.shift k)) =
      (PlacedShape.disjointFrom stop ps).map (PlacedShape.shift k) := by
  induction ps generalizing stop with
  | nil => rfl
  | cons p ps ih =>
    have hnext := ih (p.delimiterAt + 1)
    rw [← Nat.add_assoc, ← PlacedShape.delimiterAt_shift] at hnext
    rw [List.map_cons, PlacedShape.disjointFrom, PlacedShape.disjointFrom]
    by_cases hstop : stop ≤ p.start
    · have hshifted : k + stop ≤ (p.shift k).start := Nat.add_le_add_left hstop k
      rw [if_pos hstop, if_pos hshifted, hnext]
      rfl
    · have hshifted : ¬ k + stop ≤ (p.shift k).start := fun h => hstop (Nat.le_of_add_le_add_left h)
      rw [if_neg hstop, if_neg hshifted, ih]

theorem disjointFrom_append {ps qs : List PlacedShape} {stop k : Nat} (hps : ∀ p ∈ ps, p.delimiterAt + 1 ≤ k)
    (hqs : ∀ q ∈ qs, k ≤ q.start) (hstop : stop ≤ k) :
    PlacedShape.disjointFrom stop (ps ++ qs) = PlacedShape.disjointFrom stop ps ++ PlacedShape.disjointFrom k qs := by
  induction ps generalizing stop with
  | nil =>
    rw [List.nil_append, PlacedShape.disjointFrom, List.nil_append]
    cases qs with
    | nil => rfl
    | cons q qs =>
      have hq := hqs q List.mem_cons_self
      rw [PlacedShape.disjointFrom, PlacedShape.disjointFrom, if_pos hq, if_pos (hstop.trans hq)]
  | cons p ps ih =>
    have hlater := fun q hq => hps q (List.mem_cons_of_mem p hq)
    rw [List.cons_append, PlacedShape.disjointFrom, PlacedShape.disjointFrom, ih hlater hstop,
      ih hlater (hps p List.mem_cons_self)]
    by_cases hfirst : stop ≤ p.start
    · rw [if_pos hfirst, if_pos hfirst, List.cons_append]
    · rw [if_neg hfirst, if_neg hfirst]

theorem Header.all_apart (ha : Unbracketed a) (n : Nat) (rest : Text) :
    Header.all (a ++ (spaces n ++ rest)) =
      Header.all a ++ (Header.all rest).map (Header.shift (a.size + (n + 1))) := by
  have hbefore : ∀ p ∈ PlacedShape.all a, p.delimiterAt + 1 ≤ a.size + (n + 1) := by
    intro p hp
    have hend := (PlacedShape.written_at hp).cut_end.le
    rw [Shape.written, Text.size_append, size_opening] at hend
    unfold PlacedShape.delimiterAt
    omega
  have hbehind : ∀ q ∈ (PlacedShape.all rest).map (PlacedShape.shift (a.size + (n + 1))),
      a.size + (n + 1) ≤ q.start := by
    intro q hq
    obtain ⟨p, -, rfl⟩ := List.mem_map.1 hq
    exact Nat.le_add_right _ _
  have hall : PlacedShape.all (a ++ (spaces n ++ rest)) =
      PlacedShape.all a ++ (PlacedShape.all rest).map (PlacedShape.shift (a.size + (n + 1))) := by
    unfold PlacedShape.all
    rw [allFrom_apart ha, ← allFrom_shift, Nat.zero_add]
    rfl
  have hdisjoint := disjointFrom_shift (a.size + (n + 1)) 0 (PlacedShape.all rest)
  rw [Nat.add_zero] at hdisjoint
  unfold Header.all
  rw [hall, disjointFrom_append hbefore hbehind (Nat.zero_le _), hdisjoint, List.filterMap_append, List.filterMap_map]
  congr 1
  have hshift : PlacedShape.header? ∘ PlacedShape.shift (a.size + (n + 1)) =
      fun p => p.header?.map (Header.shift (a.size + (n + 1))) :=
    funext fun p => p.header?_shift _
  rw [hshift, ← List.map_filterMap]

/-! ## Occurrences -/

/-- The same occurrence, so much further behind. -/
def Occurrence.shift (k : Nat) (o : Occurrence) : Occurrence :=
  { o with header := o.header.shift k, close := k + o.close }

theorem closeOf_within {close : Nat} (h : closeOf t off d = .ok (some close)) (u v : Text) :
    closeOf (u ++ t ++ v) (u.size + off) d = .ok (some (u.size + close)) := by
  obtain ⟨x, p, y, b, rfl, rfl, hp, hy, rfl⟩ := closeOf_eq_some_iff.1 h
  refine closeOf_eq_some_iff.2 ⟨u ++ x, p, y, b ++ v, by simp, Text.size_append u x, hp, hy, ?_⟩
  omega

theorem slice_within {i j : Nat} {p : Text} (h : t.slice i j = .ok p) (u v : Text) :
    (u ++ t ++ v).slice (u.size + i) (u.size + j) = .ok p := by
  obtain ⟨⟨x, y, rfl, hx⟩, hsize⟩ := Text.slice_eq_ok.1 h
  exact Text.slice_parts (a := u ++ x) (c := y ++ v) (by simp) (by rw [Text.size_append, hx])
    (by rw [Text.size_append]; omega)

/-- An occurrence of a part of a text is one of the text. -/
theorem Occurrence.ofHeader_within {h : Header} {o : Occurrence} (ho : ofHeader t h = .ok o) (u v : Text) :
    ofHeader (u ++ t ++ v) (h.shift u.size) = .ok (o.shift u.size) := by
  unfold ofHeader at ho
  obtain ⟨found, hfound, ho⟩ := bind_eq_ok.1 ho
  cases found with
  | none => cases ho
  | some close =>
    obtain ⟨raw, hraw, ho⟩ := bind_eq_ok.1 ho
    obtain ⟨body, hbody, ho⟩ := bind_eq_ok.1 ho
    cases ho
    have hclose := closeOf_within hfound u v
    have hraw' := slice_within hraw u v
    have hbody' := slice_within hbody u v
    unfold ofHeader
    simp only [Header.shift]
    rw [hclose]
    show (do
      let raw ← Text.slice (u ++ t ++ v) (u.size + h.start) (u.size + close + 1)
      let body ← Text.slice (u ++ t ++ v) (u.size + h.delimiterAt) (u.size + close + 1)
      return (⟨h.shift u.size, u.size + close, raw, body⟩ : Occurrence)) = _
    rw [Nat.add_assoc, hraw', hbody']
    rfl

/-- What a header of a nested text opens is closed in it. -/
theorem Occurrence.ofHeader_nested (ht : WellNested t) {h : Header} (hh : h ∈ Header.all t) :
    ∃ o, ofHeader t h = .ok o := by
  have hstands := Header.all_stands hh
  obtain ⟨x, b, htext, hx⟩ := hstands.opens
  have hparts : t = x ++ h.delimiter.opening :: b := htext
  rw [hparts] at ht
  obtain ⟨inner, rest, rfl, hinner⟩ := ht.behind_opening
  have hclose : closeOf t h.delimiterAt h.delimiter = .ok (some (h.delimiterAt + 1 + inner.size)) := by
    rw [hparts, ← hx]
    exact hinner.closeOf h.delimiter x rest
  have hcut : t.Cut (h.delimiterAt + 1 + inner.size + 1) := by
    refine ⟨x ++ h.delimiter.opening :: (inner ++ [h.delimiter.closing]), rest, by simp [hparts], ?_⟩
    simp [hx]
    omega
  have hbefore := hstands.before
  obtain ⟨raw, hraw⟩ := Text.exists_slice hstands.start hcut (by omega)
  obtain ⟨body, hbody⟩ := Text.exists_slice hstands.opens.cut hcut (by omega)
  unfold ofHeader
  rw [hclose, ok_bind]
  simp only [hraw, hbody, ok_bind]
  exact ⟨_, rfl⟩

section MapM

variable {α β α' β' : Type} {f : α → Outcome β} {f' : α' → Outcome β'} {φ : α → α'} {ψ : β → β'} {l : List α}

theorem exists_mapM (h : ∀ x ∈ l, ∃ y, f x = .ok y) : ∃ ys, l.mapM f = .ok ys := by
  induction l with
  | nil => exact ⟨[], rfl⟩
  | cons x l ih =>
    obtain ⟨y, hy⟩ := h x List.mem_cons_self
    obtain ⟨ys, hys⟩ := ih fun z hz => h z (List.mem_cons_of_mem x hz)
    refine ⟨y :: ys, ?_⟩
    rw [List.mapM_cons, hy, hys]
    rfl

theorem mapM_map_ok {ys : List β} (h : ∀ x ∈ l, ∀ y, f x = .ok y → f' (φ x) = .ok (ψ y)) (hys : l.mapM f = .ok ys) :
    (l.map φ).mapM f' = .ok (ys.map ψ) := by
  induction l generalizing ys with
  | nil =>
    cases hys
    rfl
  | cons x l ih =>
    rw [List.mapM_cons] at hys
    obtain ⟨y, hy, hys⟩ := bind_eq_ok.1 hys
    obtain ⟨zs, hzs, hcons⟩ := bind_eq_ok.1 hys
    cases hcons
    have hlater := ih (fun z hz => h z (List.mem_cons_of_mem x hz)) hzs
    rw [List.map_cons, List.mapM_cons, h x List.mem_cons_self y hy, hlater]
    rfl

end MapM

theorem Occurrence.exists_all (ht : WellNested t) (c : Component) (d : Delimiters) : ∃ os, all t c d = .ok os :=
  exists_mapM fun _ hh => ofHeader_nested ht (List.mem_filter.1 hh).1

/-- The occurrences in two texts that spaces keep apart. -/
theorem Occurrence.all_apart (hfree : Unbracketed a) {os os' : List Occurrence} (hos : all a c d = .ok os)
    (hos' : all rest c d = .ok os') (n : Nat) :
    all (a ++ (spaces n ++ rest)) c d = .ok (os ++ os'.map (shift (a.size + (n + 1)))) := by
  have hleft : ∀ h o, ofHeader a h = .ok o → ofHeader (a ++ (spaces n ++ rest)) (id h) = .ok (id o) := by
    intro h o ho
    have hwithin := ofHeader_within ho [] (spaces n ++ rest)
    rw [Text.size_nil] at hwithin
    simpa [Header.shift, shift] using hwithin
  have hright : ∀ h o, ofHeader rest h = .ok o →
      ofHeader (a ++ (spaces n ++ rest)) (h.shift (a.size + (n + 1))) = .ok (o.shift (a.size + (n + 1))) := by
    intro h o ho
    have hwithin := ofHeader_within ho (a ++ spaces n) []
    rw [List.append_nil, Text.size_append, size_spaces, List.append_assoc] at hwithin
    exact hwithin
  unfold all at hos hos' ⊢
  have hbefore := mapM_map_ok (fun h _ => hleft h) hos
  have hbehind := mapM_map_ok (fun h _ => hright h) hos'
  rw [List.map_id, List.map_id] at hbefore
  have hfilter : (fun h : Header => decide (h.component = c) && decide (h.delimiter = d)) ∘
      Header.shift (a.size + (n + 1)) = fun h => decide (h.component = c) && decide (h.delimiter = d) := rfl
  rw [Header.all_apart hfree, List.filter_append, List.mapM_append, hbefore, ok_bind, List.filter_map, hfilter, hbehind]
  rfl

/-! ## Trees -/

/-- The same is written, wherever it stands. -/
structure Occurrence.Alike (o o' : Occurrence) : Prop where
  raw : o.raw = o'.raw
  body : o.body = o'.body
  component : o.header.component = o'.header.component
  suffix : o.header.suffix = o'.header.suffix
  remark : o.header.remark = o'.header.remark

theorem occurrenceTrees_alike {os os' : List Occurrence} (h : List.Forall₂ Occurrence.Alike os os') (limit : Nat)
    (seen : List Text) : occurrenceTrees limit seen os = occurrenceTrees limit seen os' := by
  induction h generalizing seen with
  | nil => rfl
  | @cons o o' os os' ho _ ih =>
    have htree : occurrenceTree limit o = occurrenceTree limit o' := by
      unfold occurrenceTree
      rw [ho.body, ho.component, ho.suffix, ho.remark]
    rw [occurrenceTrees, occurrenceTrees, ho.raw, htree, ih]

theorem componentTree?_alike {os os' : List Occurrence} (h : List.Forall₂ Occurrence.Alike os os') {limit : Nat}
    (ht : Occurrence.all t c .parentheses = .ok os) (hu : Occurrence.all u c .parentheses = .ok os') :
    componentTree? limit c t = componentTree? limit c u := by
  unfold componentTree? componentTree
  rw [ht, hu, ok_bind, ok_bind, occurrenceTrees_alike h]

end InstitutionalGrammar
