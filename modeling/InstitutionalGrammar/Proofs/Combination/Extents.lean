/-
  InstitutionalGrammar.Proofs.Combination.Extents — what is found in parts of a text, against the trace of all of it.

  A trace falls apart beside a gap. So what is found in parts that stand one behind another is no more than the
  trace of the text, and it is all of the trace if each part gives all of its own and what is between the parts
  leaves none.
  - `Trace.joint_before`, `Trace.joint_after`: the bytes at which a trace falls apart.
  - `Extents.sublist`, `Extents.eq_iff`: what is found, and when it is all.
-/

import InstitutionalGrammar.Proofs.Combination.Traces

namespace InstitutionalGrammar

variable {α : Type} {gap : Char → Bool} {μ : Text → List α} {t p q v : Text} {c : Char} {i j k : Nat}

namespace Text

/-- A part that reaches over a boundary can be cut there. -/
theorem At.split (h : t.At i v) (hj : t.Cut j) (hij : i ≤ j) (hle : j ≤ i + v.size) :
    ∃ p q, v = p ++ q ∧ i + p.size = j := by
  obtain ⟨p, hp⟩ := exists_slice h.cut hj hij
  obtain ⟨hp, hsize⟩ := slice_eq_ok.1 hp
  obtain ⟨q, hq⟩ := exists_slice hj h.cut_end hle
  obtain ⟨hq, hsize'⟩ := slice_eq_ok.1 hq
  rw [← hsize] at hq
  refine ⟨p, q, h.unique (hp.append hq) ?_, hsize⟩
  rw [size_append]
  omega

/-- A part between the ends of another one is in it. -/
theorem At.within (hq : t.At k q) (hp : t.At i p) (hki : k ≤ i) (hle : i + p.size ≤ k + q.size) :
    ∃ x y, q = x ++ (p ++ y) := by
  obtain ⟨x, r, rfl, hx⟩ := hq.split hp.cut hki (by omega)
  have hr := hq.right
  rw [hx] at hr
  rw [size_append] at hle
  obtain ⟨p', y, rfl, hp'⟩ := hr.split hp.cut_end (Nat.le_add_right _ _) (by omega)
  exact ⟨x, y, by rw [hp.unique hr.left (by omega)]⟩

end Text

/-! ## Joints -/

/-- At the byte, the trace of any part of the text falls apart. -/
structure Joint (μ : Text → List α) (t : Text) (i : Nat) : Prop where
  cut : t.Cut i
  apart : ∀ a p q b : Text, t = a ++ (p ++ (q ++ b)) → (a ++ p).size = i → μ (p ++ q) = μ p ++ μ q

theorem Joint.split (h : Joint μ t i) (hpq : t.At k (p ++ q)) (hi : k + p.size = i) :
    μ (p ++ q) = μ p ++ μ q := by
  obtain ⟨a, b, ht, ha⟩ := hpq
  exact h.apart a p q b (by rw [ht, List.append_assoc]) (by rw [Text.size_append, ha, hi])

namespace Trace

variable (hμ : Trace gap μ)
include hμ

theorem joint_zero (t : Text) : Joint μ t 0 where
  cut := .zero t
  apart := by
    intro a p q b _ hsize
    obtain ⟨-, rfl⟩ := List.append_eq_nil_iff.1 (Text.size_eq_zero.1 hsize)
    rw [hμ.nil]
    rfl

theorem joint_size (t : Text) : Joint μ t t.size where
  cut := .all t
  apart := by
    intro a p q b ht hsize
    have hnil : Text.size (q ++ b) = 0 := by
      rw [ht] at hsize
      simp only [Text.size_append] at hsize ⊢
      omega
    obtain ⟨rfl, -⟩ := List.append_eq_nil_iff.1 (Text.size_eq_zero.1 hnil)
    rw [hμ.nil, List.append_nil, List.append_nil]

/-- A trace falls apart in front of a gap. -/
theorem joint_before (hc : gap c = true) (h : t.At i [c]) : Joint μ t i where
  cut := h.cut
  apart := by
    obtain ⟨u, w, hu, hui⟩ := h
    intro a p q b ht hsize
    have hparts : u ++ ([c] ++ w) = (a ++ p) ++ (q ++ b) := by rw [← hu, ht, List.append_assoc]
    obtain ⟨-, hrest⟩ := Text.append_inj_size hparts (by rw [hui, hsize])
    cases q with
    | nil => rw [hμ.nil, List.append_nil, List.append_nil]
    | cons e q =>
      obtain ⟨rfl, -⟩ := List.cons.inj hrest
      rw [hμ.around p q hc, hμ.char hc]

/-- A trace falls apart behind a gap. -/
theorem joint_after (hc : gap c = true) (h : t.At i [c]) : Joint μ t (i + c.utf8Size) where
  cut := by simpa using h.cut_end
  apart := by
    obtain ⟨u, w, hu, hui⟩ := h
    intro a p q b ht hsize
    have hparts : (u ++ [c]) ++ w = (a ++ p) ++ (q ++ b) := by rw [List.append_assoc, ← hu, ht, List.append_assoc]
    obtain ⟨hfront, -⟩ := Text.append_inj_size hparts (by rw [hsize, Text.size_append, hui]; simp)
    rcases List.eq_nil_or_concat p with rfl | ⟨p, e, rfl⟩
    · rw [hμ.nil]
      rfl
    · rw [List.concat_eq_append] at hfront ⊢
      rw [← List.append_assoc] at hfront
      obtain rfl : c = e := List.singleton_inj.1 (List.append_inj' hfront rfl).2
      rw [List.append_assoc, List.singleton_append, hμ.around p q hc, hμ.around p [] hc, hμ.nil, List.append_nil]

end Trace

/-! ## Extents -/

/-- Parts that do not give more than their own do not make up for one another. -/
theorem append_eq_append_iff_of_sublist {a b c e : List α} (hac : a.Sublist c) (hbe : b.Sublist e) :
    a ++ b = c ++ e ↔ a = c ∧ b = e := by
  constructor
  · intro hsame
    have hlength := congrArg List.length hsame
    rw [List.length_append, List.length_append] at hlength
    have hshort := hac.length_le
    have hshort' := hbe.length_le
    exact ⟨hac.eq_of_length (by omega), hbe.eq_of_length (by omega)⟩
  · rintro ⟨rfl, rfl⟩
    rfl

/-- What is found between two bytes. -/
structure Extent (α : Type) where
  start : Nat
  stop : Nat
  found : List α

/-- The extents stand one behind another from byte `k` on, and what is found in each is in its trace. -/
inductive Extents (μ : Text → List α) (t : Text) : Nat → List (Extent α) → Prop
  | nil {k : Nat} : Extents μ t k []
  | cons {k : Nat} {e : Extent α} {es : List (Extent α)} {p : Text} : k ≤ e.start → Joint μ t e.start →
      Joint μ t e.stop → t.slice e.start e.stop = .ok p → e.found.Sublist (μ p) → Extents μ t e.stop es →
      Extents μ t k (e :: es)

/-- No stretch from byte `k` on leaves a trace that meets none of the extents. -/
def Vacant (μ : Text → List α) (t : Text) (k : Nat) (es : List (Extent α)) : Prop :=
  ∀ i j part, t.slice i j = .ok part → k ≤ i → (∀ e ∈ es, e.stop ≤ i ∨ j ≤ e.start) → μ part = []

namespace Extents

variable {e : Extent α} {es : List (Extent α)}

theorem le_start (h : Extents μ t k es) : ∀ e ∈ es, k ≤ e.start := by
  induction h with
  | nil => exact nofun
  | cons hk _ _ hslice _ _ ih =>
    obtain ⟨-, hsize⟩ := Text.slice_eq_ok.1 hslice
    refine List.forall_mem_cons.2 ⟨hk, fun e he => ?_⟩
    have hle := ih e he
    omega

/-- The text from byte `k` on: up to the first extent, the extent, and what is behind it. -/
theorem pieces (hv : t.At k v) (hend : k + v.size = t.size) (hk : k ≤ e.start) (hstart : Joint μ t e.start)
    (hstop : Joint μ t e.stop) (hp : t.slice e.start e.stop = .ok p) :
    ∃ q w, v = q ++ (p ++ w) ∧ t.At k q ∧ k + q.size = e.start ∧ t.At e.stop w ∧ e.stop + w.size = t.size ∧
      μ v = μ q ++ (μ p ++ μ w) := by
  obtain ⟨hp, hsize⟩ := Text.slice_eq_ok.1 hp
  have hle := hstop.cut.le
  obtain ⟨q, r, rfl, hq⟩ := hv.split hstart.cut hk (by omega)
  have hr := hv.right
  rw [hq] at hr
  rw [Text.size_append] at hend
  obtain ⟨p', w, rfl, hp'⟩ := hr.split hstop.cut (by omega) (by omega)
  obtain rfl : p = p' := hp.unique hr.left (by omega)
  have hw := hr.right
  rw [hp'] at hw
  rw [Text.size_append] at hend
  exact ⟨q, w, rfl, hv.left, hq, hw, by omega, by rw [hstart.split hv hq, hstop.split hr hp']⟩

/-- What is found is in the trace. -/
theorem sublist (h : Extents μ t k es) (hv : t.At k v) (hend : k + v.size = t.size) :
    (es.flatMap Extent.found).Sublist (μ v) := by
  induction h generalizing v with
  | nil => exact List.nil_sublist _
  | cons hk hstart hstop hslice hfound _ ih =>
    obtain ⟨q, w, -, -, -, hw, hwend, htrace⟩ := pieces hv hend hk hstart hstop hslice
    rw [htrace, List.flatMap_cons]
    exact (hfound.append (ih hw hwend)).trans (List.sublist_append_right _ _)

/-- Nothing is left in front of the first extent, nor behind it. -/
theorem vacant_cons (hinner : ∀ a p b : Text, μ (a ++ (p ++ b)) = [] → μ p = []) (hrest : Extents μ t e.stop es)
    (hle : e.start ≤ e.stop) (hk : k ≤ e.start) (hq : t.At k q) (hsize : k + q.size = e.start) :
    Vacant μ t k (e :: es) ↔ μ q = [] ∧ Vacant μ t e.stop es := by
  constructor
  · intro h
    refine ⟨h k e.start q (Text.slice_eq_ok.2 ⟨hq, hsize⟩) (Nat.le_refl k) ?_, ?_⟩
    · refine List.forall_mem_cons.2 ⟨Or.inr (Nat.le_refl _), fun x hx => Or.inr ?_⟩
      exact Nat.le_trans hle (hrest.le_start x hx)
    · intro i j part hslice hi hfree
      exact h i j part hslice (by omega) (List.forall_mem_cons.2 ⟨Or.inl hi, hfree⟩)
  · rintro ⟨hfront, hbehind⟩ i j part hslice hi hfree
    obtain ⟨hfirst, hfree⟩ := List.forall_mem_cons.1 hfree
    rcases hfirst with hstop | hstart
    · exact hbehind i j part hslice hstop hfree
    · obtain ⟨hpart, hj⟩ := Text.slice_eq_ok.1 hslice
      obtain ⟨x, y, rfl⟩ := hq.within hpart hi (by omega)
      exact hinner x part y hfront

/-- What is found is all of the trace if nothing is missing in an extent nor between them. -/
theorem eq_iff (hinner : ∀ a p b : Text, μ (a ++ (p ++ b)) = [] → μ p = []) (h : Extents μ t k es) (hv : t.At k v)
    (hend : k + v.size = t.size) : es.flatMap Extent.found = μ v ↔
      (∀ e ∈ es, ∀ p, t.slice e.start e.stop = .ok p → e.found = μ p) ∧ Vacant μ t k es := by
  induction h generalizing v with
  | nil =>
    constructor
    · intro hnil
      refine ⟨nofun, fun i j part hslice hi _ => ?_⟩
      obtain ⟨hpart, hj⟩ := Text.slice_eq_ok.1 hslice
      have hle := hpart.cut_end.le
      obtain ⟨x, y, rfl⟩ := hv.within hpart hi (by omega)
      exact hinner x part y hnil.symm
    · rintro ⟨-, hvacant⟩
      exact (hvacant _ _ v (Text.slice_eq_ok.2 ⟨hv, hend⟩) (Nat.le_refl _) nofun).symm
  | @cons k e es p hk hstart hstop hslice hfound hrest ih =>
    obtain ⟨q, w, -, hq, hqsize, hw, hwend, htrace⟩ := pieces hv hend hk hstart hstop hslice
    have hsublist := hrest.sublist hw hwend
    have hle : e.start ≤ e.stop := by
      obtain ⟨-, hsize⟩ := Text.slice_eq_ok.1 hslice
      omega
    have hone : (∀ p', t.slice e.start e.stop = .ok p' → e.found = μ p') ↔ e.found = μ p := by
      constructor
      · exact fun hall => hall p hslice
      · intro hsame p' hslice'
        cases hslice.symm.trans hslice'
        exact hsame
    rw [List.forall_mem_cons, hone, vacant_cons hinner hrest hle hk hq hqsize, htrace, List.flatMap_cons]
    have hparts : e.found ++ es.flatMap Extent.found = μ q ++ (μ p ++ μ w) ↔
        [] = μ q ∧ e.found = μ p ∧ es.flatMap Extent.found = μ w := by
      rw [← append_eq_append_iff_of_sublist hfound hsublist,
        ← append_eq_append_iff_of_sublist (List.nil_sublist _) (hfound.append hsublist), List.nil_append]
    rw [hparts, ih hw hwend, @eq_comm _ []]
    tauto

end Extents

end InstitutionalGrammar
