/-
  InstitutionalGrammar.Proofs.Text.Cuts — where a text can be cut.

  A cut succeeds where both of its ends are boundaries between characters, the first not behind the
  second (`exists_slice`). Boundaries come from parts that are known to stand somewhere in the text.
  - `Text.At`: a part that stands at a byte; it begins and ends at a boundary.
  - `slice_eq_ok`: what a cut yields stands where it was cut.
-/

import InstitutionalGrammar.Proofs.Text.Trim

namespace InstitutionalGrammar.Text

/-- A character starts at the byte, or the text ends there. -/
def Cut (t : Text) (i : Nat) : Prop := ∃ a b, t = a ++ b ∧ a.size = i

/-- The part stands at the byte. -/
def At (t : Text) (i : Nat) (part : Text) : Prop := ∃ a b, t = a ++ (part ++ b) ∧ a.size = i

variable {t p q : Text} {i j : Nat}

theorem Cut.zero (t : Text) : t.Cut 0 := ⟨[], t, rfl, rfl⟩

theorem Cut.all (t : Text) : t.Cut t.size := ⟨t, [], by simp, rfl⟩

theorem Cut.le (h : t.Cut i) : i ≤ t.size := by
  obtain ⟨a, b, rfl, rfl⟩ := h
  rw [size_append]
  omega

namespace At

theorem cut (h : t.At i p) : t.Cut i := by
  obtain ⟨a, b, ht, hi⟩ := h
  exact ⟨a, p ++ b, ht, hi⟩

theorem cut_end (h : t.At i p) : t.Cut (i + p.size) := by
  obtain ⟨a, b, rfl, rfl⟩ := h
  exact ⟨a ++ p, b, by simp, size_append a p⟩

theorem part (h : t.At i p) : p <:+: t := by
  obtain ⟨a, b, rfl, -⟩ := h
  exact ⟨a, b, by simp⟩

/-- Two parts of which the second stands right behind the first. -/
theorem append (h : t.At i p) (h' : t.At (i + p.size) q) : t.At i (p ++ q) := by
  obtain ⟨a, b, rfl, rfl⟩ := h
  obtain ⟨c, d, hc, hsize⟩ := h'
  rw [← List.append_assoc] at hc
  obtain ⟨-, rfl⟩ := append_inj_size hc (by rw [size_append, hsize])
  exact ⟨a, d, by simp, rfl⟩

theorem left (h : t.At i (p ++ q)) : t.At i p := by
  obtain ⟨a, b, rfl, hi⟩ := h
  exact ⟨a, q ++ b, by simp, hi⟩

theorem right (h : t.At i (p ++ q)) : t.At (i + p.size) q := by
  obtain ⟨a, b, rfl, rfl⟩ := h
  exact ⟨a ++ p, b, by simp, size_append a p⟩

/-- Two parts of which the second stands somewhere behind the first. -/
theorem between (h : t.At i p) (h' : t.At j q) (hij : i + p.size ≤ j) :
    ∃ a m b, t = a ++ (p ++ (m ++ (q ++ b))) ∧ a.size = i ∧ i + p.size + m.size = j := by
  obtain ⟨a, b, rfl, rfl⟩ := h
  obtain ⟨c, d, hc, rfl⟩ := h'
  rw [← List.append_assoc] at hc
  obtain ⟨m, rfl, rfl⟩ := append_inj_size_le hc (by rwa [size_append])
  exact ⟨a, m, d, rfl, rfl, by rw [size_append, size_append]⟩

/-- A part that ends where a leading part of the text ends. -/
theorem suffix {a b : Text} (h : (a ++ b).At i p) (hsize : i + p.size = a.size) : p <:+ a := by
  obtain ⟨c, e, hc, rfl⟩ := h
  rw [← List.append_assoc] at hc
  obtain ⟨rfl, -⟩ := append_inj_size hc (by rw [size_append, hsize])
  exact List.suffix_append c p

/-- A part that stands behind a leading part of the text. -/
theorem shift {a b : Text} (h : (a ++ b).At (a.size + i) p) : b.At i p := by
  obtain ⟨c, e, hc, hsize⟩ := h
  obtain ⟨m, rfl, rfl⟩ := append_inj_size_le hc (by omega)
  rw [size_append] at hsize
  exact ⟨m, e, rfl, by omega⟩

theorem prepend {b : Text} (h : b.At i p) (a : Text) : Text.At (a ++ b) (a.size + i) p := by
  obtain ⟨u, v, rfl, rfl⟩ := h
  exact ⟨a ++ u, v, by simp, size_append a u⟩

theorem extend {a : Text} (h : a.At i p) (b : Text) : Text.At (a ++ b) i p := by
  obtain ⟨u, v, rfl, hi⟩ := h
  exact ⟨u, v ++ b, by simp, hi⟩

/-- A part that ends where a leading part of the text ends, or before. -/
theorem front {a b : Text} (h : Text.At (a ++ b) i p) (hle : i + p.size ≤ a.size) : a.At i p := by
  obtain ⟨y, z, hyz, rfl⟩ := h
  rw [← List.append_assoc] at hyz
  obtain ⟨m, rfl, -⟩ := append_inj_size_le hyz.symm (by rwa [size_append])
  exact ⟨y, m, by simp, rfl⟩

/-- Two parts of one size that stand at one byte are the same. -/
theorem unique (h : t.At i p) (h' : t.At i q) (hsize : p.size = q.size) : p = q := by
  obtain ⟨a, b, rfl, rfl⟩ := h
  obtain ⟨c, d, hc, hi⟩ := h'
  obtain ⟨-, hrest⟩ := append_inj_size hc hi.symm
  exact (append_inj_size hrest hsize).1

/-- A character that stands inside a part is one of its characters. -/
theorem mem {c : Char} (hp : t.At i p) (hc : t.At j [c]) (hij : i ≤ j) (hlt : j < i + p.size) : c ∈ p := by
  obtain ⟨a, b, rfl, rfl⟩ := hp
  obtain ⟨u, v, ht, rfl⟩ := hc
  rcases List.append_eq_append_iff.1 ht with ⟨x, rfl, hx⟩ | ⟨x, rfl, hx⟩
  · rw [size_append] at hlt
    rcases List.append_eq_append_iff.1 hx with ⟨y, rfl, hy⟩ | ⟨y, rfl, hy⟩
    · rw [size_append] at hlt
      omega
    · cases y with
      | nil =>
        rw [List.append_nil] at hlt
        omega
      | cons e y =>
        obtain ⟨rfl, -⟩ := List.cons.inj hy
        simp
  · -- the character stands where the part begins
    rw [size_append] at hij
    have hnil : size x = 0 := by omega
    rw [size_eq_zero.1 hnil, List.nil_append] at hx
    cases p with
    | nil =>
      rw [size_nil, size_append] at hlt
      omega
    | cons e p =>
      obtain ⟨rfl, -⟩ := List.cons.inj hx
      simp

end At

/-- What a cut yields stands at its start and reaches to its end. -/
theorem slice_eq_ok : t.slice i j = .ok p ↔ t.At i p ∧ i + p.size = j := by
  unfold slice
  constructor
  · intro h
    split at h
    · rename_i s hs
      cases h
      obtain ⟨a, b, rfl, rfl, hj⟩ := slice?_eq_some_iff.1 hs
      exact ⟨⟨a, b, by simp, rfl⟩, hj⟩
    · cases h
  · rintro ⟨⟨a, b, rfl, rfl⟩, rfl⟩
    rw [← List.append_assoc, slice?_append]

/-- A cut from one boundary to another one behind it. -/
theorem exists_slice (hi : t.Cut i) (hj : t.Cut j) (hij : i ≤ j) : ∃ p, t.slice i j = .ok p := by
  obtain ⟨a, b, rfl, rfl⟩ := hi
  obtain ⟨c, d, hc, rfl⟩ := hj
  rcases List.append_eq_append_iff.1 hc with ⟨x, rfl, rfl⟩ | ⟨x, rfl, rfl⟩
  · exact ⟨x, slice_eq_ok.2 ⟨⟨a, d, rfl, rfl⟩, (size_append a x).symm⟩⟩
  · -- the boundaries are one
    have hx : size x = 0 := by
      rw [size_append] at hij
      omega
    obtain rfl : x = [] := size_eq_zero.1 hx
    exact ⟨[], slice_eq_ok.2 ⟨⟨c, b, by simp, by simp⟩, by simp⟩⟩

end InstitutionalGrammar.Text
