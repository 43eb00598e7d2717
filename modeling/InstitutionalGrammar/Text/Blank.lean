/-
  InstitutionalGrammar.Text.Blank — white space and trimming.

  White space is the Unicode property White_Space: the no-break spaces are blank, the zero
  width space and the byte order mark are not.
-/

import InstitutionalGrammar.Text.Basic

namespace InstitutionalGrammar

/-- The characters with the property White_Space. -/
def isBlank (c : Char) : Bool :=
  let n := c.toNat
  (0x9 ≤ n && n ≤ 0xD) || n = 0x20 || n = 0x85 || n = 0xA0 || n = 0x1680 || (0x2000 ≤ n && n ≤ 0x200A) ||
    n = 0x2028 || n = 0x2029 || n = 0x202F || n = 0x205F || n = 0x3000

namespace Text

def allBlank (t : Text) : Bool := t.all isBlank

/-- The text without the leading characters that `p` holds of. -/
def stripStart (p : Char → Bool) (t : Text) : Text := t.dropWhile p

/-- The text without the trailing characters that `p` holds of. -/
def stripEnd (p : Char → Bool) : Text → Text
  | [] => []
  | c :: t => match stripEnd p t with
    | [] => if p c then [] else [c]
    | d :: r => c :: d :: r

def trimStart (t : Text) : Text := stripStart isBlank t

def trimEnd (t : Text) : Text := stripEnd isBlank t

/-- The text without white space at its ends. -/
def trim (t : Text) : Text := trimEnd (trimStart t)

theorem stripEnd_eq_nil_iff {p : Char → Bool} {t : Text} : stripEnd p t = [] ↔ t.all p = true := by
  induction t with
  | nil => simp [stripEnd]
  | cons c t ih =>
    simp only [stripEnd, List.all_cons, Bool.and_eq_true]
    split
    · rename_i h
      rw [← ih]
      by_cases hc : p c = true <;> simp [h, hc]
    · rename_i h
      rw [← ih]
      simp [h]

/-- What is stripped from the end stood there, and `p` holds of all of it. -/
theorem stripEnd_append (p : Char → Bool) (t : Text) : ∃ r : Text, t = stripEnd p t ++ r ∧ r.all p = true := by
  induction t with
  | nil => exact ⟨[], rfl, rfl⟩
  | cons c t ih =>
    obtain ⟨r, hr, hp⟩ := ih
    simp only [stripEnd]
    split
    · rename_i h
      rw [h] at hr
      by_cases hc : p c = true
      · exact ⟨c :: t, by simp [hc], by simpa [hc, hr] using hp⟩
      · exact ⟨t, by simp [hc], by simpa [hr] using hp⟩
    · rename_i d u h
      exact ⟨r, by rw [h] at hr; simp [hr], hp⟩

theorem trim_eq_nil_iff {t : Text} : trim t = [] ↔ allBlank t = true := by
  unfold trim trimEnd trimStart stripStart allBlank
  rw [stripEnd_eq_nil_iff]
  induction t with
  | nil => simp
  | cons c t ih => by_cases hc : isBlank c = true <;> simp [List.dropWhile, hc, ih]

end Text

end InstitutionalGrammar
