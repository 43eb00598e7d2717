/-
  InstitutionalGrammar.Text.Basic — text addressed by UTF-8 byte offsets.

  A text is a list of characters. Offsets count UTF-8 bytes, so an offset may fall past the
  end or inside a character; there is nothing to take or drop there. A position has the line and
  the column besides: both count from 1, columns in characters, and only a line feed ends a line.
  - `dropBytes?_eq_some_iff`, `takeBytes?_eq_some_iff`: both answer exactly where the offset is
    the size of a leading part.
  - `slice?_eq_some_iff`: a slice is what stands behind a part of the size of its start, and with
    it reaches up to its stop.
-/

namespace InstitutionalGrammar

/-- Text as a list of characters. -/
abbrev Text := List Char

namespace Text

/-- The length in UTF-8 bytes. -/
def size : Text → Nat
  | [] => 0
  | c :: t => c.utf8Size + size t

/-- The text from byte `n` on. -/
def dropBytes? : (n : Nat) → Text → Option Text
  | 0, t => some t
  | _ + 1, [] => none
  | n + 1, c :: t => if c.utf8Size ≤ n + 1 then dropBytes? (n + 1 - c.utf8Size) t else none

/-- The first `n` bytes of the text. -/
def takeBytes? : (n : Nat) → Text → Option Text
  | 0, _ => some []
  | _ + 1, [] => none
  | n + 1, c :: t =>
    if c.utf8Size ≤ n + 1 then (takeBytes? (n + 1 - c.utf8Size) t).map (c :: ·) else none

/-- The part from byte `start` up to, not including, byte `stop`. -/
def slice? (t : Text) (start stop : Nat) : Option Text :=
  if start ≤ stop then (dropBytes? start t).bind (takeBytes? (stop - start)) else none

/-- The parts with `separator` between them. -/
def join (separator : Text) : List Text → Text
  | [] => []
  | [t] => t
  | t :: ts => t ++ separator ++ join separator ts

/-- The pieces between the occurrences of `separator`; there is always at least one. -/
def pieces (separator : Char) : Text → List Text
  | [] => [[]]
  | c :: t =>
    if c = separator then [] :: pieces separator t
    else match pieces separator t with
      | [] => [[c]]
      | p :: ps => (c :: p) :: ps

/-! ## Sizes and cuts -/

@[simp] theorem size_nil : size [] = 0 := rfl

@[simp] theorem size_cons (c : Char) (t : Text) : size (c :: t) = c.utf8Size + size t := rfl

@[simp] theorem size_append (a b : Text) : size (a ++ b) = size a + size b := by
  induction a with
  | nil => simp
  | cons c a ih => simp [ih]; omega

theorem size_eq_zero {t : Text} : size t = 0 ↔ t = [] := by
  cases t with
  | nil => simp
  | cons c t => have := c.utf8Size_pos; simp; omega

theorem dropBytes?_eq_some_iff {n : Nat} {t b : Text} :
    dropBytes? n t = some b ↔ ∃ a, t = a ++ b ∧ size a = n := by
  induction t generalizing n with
  | nil =>
    cases n with
    | zero =>
      simp only [dropBytes?, Option.some.injEq, size_eq_zero]
      constructor
      · rintro rfl; exact ⟨[], rfl, rfl⟩
      · rintro ⟨_, h, rfl⟩; simpa using h
    | succ n =>
      simp only [dropBytes?, reduceCtorEq, false_iff]
      rintro ⟨a, h, hs⟩
      obtain ⟨rfl, rfl⟩ : a = [] ∧ b = [] := by simpa using h.symm
      simp at hs
  | cons c t ih =>
    have hc := c.utf8Size_pos
    cases n with
    | zero => simp [dropBytes?, size_eq_zero]
    | succ n =>
      simp only [dropBytes?]
      split
      · rw [ih]
        constructor
        · rintro ⟨a, rfl, hs⟩
          exact ⟨c :: a, rfl, by rw [size_cons, hs]; omega⟩
        · rintro ⟨a, h, hs⟩
          cases a with
          | nil => simp at hs
          | cons d a =>
            obtain ⟨rfl, rfl⟩ : c = d ∧ t = a ++ b := by simpa using h
            exact ⟨a, rfl, by rw [size_cons] at hs; omega⟩
      · simp only [reduceCtorEq, false_iff]
        rintro ⟨a, h, hs⟩
        cases a with
        | nil => simp at hs
        | cons d a =>
          obtain ⟨rfl, rfl⟩ : c = d ∧ t = a ++ b := by simpa using h
          rw [size_cons] at hs
          omega

theorem takeBytes?_eq_some_iff {n : Nat} {t a : Text} :
    takeBytes? n t = some a ↔ ∃ b, t = a ++ b ∧ size a = n := by
  induction t generalizing n a with
  | nil =>
    cases n with
    | zero =>
      simp only [takeBytes?, Option.some.injEq, size_eq_zero]
      constructor
      · rintro rfl; exact ⟨[], rfl, rfl⟩
      · rintro ⟨_, _, rfl⟩; rfl
    | succ n =>
      simp only [takeBytes?, reduceCtorEq, false_iff]
      rintro ⟨b, h, hs⟩
      obtain ⟨rfl, rfl⟩ : a = [] ∧ b = [] := by simpa using h.symm
      simp at hs
  | cons c t ih =>
    have hc := c.utf8Size_pos
    cases n with
    | zero =>
      simp only [takeBytes?, Option.some.injEq, size_eq_zero]
      constructor
      · rintro rfl; exact ⟨c :: t, rfl, rfl⟩
      · rintro ⟨_, _, rfl⟩; rfl
    | succ n =>
      simp only [takeBytes?]
      split
      · simp only [Option.map_eq_some_iff, ih]
        constructor
        · rintro ⟨a, ⟨b, rfl, hs⟩, rfl⟩
          exact ⟨b, rfl, by rw [size_cons, hs]; omega⟩
        · rintro ⟨b, h, hs⟩
          cases a with
          | nil => simp at hs
          | cons d a =>
            obtain ⟨rfl, rfl⟩ : c = d ∧ t = a ++ b := by simpa using h
            exact ⟨a, ⟨b, rfl, by rw [size_cons] at hs; omega⟩, rfl⟩
      · simp only [reduceCtorEq, false_iff]
        rintro ⟨b, h, hs⟩
        cases a with
        | nil => simp at hs
        | cons d a =>
          obtain ⟨rfl, rfl⟩ : c = d ∧ t = a ++ b := by simpa using h
          rw [size_cons] at hs
          omega

theorem slice?_eq_some_iff {t b : Text} {start stop : Nat} :
    slice? t start stop = some b ↔ ∃ a c, t = a ++ b ++ c ∧ size a = start ∧ size a + size b = stop := by
  unfold slice?
  split
  · simp only [Option.bind_eq_some_iff, dropBytes?_eq_some_iff, takeBytes?_eq_some_iff]
    constructor
    · rintro ⟨_, ⟨a, rfl, ha⟩, c, rfl, hb⟩
      exact ⟨a, c, by simp, ha, by omega⟩
    · rintro ⟨a, c, rfl, ha, hb⟩
      exact ⟨b ++ c, ⟨a, by simp, ha⟩, c, rfl, by omega⟩
  · simp only [reduceCtorEq, false_iff]
    rintro ⟨a, c, rfl, ha, hb⟩
    omega

theorem slice?_append (a b c : Text) : slice? (a ++ b ++ c) (size a) (size a + size b) = some b :=
  slice?_eq_some_iff.2 ⟨a, c, rfl, rfl, rfl⟩

end Text

/-! ## Positions -/

structure Position where
  line : Nat
  column : Nat
  offset : Nat
  deriving DecidableEq, Repr

namespace Position

def start : Position := ⟨1, 1, 0⟩

/-- The position behind `c`, when `c` stands at `p`. -/
def after (p : Position) (c : Char) : Position :=
  if c = '\n' then ⟨p.line + 1, 1, p.offset + c.utf8Size⟩ else ⟨p.line, p.column + 1, p.offset + c.utf8Size⟩

/-- Walk on from `p` over the characters that stand before byte `offset`. -/
def walk (offset : Nat) (p : Position) : Text → Position
  | [] => p
  | c :: t => if offset ≤ p.offset then p else walk offset (p.after c) t

/-- The position of byte `offset` of `text`; an offset past the end has the line and column of the end. -/
def locate (text : Text) (offset : Nat) : Position := { walk offset start text with offset }

/-- Line and column, as messages show them. -/
def render (p : Position) : String := toString p.line ++ ":" ++ toString p.column

@[simp] theorem offset_after (p : Position) (c : Char) : (p.after c).offset = p.offset + c.utf8Size := by
  unfold after; split <;> rfl

end Position

end InstitutionalGrammar
