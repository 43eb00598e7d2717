/-
  InstitutionalGrammar.Proofs.Signs — the tokens of a text that are not text.

  Delimiters and operators decide how a text is read; the text between them only takes up room.
  The signs of a tidy text and of what follows it are read one after the other
  (`Tidy.signs_append`), and a scan that counts open delimiters passes over a tidy text
  (`Tidy.scan_signs`).
-/

import InstitutionalGrammar.Proofs.Text.Tidy
import InstitutionalGrammar.Reading.Outline

namespace InstitutionalGrammar

def Lexeme.isText : Lexeme → Bool
  | .text _ => true
  | _ => false

def Token.isSign (t : Token) : Bool := !t.lexeme.isText

/-- The position behind a text that starts at `p`. -/
def Position.past (p : Position) (t : Text) : Position := t.foldl Position.after p

/-- The tokens of a text at `p` that are not text. -/
def signs (p : Position) (t : Text) : List Token := (place p (lex t)).filter Token.isSign

namespace Position

@[simp] theorem past_nil (p : Position) : p.past [] = p := rfl

@[simp] theorem past_cons (p : Position) (c : Char) (t : Text) : p.past (c :: t) = (p.after c).past t := rfl

theorem past_append (p : Position) (a b : Text) : p.past (a ++ b) = (p.past a).past b := List.foldl_append

@[simp] theorem offset_past (p : Position) (t : Text) : (p.past t).offset = p.offset + t.size := by
  induction t generalizing p with
  | nil => rfl
  | cons c t ih => rw [past_cons, ih, offset_after, Text.size_cons, Nat.add_assoc]

end Position

/-! ## Signs, one after another -/

@[simp] theorem signs_nil (p : Position) : signs p [] = [] := rfl

theorem signs_consText (p : Position) (c : Char) (ls : List Lexeme) :
    (place p (Lexeme.consText c ls)).filter Token.isSign = (place (p.after c) ls).filter Token.isSign := by
  unfold Lexeme.consText
  split <;> simp [place, Token.isSign, Lexeme.isText, Lexeme.written]

theorem signs_char {c : Char} (hc : isReserved c = false) (p : Position) (t : Text) :
    signs p (c :: t) = signs (p.after c) t := by
  have hb := ne_bracket hc
  have h1 := ne_opening (isDelimiter_of_reserved hc) .parentheses
  have h2 := ne_closing (isDelimiter_of_reserved hc) .parentheses
  have h3 := ne_opening (isDelimiter_of_reserved hc) .braces
  have h4 := ne_closing (isDelimiter_of_reserved hc) .braces
  have hlex : lex (c :: t) = Lexeme.consText c (lex t) := by
    rw [lex.eq_def]
    split <;> simp_all
  unfold signs
  rw [hlex, signs_consText]

theorem signs_opening (d : Delimiters) (p : Position) (t : Text) :
    signs p (d.opening :: t) = ⟨.opening d, p, p.offset + 1⟩ :: signs (p.after d.opening) t := by
  cases d <;> simp [signs, lex, place, Token.isSign, Lexeme.isText, Lexeme.written, Delimiters.opening,
    Delimiters.closing, Char.utf8Size]

theorem signs_closing (d : Delimiters) (p : Position) (t : Text) :
    signs p (d.closing :: t) = ⟨.closing d, p, p.offset + 1⟩ :: signs (p.after d.closing) t := by
  cases d <;> simp [signs, lex, place, Token.isSign, Lexeme.isText, Lexeme.written, Delimiters.opening,
    Delimiters.closing, Char.utf8Size]

theorem signs_operator {o : Operator} (ho : o.isSynthetic = false) (p : Position) (t : Text) :
    signs p (o.token ++ t) = ⟨.operator o, p, p.offset + o.token.size⟩ :: signs (p.past o.token) t := by
  cases o with
  | syntheticAnd => cases ho
  | _ =>
    simp [signs, lex, place, Token.isSign, Lexeme.isText, Lexeme.written, Operator.token, Operator.name,
      Nat.add_assoc]

theorem signs_plain {t : Text} (h : ∀ c ∈ t, isReserved c = false) (p : Position) (rest : Text) :
    signs p (t ++ rest) = signs (p.past t) rest := by
  induction t generalizing p with
  | nil => rfl
  | cons c t ih =>
    rw [List.cons_append, signs_char (h c (by simp)), ih (fun d hd => h d (by simp [hd])), Position.past_cons]

namespace Tidy

theorem signs_append {x : Text} (h : Tidy x) (p : Position) (rest : Text) :
    signs p (x ++ rest) = signs p x ++ signs (p.past x) rest := by
  induction h generalizing p rest with
  | nil => rfl
  | char hc _ ih => rw [List.cons_append, signs_char hc, signs_char hc, ih, Position.past_cons]
  | operator ho _ ih =>
    rw [List.append_assoc, signs_operator ho, signs_operator ho, ih, Position.past_append, List.cons_append]
  | @enclosed d a t _ _ iha iht =>
    rw [List.cons_append, signs_opening, signs_opening, List.append_assoc, iha, iha, List.cons_append, signs_closing,
      signs_closing, iht, Position.past_cons, Position.past_append, Position.past_cons, List.cons_append,
      List.append_assoc, List.cons_append]

/-- A scan that counts the open delimiters of some kinds and passes over all other signs leaves the
    signs of a tidy text at the depth at which it entered. -/
theorem scan_signs {α : Type} (counts : Delimiters → Bool) {f : Nat → List Token → α}
    (opens : ∀ k t ts d, t.lexeme = .opening d → counts d = true → f k (t :: ts) = f (k + 1) ts)
    (closes : ∀ k t ts d, t.lexeme = .closing d → counts d = true → f (k + 1) (t :: ts) = f k ts)
    (others : ∀ k t ts, (∀ d, counts d = true → t.lexeme ≠ .opening d ∧ t.lexeme ≠ .closing d) →
      f k (t :: ts) = f k ts)
    {x : Text} (h : Tidy x) (k : Nat) (p : Position) (ts : List Token) : f k (signs p x ++ ts) = f k ts := by
  induction h generalizing k p ts with
  | nil => rfl
  | char hc _ ih => rw [signs_char hc, ih]
  | operator ho _ ih =>
    rw [signs_operator ho, List.cons_append, others k _ _ (fun d _ => ⟨by simp, by simp⟩), ih]
  | @enclosed d a t ha _ iha iht =>
    rw [signs_opening, ha.signs_append, signs_closing, List.cons_append, List.append_assoc, List.cons_append]
    by_cases hd : counts d = true
    · rw [opens k _ _ d rfl hd, iha, closes k _ _ d rfl hd, iht]
    · have hne : ∀ e, counts e = true → e ≠ d := fun e he hed => hd (hed ▸ he)
      rw [others k _ _ (fun e he => ⟨by simpa using (hne e he).symm, by simp⟩), iha,
        others k _ _ (fun e he => ⟨by simp, by simpa using (hne e he).symm⟩), iht]

end Tidy

/-! ## Scans that pass over text -/

theorem braceBounds_signs (parens braces : Nat) (opened : Option Nat) (ts : List Token) :
    braceBounds parens braces opened (ts.filter Token.isSign) = braceBounds parens braces opened ts := by
  induction ts generalizing parens braces opened with
  | nil => rfl
  | cons t ts ih =>
    obtain ⟨l, p, stop⟩ := t
    cases l with
    | text v => simpa [Token.isSign, Lexeme.isText, braceBounds] using ih parens braces opened
    | operator o => simpa [Token.isSign, Lexeme.isText, braceBounds] using ih parens braces opened
    | opening d => cases d <;> simp [Token.isSign, Lexeme.isText, braceBounds, ih]
    | closing d => cases d <;> simp [Token.isSign, Lexeme.isText, braceBounds, ih]

theorem outerFrom_signs (depth : Nat) (ts : List Token) :
    outerFrom depth (ts.filter Token.isSign) = outerFrom depth ts := by
  induction ts generalizing depth with
  | nil => rfl
  | cons t ts ih =>
    obtain ⟨l, p, stop⟩ := t
    cases l <;> simp [Token.isSign, Lexeme.isText, outerFrom, ih]

end InstitutionalGrammar
