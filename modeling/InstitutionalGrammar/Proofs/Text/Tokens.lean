/-
  InstitutionalGrammar.Proofs.Text.Tokens — the tokens of a text, and that it has no others.

  Each token stands right behind the one before it, on exactly what is written with it. If besides no text among
  them could be read as more or as less, then where a token starts, the characters from there on tell which one
  it is and how far it reaches. So the text leaves no choice.
  - `tokens_tiled`: where the tokens stand.
  - `lex_maximal`, `lex_written_maximal`: the lexemes of a text, and that no others are written like them.
  - `locate_size`: counted from the front of the text, a place is the one that was counted along the way.
  - `tokens_unique`: the tokens of a text, among all lists of tokens.
-/

import Mathlib.Data.List.Chain
import InstitutionalGrammar.Proofs.Signs
import InstitutionalGrammar.Proofs.Text.Cuts
import InstitutionalGrammar.Proofs.Text.Lexing
import InstitutionalGrammar.Proofs.Text.Operators

namespace InstitutionalGrammar

variable {text a b t v : Text} {i : Nat} {c : Char} {ls : List Lexeme} {ts : List Token}

/-! ## Where tokens stand -/

/-- The tokens stand one behind another, from the byte to the end of the text. -/
def Tiled (text : Text) : Nat → List Token → Prop
  | i, [] => i = text.size
  | i, t :: ts => t.position.offset = i ∧ text.At i t.lexeme.written ∧ t.stop = i + t.lexeme.written.size ∧
    Tiled text t.stop ts

theorem place_tiled {u : Text} {ls : List Lexeme} {p : Position} (ht : text = u ++ ls.flatMap Lexeme.written)
    (hp : p.offset = u.size) : Tiled text p.offset (place p ls) := by
  induction ls generalizing u p with
  | nil =>
    rw [place, Tiled, hp, ht]
    simp
  | cons l ls ih =>
    have hstop : (l.written.foldl Position.after p).offset = u.size + l.written.size := by
      rw [← hp]
      exact Position.offset_past p l.written
    refine ⟨rfl, ⟨u, ls.flatMap Lexeme.written, by simpa using ht, hp.symm⟩, by rw [hp]; exact hstop, ?_⟩
    refine ih (u := u ++ l.written) (by simpa using ht) ?_
    rw [hstop, Text.size_append]

theorem tokens_tiled (text : Text) : Tiled text 0 (tokens text) :=
  place_tiled (u := []) (p := .start) (lex_written text).symm rfl

theorem Tiled.stands (h : Tiled text i ts) {t : Token} (ht : t ∈ ts) :
    text.At t.position.offset t.lexeme.written ∧ t.stop = t.position.offset + t.lexeme.written.size := by
  induction ts generalizing i with
  | nil => cases ht
  | cons u ts ih =>
    obtain ⟨rfl, hat, hstop, hbehind⟩ := h
    rcases List.mem_cons.1 ht with rfl | ht
    · exact ⟨hat, hstop⟩
    · exact ih hbehind ht

theorem Tiled.part (h : Tiled text i ts) {t : Token} (ht : t ∈ ts) : t.lexeme.written <:+: text := (h.stands ht).1.part

theorem tokens_writable (text : Text) : ∀ t ∈ tokens text, t.lexeme.Writable := by
  rw [← List.forall_mem_map, map_lexeme_tokens]
  exact writable_of_mem_lex text

/-! ## Texts among the lexemes -/

namespace Lexeme

/-- A text holds neither a delimiter nor the written form of an operator, and an operator is one that has such a form. -/
def Pure : Lexeme → Prop
  | .text v => (∀ c ∈ v, isDelimiter c = false) ∧ OperatorFree v
  | .operator o => o.isSynthetic = false
  | .opening _ | .closing _ => True

/-- Two lexemes that are not both text. -/
def Apart (l m : Lexeme) : Prop := ¬ (l.isText = true ∧ m.isText = true)

/-- No text among the lexemes holds what is read as another lexeme, and none goes on in the next one. -/
structure Maximal (ls : List Lexeme) : Prop where
  pure : ∀ l ∈ ls, l.Pure
  apart : ls.IsChain Apart

theorem put_plain (hc : isDelimiter c = false) (ls : List Lexeme) : put c ls = consText c ls := by
  simp [put, ne_opening hc, ne_closing hc]

end Lexeme

theorem OperatorFree.nil : OperatorFree [] := by
  intro o ho h
  obtain ⟨r, hr, -⟩ := token_eq ho
  rw [List.infix_nil, hr] at h
  cases h

theorem OperatorFree.cons (hv : OperatorFree v) (hc : startsOperator (c :: v) = false) : OperatorFree (c :: v) := by
  intro o ho h
  rcases List.infix_cons_iff.1 h with hprefix | hinfix
  · rw [startsOperator_iff.2 ⟨o, ho, hprefix⟩] at hc
    cases hc
  · exact hv o ho hinfix

theorem OperatorFree.starts (h : OperatorFree v) : startsOperator v = false := by
  rw [← Bool.not_eq_true, startsOperator_iff]
  rintro ⟨o, ho, hprefix⟩
  exact h o ho hprefix.isInfix

namespace Lexeme.Maximal

theorem nil : Maximal [] := ⟨nofun, .nil⟩

theorem tail {l : Lexeme} (h : Maximal (l :: ls)) : Maximal ls :=
  ⟨fun m hm => h.pure m (List.mem_cons_of_mem _ hm), h.apart.tail⟩

/-- Behind a lexeme that is not text any other may stand. -/
theorem cons {l : Lexeme} (hl : l.Pure) (htext : l.isText = false) (h : Maximal ls) : Maximal (l :: ls) where
  pure := List.forall_mem_cons.2 ⟨hl, h.pure⟩
  apart := by
    refine h.apart.cons fun m _ hboth => ?_
    rw [htext] at hboth
    cases hboth.1

/-- A character joins the text that it stands in front of. -/
theorem consText (h : Maximal ls) (hc : isDelimiter c = false)
    (hstart : startsOperator (c :: ls.flatMap written) = false) : Maximal (consText c ls) := by
  unfold Lexeme.consText
  split
  · rename_i v ls
    obtain ⟨hplain, hfree⟩ := h.pure (.text v) List.mem_cons_self
    have hpure : Pure (.text (c :: v)) :=
      ⟨List.forall_mem_cons.2 ⟨hc, hplain⟩, hfree.cons (startsOperator_append hstart)⟩
    refine ⟨List.forall_mem_cons.2 ⟨hpure, h.tail.pure⟩, ?_⟩
    exact h.apart.tail.cons fun m hm hboth => List.isChain_cons.1 h.apart |>.1 m hm hboth
  · rename_i hnot
    have hpure : Pure (.text [c]) := by
      refine ⟨by simpa using hc, OperatorFree.nil.cons ?_⟩
      exact startsOperator_append (a := []) hstart
    refine ⟨List.forall_mem_cons.2 ⟨hpure, h.pure⟩, h.apart.cons fun m hm hboth => ?_⟩
    cases m with
    | text v =>
      obtain ⟨rest, rfl⟩ := List.head?_eq_some_iff.1 hm
      exact hnot v rest rfl
    | _ => cases hboth.2

end Lexeme.Maximal

theorem lex_maximal (t : Text) : Lexeme.Maximal (lex t) := by
  induction t using lex_induction with
  | nil => exact .nil
  | token o t ho ih =>
    rw [lex_token ho]
    exact ih.cons ho rfl
  | char c t hstart ih =>
    rw [lex_char hstart]
    by_cases hc : isDelimiter c = false
    · rw [Lexeme.put_plain hc]
      exact ih.consText hc (by rwa [lex_written])
    · obtain ⟨d, rfl | rfl⟩ := exists_delimiter (by simpa using hc)
      · rw [Lexeme.put_opening]
        exact ih.cons trivial rfl
      · rw [Lexeme.put_closing]
        exact ih.cons trivial rfl

/-- Text in which nothing else is read is one lexeme. -/
theorem lex_text (hne : v ≠ []) (hv : Lexeme.Pure (.text v)) : lex v = [.text v] := by
  obtain ⟨hplain, hfree⟩ := hv
  induction v with
  | nil => exact absurd rfl hne
  | cons c v ih =>
    obtain ⟨hc, hplain⟩ := List.forall_mem_cons.1 hplain
    rw [lex_char hfree.starts, Lexeme.put_plain hc]
    cases v with
    | nil => rfl
    | cons d v =>
      rw [ih (List.cons_ne_nil d v) hplain (hfree.part (List.suffix_cons c _).isInfix)]
      rfl

/-- What is not text breaks off the text in front of it. -/
theorem Lexeme.Maximal.sharp {l : Lexeme} (h : Maximal (l :: ls)) (htext : l.isText = false) :
    Sharp ((l :: ls).flatMap Lexeme.written) := by
  cases l with
  | opening d => exact .opening d _
  | closing d => exact .closing d _
  | operator o => exact .token (h.pure (.operator o) List.mem_cons_self) _
  | text v => cases htext

/-- No other lexemes of this kind are written like those of the text. -/
theorem lex_written_maximal (h : Lexeme.Maximal ls) (hne : ∀ l ∈ ls, l.written ≠ []) :
    lex (ls.flatMap Lexeme.written) = ls := by
  induction ls with
  | nil => rfl
  | cons l ls ih =>
    obtain ⟨hl, hls⟩ := List.forall_mem_cons.1 hne
    have ih := ih h.tail hls
    rw [List.flatMap_cons]
    cases l with
    | opening d => exact (lex_opening d _).trans (congrArg _ ih)
    | closing d => exact (lex_closing d _).trans (congrArg _ ih)
    | operator o => exact (lex_token (h.pure (.operator o) List.mem_cons_self) _).trans (congrArg _ ih)
    | text v =>
      have hv : lex v = [.text v] := lex_text hl (h.pure (.text v) List.mem_cons_self)
      cases ls with
      | nil => simpa [Lexeme.written] using hv
      | cons m ls =>
        have hm : m.isText = false := by
          have hapart := (List.isChain_cons_cons.1 h.apart).1
          simpa [Lexeme.Apart, Lexeme.isText] using hapart
        show lex (v ++ _) = _
        rw [lex_append v (h.tail.sharp hm), hv, ih]
        rfl

/-! ## Line and column -/

theorem Position.walk_size (p : Position) (a b : Text) : walk (p.offset + a.size) p (a ++ b) = p.past a := by
  induction a generalizing p with
  | nil => cases b <;> simp [walk]
  | cons c a ih =>
    have hc := c.utf8Size_pos
    have hbehind : p.offset + Text.size (c :: a) = (p.after c).offset + Text.size a := by
      rw [offset_after, Text.size_cons, Nat.add_assoc]
    rw [List.cons_append, walk, if_neg (by rw [Text.size_cons]; omega), hbehind, ih, past_cons]

theorem locate_size (a b : Text) : Position.locate (a ++ b) a.size = Position.start.past a := by
  have hwalk := Position.walk_size .start a b
  have hoffset := Position.offset_past .start a
  simp only [Position.start, Nat.zero_add] at hwalk hoffset ⊢
  rw [Position.locate, Position.start, hwalk, ← hoffset]

theorem place_located {u : Text} (ht : text = u ++ ls.flatMap Lexeme.written) :
    ∀ t ∈ place (Position.start.past u) ls, t.position = Position.locate text t.position.offset := by
  induction ls generalizing u with
  | nil => exact nofun
  | cons l ls ih =>
    rw [place]
    refine List.forall_mem_cons.2 ⟨?_, ?_⟩
    · show Position.start.past u = Position.locate text (Position.start.past u).offset
      rw [Position.offset_past, Position.start, Nat.zero_add, ht, locate_size, Position.start]
    · have hpast : l.written.foldl Position.after (Position.start.past u) = Position.start.past (u ++ l.written) :=
        (Position.past_append .start u l.written).symm
      rw [hpast]
      exact ih (by simpa using ht)

/-! ## The tokens of a text -/

/-- The token with the line and the column that its byte has in the text. -/
def Token.locatedIn (text : Text) (t : Token) : Token := { t with position := Position.locate text t.position.offset }

/-- The tokens cover the text without a gap or an overlap, each on exactly what is written with it. None is
    empty, what counts as text holds neither a delimiter nor the written form of an operator, and no two texts are
    side by side. -/
structure Tokenizes (text : Text) (ts : List Token) : Prop where
  tiled : Tiled text 0 ts
  nonempty : ∀ t ∈ ts, t.position.offset < t.stop
  maximal : Lexeme.Maximal (ts.map Token.lexeme)

/-- Tokens that stand one behind another are where their lexemes are placed, lines and columns apart. -/
theorem Tiled.eq_place {u r : Text} (h : Tiled text u.size ts) (ht : text = u ++ r) :
    (ts.map Token.lexeme).flatMap Lexeme.written = r ∧
      ts.map (Token.locatedIn text) = place (Position.start.past u) (ts.map Token.lexeme) := by
  induction ts generalizing u r with
  | nil =>
    have hsize : u.size = text.size := h
    rw [ht, Text.size_append] at hsize
    obtain rfl : r = [] := Text.size_eq_zero.1 (by omega)
    exact ⟨rfl, rfl⟩
  | cons t ts ih =>
    obtain ⟨hoffset, ⟨a, b, hab, ha⟩, hstop, hbehind⟩ := h
    obtain ⟨rfl, rfl⟩ := Text.append_inj_size (ht.symm.trans hab) ha.symm
    rw [hstop, ← Text.size_append] at hbehind
    obtain ⟨hwritten, hplace⟩ := ih hbehind (by simpa using hab)
    refine ⟨congrArg (t.lexeme.written ++ ·) hwritten, ?_⟩
    rw [Position.past_append] at hplace
    have hposition : Position.locate text t.position.offset = Position.start.past u := by
      rw [hoffset, hab, locate_size]
    have hend : t.stop = ((Position.start.past u).past t.lexeme.written).offset := by
      rw [hstop, Position.offset_past, Position.offset_past, Position.start, Nat.zero_add]
    rw [List.map_cons, hplace, List.map_cons, place, Token.locatedIn, hposition, hend]
    rfl

/-- The tokens of a text tokenize it, each with the line and the column of its first byte. Lines and columns
    apart no other list of tokens does. -/
theorem tokens_unique (text : Text) :
    Tokenizes text (tokens text) ∧
    (∀ t ∈ tokens text, t.position = Position.locate text t.position.offset) ∧
    ∀ ts, Tokenizes text ts → ts.map (Token.locatedIn text) = tokens text := by
  refine ⟨⟨tokens_tiled text, fun t ht => ?_, ?_⟩, place_located (u := []) (lex_written text).symm, fun ts h => ?_⟩
  · obtain ⟨-, hstop⟩ := (tokens_tiled text).stands ht
    have hsize := mt Text.size_eq_zero.1 (tokens_writable text t ht).ne_nil
    omega
  · rw [map_lexeme_tokens]
    exact lex_maximal text
  · obtain ⟨hwritten, hplace⟩ := Tiled.eq_place (u := []) h.tiled rfl
    have hne : ∀ l ∈ ts.map Token.lexeme, l.written ≠ [] := by
      rw [List.forall_mem_map]
      intro t ht hnil
      obtain ⟨-, hstop⟩ := h.tiled.stands ht
      have hlt := h.nonempty t ht
      rw [hstop, hnil, Text.size_nil] at hlt
      omega
    have hlex := lex_written_maximal h.maximal hne
    rw [hwritten] at hlex
    rw [hplace, tokens, hlex]
    rfl

end InstitutionalGrammar
