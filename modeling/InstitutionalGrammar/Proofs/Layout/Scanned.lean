/-
  InstitutionalGrammar.Proofs.Layout.Scanned — where the blocks of a balanced text open, and where they close.

  While a block is open only braces count, while a parenthesis is open only parentheses do, so the two kinds
  may cross. Behind any leading part of a balanced text no more braces open than close. So a block that opens
  is closed, by the brace that its own count tells, whatever the parentheses around it and in it do.
  - `openIn`: what a leading part of a text leaves open.
  - `boundsFrom_scanned`: the scan, block by block.
  - `bounds_iff`: the blocks, each by what is open in front of it and by what its braces hold.
-/

import InstitutionalGrammar.Proofs.Header.Leads
import InstitutionalGrammar.Proofs.Signs
import InstitutionalGrammar.Proofs.Text.Balance
import InstitutionalGrammar.Proofs.Text.Lexing

namespace InstitutionalGrammar

variable {text t x : Text} {c : Char} {parens off left right : Nat} {found : List (Nat × Nat)}

/-! ## Character by character -/

/-- The outermost pairs of braces outside parentheses, character by character. -/
def boundsFrom (parens braces : Nat) (opened : Option Nat) (off : Nat) : Text → List (Nat × Nat)
  | [] => []
  | c :: t =>
    if c = Delimiters.parentheses.opening then
      boundsFrom (if braces = 0 then parens + 1 else parens) braces opened (off + c.utf8Size) t
    else if c = Delimiters.parentheses.closing then
      boundsFrom (if braces = 0 then parens - 1 else parens) braces opened (off + c.utf8Size) t
    else if c = brace then
      if parens = 0 then
        boundsFrom parens (braces + 1) (if braces = 0 then some off else opened) (off + c.utf8Size) t
      else boundsFrom parens braces opened (off + c.utf8Size) t
    else if c = endBrace then
      if parens = 0 then
        if braces ≤ 1 then opened.toList.map (·, off) ++ boundsFrom parens 0 none (off + c.utf8Size) t
        else boundsFrom parens (braces - 1) opened (off + c.utf8Size) t
      else boundsFrom parens braces opened (off + c.utf8Size) t
    else boundsFrom parens braces opened (off + c.utf8Size) t

section Scan

variable {parens braces : Nat} {opened : Option Nat}

theorem boundsFrom_char {c : Char} (hc : isDelimiter c = false) (off : Nat) (t : Text) :
    boundsFrom parens braces opened off (c :: t) = boundsFrom parens braces opened (off + c.utf8Size) t := by
  have h1 := ne_opening hc .parentheses
  have h2 := ne_closing hc .parentheses
  have h3 : c ≠ brace := ne_opening hc .braces
  have h4 : c ≠ endBrace := ne_closing hc .braces
  rw [boundsFrom, if_neg h1, if_neg h2, if_neg h3, if_neg h4]

theorem boundsFrom_plain {u : Text} (hu : ∀ c ∈ u, isDelimiter c = false) (off : Nat) (t : Text) :
    boundsFrom parens braces opened off (u ++ t) = boundsFrom parens braces opened (off + u.size) t := by
  induction u generalizing off with
  | nil => rfl
  | cons c u ih =>
    rw [List.cons_append, boundsFrom_char (hu c (by simp)), ih (fun d hd => hu d (by simp [hd])), Text.size_cons,
      Nat.add_assoc]

theorem braceBounds_consText (c : Char) (p : Position) (ls : List Lexeme) :
    braceBounds parens braces opened (place p (Lexeme.consText c ls)) =
      braceBounds parens braces opened (place (p.after c) ls) := by
  unfold Lexeme.consText
  split <;> simp [place, braceBounds, Lexeme.written]

end Scan

/-- Operators and text between the delimiters change nothing. -/
theorem braceBounds_chars (parens braces : Nat) (opened : Option Nat) (p : Position) (t : Text) :
    braceBounds parens braces opened (place p (lex t)) = boundsFrom parens braces opened p.offset t := by
  induction t using lex_induction generalizing parens braces opened p with
  | nil => rfl
  | token o t ho ih =>
    have hskip : braceBounds parens braces opened (place p (lex (o.token ++ t))) =
        braceBounds parens braces opened (place (p.past o.token) (lex t)) := by
      rw [lex_token ho]
      rfl
    rw [hskip, ih, boundsFrom_plain (fun c hc => token_delimiter hc), Position.offset_past]
  | char c t hc ih =>
    have hnext := fun parens braces opened => ih parens braces opened (p.after c)
    simp only [Position.offset_after] at hnext
    rw [lex_char hc, boundsFrom]
    unfold Lexeme.put
    by_cases h1 : c = Delimiters.parentheses.opening
    · rw [if_pos h1, if_pos h1, ← hnext, h1]
      rfl
    · rw [if_neg h1, if_neg h1]
      by_cases h2 : c = Delimiters.parentheses.closing
      · rw [if_pos h2, if_pos h2, ← hnext, h2]
        rfl
      · rw [if_neg h2, if_neg h2]
        by_cases h3 : c = brace
        · rw [if_pos h3, if_pos h3, ← hnext, ← hnext, h3]
          rfl
        · rw [if_neg h3, if_neg h3]
          by_cases h4 : c = endBrace
          · rw [if_pos h4, if_pos h4, ← hnext, ← hnext, ← hnext, h4]
            rfl
          · rw [if_neg h4, if_neg h4, braceBounds_consText, ← hnext]

/-! ## What is open -/

/-- How many parentheses and how many braces the layout has open behind a character; neither kind counts
    inside the other, and what closes without having been opened counts for nothing. -/
def openBehind : Nat × Nat → Char → Nat × Nat
  | (parens, braces), c =>
    if c = Delimiters.parentheses.opening then (if braces = 0 then parens + 1 else parens, braces)
    else if c = Delimiters.parentheses.closing then (if braces = 0 then parens - 1 else parens, braces)
    else if c = brace then (parens, if parens = 0 then braces + 1 else braces)
    else if c = endBrace then (parens, if parens = 0 then braces - 1 else braces)
    else (parens, braces)

def openIn (t : Text) : Nat × Nat := t.foldl openBehind (0, 0)

theorem brace_ne_endBrace : brace ≠ endBrace := Delimiters.opening_ne_closing .braces .braces

/-- Where no block opens or closes, the scan goes on with what is open then. -/
theorem boundsFrom_step {braces : Nat} {opened : Option Nat} (hopens : c = brace → parens = 0 → braces ≠ 0)
    (hcloses : c = endBrace → parens = 0 → braces ≤ 1 → braces = 0 ∧ opened = none) (off : Nat) (t : Text) :
    boundsFrom parens braces opened off (c :: t) = boundsFrom (openBehind (parens, braces) c).1
      (openBehind (parens, braces) c).2 opened (off + c.utf8Size) t := by
  rw [boundsFrom, openBehind]
  by_cases h1 : c = Delimiters.parentheses.opening
  · rw [if_pos h1, if_pos h1]
  · rw [if_neg h1, if_neg h1]
    by_cases h2 : c = Delimiters.parentheses.closing
    · rw [if_pos h2, if_pos h2]
    · rw [if_neg h2, if_neg h2]
      by_cases h3 : c = brace
      · rw [if_pos h3, if_pos h3]
        by_cases hparens : parens = 0
        · rw [if_pos hparens, if_pos hparens, if_neg (hopens h3 hparens)]
        · rw [if_neg hparens, if_neg hparens]
      · rw [if_neg h3, if_neg h3]
        by_cases h4 : c = endBrace
        · rw [if_pos h4, if_pos h4]
          by_cases hparens : parens = 0
          · rw [if_pos hparens, if_pos hparens]
            split
            · rename_i hle
              obtain ⟨rfl, rfl⟩ := hcloses h4 hparens hle
              rfl
            · rfl
          · rw [if_neg hparens, if_neg hparens]
        · rw [if_neg h4, if_neg h4]

/-- Inside a block only braces count. -/
theorem openBehind_turn {k m : Nat} (h : turnDepth .braces k c = some m) :
    openBehind (0, k + 1) c = (0, m + 1) ∧ (c = endBrace → k ≠ 0) := by
  by_cases h3 : c = brace
  · subst h3
    cases h
    exact ⟨rfl, fun e => absurd e brace_ne_endBrace⟩
  · by_cases h4 : c = endBrace
    · subst h4
      cases k with
      | zero => cases h
      | succ k =>
        cases h
        exact ⟨rfl, fun _ => k.succ_ne_zero⟩
    · rw [turnDepth, if_neg h3, if_neg h4] at h
      cases h
      refine ⟨?_, fun e => absurd e h4⟩
      rw [openBehind, if_neg h3, if_neg h4, if_neg k.succ_ne_zero, if_neg k.succ_ne_zero, ite_self, ite_self]

theorem foldl_inside {k m : Nat} (h : depthFrom .braces k x = some m) : x.foldl openBehind (0, k + 1) = (0, m + 1) := by
  induction x generalizing k with
  | nil =>
    cases h
    rfl
  | cons c x ih =>
    rw [depthFrom_cons, Option.bind_eq_some_iff] at h
    obtain ⟨j, hj, h⟩ := h
    rw [List.foldl_cons, (openBehind_turn hj).1]
    exact ih h

theorem boundsFrom_inside {k m : Nat} (h : depthFrom .braces k x = some m) (opened : Option Nat) (off : Nat)
    (rest : Text) :
    boundsFrom 0 (k + 1) opened off (x ++ rest) = boundsFrom 0 (m + 1) opened (off + x.size) rest := by
  induction x generalizing k off with
  | nil =>
    cases h
    rfl
  | cons c x ih =>
    rw [depthFrom_cons, Option.bind_eq_some_iff] at h
    obtain ⟨j, hj, h⟩ := h
    obtain ⟨hopen, hne⟩ := openBehind_turn hj
    rw [List.cons_append, boundsFrom_step (fun _ _ => k.succ_ne_zero) (fun e _ _ => absurd (hne e) (by omega)), hopen,
      ih h, Text.size_cons, Nat.add_assoc]

/-- Outside all blocks nothing but a brace outside all parentheses opens one. -/
theorem openBehind_outside (h : ¬ (c = brace ∧ parens = 0)) : (openBehind (parens, 0) c).2 = 0 := by
  rw [openBehind]
  split
  · rfl
  · split
    · rfl
    · split
      · rename_i hc
        exact if_neg fun hparens => h ⟨hc, hparens⟩
      · split
        · exact ite_self _
        · rfl

theorem boundsFrom_outside (h : ¬ (c = brace ∧ parens = 0)) (off : Nat) (t : Text) :
    boundsFrom parens 0 none off (c :: t) = boundsFrom (openBehind (parens, 0) c).1 0 none (off + c.utf8Size) t := by
  rw [boundsFrom_step (fun hc hparens => absurd ⟨hc, hparens⟩ h) (fun _ _ _ => ⟨rfl, rfl⟩), openBehind_outside h]

/-! ## Balance -/

/-- Behind every leading part no more braces open than close. -/
def Falling (t : Text) : Prop := ∀ r, r <:+ t → r.count brace ≤ r.count endBrace

theorem Balanced.falling (h : Balanced .braces t) : Falling t := by
  rintro r ⟨a, rfl⟩
  have hbefore := h.ordered a (List.prefix_append a r)
  have hall := h.total
  rw [List.count_append, List.count_append] at hall
  show r.count Delimiters.braces.opening ≤ r.count Delimiters.braces.closing
  omega

theorem Falling.behind {a : Text} (h : Falling (a ++ t)) : Falling t := fun r hr => h r (hr.trans (List.suffix_append a t))

theorem Falling.closes (h : Falling (brace :: t)) : ∃ x s, t = x ++ endBrace :: s ∧ Balanced .braces x := by
  have hall := h _ (List.suffix_refl _)
  rw [List.count_cons_self, List.count_cons_of_ne brace_ne_endBrace] at hall
  obtain ⟨x, s, hs, hx⟩ := Balanced.exists_first_closing (k := 0) (d := .braces) (t := t) (by
    show 0 + t.count brace < t.count endBrace
    omega)
  exact ⟨x, s, hs, balanced_iff.2 hx⟩

/-! ## The scan -/

/-- Outside all blocks, with that many parentheses open: where the blocks stand that are found from there on. -/
inductive Scanned : (parens off : Nat) → Text → List (Nat × Nat) → Prop
  | nil (parens off : Nat) : Scanned parens off [] []
  | char {parens off : Nat} {c : Char} {t : Text} {found : List (Nat × Nat)} : ¬ (c = brace ∧ parens = 0) →
    Scanned (openBehind (parens, 0) c).1 (off + c.utf8Size) t found → Scanned parens off (c :: t) found
  | block {off : Nat} {x t : Text} {found : List (Nat × Nat)} : Balanced .braces x →
    Scanned 0 (off + 1 + x.size + 1) t found →
    Scanned 0 off (brace :: (x ++ endBrace :: t)) ((off, off + 1 + x.size) :: found)

theorem boundsFrom_scanned (h : Falling t) (parens off : Nat) : Scanned parens off t (boundsFrom parens 0 none off t) := by
  induction hlen : t.length using Nat.strongRecOn generalizing t parens off with
  | ind k ih =>
    cases t with
    | nil => exact .nil parens off
    | cons c t =>
      by_cases hbrace : c = brace ∧ parens = 0
      · obtain ⟨rfl, rfl⟩ := hbrace
        obtain ⟨x, s, rfl, hx⟩ := h.closes
        have hinside := boundsFrom_inside (balanced_iff.1 hx) (some off) (off + 1) (endBrace :: s)
        have hscan : boundsFrom 0 0 none off (brace :: (x ++ endBrace :: s)) =
            (off, off + 1 + x.size) :: boundsFrom 0 0 none (off + 1 + x.size + 1) s := hinside
        rw [hscan]
        have hbehind : Falling s := Falling.behind (a := brace :: (x ++ [endBrace])) (by simpa using h)
        refine .block hx (ih _ ?_ hbehind _ _ rfl)
        rw [← hlen]
        simp
        omega
      · rw [boundsFrom_outside hbrace]
        refine .char hbrace (ih _ ?_ (Falling.behind (a := [c]) h) _ _ rfl)
        rw [← hlen]
        simp

/-- Behind a block nothing is open, and in it something is. -/
theorem foldl_block (hx : Balanced .braces x) (t : Text) :
    (brace :: (x ++ endBrace :: t)).foldl openBehind (0, 0) = t.foldl openBehind (0, 0) := by
  have hinside : x.foldl openBehind (0, 1) = (0, 1) := foldl_inside (balanced_iff.1 hx)
  show (x ++ endBrace :: t).foldl openBehind (0, 1) = _
  rw [List.foldl_append, hinside]
  rfl

theorem open_in_block {a u : Text} (hx : Balanced .braces (a ++ u)) : a.foldl openBehind (0, 1) ≠ (0, 0) := by
  rw [balanced_iff, depthFrom_append, Option.bind_eq_some_iff] at hx
  obtain ⟨m, hm, -⟩ := hx
  rw [foldl_inside hm]
  nofun

/-- A block is found exactly where a brace opens with nothing open in front of it, and it ends where the count of
    braces says. -/
theorem Scanned.mem_iff (h : Scanned parens off t found) : (left, right) ∈ found ↔
    ∃ a x b, t = a ++ brace :: (x ++ endBrace :: b) ∧ a.foldl openBehind (parens, 0) = (0, 0) ∧ Balanced .braces x ∧
      left = off + Text.size a ∧ right = left + 1 + Text.size x := by
  induction h with
  | nil => simp
  | @char parens off c t found hc _ ih =>
    have hstep : openBehind (parens, 0) c = ((openBehind (parens, 0) c).1, 0) := Prod.ext rfl (openBehind_outside hc)
    rw [ih]
    constructor
    · rintro ⟨a, x, b, rfl, hopen, hx, rfl, rfl⟩
      refine ⟨c :: a, x, b, rfl, ?_, hx, by rw [Text.size_cons, Nat.add_assoc], rfl⟩
      rw [List.foldl_cons, hstep]
      exact hopen
    · rintro ⟨a, x, b, ht, hopen, hx, rfl, rfl⟩
      cases a with
      | nil => exact absurd ⟨(List.cons.inj ht).1, congrArg Prod.fst hopen⟩ hc
      | cons d a =>
        obtain ⟨rfl, rfl⟩ := List.cons.inj ht
        rw [List.foldl_cons, hstep] at hopen
        exact ⟨a, x, b, rfl, hopen, hx, by rw [Text.size_cons, Nat.add_assoc], rfl⟩
  | @block off x t found hx _ ih =>
    rw [List.mem_cons, ih]
    constructor
    · rintro (hfirst | ⟨a, y, b, rfl, hopen, hy, rfl, rfl⟩)
      · obtain ⟨rfl, rfl⟩ := Prod.mk.inj hfirst
        exact ⟨[], x, t, rfl, rfl, hx, rfl, rfl⟩
      · refine ⟨brace :: (x ++ endBrace :: a), y, b, by simp, ?_, hy, ?_, rfl⟩
        · rw [foldl_block hx, hopen]
        · simp only [Text.size_cons, Text.size_append, Delimiters.utf8Size_opening, Delimiters.utf8Size_closing]
          omega
    · rintro ⟨a, y, b, ht, hopen, hy, rfl, rfl⟩
      cases a with
      | nil =>
        obtain ⟨rfl, -⟩ := Balanced.closes_once hx hy (List.cons.inj ht).2
        exact Or.inl rfl
      | cons d a =>
        obtain ⟨rfl, hrest⟩ := List.cons.inj ht
        rcases Text.append_cons_split brace_ne_endBrace.symm hrest with ⟨u, rfl, -⟩ | ⟨u, rfl, rfl⟩
        · exact absurd hopen (open_in_block hx)
        · rw [foldl_block hx] at hopen
          refine Or.inr ⟨u, y, b, rfl, hopen, hy, ?_, rfl⟩
          simp only [Text.size_cons, Text.size_append, Delimiters.utf8Size_opening, Delimiters.utf8Size_closing]
          omega

/-- The blocks of a balanced text, by what is open. -/
theorem bounds_iff (h : Balanced .braces text) :
    (left, right) ∈ braceBounds 0 0 none (tokens text) ↔ ∃ a x b, text = a ++ brace :: (x ++ endBrace :: b) ∧
      openIn a = (0, 0) ∧ Balanced .braces x ∧ left = Text.size a ∧ right = left + 1 + Text.size x := by
  unfold tokens
  rw [braceBounds_chars, (boundsFrom_scanned h.falling 0 _).mem_iff]
  simp only [Position.start, Nat.zero_add]
  rfl

end InstitutionalGrammar
