/-
  InstitutionalGrammar.Proofs.Combination.Layers — the open spans of a nested text.

  Outside all contents and all blocks behind headers, everything that a nested text has open is a brace
  that opened a span. So the text up to there is a row of nested texts with such braces between them,
  one layer for each open span, whatever was swept before.
  - `Layered`: the layers; `Layered.extend`, `push`, `pop`, `note`: what the lexemes do to them.
  - `Layered.unclosed`: whatever is open behind the layers opened one of them.
  - `Reached`: the layers and the depths behind a part of a nested text; `Reached.pass`, `Reached.step`.
  - `operates_of_layered`: an operator behind layers counts for the search for combinations.
-/

import InstitutionalGrammar.Proofs.Combination.Rounds
import InstitutionalGrammar.Proofs.Combination.Settled
import InstitutionalGrammar.Proofs.Header.Reach
import InstitutionalGrammar.Proofs.Text.Open

namespace InstitutionalGrammar

variable {fs gs : List Frame} {f : Frame} {a g m q t u w z : Text} {n : Depths} {d : Delimiters} {l : Lexeme}
  {st : List Delimiters} {o : Operator}

theorem token_nested (o : Operator) : WellNested o.token := .of_all fun _ hc => token_delimiter hc

theorem tagged_brace (hm : Bracketed m) (a : Text) : tagged (a ++ brace :: m) = tagged m :=
  tagged_reach (by decide) hm (Or.inr (by decide)) a

/-- The lexemes between delimiters and tokens are written without delimiters. -/
theorem text_of_mem_lex {v : Text} (h : .text v ∈ lex t) : WellNested v := .of_all ((lex_maximal t).pure (.text v) h).1

/-! ## Layers -/

/-- A nested text from byte `start` on; the operator, if there is one, stands in it between nested texts. -/
structure Noted (start : Nat) (g : Text) (o : Option PlacedOperator) : Prop where
  nested : WellNested g
  halves : ∀ p ∈ o, ∃ l r, g = l ++ (p.operator.token ++ r) ∧ WellNested l ∧ WellNested r ∧ start + l.size = p.start ∧
    p.stop = p.start + p.operator.token.size ∧ p.operator.isSynthetic = false

theorem Noted.extend {start : Nat} {o : Option PlacedOperator} (h : Noted start g o) (hw : WellNested w) : Noted start (g ++ w) o where
  nested := h.nested.append hw
  halves := by
    intro p hp
    obtain ⟨l, r, rfl, hl, hr, hplace⟩ := h.halves p hp
    exact ⟨l, r ++ w, by simp, hl, hr.append hw, hplace⟩

/-- The open spans, innermost first, of a text that has nothing else open; no header stands in front of them. -/
inductive Layered : List Frame → Text → Prop
  | nested {q : Text} : WellNested q → Layered [] q
  | opened {fs : List Frame} {f : Frame} {q g : Text} : Layered fs q → tagged q = false → f.left = q.size →
      Noted (q.size + 1) g f.operator → Layered (f :: fs) (q ++ brace :: g)

namespace Layered

theorem extend (h : Layered fs q) (hw : WellNested w) : Layered fs (q ++ w) := by
  cases h with
  | nested hq => exact .nested (hq.append hw)
  | opened hq htagged hleft hg =>
    rw [List.append_assoc, List.cons_append]
    exact .opened hq htagged hleft (hg.extend hw)

theorem push (h : Layered fs q) (htagged : tagged q = false) : Layered (⟨q.size, none⟩ :: fs) (q ++ [brace]) :=
  .opened h htagged rfl ⟨.nil, nofun⟩

theorem note (h : Layered (f :: fs) q) (p : PlacedOperator) (hstart : p.start = q.size)
    (hstop : p.stop = p.start + p.operator.token.size) (hwritten : p.operator.isSynthetic = false) :
    Layered ({ f with operator := some p } :: fs) (q ++ p.operator.token) := by
  cases h with
  | @opened _ _ q g hq htagged hleft hg =>
    rw [List.append_assoc, List.cons_append]
    refine .opened hq htagged hleft ⟨hg.nested.append (token_nested _), ?_⟩
    rintro _ ⟨⟩
    refine ⟨g, [], by simp, hg.nested, .nil, ?_, hstop, hwritten⟩
    rw [hstart, Text.size_append, Text.size_cons, Delimiters.utf8Size_opening]
    omega

/-- The innermost span closes. -/
theorem close (h : Layered fs a) (hg : WellNested g) : Layered fs (a ++ brace :: g ++ [endBrace]) := by
  have hclosed := h.extend (.enclosed (d := .braces) hg .nil)
  rwa [List.append_assoc, List.cons_append]

/-- What is open behind the text. -/
theorem leftOpen_eq (h : Layered fs q) : leftOpen [] q = some (List.replicate fs.length .braces) := by
  induction h with
  | nested hq => exact hq.leftOpen_eq []
  | opened _ _ _ hg ih => rw [leftOpen_append, ih, Option.bind_some, leftOpen_opening, hg.nested.leftOpen_eq]; rfl

/-- Where a brace can close, a span is open. -/
theorem exists_open (h : Layered fs q) (hopen : leftOpen [] (q ++ [endBrace]) = some st) :
    ∃ (f : Frame) (rest : List Frame) (a g : Text), fs = f :: rest ∧ q = a ++ brace :: g ∧ Layered rest a ∧
      f.left = a.size ∧ Noted (a.size + 1) g f.operator := by
  cases h with
  | nested hq =>
    rw [leftOpen_append, hq.leftOpen_eq, Option.bind_some] at hopen
    cases hopen
  | @opened rest f a g ha _ hleft hg => exact ⟨f, rest, a, g, rfl, rfl, ha, hleft, hg⟩

/-- A delimiter that has not closed opened one of the layers, and what stands behind it is layered as well. -/
theorem unclosed (h : Layered fs q) (hq : q = a ++ d.opening :: m) (hm : leftOpen [] m = some st) :
    d = .braces ∧ tagged a = false ∧ (Bracketed m → ∃ gs, Layered gs (brace :: m)) := by
  induction h generalizing m st with
  | nested hnested =>
    rw [hq] at hnested
    exact (hnested.not_open hm).elim
  | @opened fs f q g hlayers htagged _ hg ih =>
    have hself : a = q → d.opening = brace → m = g →
        d = .braces ∧ tagged a = false ∧ (Bracketed m → ∃ gs, Layered gs (brace :: m)) := by
      rintro rfl hd rfl
      exact ⟨opening_inj hd, htagged, fun _ => ⟨_, .opened (f := ⟨0, none⟩) (.nested .nil) rfl rfl ⟨hg.nested, nofun⟩⟩⟩
    rcases List.append_eq_append_iff.1 hq with ⟨y, hy, hrest⟩ | ⟨y, hy, hrest⟩
    · cases y with
      | nil =>
        obtain ⟨hd, hg'⟩ := List.cons.inj hrest
        exact hself (by simpa using hy) hd.symm hg'.symm
      | cons c y =>
        obtain ⟨-, rfl⟩ := List.cons.inj hrest
        exact (hg.nested.not_open hm).elim
    · cases y with
      | nil =>
        obtain ⟨hd, hm'⟩ := List.cons.inj hrest
        exact hself (by simpa using hy.symm) hd hm'
      | cons c y =>
        obtain ⟨rfl, rfl⟩ := List.cons.inj hrest
        have hopen : (leftOpen [] y).bind (fun st' => leftOpen st' (brace :: g)) = some st := by
          rw [← leftOpen_append]
          exact hm
        obtain ⟨st', hst', -⟩ := Option.bind_eq_some_iff.1 hopen
        obtain ⟨rfl, hfalse, hbehind⟩ := ih hy hst'
        refine ⟨rfl, hfalse, fun hbracketed => ?_⟩
        obtain ⟨gs, hgs⟩ := hbehind hbracketed.front
        have hsame : tagged (brace :: y) = false := by
          rw [hy] at htagged
          rw [tagged_brace hbracketed.front] at htagged
          rw [← htagged]
          exact tagged_brace hbracketed.front []
        exact ⟨_, .opened (f := ⟨Text.size (brace :: y), none⟩) hgs hsame rfl ⟨hg.nested, nofun⟩⟩

end Layered

/-! ## Blocks and contents -/

/-- The depths in a tagged block or a content in which the delimiters `st` are open. -/
def Depths.within : Delimiters → List Delimiters → Depths
  | .parentheses, st => ⟨0, st.count .parentheses + 1⟩
  | .braces, st => ⟨st.count .braces + 1, 0⟩

/-- What stands behind the text `q` where all blocks and contents had closed, and the depths behind it: nothing,
    or a block behind a header or a content that has not closed. -/
inductive Pending (q : Text) : Text → Depths → Prop
  | none : Pending q [] .zero
  | inside {d : Delimiters} {z : Text} {st : List Delimiters} : (d = .braces → tagged q = true) →
      leftOpen [] z = some st → Pending q (d.opening :: z) (.within d st)

theorem Depths.within_ne_zero (d : Delimiters) (st : List Delimiters) : Depths.within d st ≠ .zero := by
  cases d with
  | parentheses =>
    intro h
    exact absurd (congrArg Depths.content h) (Nat.succ_ne_zero _)
  | braces =>
    intro h
    exact absurd (congrArg Depths.block h) (Nat.succ_ne_zero _)

theorem Depths.next_opening (d e : Delimiters) (st : List Delimiters) (isTagged : Bool) :
    (Depths.within d st).next .braces isTagged (.opening e) = .within d (e :: st) := by
  cases d <;> cases e <;> simp [within, next]

theorem Depths.next_closing (d e : Delimiters) (st : List Delimiters) (isTagged : Bool) :
    (Depths.within d (e :: st)).next .braces isTagged (.closing e) = .within d st := by
  cases d <;> cases e <;> simp [within, next]

theorem Depths.next_closing_last (d : Delimiters) (isTagged : Bool) :
    (Depths.within d []).next .braces isTagged (.closing d) = .zero := by
  cases d <;> rfl

/-- The open spans and the depths behind a part of a nested text. -/
def Reached (fs : List Frame) (q : Text) (n : Depths) : Prop := ∃ u z, q = u ++ z ∧ Layered fs u ∧ Pending u z n

namespace Reached

theorem start : Reached [] [] .zero := ⟨[], [], rfl, .nested .nil, .none⟩

theorem layered (h : Reached fs q .zero) : Layered fs q := by
  obtain ⟨u, z, rfl, hu, hz⟩ := h
  generalize hn : Depths.zero = n at hz
  cases hz with
  | none => simpa using hu
  | inside => exact absurd hn.symm (Depths.within_ne_zero _ _)

theorem of_layered (h : Layered fs q) : Reached fs q .zero := ⟨q, [], by simp, h, .none⟩

/-- No block and no content is open behind layers. -/
theorem zero_of_layered (h : Reached fs q n) (hlayers : Layered gs q) : n = .zero := by
  obtain ⟨u, z, rfl, -, hz⟩ := h
  cases hz with
  | none => rfl
  | inside htagged hst =>
    obtain ⟨rfl, hfalse, -⟩ := hlayers.unclosed rfl hst
    rw [htagged rfl] at hfalse
    cases hfalse

/-- A lexeme that does not count, behind layers, opens a content or a block behind a header, or nothing. -/
theorem pass_layers (h : Layered fs q) (htext : ∀ v, l = .text v → WellNested v)
    (hplain : Depths.zero.mark .braces (tagged q) l = .plain) (hopen : leftOpen [] (q ++ l.written) = some st) :
    Reached fs (q ++ l.written) (Depths.zero.next .braces (tagged q) l) := by
  cases l with
  | text v => exact of_layered (h.extend (htext v rfl))
  | operator o => simp [Depths.mark, Mark.ofLexeme] at hplain
  | opening d =>
    cases d with
    | parentheses => exact ⟨q, _, rfl, h, .inside (d := .parentheses) (fun hd => absurd hd (by decide)) (leftOpen_nil [])⟩
    | braces =>
      have htagged : tagged q = true := by simpa [Depths.mark, Mark.ofLexeme] using hplain
      rw [htagged]
      exact ⟨q, _, rfl, h, .inside (d := .braces) (fun _ => htagged) (leftOpen_nil [])⟩
  | closing d =>
    cases d with
    | parentheses =>
      -- only braces are open
      rw [leftOpen_append, h.leftOpen_eq, Option.bind_some] at hopen
      obtain ⟨rest, hrest, -⟩ := leftOpen_closing hopen
      have hmem : Delimiters.parentheses ∈ List.replicate fs.length .braces := by
        rw [hrest]
        exact List.mem_cons_self
      cases List.eq_of_mem_replicate hmem
    | braces => simp [Depths.mark, Mark.ofLexeme] at hplain

/-- Any lexeme in a content, or in a block behind a header, opens or closes something in it, or ends it. -/
theorem pass_inside {st' : List Delimiters} (hu : Layered fs u) (htagged : d = .braces → tagged u = true)
    (hst : leftOpen [] z = some st') (htext : ∀ v, l = .text v → WellNested v)
    (hopen : leftOpen [] (u ++ d.opening :: z ++ l.written) = some st) (isTagged : Bool) :
    Reached fs (u ++ d.opening :: z ++ l.written) ((Depths.within d st').next .braces isTagged l) := by
  have hsilent : WellNested l.written → (Depths.within d st').next .braces isTagged l = .within d st' →
      Reached fs (u ++ d.opening :: z ++ l.written) ((Depths.within d st').next .braces isTagged l) := by
    intro hl hnext
    rw [hnext]
    refine ⟨u, d.opening :: (z ++ l.written), by simp, hu, .inside htagged ?_⟩
    rw [leftOpen_append, hst, Option.bind_some, hl.leftOpen_eq]
  cases l with
  | text v => exact hsilent (htext v rfl) (by cases d <;> rfl)
  | operator o => exact hsilent (token_nested o) (by cases d <;> rfl)
  | opening e =>
    rw [Depths.next_opening]
    refine ⟨u, d.opening :: (z ++ [e.opening]), by simp [Lexeme.written], hu, .inside htagged ?_⟩
    rw [leftOpen_append, hst, Option.bind_some, leftOpen_opening]
    rfl
  | closing e =>
    rw [leftOpen_append, leftOpen_append, hu.leftOpen_eq, Option.bind_some, leftOpen_opening] at hopen
    have hinside := leftOpen_deeper hst (d :: List.replicate fs.length .braces)
    rw [List.nil_append] at hinside
    rw [hinside, Option.bind_some] at hopen
    obtain ⟨rest, hrest, -⟩ := leftOpen_closing hopen
    cases st' with
    | nil =>
      -- the block or the content closes
      obtain ⟨rfl, -⟩ := List.cons.inj hrest
      rw [Depths.next_closing_last]
      have hwhole : WellNested (d.opening :: (z ++ [d.closing])) := .enclosed (wellNested_iff.2 hst) .nil
      have hlayered := hu.extend hwhole
      rw [← List.cons_append, ← List.append_assoc] at hlayered
      exact of_layered hlayered
    | cons e' st' =>
      obtain ⟨rfl, -⟩ := List.cons.inj hrest
      rw [Depths.next_closing]
      refine ⟨u, d.opening :: (z ++ [e'.closing]), by simp [Lexeme.written], hu, .inside htagged ?_⟩
      rw [leftOpen_append, hst, Option.bind_some, leftOpen_cons, turnOpen_closing]
      rfl

/-- A lexeme that does not count leaves the layers as they are. -/
theorem pass (h : Reached fs q n) (htext : ∀ v, l = .text v → WellNested v)
    (hplain : n.mark .braces (tagged q) l = .plain) (hopen : leftOpen [] (q ++ l.written) = some st) :
    Reached fs (q ++ l.written) (n.next .braces (tagged q) l) := by
  obtain ⟨u, z, rfl, hu, hz⟩ := h
  cases hz with
  | none =>
    rw [List.append_nil] at hplain hopen ⊢
    exact pass_layers hu htext hplain hopen
  | inside htagged hst => exact pass_inside hu htagged hst htext hopen _

/-- Any lexeme leads from layers to layers. -/
theorem step (h : Reached fs q n) (htext : ∀ v, l = .text v → WellNested v)
    (hopen : leftOpen [] (q ++ l.written) = some st) :
    ∃ gs, Reached gs (q ++ l.written) (n.next .braces (tagged q) l) := by
  by_cases hplain : n.mark .braces (tagged q) l = .plain
  · exact ⟨fs, h.pass htext hplain hopen⟩
  · obtain ⟨hmark, hbare, hfalse⟩ := Depths.mark_ne_plain hplain
    rw [Depths.next_of_ne_plain hplain]
    rw [hmark] at hplain
    obtain rfl := hbare rfl
    have hlayers := h.layered
    cases l with
    | text v => exact absurd rfl hplain
    | operator o => exact ⟨fs, of_layered (hlayers.extend (token_nested o))⟩
    | opening d =>
      cases d with
      | parentheses => exact absurd rfl hplain
      | braces => exact ⟨_, of_layered (hlayers.push (hfalse rfl rfl))⟩
    | closing d =>
      cases d with
      | parentheses => exact absurd rfl hplain
      | braces =>
        obtain ⟨f, rest, a, g, rfl, rfl, ha, -, hg⟩ := hlayers.exists_open hopen
        exact ⟨rest, of_layered (ha.close hg.nested)⟩

end Reached

/-! ## Operators -/

variable {ls ls₁ ls₂ : List Lexeme} {p : Position}

/-- What is known of a lexeme of a nested text that stands behind the lexemes `ls`. -/
structure NextLexeme (t : Text) (ls : List Lexeme) (l : Lexeme) (ls₁ : List Lexeme) : Prop where
  written : t = writtenOf ls ++ (l.written ++ writtenOf ls₁)
  writable : l.Writable
  nested : ∀ v, l = .text v → WellNested v
  opens : ∃ st, leftOpen [] (writtenOf ls ++ l.written) = some st

theorem WellNested.nextLexeme (ht : WellNested t) (hlex : lex t = ls ++ l :: ls₁) : NextLexeme t ls l ls₁ := by
  have hwritten : t = writtenOf ls ++ (l.written ++ writtenOf ls₁) := writtenOf_split hlex
  have hmem : l ∈ lex t := by rw [hlex]; simp
  refine ⟨hwritten, writable_of_mem_lex t l hmem, ?_, ?_⟩
  · rintro v rfl
    exact text_of_mem_lex hmem
  · rw [hwritten, ← List.append_assoc] at ht
    exact ht.exists_leftOpen

theorem operates_place (ht : WellNested t) (hlex : lex t = ls ++ (ls₁ ++ .operator o :: ls₂))
    (hp : p.offset = (writtenOf ls).size) (h : Reached fs (writtenOf ls) n) (hlayers : Layered gs (writtenOf (ls ++ ls₁))) :
    Operates (marksFrom .braces (PlacedShape.all t) n (place p (ls₁ ++ .operator o :: ls₂))) := by
  induction ls₁ generalizing ls fs n p with
  | nil =>
    rw [List.append_nil] at hlayers
    rw [List.nil_append, marksFrom_place (writtenOf_split hlex) hp, h.zero_of_layered hlayers]
    exact ⟨_, List.mem_cons_self, o, by simp [Depths.mark, Mark.ofLexeme]⟩
  | cons l ls₁ ih =>
    rw [List.cons_append] at hlex ⊢
    have hnext := ht.nextLexeme hlex
    obtain ⟨st, hst⟩ := hnext.opens
    obtain ⟨fs', hreached⟩ := h.step hnext.nested hst
    rw [← writtenOf_snoc] at hreached
    have hbehind := ih (by rw [hlex]; simp) (offset_past_snoc hp l) hreached (by rw [List.append_assoc]; exact hlayers)
    rw [marksFrom_place (writtenOf_split hlex) hp]
    obtain ⟨x, hx, o', ho'⟩ := hbehind
    exact ⟨x, List.mem_cons_of_mem _ hx, o', ho'⟩

/-- An operator behind layers counts. -/
theorem operates_of_layered (ht : WellNested t) (htext : t = q ++ (o.token ++ w)) (ho : o.isSynthetic = false)
    (hq : Layered gs q) : Operates (marks .braces t) := by
  have hlex : lex t = [] ++ (lex q ++ .operator o :: lex w) := by
    rw [htext, lex_append q (Sharp.token ho w), lex_token ho]
    rfl
  have hwritten : writtenOf ([] ++ lex q) = q := lex_written q
  rw [← hwritten] at hq
  rw [marks_eq]
  unfold tokens
  rw [hlex]
  exact operates_place ht hlex rfl Reached.start hq

end InstitutionalGrammar
