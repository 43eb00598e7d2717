/-
  InstitutionalGrammar.Proofs.Depth.Settles — nesting ends by itself.

  A text inside another one need not be shorter: the element of a pair is put together from shared text,
  and rewriting makes that longer. But one operator of the combination it was in is not part of it, so
  it has fewer operators, and where no operator is left out the text is cut from within braces. By
  induction along both, every text is read the same under all limits from some limit on.
  - `Smaller.wf`: texts cannot nest without end.
  - `Reading.settles_of_inside`: a limit, from the limits of the texts inside.
  - `parse_settles`: the same of a parse.
-/

import InstitutionalGrammar.Proofs.Depth.Room

namespace InstitutionalGrammar

open Statement Node

theorem Smaller.wf : WellFounded Smaller := by
  have hlex := InvImage.wf (fun t : Text => (operatorCount t, t.size))
    (Prod.lex ⟨Nat.lt, Nat.lt_wfRel.wf⟩ ⟨Nat.lt, Nat.lt_wfRel.wf⟩).wf
  refine Subrelation.wf (fun {inner text} h => ?_) hlex
  have hle := h.light operatorCount 1 operatorCount_weight
  show Prod.Lex _ _ (operatorCount inner, inner.size) (operatorCount text, text.size)
  rcases Nat.lt_or_eq_of_le hle with hfewer | hsame
  · exact Prod.Lex.left _ _ hfewer
  · rw [hsame]
    apply Prod.Lex.right
    rcases h.less with hfewer | hshorter
    · omega
    · exact hshorter

/-! ## Limits for many texts -/

/-- From some limit on it holds. -/
def Lasting (p : Nat → Prop) : Prop := ∃ limit, ∀ n, limit ≤ n → p n

namespace Lasting

variable {p q : Nat → Prop}

theorem always (h : ∀ n, p n) : Lasting p := ⟨0, fun n _ => h n⟩

theorem mono (h : Lasting p) (hq : ∀ n, p n → q n) : Lasting q := by
  obtain ⟨limit, hlimit⟩ := h
  exact ⟨limit, fun n hn => hq n (hlimit n hn)⟩

theorem all {α : Type} {p : α → Nat → Prop} {l : List α} (h : ∀ a ∈ l, Lasting (p a)) :
    Lasting fun n => ∀ a ∈ l, p a n := by
  induction l with
  | nil => exact always fun _ => nofun
  | cons a l ih =>
    obtain ⟨limit, ha⟩ := h a (by simp)
    obtain ⟨limit', hl⟩ := ih fun x hx => h x (by simp [hx])
    refine ⟨max limit limit', fun n hn x hx => ?_⟩
    rcases List.mem_cons.1 hx with rfl | hx
    · exact ha n (by omega)
    · exact hl n (by omega) x hx

end Lasting

/-- A block holds finitely many texts. -/
theorem BlockContent.lasting {content : BlockContent} {p : Text → Nat → Prop}
    (h : ∀ inner, content.Holds inner → Lasting (p inner)) : Lasting fun n => ∀ inner, content.Holds inner → p inner n := by
  cases content with
  | nested header inner => exact (h inner rfl).mono fun n hn x hx => hx ▸ hn
  | combined header tree =>
    have hleaves : Lasting fun n => ∀ leaf ∈ tree.leaves, ∀ header inner,
        TaggedBlock.read (leaf.text?.getD []) = .ok (some ⟨header, inner⟩) → p inner n := by
      refine Lasting.all fun leaf hleaf => ?_
      rcases hread : TaggedBlock.read (leaf.text?.getD []) with cause | _ | ⟨header, inner⟩
      · exact .always fun _ _ _ => nofun
      · exact .always fun _ _ _ => nofun
      · refine (h inner ⟨leaf, hleaf, header, hread⟩).mono fun n hn header' x hx => ?_
        cases hx
        exact hn
    refine hleaves.mono fun n hn x hx => ?_
    obtain ⟨leaf, hleaf, header', hread⟩ := hx
    exact hn leaf hleaf header' x hread
  | pair tree =>
    have hleaves : Lasting fun n => ∀ leaf ∈ (tree.spreadShared [] []).leaves, p (leaf.text?.getD []) n :=
      Lasting.all fun leaf hleaf => h _ ⟨leaf, hleaf, rfl⟩
    refine hleaves.mono fun n hn x hx => ?_
    obtain ⟨leaf, hleaf, rfl⟩ := hx
    exact hn leaf hleaf
  | stray => exact .always fun _ _ => nofun

/-! ## One text -/

/-- A failure that no limit has to do with. -/
abbrev Failure.Unlimited : Failure → Prop := Failure.Within ParseError.Ordinary

theorem Failure.Ordinary.unlimited (f : Failure) (h : f.Ordinary) : f.Unlimited := by
  cases f with
  | rejected e => exact h
  | misplacedCut => exact h.elim
  | unsettled => trivial

/-- A limit of at least the number of operators in a text is enough for its combinations, so no block
    changes under larger ones. -/
theorem Outline.not_overlooks {limit deeper : Nat} {text : Text} (h : operatorCount text ≤ limit) :
    ¬ Outline.Overlooks limit deeper text := by
  rintro ⟨left, right, header, inner, braced, -, -, -, hbraced, htree, -⟩
  have hcount : operatorCount braced ≤ operatorCount text := operatorCount_part (Text.slice_part hbraced)
  have hdrawn : Meets Failure.Unlimited (·.Drawn braced) (combinationTree .braces limit braced) :=
    treeWithin_drawn Failure.Ordinary.unlimited .braces (Or.inr (by omega))
  exact hdrawn.failure htree limit rfl

namespace Reading

/-- Blanking out the blocks of a text has no limit. -/
theorem blanks_unlimited (limit : Nat) (text : Text) : Blanks Failure.Unlimited limit text := by
  rintro blocks -
  generalize 0 = cursor
  induction blocks generalizing cursor with
  | nil => exact (Meets.slice text cursor text.size).weaken fun _ _ => trivial
  | cons b blocks ih =>
    refine (Meets.slice text cursor b.start).bind fun before _ => ?_
    exact (ih b.stop).bind fun rest _ => trivial

/-- From some limit on the text is read in one way, and the guard has no part in it. -/
def Settles (options : Options) (text : Text) : Prop :=
  ∃ r : Reading, Meets Failure.Unlimited (fun _ => True) r.result ∧ ∃ n, ∀ limit budget, n ≤ limit → n ≤ budget →
    step { options with depthLimit := limit } (within { options with depthLimit := limit } budget) text = r

/-- The limit `n` and all larger ones have the same reading of the text as one inside another. -/
def Steady (options : Options) (text : Text) (n : Nat) : Prop :=
  ∃ r : Report Node, Meets Failure.Unlimited (fun _ => True) r.result ∧ ∀ limit budget, n ≤ limit → n ≤ budget →
    within { options with depthLimit := limit } (budget + 1) text = r

variable {options : Options} {limit : Nat} {text : Text}

theorem Settles.steady (h : Settles options text) : Lasting (Steady options text) := by
  obtain ⟨r, hresult, n, hsame⟩ := h
  refine ⟨n, fun m hm => ⟨r.report, hresult, fun limit budget hlimit hbudget => ?_⟩⟩
  exact congrArg report (hsame limit budget (by omega) (by omega))

theorem outline_smaller (h : operatorCount text ≤ limit) : Meets Failure.Unlimited
    (fun outline => ∀ b ∈ outline.blocks, ∀ inner, b.content.Holds inner → Smaller inner text) (Outline.of limit text) :=
  (Outline.of_smaller Failure.Ordinary.unlimited (Or.inr h) (blanks_unlimited limit text)).weaken fun _ hx => hx.2

/-- The texts inside are the same ones under any larger limit. -/
theorem outline_deeper {deeper : Nat} (h : operatorCount text ≤ limit) (hle : limit ≤ deeper) :
    Outline.of deeper text = Outline.of limit text := by
  have hall : ¬ Outline.Overlooks limit deeper text := Outline.not_overlooks h
  rcases Outline.of_guarded hle hall with hstop | hsame
  · exact absurd rfl ((outline_smaller h).failure hstop limit)
  · exact hsame

/-- The texts inside a text are finitely many, so one limit will do for them all. -/
theorem inside_lasting
    (hinside : ∀ inner, Inside { options with depthLimit := operatorCount text } text inner → Settles options inner) :
    Lasting fun n => ∀ inner, Inside { options with depthLimit := operatorCount text } text inner →
      Steady options inner n := by
  cases houtline : Outline.of (operatorCount text) text with
  | error cause =>
    refine .always fun n inner hinner => ?_
    obtain ⟨outline, hok, -⟩ := hinner
    cases houtline.symm.trans hok
  | ok outline =>
    have hblocks : Lasting fun n => ∀ b ∈ outline.blocks, ∀ inner, b.content.Holds inner → Steady options inner n :=
      Lasting.all fun b hb => BlockContent.lasting fun inner hinner =>
        (hinside inner ⟨outline, houtline, b, hb, hinner⟩).steady
    refine hblocks.mono fun n hn inner hinner => ?_
    obtain ⟨outline', hok, b, hb, hinner⟩ := hinner
    cases houtline.symm.trans hok
    exact hn b hb inner hinner

/-- Where neither a combination in a text nor a text inside meets the guard, the text does not. -/
theorem step_unlimited {budget : Nat} (hcount : operatorCount text ≤ options.depthLimit) (hread : ∀ inner,
      Inside options text inner → Meets Failure.Unlimited (fun _ => True) (within options budget inner).result) :
    Meets Failure.Unlimited (fun _ => True) (step options (within options budget) text).result :=
  step_within_room Failure.Ordinary.unlimited (Or.inr hcount) (blanks_unlimited _ text) fun inner hinner _ =>
    hread inner hinner

theorem settles_of_inside
    (hinside : ∀ inner, Inside { options with depthLimit := operatorCount text } text inner → Settles options inner) :
    Settles options text := by
  obtain ⟨enough, hreads⟩ := inside_lasting hinside
  obtain ⟨n, hn⟩ : ∃ n, n = max enough (operatorCount text) := ⟨_, rfl⟩
  have hcount : operatorCount text ≤ n := by omega
  have hread : ∀ inner, Inside { options with depthLimit := n } text inner → Steady options inner n := by
    intro inner hinner
    refine hreads n (by omega) inner ?_
    obtain ⟨outline, houtline, hblock⟩ := hinner
    exact ⟨outline, (outline_deeper (Nat.le_refl _) hcount).symm.trans houtline, hblock⟩
  have hresult : Meets Failure.Unlimited (fun _ => True)
      (step { options with depthLimit := n } (within { options with depthLimit := n } (n + 1)) text).result := by
    refine step_unlimited hcount fun inner hinner => ?_
    obtain ⟨r, hr, hsame⟩ := hread inner hinner
    rw [hsame n n (Nat.le_refl n) (Nat.le_refl n)]
    exact hr
  refine ⟨_, hresult, n + 1, fun limit budget hlimit hbudget => ?_⟩
  obtain ⟨budget, rfl⟩ : ∃ m, budget = m + 1 := ⟨budget - 1, by omega⟩
  have hguarded : ∀ inner, Inside { options with depthLimit := n } text inner → Report.Guarded n
      (within { options with depthLimit := n } (n + 1) inner)
      (within { options with depthLimit := limit } (budget + 1) inner) := by
    intro inner hinner
    obtain ⟨r, -, hsame⟩ := hread inner hinner
    refine Or.inr ?_
    rw [hsame n n (Nat.le_refl n) (Nat.le_refl n), hsame limit budget (by omega) (by omega)]
  have hle : n ≤ limit := by omega
  have hall : ¬ Outline.Overlooks n limit text := Outline.not_overlooks hcount
  have hsame : (step { options with depthLimit := n } (within { options with depthLimit := n } (n + 1)) text).result =
        reject (.nestingTooDeep n) ∨
      step { options with depthLimit := limit } (within { options with depthLimit := limit } (budget + 1)) text =
        step { options with depthLimit := n } (within { options with depthLimit := n } (n + 1)) text :=
    step_guarded hle hall hguarded
  rcases hsame with hstop | hsame
  · exact absurd rfl (hresult.failure hstop n)
  · exact hsame

theorem settles (options : Options) (text : Text) : Settles options text := by
  induction text using Smaller.wf.induction with
  | h text ih =>
    refine settles_of_inside fun inner hinner => ih inner ?_
    obtain ⟨outline, houtline, b, hb, hinner⟩ := hinner
    exact (outline_smaller (Nat.le_refl _)).value houtline b hb inner hinner

end Reading

theorem parse_settles (options : Options) (text : Text) : ∃ limit, ∀ deeper, limit ≤ deeper →
    parse { options with depthLimit := deeper } text = parse { options with depthLimit := limit } text ∧
      ∀ r, parse { options with depthLimit := deeper } text = .error r → ∀ n, r.cause ≠ .rejected (.nestingTooDeep n) := by
  obtain ⟨r, hresult, limit, hlimit⟩ := Reading.settles options text
  have hof : ∀ deeper, limit ≤ deeper → Reading.of { options with depthLimit := deeper } text = r :=
    fun deeper hdeeper => hlimit deeper deeper hdeeper hdeeper
  refine ⟨limit, fun deeper hdeeper => ⟨?_, fun refusal hrefusal n hdeep => ?_⟩⟩
  · unfold parse
    rw [hof deeper hdeeper, hof limit (Nat.le_refl limit)]
  · unfold parse at hrefusal
    simp only [hof deeper hdeeper] at hrefusal
    cases hr : r.result with
    | ok tree =>
      rw [hr] at hrefusal
      cases hrefusal
    | error cause =>
      rw [hr] at hrefusal
      cases hrefusal
      obtain rfl : cause = .rejected (.nestingTooDeep n) := hdeep
      exact hresult.failure hr n rfl

end InstitutionalGrammar
