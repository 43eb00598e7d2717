/-
  InstitutionalGrammar.Proofs.Combination.Scopes — the stretches of text that combinations share.

  A span closes before the spans around it do, so each span of a table below level 1 is in one of the level above,
  and the scopes of two spans on one level are the same or stand apart. In a scope, each combination accounts for the
  text from the one before it on, and the last for the text up to the end: together, for all of the scope.
  - `sweepStep_sheltered`, `spanTable_placed`: the spans around the spans of a table.
  - `SpanTable.scopes_apart`: the scopes on one level.
  - `SpanTable.share_order`, `SpanTable.shares_cover`: the shares of the combinations of a level.
-/

import Mathlib.Data.List.Pairwise
import InstitutionalGrammar.Proofs.Combination.Nesting
import InstitutionalGrammar.Proofs.Combination.NormalForm
import InstitutionalGrammar.Proofs.Combination.SideBySide

namespace InstitutionalGrammar

variable {d : Delimiters} {text : Text} {i j : Nat} {s s' e : Span} {earlier later spans : List Span} {table : SpanTable}

/-! ## The spans around a span -/

/-- The open spans lie in one another, and the closed ones below level 1 in a span of the level above. -/
structure SweepState.Sheltered (s : SweepState) : Prop where
  nested : (s.stack.map Frame.left).Pairwise (· > ·)
  spans : ∀ e ∈ s.closed, e.Sheltered (s.stack.map Frame.left) s.closed

/-- Each span is outermost or in a span of the level above. -/
def SpanTable.Sheltered (table : SpanTable) : Prop :=
  ∀ e ∈ table.spans, e.level = 1 ∨ ∃ x ∈ table.spans, x.level + 1 = e.level ∧ x.contains e = true

namespace SweepState.Sheltered

variable {s s' : SweepState} {top : Frame} {rest : List Frame}

theorem of_bare (h : s.Sheltered) (hbare : s'.bare = s.bare) : s'.Sheltered where
  nested := by
    rw [stack_of_bare hbare]
    exact h.nested
  spans := by
    rw [stack_of_bare hbare, closed_of_bare hbare]
    exact h.spans

theorem push (h : s.Sheltered) (hleft : ∀ f ∈ s.stack, f.left < i) :
    SweepState.Sheltered { s with stack := ⟨i, none⟩ :: s.stack } where
  nested := by
    refine List.pairwise_cons.2 ⟨fun left hmem => ?_, h.nested⟩
    obtain ⟨f, hf, rfl⟩ := List.mem_map.1 hmem
    exact hleft f hf
  spans := fun e he => (h.spans e he).push i

theorem pop (h : s.Sheltered) (hstack : s.stack = top :: rest) (hright : ∀ e ∈ s.closed, e.right < i) :
    SweepState.Sheltered { s with
      stack := rest
      closed := ⟨rest.length + 1, top.left, i, top.operator⟩ :: s.closed } := by
  have hnested := h.nested
  rw [hstack] at hnested
  obtain ⟨hfirst, hrest⟩ := List.pairwise_cons.1 hnested
  refine ⟨hrest, fun e he => ?_⟩
  rcases List.mem_cons.1 he with rfl | he
  · cases rest with
    | nil => exact Or.inl rfl
    | cons outer rest => exact Or.inr (Or.inr ⟨[], outer.left, rest.map Frame.left, rfl, by simp, hfirst _ (by simp)⟩)
  · have hspan := h.spans e he
    rw [hstack] at hspan
    exact hspan.pop rfl (by simp) (hright e he)

end SweepState.Sheltered

theorem sweepStep_sheltered {s : SweepState} (h : s.Sheltered) (hs : s.Sound d text i) {m : Mark} {t : Token}
    (hstart : t.position.offset = i) : Meets (fun _ => True) SweepState.Sheltered (sweepStep d text s (m, t)) := by
  subst hstart
  have hstep := sweepStep_cases d text s m t
  generalize sweepStep d text s (m, t) = x at hstep ⊢
  cases hstep with
  | passes => exact h.of_bare (addRun_bare s _)
  | opens =>
    have hsound := SweepState.sound_bare (leaveRun_bare s) hs
    exact (h.of_bare (leaveRun_bare s)).push fun f hf => (hsound.frames f hf).before
  | closes hstack => exact h.pop hstack fun e he => (hs.spans e he).2
  | notes hstack =>
    have hnested := h.nested
    have hspans := h.spans
    rw [hstack] at hnested hspans
    exact ⟨hnested, hspans⟩
  | unopened | unended | outside | unled | repeats | mixes => trivial

theorem run_sheltered (d : Delimiters) (text : Text) : Meets Interruption.Sound
    (fun s => s.Sheltered ∧ s.Sound d text text.size) ((marks d text).foldlM (sweepStep d text) .start) := by
  refine Meets.run (P := fun i s => s.Sheltered ∧ s.Sound d text i) ⟨⟨.nil, nofun⟩, nofun, nofun, .nil, trivial⟩ ?_
  rintro i s m t ⟨h, hs⟩ hoffset hstands hstop hmeans
  refine (sweepStep_sound hs hoffset hstands hstop hmeans).and_eq.weaken fun s' hs' => ⟨?_, hs'.1⟩
  exact (sweepStep_sheltered h hs hoffset).value hs'.2

theorem sweep_sheltered (h : sweep d text = .ok (.settled table)) : table.Sheltered := by
  obtain ⟨s, hend, hstack, rfl⟩ := sweep_eq_settled.1 h
  obtain ⟨hs, -⟩ := (run_sheltered d text).value hend
  intro e he
  have hspan := hs.spans e (List.mem_reverse.1 he)
  rw [hstack] at hspan
  rcases hspan with hfirst | ⟨x, hx, hup⟩ | ⟨inner, left, outer, heq, -⟩
  · exact Or.inl hfirst
  · exact Or.inr ⟨x, List.mem_reverse.2 hx, hup⟩
  · simp at heq

/-- The table of a text: its spans are where it says, and in one another. -/
structure SpanTable.Placed (d : Delimiters) (table : SpanTable) : Prop where
  sound : table.Sound d
  sheltered : table.Sheltered

theorem spanTable_placed (h : spanTable d text = .ok table) : table.Placed d := by
  have hsweep := (spanTable_settles h).2
  exact ⟨((sweep_sound d _).value hsweep).2, sweep_sheltered hsweep⟩

/-! ## Scopes -/

namespace SpanTable.Placed

variable (h : table.Placed d)
include h

theorem level_pos (hs : s ∈ table.spans) : 0 < s.level := by
  rcases h.sheltered s hs with hfirst | ⟨x, -, hlevel, -⟩ <;> omega

/-- The span around a span of the level below an outermost one is found. -/
theorem parent (he : e ∈ table.spans) : e.level = 1 ∧ table.parent? e = none ∨
    ∃ x ∈ table.spans, table.parent? e = some x ∧ x.level + 1 = e.level ∧ x.contains e = true := by
  rcases h.sheltered e he with hfirst | ⟨x, hx, hlevel, hcontains⟩
  · refine Or.inl ⟨hfirst, List.find?_eq_none.2 fun y hy => ?_⟩
    obtain ⟨hmem, hzero⟩ := List.mem_filter.1 hy
    have hzero : y.level = e.level - 1 := of_decide_eq_true hzero
    have hpos := h.level_pos hmem
    omega
  · right
    have hat : x ∈ table.atLevel (e.level - 1) := List.mem_filter.2 ⟨hx, by simp; omega⟩
    cases hfind : table.parent? e with
    | none => exact absurd hcontains (List.find?_eq_none.1 hfind x hat)
    | some y =>
      obtain ⟨hy, hlevel'⟩ := List.mem_filter.1 (List.mem_of_find?_eq_some hfind)
      have hlevel' : y.level = e.level - 1 := of_decide_eq_true hlevel'
      exact ⟨y, hy, rfl, by omega, List.find?_some (p := fun y : Span => y.contains e) hfind⟩

/-- Two spans on one level are the same, or one of them closes before the other opens. -/
theorem apart (hs : s ∈ table.spans) (hs' : s' ∈ table.spans) (hlevel : s.level = s'.level) :
    s = s' ∨ s.right < s'.left ∨ s'.right < s.left := by
  by_cases hne : s = s'
  · exact Or.inl hne
  · have horder := h.sound.order.imp (S := fun a b : Span => a.level = b.level → a.right < b.left ∨ b.right < a.left)
      fun hab hl => Or.inl (hab hl)
    have hsymm : Std.Symm fun a b : Span => a.level = b.level → a.right < b.left ∨ b.right < a.left :=
      ⟨fun a b hab hl => (hab hl.symm).symm⟩
    exact Or.inr (horder.forall hs hs' hne hlevel)

/-- The scopes of two spans on one level are the same or stand one behind the other. -/
theorem scopes_apart (hs : s ∈ table.spans) (hs' : s' ∈ table.spans) (hlevel : s.level = s'.level)
    (hbefore : s.right < s'.left) : table.scope s = table.scope s' ∨ (table.scope s).2 ≤ (table.scope s').1 := by
  have hinside := (h.sound.spans s hs).inside
  have hinside' := (h.sound.spans s' hs').inside
  rcases h.parent hs with ⟨hfirst, hnone⟩ | ⟨x, hx, hparent, hup, hcontains⟩
  · rcases h.parent hs' with ⟨-, hnone'⟩ | ⟨x', hx', -, hup', -⟩
    · left
      rw [scope, scope, hnone, hnone']
    · have hup := h.sheltered x' hx'
      rcases hup with hone | ⟨z, -, hz, -⟩ <;> omega
  · rcases h.parent hs' with ⟨hfirst', -⟩ | ⟨x', hx', hparent', hup', hcontains'⟩
    · have hup := h.sheltered x hx
      rcases hup with hone | ⟨z, -, hz, -⟩ <;> omega
    · simp only [Span.contains, Bool.and_eq_true, decide_eq_true_eq] at hcontains hcontains'
      have hscope : table.scope s = (x.left + 1, x.right) := by rw [scope, hparent]
      have hscope' : table.scope s' = (x'.left + 1, x'.right) := by rw [scope, hparent']
      rcases h.apart hx hx' (by omega) with rfl | hlt | hlt
      · left
        rw [hscope, hscope']
      · right
        rw [hscope, hscope']
        exact Nat.le_succ_of_le (Nat.le_of_lt hlt)
      · -- the scopes would cross
        omega

end SpanTable.Placed

/-! ## Shares -/

/-- Where the text that a combination accounts for starts: behind the one before it in its scope, or with that. -/
def SpanTable.shareStart (table : SpanTable) (earlier : List Span) (s : Span) : Nat :=
  match earlier.find? (table.scope · = table.scope s) with
  | some before => before.right + 1
  | none => (table.scope s).1

/-- Where the text that a combination accounts for ends: with it, or with its scope if it is the last there. -/
def SpanTable.shareStop (table : SpanTable) (s : Span) (later : List Span) : Nat :=
  if later.any (table.scope · = table.scope s) then s.right + 1 else (table.scope s).2

/-- What each combination accounts for, from left to right. -/
def SpanTable.shares (table : SpanTable) (earlier : List Span) : List Span → List (Nat × Nat)
  | [] => []
  | s :: later => (table.shareStart earlier s, table.shareStop s later) :: table.shares (s :: earlier) later

namespace SpanTable

theorem shareStart_cons_same (h : table.scope e = table.scope s) : table.shareStart (e :: earlier) s = e.right + 1 := by
  simp [shareStart, h]

theorem shareStart_cons_other (h : table.scope e ≠ table.scope s) :
    table.shareStart (e :: earlier) s = table.shareStart earlier s := by
  simp [shareStart, h]

/-- A share starts in the scope, not behind the combination. -/
theorem Sound.shareStart (h : table.Sound d) (hs : s ∈ table.spans)
    (hearlier : ∀ e ∈ earlier, e ∈ table.spans ∧ e.right < s.left) :
    (table.scope s).1 ≤ table.shareStart earlier s ∧ table.shareStart earlier s ≤ s.left := by
  obtain ⟨-, hfirst, -, -⟩ := h.scope hs
  unfold SpanTable.shareStart
  split
  · rename_i before hfind
    obtain ⟨hmem, hlt⟩ := hearlier before (List.mem_of_find?_eq_some hfind)
    have hscope : table.scope before = table.scope s :=
      of_decide_eq_true (List.find?_some (p := fun x => decide (table.scope x = table.scope s)) hfind)
    obtain ⟨-, hbefore, hbehind, -⟩ := h.scope hmem
    have hinside := (h.spans before hmem).inside
    rw [hscope] at hbefore
    exact ⟨by omega, hlt⟩
  · exact ⟨Nat.le_refl _, hfirst⟩

/-- A share ends in the scope, not before the combination. -/
theorem Sound.shareStop (h : table.Sound d) (hs : s ∈ table.spans) (later : List Span) :
    s.right + 1 ≤ table.shareStop s later ∧ table.shareStop s later ≤ (table.scope s).2 := by
  obtain ⟨-, -, hbehind, -⟩ := h.scope hs
  unfold SpanTable.shareStop
  split
  · exact ⟨Nat.le_refl _, hbehind⟩
  · exact ⟨hbehind, Nat.le_refl _⟩

/-- The share of a combination ends before that of a later one on its level starts. -/
theorem Placed.share_order (h : table.Placed d) (hs : s ∈ table.spans) (he : e ∈ later) (hmem : e ∈ table.spans)
    (hlevel : s.level = e.level) (hbefore : s.right < e.left)
    (hearlier : ∀ x ∈ earlier, x ∈ table.spans ∧ x.right < e.left) :
    table.shareStop s later ≤ table.shareStart (s :: earlier) e := by
  rcases h.scopes_apart hs hmem hlevel hbefore with hsame | hbehind
  · have hany : later.any (table.scope · = table.scope s) = true := List.any_eq_true.2 ⟨e, he, by simp [hsame]⟩
    rw [SpanTable.shareStop, if_pos hany, shareStart_cons_same hsame]
  · have hstop := (h.sound.shareStop hs later).2
    have hpassed : ∀ x ∈ s :: earlier, x ∈ table.spans ∧ x.right < e.left :=
      List.forall_mem_cons.2 ⟨⟨hs, hbefore⟩, hearlier⟩
    have hstart := (h.sound.shareStart hmem hpassed).1
    omega

/-- A combination that is passed joins the earlier ones; all of them close before the later ones open. -/
theorem passed_cons (hs : s ∈ table.spans) (hfirst : ∀ x ∈ later, s.right < x.left)
    (hearlier : ∀ e ∈ earlier, e ∈ table.spans ∧ ∀ x ∈ s :: later, e.right < x.left) :
    ∀ e ∈ s :: earlier, e ∈ table.spans ∧ ∀ x ∈ later, e.right < x.left :=
  List.forall_mem_cons.2 ⟨⟨hs, hfirst⟩, fun e he =>
    ⟨(hearlier e he).1, fun x hx => (hearlier e he).2 x (List.mem_cons_of_mem _ hx)⟩⟩

/-- The shares are in the scopes of their combinations. -/
theorem Sound.mem_shares (h : table.Sound d) (hspans : ∀ s ∈ spans, s ∈ table.spans)
    (horder : spans.Pairwise fun before behind => before.right < behind.left)
    (hearlier : ∀ e ∈ earlier, e ∈ table.spans ∧ ∀ s ∈ spans, e.right < s.left) :
    ∀ x ∈ table.shares earlier spans, ∃ s ∈ spans, (table.scope s).1 ≤ x.1 ∧ x.2 ≤ (table.scope s).2 := by
  induction spans generalizing earlier with
  | nil => exact nofun
  | cons s later ih =>
    obtain ⟨hfirst, hrest⟩ := List.pairwise_cons.1 horder
    have hs := hspans s List.mem_cons_self
    rw [SpanTable.shares]
    refine List.forall_mem_cons.2 ⟨⟨s, List.mem_cons_self, ?_, (h.shareStop hs later).2⟩, fun x hx => ?_⟩
    · exact (h.shareStart hs fun e he => ⟨(hearlier e he).1, (hearlier e he).2 s List.mem_cons_self⟩).1
    · have hlater := fun x hx => hspans x (List.mem_cons_of_mem _ hx)
      obtain ⟨s', hs', hin⟩ := ih hlater hrest (passed_cons hs hfirst hearlier) x hx
      exact ⟨s', List.mem_cons_of_mem _ hs', hin⟩

/-- A stretch that none of the shares meets does not meet what is left of the scopes behind the earlier spans. -/
theorem shares_cover (hij : i < j) (hfree : ∀ x ∈ table.shares earlier spans, x.2 ≤ i ∨ j ≤ x.1) :
    ∀ s ∈ spans, (table.scope s).2 ≤ i ∨ j ≤ table.shareStart earlier s := by
  induction spans generalizing earlier with
  | nil => exact nofun
  | cons s later ih =>
    obtain ⟨hshare, hrest⟩ := List.forall_mem_cons.1 hfree
    have hlater := ih hrest
    have hhead : (table.scope s).2 ≤ i ∨ j ≤ table.shareStart earlier s := by
      rcases hshare with hstop | hstart
      · simp only [shareStop] at hstop
        split at hstop
        · -- the next one in the scope goes on where this one stops
          rename_i hany
          obtain ⟨x, hx, hscope⟩ := List.any_eq_true.1 hany
          have hscope : table.scope x = table.scope s := of_decide_eq_true hscope
          rcases hlater x hx with hend | hstart
          · exact Or.inl (by rwa [hscope] at hend)
          · rw [shareStart_cons_same hscope.symm] at hstart
            omega
        · exact Or.inl hstop
      · exact Or.inr hstart
    refine List.forall_mem_cons.2 ⟨hhead, fun x hx => ?_⟩
    by_cases hscope : table.scope s = table.scope x
    · have hsame : table.shareStart earlier s = table.shareStart earlier x := by rw [shareStart, shareStart, hscope]
      rwa [← hscope, ← hsame]
    · have hfound := hlater x hx
      rwa [shareStart_cons_other hscope] at hfound

end SpanTable

/-- A combination that is built shares what its share has in front of it and behind it. -/
theorem combinationOf_shares {build : Text → Outcome Node} {o : PlacedOperator} {n : Node} (hs : s.Sound d table.input)
    (h : combinationOf build table earlier s o later = .ok n) : ∃ left right before after l r component,
      table.input.slice (s.left + 1) o.start = .ok left ∧ table.input.slice o.stop s.right = .ok right ∧
      build left = .ok l ∧ build right = .ok r ∧
      table.input.slice (table.shareStart earlier s) s.left = .ok before ∧
      table.input.slice (s.right + 1) (table.shareStop s later) = .ok after ∧
      n = .combination o.operator l r
        { component, sharedLeft := (shared? before).toList, sharedRight := (shared? after).toList } [] := by
  obtain ⟨left, right, before, after, l, r, component, hleft, hright, hl, hr, hbefore, hafter, rfl⟩ := combinationOf_eq_ok h
  refine ⟨left, right, before, after, l, r, component, hleft, hright, hl, hr, hbefore, ?_, rfl⟩
  rw [SpanTable.shareStop]
  split at hafter
  · -- a later combination takes what is behind this one
    rename_i hany
    rw [if_pos hany, hafter]
    obtain ⟨part, hpart⟩ := Text.exists_slice (cut_closing hs.closes) (cut_closing hs.closes) (Nat.le_refl _)
    obtain rfl : part = [] := by
      obtain ⟨-, hsize⟩ := Text.slice_eq_ok.1 hpart
      exact Text.size_eq_zero.1 (by omega)
    exact hpart
  · rename_i hany
    rwa [if_neg hany]

end InstitutionalGrammar
