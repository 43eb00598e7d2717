/-
  InstitutionalGrammar.Proofs.Reading.Strays — where ignored blocks come from.

  Nothing is reported as ignored but the blocks that belong to no component: those of the text itself and
  those of the texts that are read inside it, at any depth. This holds whichever way a reading ends.
  - `Report.Ignores`: what is reported; `Report.Ignores.bind`: what is reported on the way to a result.
  - `Reading.step_ignores`, `Reading.within_ignores`: one text, and all texts inside it.
-/

import InstitutionalGrammar.Proofs.Depth.Reading

namespace InstitutionalGrammar

/-- The blocks reported as ignored have the property. -/
def Report.Ignores {α : Type} (P : Text → Prop) (r : Report α) : Prop := ∀ e ∈ r.ignored, P e

/-- The same from any state on. -/
def RunsIgnoring {σ α : Type} (P : Text → Prop) (x : StateT σ Report α) : Prop := ∀ s, (x.run s).Ignores P

variable {P : Text → Prop}

namespace Report.Ignores

variable {α β : Type}

theorem lift (x : Outcome α) : (liftM x : Report α).Ignores P := nofun

theorem lift_except (x : Except ParseError α) : (liftM x : Report α).Ignores P := nofun

theorem bind {r : Report α} {f : α → Report β} (h : r.Ignores P) (hf : ∀ a, r.result = .ok a → (f a).Ignores P) :
    (r >>= f).Ignores P := by
  obtain ⟨ignored, result⟩ := r
  cases result with
  | error e => exact h
  | ok a => exact fun e he => (List.mem_append.1 he).elim (h e) (hf a rfl e)

end Report.Ignores

namespace RunsIgnoring

variable {σ α β : Type}

theorem pure (a : α) : RunsIgnoring P (Pure.pure a : StateT σ Report α) := fun _ => nofun

theorem bind {x : StateT σ Report α} {f : α → StateT σ Report β} (h : RunsIgnoring P x) (hf : ∀ a, RunsIgnoring P (f a)) :
    RunsIgnoring P (x >>= f) :=
  fun s => (h s).bind fun r _ => hf r.1 r.2

theorem lift {r : Report α} (h : r.Ignores P) : RunsIgnoring P (liftM r : StateT σ Report α) :=
  fun _ => h.bind fun _ _ => nofun

/-- Going on from a value that does not depend on the state. -/
theorem lift_bind {x : Outcome α} {f : α → StateT σ Report β} (hf : ∀ a, x = .ok a → RunsIgnoring P (f a)) :
    RunsIgnoring P (liftM x >>= f) := by
  intro s
  refine Report.Ignores.bind (r := (liftM x : StateT σ Report α).run s) ?_ fun r hr => ?_
  · cases x <;> exact nofun
  · cases x with
    | error e => cases hr
    | ok a =>
      cases hr
      exact hf a rfl s

end RunsIgnoring

variable {options : Options} {read : Text → Report Node} {text : Text}

/-! ## Nested statements -/

theorem nestedLeaf_ignores (raw : Text) {leaf : Node}
    (hread : ∀ header inner, TaggedBlock.read (leaf.text?.getD []) = .ok (some ⟨header, inner⟩) → (read inner).Ignores P) :
    RunsIgnoring P (nestedLeaf read raw leaf) := by
  unfold nestedLeaf
  refine RunsIgnoring.lift_bind fun found hfound => ?_
  cases found with
  | none => exact fun _ => nofun
  | some block =>
    obtain ⟨header, inner⟩ := block
    have hlift : RunsIgnoring P (liftM (read inner) : StateT (Option Component) Report Node) := .lift (hread header inner hfound)
    have hend := hlift.bind fun n => .pure (header.label n)
    refine RunsIgnoring.bind (fun _ => nofun) fun tag => ?_
    cases tag with
    | none => exact RunsIgnoring.bind (fun _ => nofun) fun _ => hend
    | some c =>
      by_cases hc : c = header.component
      · simp only [hc, ne_eq, not_true_eq_false, if_false]
        exact hend
      · simp only [hc, ne_eq, not_false_eq_true, if_true]
        exact RunsIgnoring.bind (fun _ => nofun) fun _ => hend

theorem attachCombination_ignores (raw : Text) (header : Header) {tree : Node} (s : Statement)
    (hread : ∀ inner, (BlockContent.combined header tree).Holds inner → (read inner).Ignores P) :
    (attachCombination read raw header tree s).Ignores P := by
  have htree : RunsIgnoring P (tree.mapLeavesM (nestedLeaf read raw)) := by
    refine Node.mapLeavesM_related (fun x _ => RunsIgnoring P x) RunsIgnoring.bind (fun _ => .pure _)
      (g := nestedLeaf read raw) fun leaf hleaf => ?_
    exact nestedLeaf_ignores raw fun header' inner hinner => hread inner ⟨leaf, hleaf, header', hinner⟩
  refine Report.Ignores.bind (htree none) fun r _ => ?_
  obtain ⟨n, tag⟩ := r
  simp only
  split
  · exact .bind (.lift _) fun _ _ => .lift_except _
  · exact .lift_except _

section Blocks

variable {blocks : List Block} (hread : ∀ b ∈ blocks, ∀ inner, b.content.Holds inner → (read inner).Ignores P)
include hread

theorem attachCombinations_ignores (hstray : ∀ b ∈ blocks, b.content = .stray → P b.raw) (s : Statement) :
    (attachCombinations read s blocks).Ignores P := by
  induction blocks generalizing s with
  | nil => exact nofun
  | cons b blocks ih =>
    have hrest := fun s => ih (fun x hx => hread x (List.mem_cons_of_mem _ hx))
      (fun x hx => hstray x (List.mem_cons_of_mem _ hx)) s
    have hb := hread b List.mem_cons_self
    rw [attachCombinations]
    split
    · rename_i hcontent
      refine Report.Ignores.bind (fun e he => ?_) fun _ _ => hrest s
      rw [List.mem_singleton.1 he]
      exact hstray b List.mem_cons_self hcontent
    · rename_i header tree hcontent
      rw [hcontent] at hb
      exact (attachCombination_ignores b.raw header s hb).bind fun t _ => hrest t
    · exact hrest s

theorem nestedGroups_ignores (groups : List NestedGroup) : (nestedGroups read groups blocks).Ignores P := by
  induction blocks generalizing groups with
  | nil => exact nofun
  | cons b blocks ih =>
    have hrest := fun groups => ih (fun x hx => hread x (List.mem_cons_of_mem _ hx)) groups
    have hb := hread b List.mem_cons_self
    rw [nestedGroups]
    split
    · rename_i header inner hcontent
      rw [hcontent] at hb
      exact (hb inner rfl).bind fun n _ => hrest _
    · exact hrest groups

end Blocks

/-! ## Pairs -/

theorem elementOutput_ignores (outer : Statement) (raw : Text) {leaf : Node}
    (hread : (read (leaf.text?.getD [])).Ignores P) : (elementOutput options read outer raw leaf).Ignores P := by
  unfold elementOutput
  simp only
  split
  · refine Report.Ignores.bind (.lift _) fun _ hrefused => ?_
    cases hrefused
  · split
    · exact .lift _
    · exact hread.bind fun tree _ => .lift_except _

theorem pairOutput_ignores (outer : Statement) (raw : Text) {tree : Node}
    (hread : ∀ inner, (BlockContent.pair tree).Holds inner → (read inner).Ignores P) :
    (pairOutput options read outer raw tree).Ignores P := by
  unfold pairOutput
  refine Report.Ignores.bind ?_ fun expanded _ => ?_
  · refine Node.mapLeavesM_related (fun x _ => Report.Ignores P x) (fun hx hf => hx.bind fun a _ => hf a) (fun _ => nofun)
      (g := elementOutput options read outer raw) ?_
    exact fun leaf hleaf => elementOutput_ignores outer raw (hread _ ⟨leaf, hleaf, rfl⟩)
  · split
    · exact .lift_except _
    · exact nofun

/-! ## Texts -/

namespace Reading

/-- The block is one of the text, and belongs to no component. -/
def Stray (options : Options) (text e : Text) : Prop :=
  ∃ outline, Outline.of options.depthLimit text = .ok outline ∧ ∃ b ∈ outline.blocks, b.content = .stray ∧ b.raw = e

theorem step_ignores (hstray : ∀ e, Stray options text e → P e)
    (hread : ∀ inner, Inside options text inner → (read inner).Ignores P) : (step options read text).report.Ignores P := by
  unfold step
  cases hdraft : draft options text with
  | error cause => exact nofun
  | ok d =>
    obtain ⟨outline, s⟩ := d
    have houtline := outline_of_draft hdraft
    have hblocks : ∀ b ∈ outline.blocks, ∀ inner, b.content.Holds inner → (read inner).Ignores P :=
      fun b hb inner hinner => hread inner ⟨outline, houtline, b, hb, hinner⟩
    have hstrays : ∀ b ∈ outline.blocks, b.content = .stray → P b.raw :=
      fun b hb hcontent => hstray b.raw ⟨outline, houtline, b, hb, hcontent, rfl⟩
    have hcomplete : (complete options read outline s).Ignores P := by
      refine Report.Ignores.bind ?_ fun t _ => .lift_except _
      refine Report.Ignores.bind (attachCombinations_ignores hblocks hstrays s) fun t _ => ?_
      exact (nestedGroups_ignores hblocks []).bind fun groups _ => .lift_except _
    have houtput : ∀ t, (output options read outline t).Ignores P := by
      intro t
      unfold output
      split
      · split
        · exact .lift _
        · exact nofun
      · rename_i raw tree hpairs
        obtain ⟨b, hb, -, hcontent⟩ := mem_pairs (hpairs ▸ List.mem_singleton_self (raw, tree))
        exact pairOutput_ignores t raw (hcontent ▸ hblocks b hb)
      · exact .lift _
    simp only
    cases (complete options read outline s).result with
    | error cause => exact hcomplete
    | ok t => exact fun e he => (List.mem_append.1 he).elim (hcomplete e) (houtput t e)

/-- Whatever a reading ignores is a stray block of the text or of a text inside it. -/
theorem within_ignores (budget : Nat) (text : Text) : (within options budget text).Ignores
    fun e => ∃ inner, Relation.ReflTransGen (Inside options) text inner ∧ Stray options inner e := by
  induction budget generalizing text with
  | zero => exact nofun
  | succ budget ih =>
    refine step_ignores (fun e he => ⟨text, .refl, he⟩) fun inner hinner e he => ?_
    obtain ⟨deepest, hinside, hstray⟩ := ih inner e he
    exact ⟨deepest, .head hinner hinside, hstray⟩

theorem of_ignores (options : Options) (text : Text) : (Reading.of options text).report.Ignores
    fun e => ∃ inner, Relation.ReflTransGen (Inside options) text inner ∧ Stray options inner e :=
  within_ignores (options.depthLimit + 1) text

end Reading

end InstitutionalGrammar
