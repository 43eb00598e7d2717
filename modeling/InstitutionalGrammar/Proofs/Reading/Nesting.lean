/-
  InstitutionalGrammar.Proofs.Reading.Nesting — what attaching nested statements ends with.

  A block is only read as nested if its component nests, and all leaves combined in one block have one
  component. So every tree that is attached is labelled with the component of its slot, the slot
  exists, and trees in one slot join.
  - `nestedLeaves_meets`: the leaves of a combination end with one label.
  - `attachBlocks_meets`: the complex slots, when `read` reads well.
-/

import InstitutionalGrammar.Proofs.Reading.Stages

namespace InstitutionalGrammar

open Node

/-! ## Combined statements -/

/-- From a state with `P` the computation ends with a value and a state that have `Q`, or fails with `E`. -/
def Runs {σ α : Type} (E : Failure → Prop) (P : σ → Prop) (Q : α → σ → Prop) (x : StateT σ Report α) : Prop :=
  ∀ s, P s → Meets E (fun r => Q r.1 r.2) (x.run s).result

namespace Runs

variable {σ α β : Type} {E : Failure → Prop} {P : σ → Prop} {Q : α → σ → Prop} {R : β → σ → Prop}

theorem bind {x : StateT σ Report α} {f : α → StateT σ Report β} (hx : Runs E P Q x) (hf : ∀ a, Runs E (Q a) R (f a)) :
    Runs E P R (x >>= f) :=
  fun s hs => Meets.report_bind (hx s hs) fun r hr => hf r.1 r.2 hr

theorem lift {r : Report α} {A : α → Prop} (hr : Meets E A r.result) : Runs E P (fun a s => A a ∧ P s) (liftM r) :=
  fun _ hs => Meets.report_bind hr fun _ ha => ⟨ha, hs⟩

theorem get : Runs E P (fun a s => a = s ∧ P s) (MonadState.get : StateT σ Report σ) := fun _ hs => ⟨rfl, hs⟩

theorem of_fact {A : Prop} {x : StateT σ Report α} (hx : A → Runs E P Q x) : Runs E (fun s => A ∧ P s) Q x :=
  fun s hs => hx hs.1 s hs.2

theorem weaken {x : StateT σ Report α} {Q' : α → σ → Prop} (hx : Runs E P Q x) (hQ : ∀ a s, Q a s → Q' a s) :
    Runs E P Q' x :=
  fun s hs => (hx s hs).weaken fun r hr => hQ r.1 r.2 hr

end Runs

/-- What is read within a statement, when reading goes well. -/
def Reads (L : Entry → Prop) (read : Text → Report Node) : Prop := ∀ t, Fair (·.Unlabelled L) (read t).result

/-- The texts that the blocks have read as statements are read well, or fail with `E`. -/
def ReadsBlocks (E : Failure → Prop) (L : Entry → Prop) (read : Text → Report Node) (blocks : List Block) : Prop :=
  ∀ b ∈ blocks, ∀ inner, b.content.Holds inner → Meets E (·.Unlabelled L) (read inner).result

theorem Reads.blocks {L : Entry → Prop} {read : Text → Report Node} (h : Reads L read) (blocks : List Block) :
    ReadsBlocks (Failure.Within (·.ofInput = true)) L read blocks :=
  fun _ _ inner _ => h inner

variable {E : Failure → Prop} {L : Entry → Prop} {read : Text → Report Node}

/-- The tag is that component, or there is none yet. -/
def TagIs (c : Component) (tag : Option Component) : Prop := ∀ d ∈ tag, d = c

section Leaves

variable (hE : Tolerates E)
include hE

/-- A leaf is labelled with the component of those before it. -/
theorem nestedLeaf_meets (raw : Text) {leaf : Node} (hread : ∀ header inner,
    TaggedBlock.read (leaf.text?.getD []) = .ok (some ⟨header, inner⟩) → Meets E (·.Unlabelled L) (read inner).result)
    (tag : Option Component) :
    Runs E (· = tag) (fun n after => ∃ c, after = some c ∧ TagIs c tag ∧ n.Labelled L c) (nestedLeaf read raw leaf) := by
  unfold nestedLeaf
  refine (Runs.lift (r := ⟨[], TaggedBlock.read (leaf.text?.getD [])⟩) (TaggedBlock.read_part _).and_eq).bind fun found =>
    Runs.of_fact fun hfound => ?_
  obtain ⟨hpart, hfound⟩ := hfound
  cases found with
  | none => exact fun _ _ => hE _ ⟨rfl, nofun⟩
  | some block =>
    obtain ⟨header, inner⟩ := block
    have hkeyed : KeyedSuffix header.suffix := (hpart _ rfl).1
    have hend : TagIs header.component tag →
        Runs E (· = some header.component) (fun n after => ∃ c, after = some c ∧ TagIs c tag ∧ n.Labelled L c)
          (do return header.label (← liftM (read inner)) : StateT (Option Component) Report Node) := by
      intro htag
      refine (Runs.lift (hread header inner hfound)).bind fun n => Runs.of_fact fun hn => ?_
      rintro after rfl
      exact ⟨header.component, rfl, htag, hn.label _ hkeyed _⟩
    refine Runs.get.bind fun before => ?_
    cases before with
    | none =>
      rintro _ ⟨rfl, rfl⟩
      exact hend nofun _ rfl
    | some c =>
      rintro _ ⟨rfl, rfl⟩
      by_cases hc : c = header.component
      · subst hc
        simp only [ne_eq, not_true_eq_false, if_false]
        exact hend (fun d hd => (Option.some.inj hd).symm) _ rfl
      · simp only [ne_eq, hc, not_false_eq_true, if_true]
        exact hE _ ⟨rfl, nofun⟩

/-- All leaves of a combination are labelled with one component. -/
theorem nestedLeaves_meets (raw : Text) {tree : Node} (hread : ∀ leaf ∈ tree.leaves, ∀ header inner,
    TaggedBlock.read (leaf.text?.getD []) = .ok (some ⟨header, inner⟩) → Meets E (·.Unlabelled L) (read inner).result)
    (htree : tree.Unlabelled Coding) (tag : Option Component) :
    Runs E (· = tag) (fun n after => ∃ c, after = some c ∧ TagIs c tag ∧ n.Built L ∧ n.Composed (· = c))
      (tree.mapLeavesM (nestedLeaf read raw)) := by
  obtain ⟨hbuilt, hcomposed⟩ := htree
  induction tree generalizing tag with
  | leaf e m p =>
    refine (nestedLeaf_meets hE raw (hread _ (List.mem_singleton_self _)) tag).weaken fun n after h => ?_
    obtain ⟨c, hafter, htag, hn⟩ := h
    exact ⟨c, hafter, htag, hn.built, hn.composed⟩
  | combination o l r m p ihl ihr =>
    rw [mapLeavesM]
    refine (ihl (fun leaf hleaf => hread leaf (List.mem_append_left _ hleaf)) tag hbuilt.1 hcomposed.2.1).bind
      fun l' => ?_
    rintro _ ⟨c, rfl, htag, hl⟩
    refine Meets.report_bind (ihr (fun leaf hleaf => hread leaf (List.mem_append_right _ hleaf)) (some c) hbuilt.2.1
      hcomposed.2.2 _ rfl) ?_
    rintro ⟨r', _⟩ ⟨c', rfl, hc', hr⟩
    obtain rfl : c = c' := hc' c rfl
    exact ⟨c, rfl, htag, ⟨hl.1, hr.1, hbuilt.2.2⟩, fun d hd => (hcomposed.1 d hd).elim, hl.2, hr.2⟩

end Leaves

/-! ## Slots -/

namespace Statement

/-- The simple slots of `s`, and complex ones with trees labelled with their components. -/
structure Nested (L : Entry → Prop) (s t : Statement) : Prop where
  simple : ∀ c, t.get (.simple c) = s.get (.simple c)
  complex : ∀ c h n, t.get (.complex c h) = some n → n.Labelled L c

variable {s t : Statement}

theorem Nested.put (h : Nested L s t) {c : Component} (hc : c.nests = true) {n : Node} (hn : n.Labelled L c) :
    Nested L s (t.put (.complex c hc) (some n)) where
  simple := by
    intro d
    rw [get_put, if_neg nofun, h.simple]
  complex := by
    intro d hd m hm
    rw [get_put] at hm
    split at hm
    · rename_i hslot
      cases hslot
      cases hm
      exact hn
    · exact h.complex d hd m hm

/-- Attaching to a component that nests cannot fail. -/
theorem nest_meets (h : Nested L s t) {c : Component} (hc : c.nests = true) {tree : Node} (htree : tree.Labelled L c) :
    Meets (fun _ => False) (Nested L s) (t.nest c tree) := by
  have hslot : Slot.of? c .complex = some (.complex c hc) := by simp [Slot.of?, hc]
  unfold nest
  rw [hslot]
  simp only
  split
  · exact h.put hc htree
  · rename_i before hbefore
    obtain ⟨joined, hjoined, hlabelled⟩ := (h.complex c hc before hbefore).combine .syntheticAnd htree
    rw [hjoined]
    exact h.put hc hlabelled

end Statement

open Statement

variable {s t : Statement}

theorem attachCombination_meets (hE : Tolerates E) {header : Header} {tree : Node}
    (hread : ∀ inner, (BlockContent.combined header tree).Holds inner → Meets E (·.Unlabelled L) (read inner).result)
    (h : Nested L s t) (raw : Text) (hfit : (BlockContent.combined header tree).Fit) :
    Meets E (Nested L s) (attachCombination read raw header tree t).result := by
  obtain ⟨hnests, hkeyed, htree⟩ := hfit
  have hleaves := nestedLeaves_meets hE raw
    (fun leaf hleaf header' inner hinner => hread inner ⟨leaf, hleaf, header', hinner⟩) htree
  unfold attachCombination
  refine Meets.report_bind (hleaves none none rfl) ?_
  rintro ⟨n, after⟩ ⟨c, hafter, -, hbuilt, hcomposed⟩
  simp only at hafter hbuilt hcomposed
  subst hafter
  simp only [Option.getD_some]
  by_cases hc : c = header.component
  · subst hc
    simp only [ne_eq, not_true_eq_false, if_false]
    have hlabelled : (header.label n).Labelled L header.component := .relabel hcomposed hbuilt hkeyed _
    exact Meets.report_lift nofun (nest_meets h hnests hlabelled)
  · simp only [ne_eq, hc, not_false_eq_true, if_true]
    exact hE _ ⟨rfl, nofun⟩

theorem attachCombinations_meets (hE : Tolerates E) {blocks : List Block} (hread : ReadsBlocks E L read blocks)
    (h : Nested L s t) (hblocks : ∀ b ∈ blocks, b.content.Fit) :
    Meets E (Nested L s) (attachCombinations read t blocks).result := by
  induction blocks generalizing t with
  | nil => exact h
  | cons b blocks ih =>
    have hrest : ∀ {u}, Nested L s u → Meets E (Nested L s) (attachCombinations read u blocks).result :=
      fun hu => ih (fun x hx => hread x (by simp [hx])) hu fun x hx => hblocks x (by simp [hx])
    have hb := hblocks b (by simp)
    have hinner := hread b (by simp)
    rw [attachCombinations]
    split
    · exact Meets.report_bind (P := fun _ => True) trivial fun _ _ => hrest h
    · rename_i header tree hcontent
      rw [hcontent] at hb hinner
      exact Meets.report_bind (attachCombination_meets hE hinner h b.raw hb) fun u hu => hrest hu
    · exact hrest h

/-! ## Groups -/

/-- The trees of a group are labelled with its component, which nests. -/
def NestedGroup.Fit (L : Entry → Prop) (g : NestedGroup) : Prop :=
  g.component.nests = true ∧ ∀ n ∈ g.trees, n.Labelled L g.component

theorem addToGroup_fit {groups : List NestedGroup} (h : ∀ g ∈ groups, g.Fit L) {c : Component} (hc : c.nests = true)
    {tree : Node} (htree : tree.Labelled L c) (start stop : Nat) : ∀ g ∈ addToGroup c tree start stop groups, g.Fit L := by
  induction groups with
  | nil =>
    intro g hg
    rw [List.mem_singleton.1 hg]
    refine ⟨hc, fun n hn => ?_⟩
    rw [List.mem_singleton.1 hn]
    exact htree
  | cons g groups ih =>
    have hg := h g (by simp)
    have hrest : ∀ k ∈ groups, k.Fit L := fun k hk => h k (by simp [hk])
    intro k hk
    rw [addToGroup] at hk
    split at hk
    · rename_i hsame
      rcases List.mem_cons.1 hk with rfl | hk
      · refine ⟨hg.1, fun n hn => ?_⟩
        rcases List.mem_append.1 hn with hn | hn
        · exact hg.2 n hn
        · rw [List.mem_singleton.1 hn, hsame]
          exact htree
      · exact hrest k hk
    · rcases List.mem_cons.1 hk with rfl | hk
      · exact hg
      · exact ih hrest k hk

theorem nestedGroups_meets {blocks : List Block} (hread : ReadsBlocks E L read blocks) {groups : List NestedGroup}
    (h : ∀ g ∈ groups, g.Fit L) (hblocks : ∀ b ∈ blocks, b.content.Fit) :
    Meets E (fun out => ∀ g ∈ out, g.Fit L) (nestedGroups read groups blocks).result := by
  induction blocks generalizing groups with
  | nil => exact h
  | cons b blocks ih =>
    have hrest : ∀ {groups : List NestedGroup}, (∀ g ∈ groups, g.Fit L) →
        Meets E (fun out => ∀ g ∈ out, g.Fit L) (nestedGroups read groups blocks).result :=
      fun hgroups => ih (fun x hx => hread x (by simp [hx])) hgroups fun x hx => hblocks x (by simp [hx])
    have hb := hblocks b (by simp)
    have hinner := hread b (by simp)
    rw [nestedGroups]
    split
    · rename_i header inner hcontent
      rw [hcontent] at hb hinner
      refine Meets.report_bind (hinner inner rfl) fun n hn => ?_
      exact hrest (addToGroup_fit h hb.1 (hn.label _ hb.2 _) _ _)
    · exact hrest h

theorem joiningOperator_meets (options : Options) (atomic : Text) (start stop : Nat) :
    Meets ParseError.Fault (fun _ => True) (joiningOperator options atomic start stop) := by
  unfold joiningOperator
  split
  · trivial
  · split
    · trivial
    · split
      · trivial
      · exact ⟨rfl, nofun⟩

theorem attachGroup_meets (options : Options) (atomic : Text) (h : Nested L s t) {g : NestedGroup} (hg : g.Fit L) :
    Meets ParseError.Fault (Nested L s) (attachGroup options atomic t g) := by
  have hfold : ∀ o, Meets ParseError.Fault (fun found => ∀ tree ∈ found, tree.Labelled L g.component)
      (fold? o g.trees) :=
    fun o => (fold?_meets (fun l r => Labelled.combine o) hg.2).imp (fun _ he => he.elim) fun _ hfound => hfound.1
  have hnest : ∀ tree, tree.Labelled L g.component →
      Meets ParseError.Fault (Nested L s) (t.nest g.component tree) :=
    fun tree htree => (nest_meets h hg.1 htree).imp (fun _ he => he.elim) fun _ hu => hu
  unfold attachGroup
  simp only
  split
  · refine (joiningOperator_meets options atomic _ _).bind fun o _ => (hfold o).bind fun found hfound => ?_
    cases found with
    | none => exact h
    | some tree => exact hnest tree (hfound tree rfl)
  · refine (hfold .syntheticAnd).bind fun found hfound => ?_
    cases found with
    | none => exact h
    | some tree => exact hnest tree (hfound tree rfl)

/-- Attaching the blocks labels what it puts into the complex slots. -/
theorem attachBlocks_meets (hE : Tolerates E) (options : Options) {outline : Outline}
    (hread : ReadsBlocks E L read outline.blocks) (hblocks : ∀ b ∈ outline.blocks, b.content.Fit) {s : Statement}
    (hs : ∀ slot n, s.get slot = some n → slot.kind = .simple) :
    Meets E (Nested L s) (attachBlocks options read outline s).result := by
  have hstart : Nested L s s := ⟨fun _ => rfl, fun c h n hn => nomatch hs _ n hn⟩
  have hnone : ∀ g ∈ ([] : List NestedGroup), g.Fit L := nofun
  unfold attachBlocks
  refine Meets.report_bind (attachCombinations_meets hE hread hstart hblocks) fun t ht => ?_
  refine Meets.report_bind (nestedGroups_meets hread hnone hblocks) fun groups hgroups => ?_
  exact Meets.report_lift hE
    (Meets.foldlM (fun g hg u hu => attachGroup_meets options outline.atomic hu (hgroups g hg)) ht)

end InstitutionalGrammar
