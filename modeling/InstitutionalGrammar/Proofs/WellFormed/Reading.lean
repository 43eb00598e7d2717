/-
  InstitutionalGrammar.Proofs.WellFormed.Reading — what reading a text ends with.

  The trees that are read are unlabelled: nested statements joined by operators. One lemma for each
  step of reading says that the slots of these statements are formed, when the statements inside have
  some property `P`, and that the step refuses a text for a fault of its own only.
  - `step_meets`: a text, when the texts inside it are read so.
  - `within_meets`: every text, at any depth, if the statements that a text yields always have `P`.
  - `step_yields`: every statement in what a text is read as is an output statement of that text or of one
    inside it.
-/

import InstitutionalGrammar.Proofs.Reading.Nesting
import InstitutionalGrammar.Proofs.WellFormed.Slots

namespace InstitutionalGrammar

open Statement Node

variable {E : Failure → Prop} {P : Statement → Prop} {options : Options} {s t outer : Statement} {text raw : Text} {tree : Node}

/-- A nested statement with formed slots. -/
def Entry.Formed (P : Statement → Prop) (e : Entry) : Prop := ∃ s, e = .nested s ∧ s.Formed P

/-- A nested statement with formed slots that has `P` as well. -/
def Entry.Read (P : Statement → Prop) (e : Entry) : Prop := ∃ s, e = .nested s ∧ s.Formed P ∧ P s

/-! ## Trees of statements -/

theorem Statement.mem_statements_iff {u : Statement} :
    u ∈ s.statements ↔ u = s ∨ ∃ slot n, s.get slot = some n ∧ u ∈ n.statements := by
  constructor
  · intro h
    obtain ⟨slots⟩ := s
    rw [statements] at h
    rcases List.mem_cons.1 h with h | h
    · exact Or.inl h
    · obtain ⟨slot, -, h⟩ := List.mem_flatMap.1 h
      cases hn : slots slot with
      | none => simp [hn, slotStatements] at h
      | some n =>
        rw [hn, slotStatements] at h
        exact Or.inr ⟨slot, n, hn, h⟩
  · intro h
    rcases h with h | h
    · exact h ▸ mem_statements_self s
    · obtain ⟨slot, n, hn, hu⟩ := h
      exact mem_statements hn hu

theorem Entry.Read.statements {e : Entry} (h : e.Read P) : ∀ u ∈ e.statements, P u := by
  obtain ⟨s, rfl, hs, hown⟩ := h
  intro u hu
  rcases mem_statements_iff.1 hu with rfl | ⟨slot, n, hn, hu⟩
  · exact hown
  · exact (hs slot n hn).inside u hu

theorem Entry.Read.formed {e : Entry} (h : e.Read P) : e.Formed P := by
  obtain ⟨s, rfl, hs, -⟩ := h
  exact ⟨s, rfl, hs⟩

theorem Entry.Read.nested (h : Entry.Read P (.nested s)) : s.Formed P ∧ P s := by
  obtain ⟨s', he, hs⟩ := h
  cases he
  exact hs

theorem Entry.Read.mono {Q : Statement → Prop} {e : Entry} (h : e.Read P) (hQ : ∀ u, P u → Q u) : e.Read Q := by
  obtain ⟨s, rfl, hs, hown⟩ := h
  exact ⟨s, rfl, hs.mono hQ, hQ s hown⟩

theorem unlabelled_nested (hs : s.Formed P) : (nested s).Unlabelled (Entry.Formed P) :=
  ⟨built_nested ⟨s, rfl, hs⟩, nofun⟩

/-- If all statements at the leaves have `P`, they are as they are read. -/
theorem Node.Unlabelled.read (h : tree.Unlabelled (Entry.Formed P))
    (hown : ∀ s ∈ tree.leaves.filterMap statement?, s.Formed P → P s) : tree.Unlabelled (Entry.Read P) := by
  refine ⟨?_, h.composed⟩
  have hbuilt := h.built
  clear h
  induction tree with
  | leaf e m p =>
    obtain ⟨⟨s, rfl, hs⟩, hm⟩ := hbuilt
    exact ⟨⟨s, rfl, hs, hown s (List.mem_singleton_self s) hs⟩, hm⟩
  | combination o l r m p ihl ihr =>
    rw [leaves, List.filterMap_append] at hown
    refine ⟨ihl (fun s hs => hown s (List.mem_append_left _ hs)) hbuilt.1, ?_, hbuilt.2.2⟩
    exact ihr (fun s hs => hown s (List.mem_append_right _ hs)) hbuilt.2.1

theorem exists_leaf_of_mem_leaves {leaf : Node} (h : leaf ∈ tree.leaves) : ∃ e m p, leaf = .leaf e m p := by
  induction tree with
  | leaf e m p => exact ⟨e, m, p, List.mem_singleton.1 h⟩
  | combination o l r m p ihl ihr =>
    rw [leaves, List.mem_append] at h
    exact h.elim ihl ihr

/-- Replacing the leaves of an unlabelled tree, in a monad for which `Spec F x` says that `x` ends with
    a tree that has `F`. -/
theorem mapLeavesM_meets {M : Type → Type} [Monad M] (Spec : (Node → Prop) → M Node → Prop)
    (hbind : ∀ {F G : Node → Prop} {x : M Node} {f : Node → M Node}, Spec F x → (∀ a, F a → Spec G (f a)) →
      Spec G (x >>= f))
    (hpure : ∀ {F : Node → Prop} {a}, F a → Spec F (pure a)) {f : Node → M Node} {L L' : Entry → Prop}
    (hf : ∀ leaf ∈ tree.leaves, leaf.Unlabelled L → Spec (·.Unlabelled L') (f leaf)) (h : tree.Unlabelled L) :
    Spec (·.Unlabelled L') (tree.mapLeavesM f) := by
  obtain ⟨hbuilt, hcomposed⟩ := h
  induction tree with
  | leaf e m p => exact hf _ (List.mem_singleton_self _) ⟨hbuilt, hcomposed⟩
  | combination o l r m p ihl ihr =>
    rw [leaves] at hf
    rw [mapLeavesM]
    refine hbind (ihl (fun leaf hleaf => hf leaf (List.mem_append_left _ hleaf)) hbuilt.1 hcomposed.2.1) fun l' hl => ?_
    refine hbind (ihr (fun leaf hleaf => hf leaf (List.mem_append_right _ hleaf)) hbuilt.2.1 hcomposed.2.2)
      fun r' hr => ?_
    exact hpure ⟨⟨hl.built, hr.built, hbuilt.2.2⟩, hcomposed.1, hl.composed, hr.composed⟩

/-- Changing the statements of a tree. -/
theorem onStatements_meets {E : ParseError → Prop} {f : Statement → Except ParseError Statement}
    (hf : ∀ s, s.Formed P → Meets E (Formed P) (f s)) (h : tree.Unlabelled (Entry.Formed P)) :
    Meets E (·.Unlabelled (Entry.Formed P)) (tree.mapLeavesM (onStatement f)) := by
  refine mapLeavesM_meets (Meets E) Meets.bind (fun h => h) (fun leaf hmem hleaf => ?_) h
  obtain ⟨e, m, p, rfl⟩ := exists_leaf_of_mem_leaves hmem
  obtain ⟨⟨⟨s, rfl, hs⟩, hm⟩, hcomposed⟩ := hleaf
  exact (hf s hs).bind fun t ht => ⟨⟨⟨t, rfl, ht⟩, hm⟩, hcomposed⟩

/-! ## Statements -/

namespace Reading

/-- Linking cannot fail, and it populates no slot. -/
theorem linked_meets (options : Options) (kind : SlotKind) (hs : s.Formed P) :
    Meets (fun _ => False) (fun t => t.Formed P ∧ ∀ slot n, t.get slot = some n → ∃ m, s.get slot = some m)
      (linked options kind s) := by
  obtain ⟨t, m, ht, hlinking⟩ := link_moved hs.sound.keyed kind
  unfold linked
  split
  · rw [ht]
    exact ⟨hlinking.formed hs, fun slot n hn => hlinking.populated hn⟩
  · exact ⟨hs, fun slot n hn => ⟨n, hn⟩⟩

theorem atomicStatement_meets (limit : Nat) (atomic : Text) :
    Fair (fun s => s.Formed P ∧ ∀ slot n, s.get slot = some n → slot.kind = .simple) (atomicStatement limit atomic) := by
  refine Meets.foldlM (fun c _ s hs => ?_) ⟨nofun, nofun⟩
  refine (componentTree?_meets limit c atomic).bind fun found hfound => ?_
  cases found with
  | none => exact hs
  | some tree =>
    have hformed : (Slot.simple c).Formed P tree := (hfound tree rfl).formed (fun _ he => he) fun e he u hu => by
      obtain ⟨v, rfl, -⟩ := he
      cases hu
    refine ⟨fun slot n hn => ?_, fun slot n hn => ?_⟩
    all_goals
      rw [Statement.get_put] at hn
      split at hn
    · rename_i hslot
      cases hn
      exact hslot ▸ hformed
    · exact hs.1 slot n hn
    · rename_i hslot
      exact hslot ▸ rfl
    · exact hs.2 slot n hn

/-- The statement of the atomic text, beside blocks that fit. -/
structure Started (P : Statement → Prop) (outline : Outline) (s : Statement) : Prop where
  blocks : ∀ b ∈ outline.blocks, b.content.Fit
  formed : s.Formed P
  simple : ∀ slot n, s.get slot = some n → slot.kind = .simple

theorem draft_meets (options : Options) (text : Text) : Fair (fun x => Started P x.1 x.2) (draft options text) := by
  unfold draft
  refine (requireBalanced_meets (fun _ _ _ _ => rfl) (fun _ _ => rfl) text).lift.bind fun _ _ => ?_
  refine (outline_meets options.depthLimit text).bind fun outline houtline => ?_
  refine (atomicStatement_meets (P := P) options.depthLimit outline.atomic).bind fun s hs => ?_
  refine ((linked_meets options .simple hs.1).imp nofun fun _ h => h).lift.bind fun t ht => ?_
  refine ⟨houtline, ht.1, fun slot n hn => ?_⟩
  obtain ⟨m, hm⟩ := ht.2 slot n hn
  exact hs.2 slot m hm

variable {read : Text → Report Node} {outline : Outline}

theorem nested_formed (hs : s.Formed P) (h : Statement.Nested (Entry.Read P) s t) : t.Formed P := by
  intro slot n hn
  cases slot with
  | simple c =>
    rw [h.simple c] at hn
    exact hs _ n hn
  | complex c hc =>
    refine (h.complex c hc n hn).formed (fun e he => ?_) fun e he => he.statements
    obtain ⟨u, rfl, -⟩ := he
    exact ⟨u, rfl⟩

theorem complete_meets (hE : Tolerates E) (options : Options) (hread : ReadsBlocks E (Entry.Read P) read outline.blocks)
    (hs : Started P outline s) : Meets E (Formed P) (complete options read outline s).result := by
  unfold complete
  refine Meets.report_bind (attachBlocks_meets hE options hread hs.blocks hs.simple) fun t ht => ?_
  exact Meets.report_lift nofun ((linked_meets options .complex (nested_formed hs.formed ht)).weaken fun _ h => h.1)

end Reading

/-! ## Pairs -/

theorem inheritOuter_meets (options : Options) (raw : Text) (ho : outer.Formed P) (hs : s.Formed P) :
    Meets ParseError.Fault (Formed P) (inheritOuter options outer raw s) := by
  unfold inheritOuter
  by_cases hagree : s.Agree outer
  · have hunion := hs.union ho
    obtain ⟨u, m, hu, hlinking⟩ := link_moved hunion.sound.keyed .simple
    obtain ⟨v, k, hv, hlinking'⟩ := link_moved (hlinking.formed hunion).sound.keyed .complex
    rw [inherit_agree hagree]
    simp only [ok_bind]
    split
    · rw [hu, ok_bind]
      simp only
      rw [hv, ok_bind]
      exact hlinking'.formed (hlinking.formed hunion)
    · exact hunion
  · obtain ⟨u, c, hu⟩ := inherit_conflict raw hagree
    rw [hu]
    exact ⟨rfl, nofun⟩

theorem eraseForeign_meets (unowned : List (Component × Text)) (h : tree.Unlabelled (Entry.Formed P)) :
    Meets (fun _ => False) (·.Unlabelled (Entry.Formed P)) (eraseForeign unowned tree) := by
  unfold eraseForeign
  simp only
  generalize unowned.filter _ = claimed
  cases claimed with
  | nil => exact h
  | cons k ks =>
    refine onStatements_meets (fun s hs => ?_) h
    obtain ⟨t, n, ht, herasing⟩ :=
      eraseKeys_erasing hs.sound.keyed ((k :: ks).filter (!(s.keys false).contains ·))
    rw [ht]
    exact herasing.formed hs

theorem spreadShared_built (before after : List Text) (h : tree.Built Coding) :
    (tree.spreadShared before after).Built Coding := by
  induction tree generalizing before after with
  | leaf e m p =>
    obtain ⟨⟨v, rfl⟩, hm, hp⟩ := h
    exact ⟨⟨_, rfl⟩, hm, hp⟩
  | combination o l r m p ihl ihr => exact ⟨ihl _ _ h.1, ihr _ _ h.2.1, h.2.2⟩

theorem spreadShared_composed {C : Component → Prop} (before after : List Text) (h : tree.Composed C) :
    (tree.spreadShared before after).Composed C := by
  induction tree generalizing before after with
  | leaf e m p => cases e <;> exact h
  | combination o l r m p ihl ihr => exact ⟨h.1, ihl _ _ h.2.1, ihr _ _ h.2.2⟩

section Pair

variable {read : Text → Report Node} (hE : Tolerates E) (ho : outer.Formed P)
include hE ho

theorem elementOutput_meets (options : Options) (raw : Text) {leaf : Node}
    (hread : Meets E (·.Unlabelled (Entry.Read P)) (read (leaf.text?.getD [])).result) :
    Meets E (·.Unlabelled (Entry.Formed P)) (elementOutput options read outer raw leaf).result := by
  unfold elementOutput
  simp only
  split
  · exact hE _ ⟨rfl, nofun⟩
  · split
    · exact hE _ ⟨rfl, nofun⟩
    · refine Meets.report_bind hread fun tree htree => ?_
      have htree := htree.mono fun e he => he.formed
      exact Meets.report_lift hE (onStatements_meets (fun s hs => inheritOuter_meets options raw ho hs) htree)

theorem pairOutput_meets (options : Options) (raw : Text)
    (hread : ∀ inner, (BlockContent.pair tree).Holds inner → Meets E (·.Unlabelled (Entry.Read P)) (read inner).result)
    (htree : tree.Unlabelled Coding) :
    Meets E (·.Unlabelled (Entry.Formed P)) (pairOutput options read outer raw tree).result := by
  have hspread : (tree.spreadShared [] []).Unlabelled Coding :=
    ⟨spreadShared_built [] [] htree.built, spreadShared_composed [] [] htree.composed⟩
  unfold pairOutput
  refine Meets.report_bind (P := (·.Unlabelled (Entry.Formed P))) ?_ fun expanded hexpanded => ?_
  · exact mapLeavesM_meets (fun F (r : Report Node) => Meets E F r.result) Meets.report_bind (fun h => h)
      (fun leaf hleaf _ => elementOutput_meets hE ho options raw (hread _ ⟨leaf, hleaf, rfl⟩)) hspread
  · split
    · exact Meets.report_lift nofun (eraseForeign_meets _ hexpanded)
    · exact hexpanded

end Pair

/-! ## Texts -/

namespace Reading

variable {read : Text → Report Node} {outline : Outline}

theorem output_meets (hE : Tolerates E) (options : Options) (hread : ReadsBlocks E (Entry.Read P) read outline.blocks)
    (hblocks : ∀ b ∈ outline.blocks, b.content.Fit) (hs : s.Formed P) :
    Meets E (·.Unlabelled (Entry.Formed P)) (output options read outline s).result := by
  unfold output
  split
  · split
    · exact hE _ ⟨rfl, nofun⟩
    · exact unlabelled_nested hs
  · rename_i raw tree hpairs
    obtain ⟨b, hb, -, hcontent⟩ := mem_pairs (hpairs ▸ List.mem_singleton_self (raw, tree))
    have hfit := hblocks b hb
    have hinner := hread b hb
    rw [hcontent] at hfit hinner
    exact pairOutput_meets hE hs options raw hinner hfit
  · exact hE _ ⟨rfl, nofun⟩

/-- Whatever the outline and the texts inside may fail with, nothing else is added but faults. -/
theorem step_fails (hE : Tolerates E) {options : Options} {text : Text}
    (hdraft : Meets E (fun x => Started P x.1 x.2 ∧ ReadsBlocks E (Entry.Read P) read x.1.blocks) (draft options text)) :
    Meets E (·.Unlabelled (Entry.Formed P)) (step options read text).result := by
  unfold step
  split
  · rename_i h
    exact hdraft.failure h
  · rename_i outline s h
    obtain ⟨hs, hread⟩ := hdraft.value h
    have hcomplete := complete_meets hE options hread hs
    simp only
    split
    · rename_i h
      exact hcomplete.failure h
    · rename_i t h
      exact output_meets hE options hread hs.blocks (hcomplete.value h)

theorem step_meets (hread : ∀ inner, Inside options text inner → Fair (·.Unlabelled (Entry.Read P)) (read inner).result) :
    Fair (·.Unlabelled (Entry.Formed P)) (step options read text).result := by
  refine step_fails tolerates_ofInput ((draft_meets options text).and_eq.weaken fun x hx => ⟨hx.1, ?_⟩)
  exact fun b hb inner hinner => hread inner ⟨x.1, outline_of_draft hx.2, b, hb, hinner⟩

/-- Whatever is read, at whatever depth, if the statements that a text yields have `P` when all inside it
    has. What `P` says of a text it says of the texts around it. -/
theorem within_meets {P : Nat → Text → Statement → Prop}
    (hinside : ∀ budget text inner, Inside options text inner → ∀ s, P budget inner s → P (budget + 1) text s)
    (hown : ∀ budget text out,
      (∀ inner, Fair (·.Unlabelled (Entry.Read (P budget inner))) (within options budget inner).result) →
      (step options (within options budget) text).result = .ok out →
      ∀ s ∈ out.leaves.filterMap statement?, s.Formed (P (budget + 1) text) → P (budget + 1) text s)
    (budget : Nat) (text : Text) : Fair (·.Unlabelled (Entry.Read (P budget text))) (within options budget text).result := by
  induction budget generalizing text with
  | zero => exact rfl
  | succ budget ih =>
    have hread : ∀ inner, Inside options text inner →
        Fair (·.Unlabelled (Entry.Read (P (budget + 1) text))) (within options budget inner).result :=
      fun inner hinner => (ih inner).weaken fun tree htree =>
        htree.mono fun e he => he.mono (hinside budget text inner hinner)
    exact (step_meets hread).and_eq.weaken fun out hout => hout.1.read (hown budget text out ih hout.2)

/-- The same where `P` does not depend on the text. -/
theorem within_reads (hown : ∀ budget text out, Reads (Entry.Read P) (within options budget) →
      (step options (within options budget) text).result = .ok out →
      ∀ s ∈ out.leaves.filterMap statement?, s.Formed P → P s)
    (budget : Nat) : Reads (Entry.Read P) (within options budget) :=
  within_meets (P := fun _ _ => P) (fun _ _ _ _ _ h => h) hown budget

theorem within_formed (options : Options) (budget : Nat) : Reads (Entry.Read fun _ => True) (within options budget) :=
  within_reads (fun _ _ _ _ _ _ _ _ => trivial) budget

/-- The statement is an output statement of the text or of one that is read inside it, where the texts
    inside `text` are read within that budget. -/
def Yields (options : Options) (budget : Nat) (text : Text) (s : Statement) : Prop :=
  ∃ left inner out, Reaches options budget text left inner ∧
    (step options (within options left) inner).result = .ok out ∧ s ∈ out.leaves.filterMap statement?

theorem Yields.inside {budget : Nat} {inner : Text} (hinner : Inside options text inner) (h : Yields options budget inner s) :
    Yields options (budget + 1) text s := by
  obtain ⟨left, deepest, out, hreaches, hout⟩ := h
  exact ⟨left, deepest, out, .inside hinner hreaches, hout⟩

/-- Every statement in what a text is read as, at any depth, has its place in that text or in one inside it. -/
theorem step_yields {budget : Nat} {out : Node} (h : (step options (within options budget) text).result = .ok out)
    (hs : s ∈ out.statements) : Yields options budget text s := by
  have hread : Fair (·.Unlabelled (Entry.Read fun s => ∃ left, budget + 1 = left + 1 ∧ Yields options left text s))
      (within options (budget + 1) text).result := by
    refine within_meets (P := fun more text s => ∃ left, more = left + 1 ∧ Yields options left text s) ?_ ?_ _ _
    · intro budget text inner hinner s hs
      obtain ⟨left, rfl, hyields⟩ := hs
      exact ⟨left + 1, rfl, hyields.inside hinner⟩
    · exact fun budget text out _ hout s hs _ => ⟨budget, rfl, budget, text, out, .self, hout, hs⟩
  obtain ⟨e, he, hs⟩ := (hread.value h).built.statements hs
  obtain ⟨left, hleft, hyields⟩ := he.statements s hs
  cases hleft
  exact hyields

end Reading

end InstitutionalGrammar
