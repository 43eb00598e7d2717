/-
  InstitutionalGrammar.Proofs.Ownership.Pairs — the passes over the statements of a pair.

  - `inheritOuter_linking`, `eraseForeign_erasing`: what an element takes over, and what is dropped from it.
  - `pairOutput_full`: nothing is left to link in any statement of a pair.
  - `pairOutput_origin`: the element that a statement of a pair comes from.
-/

import InstitutionalGrammar.Proofs.Ownership.Settled

namespace InstitutionalGrammar

open Statement Node

variable {P : Statement → Prop} {options : Options} {s t outer : Statement} {raw : Text} {tree out : Node}

/-! ## The outer statement -/

/-- The passes over an element with the slots of the statement around it. -/
theorem inheritOuter_linking (hlinks : options.linksProperties = true) (hs : s.Sound) (ho : outer.Sound)
    (h : inheritOuter options outer raw s = .ok t) :
    ∃ u, Linking .simple (s.union outer) u ∧ Linking .complex u t := by
  by_cases hagree : s.Agree outer
  · obtain ⟨u, m, hu, hlinking⟩ := link_moved (hs.union ho).keyed .simple
    obtain ⟨v, k, hv, hlinking'⟩ := link_moved (hlinking.keyed (hs.union ho).keyed) .complex
    unfold inheritOuter at h
    rw [inherit_agree hagree] at h
    simp only [ok_bind, hlinks, if_true, hu, hv] at h
    cases h
    exact ⟨u, hlinking, hlinking'⟩
  · obtain ⟨u, c, hu⟩ := inherit_conflict raw hagree
    unfold inheritOuter at h
    rw [hu] at h
    cases h

theorem inheritOuter_full (hlinks : options.linksProperties = true) (hs : s.Sound) (ho : outer.Sound)
    (h : inheritOuter options outer raw s = .ok t) : t.Sound ∧ t.FullyLinked := by
  obtain ⟨u, hu, ht⟩ := inheritOuter_linking hlinks hs ho h
  have hkeyed := (hs.union ho).keyed
  refine ⟨ht.sound (hu.sound (hs.union ho)), fun c property hp kind owners => ?_⟩
  cases kind with
  | simple => exact ht.keeps_apart (hu.keyed hkeyed) hp (hu.apart hkeyed hp owners)
  | complex => exact ht.apart (hu.keyed hkeyed) hp owners

/-! ## Properties of other elements -/

theorem onStatement_nested {f : Statement → Except ParseError Statement} {m : Marks} {p : List Node}
    (h : onStatement f (.leaf (.nested s) m p) = .ok out) : ∃ t, f s = .ok t ∧ out = .leaf (.nested t) m p := by
  obtain ⟨t, ht, h⟩ := bind_eq_ok.1 h
  cases h
  exact ⟨t, ht, rfl⟩

/-- The keys that the statements of a tree own. -/
def Node.owned (tree : Node) : List (Component × Text) :=
  (tree.leaves.filterMap statement?).flatMap (Statement.keys false)

theorem Node.Mapped.refl {R : Node → Node → Prop} (h : ∀ e m p, R (.leaf e m p) (.leaf e m p)) (n : Node) :
    n.Mapped R n := by
  induction n with
  | leaf e m p => exact .leaf (h e m p)
  | combination o l r m p ihl ihr => exact .combination ihl ihr

/-- What happens to the statement of a leaf when the properties with foreign keys are dropped. -/
def Unforeign (unowned owned : List (Component × Text)) (leaf k : Node) : Prop :=
  ∀ s m p, leaf = .leaf (.nested s) m p → s.Keyed → ∃ t, k = .leaf (.nested t) m p ∧
    Erasing (fun c _ key => (c, key) ∈ unowned ∧ (c, key) ∈ owned ∧ (c, key) ∉ s.keys false) s t

theorem eraseForeign_erasing {unowned : List (Component × Text)} (h : eraseForeign unowned tree = .ok out) :
    tree.Mapped (Unforeign unowned tree.owned) out := by
  have hclaimed : ∀ k, k ∈ unowned.filter tree.owned.contains ↔ k ∈ unowned ∧ k ∈ tree.owned := by simp
  unfold eraseForeign at h
  simp only at h
  rw [← Node.owned] at h
  generalize unowned.filter tree.owned.contains = claimed at h hclaimed
  cases claimed with
  | nil =>
    cases h
    refine .refl (fun e m p s m' p' he hs => ?_) tree
    cases he
    refine ⟨s, rfl, .refl (fun c kind key _ hk => ?_) s⟩
    cases (hclaimed (c, key)).2 ⟨hk.1, hk.2.1⟩
  | cons k ks =>
    refine (mapLeavesM_ok h).imp fun leaf k' hk' => ?_
    intro s m p hleaf hs
    subst hleaf
    obtain ⟨t, ht, rfl⟩ := onStatement_nested hk'
    obtain ⟨u, n, hu, herasing⟩ := eraseKeys_erasing hs ((k :: ks).filter (!(s.keys false).contains ·))
    rw [hu] at ht
    cases ht
    refine ⟨u, rfl, herasing.congr fun c _ key => ?_⟩
    rw [List.mem_filter, hclaimed]
    simp [and_assoc]

/-- A nested statement without anything left to link. -/
def Entry.Full (e : Entry) : Prop := ∃ s, e = .nested s ∧ s.Sound ∧ s.FullyLinked

theorem Statement.Erasing.full {a : Component → SlotKind → Text → Prop} (h : Erasing a s t) (hs : s.Sound)
    (hfull : s.FullyLinked) : t.FullyLinked :=
  fun c property hp kind owners => h.keeps_apart hs.keyed hp (hfull c property hp kind owners)

theorem eraseForeign_full {unowned : List (Component × Text)} (htree : tree.Built Entry.Full)
    (h : eraseForeign unowned tree = .ok out) : out.Built Entry.Full := by
  refine (eraseForeign_erasing h).built htree fun e m p k hbuilt hk => ?_
  obtain ⟨⟨s, rfl, hs, hfull⟩, hm, hp⟩ := hbuilt
  obtain ⟨t, rfl, herasing⟩ := hk s m p rfl hs.keyed
  exact ⟨⟨t, rfl, herasing.sound hs, herasing.full hs hfull⟩, hm, hp⟩

/-! ## Pairs -/

variable {read : Text → Report Node}

/-- The statements of an element: those of its text with the outer slots and linked once more. -/
theorem elementOutput_mapped {leaf : Node} (h : (elementOutput options read outer raw leaf).result = .ok out) :
    ∃ tree, (read (leaf.text?.getD [])).result = .ok tree ∧
      tree.Mapped (fun leaf k => onStatement (inheritOuter options outer raw) leaf = .ok k) out := by
  unfold elementOutput at h
  simp only at h
  split at h
  · obtain ⟨_, he, -⟩ := Report.bind_result_ok.1 h
    cases he
  · split at h
    · cases h
    · obtain ⟨tree, htree, h⟩ := Report.bind_result_ok.1 h
      exact ⟨tree, htree, mapLeavesM_ok (Report.liftM_result_ok.1 h)⟩

/-- The statements of a pair before properties are dropped from them. -/
theorem pairOutput_expanded (h : (pairOutput options read outer raw tree).result = .ok out) :
    ∃ expanded, (tree.spreadShared [] []).Mapped
        (fun leaf k => (elementOutput options read outer raw leaf).result = .ok k) expanded ∧
      (if options.linksProperties then eraseForeign (outer.keys true) expanded else .ok expanded) = .ok out := by
  unfold pairOutput at h
  obtain ⟨expanded, hexpanded, h⟩ := Report.bind_result_ok.1 h
  refine ⟨expanded, mapLeavesM_mapped (fun (r : Report Node) a => r.result = .ok a) (fun h => Report.bind_result_ok.1 h)
    (fun h => (Except.ok.inj h).symm) hexpanded, ?_⟩
  by_cases hlinks : options.linksProperties = true
  · rw [if_pos hlinks] at h ⊢
    exact Report.liftM_result_ok.1 h
  · rw [if_neg hlinks] at h ⊢
    cases h
    rfl

theorem pairOutput_mapped (hlinks : options.linksProperties = true)
    (h : (pairOutput options read outer raw tree).result = .ok out) :
    ∃ expanded, (tree.spreadShared [] []).Mapped
        (fun leaf k => (elementOutput options read outer raw leaf).result = .ok k) expanded ∧
      eraseForeign (outer.keys true) expanded = .ok out := by
  obtain ⟨expanded, hexpanded, h⟩ := pairOutput_expanded h
  rw [if_pos hlinks] at h
  exact ⟨expanded, hexpanded, h⟩

theorem elementOutput_full (hlinks : options.linksProperties = true) (ho : outer.Sound) (hread : Reads (Entry.Read P) read)
    {leaf : Node} (h : (elementOutput options read outer raw leaf).result = .ok out) : out.Built Entry.Full := by
  obtain ⟨tree, htree, hmapped⟩ := elementOutput_mapped h
  refine hmapped.built ((hread _).value htree).built fun e m p k hbuilt hk => ?_
  obtain ⟨⟨s, rfl, hs, -⟩, hm, hp⟩ := hbuilt
  obtain ⟨t, ht, rfl⟩ := onStatement_nested hk
  exact ⟨⟨t, rfl, inheritOuter_full hlinks hs.sound ho ht⟩, hm, hp⟩

theorem pairOutput_full (hlinks : options.linksProperties = true) (ho : outer.Sound) (hread : Reads (Entry.Read P) read)
    (htree : tree.Built Coding) (h : (pairOutput options read outer raw tree).result = .ok out) : out.Built Entry.Full := by
  obtain ⟨expanded, hexpanded, h⟩ := pairOutput_mapped hlinks h
  refine eraseForeign_full ?_ h
  exact hexpanded.built (spreadShared_built [] [] htree) fun _ _ _ _ _ hk => elementOutput_full hlinks ho hread hk

/-! ## Where a statement of a pair comes from -/

variable {n : Node} {path place : Path} {m : Marks} {p : List Node}

/-- The statements at the leaves of a tree by their addresses. -/
theorem Node.get?_of_mem_leaves (hs : s ∈ n.leaves.filterMap statement?) :
    ∃ path m p, n.get? path = some (.leaf (.nested s) m p) := by
  induction n with
  | leaf e m p =>
    cases e <;> simp [leaves, statement?] at hs
    exact ⟨[], m, p, by rw [hs]; rfl⟩
  | combination o l r m p ihl ihr =>
    rw [leaves, List.filterMap_append, List.mem_append] at hs
    rcases hs with hs | hs
    · obtain ⟨path, m', p', hget⟩ := ihl hs
      exact ⟨.left :: path, m', p', hget⟩
    · obtain ⟨path, m', p', hget⟩ := ihr hs
      exact ⟨.right :: path, m', p', hget⟩

/-- A nested statement in the place of a changed leaf was one before. -/
theorem onStatement_get? {f : Statement → Except ParseError Statement} {leaf new : Node} (hleaf : leaf.isLeaf = true)
    (h : onStatement f leaf = .ok new) (hget : new.get? place = some (.leaf (.nested t) m p)) :
    place = [] ∧ ∃ s, leaf = .leaf (.nested s) m p ∧ f s = .ok t := by
  have hroot : ∀ e m' p', (Node.leaf e m' p').get? place = some (.leaf (.nested t) m p) →
      place = [] ∧ e = .nested t ∧ m' = m ∧ p' = p := by
    intro e m' p' hget
    cases place with
    | nil =>
      cases hget
      exact ⟨rfl, rfl, rfl, rfl⟩
    | cons s place => cases s <;> cases hget
  cases leaf with
  | combination => cases hleaf
  | leaf e m' p' =>
    cases e with
    | nested s =>
      obtain ⟨t', ht', rfl⟩ := onStatement_nested h
      obtain ⟨hplace, he, rfl, rfl⟩ := hroot _ _ _ hget
      cases he
      exact ⟨hplace, s, rfl, ht'⟩
    | _ =>
      cases h
      obtain ⟨-, he, -⟩ := hroot _ _ _ hget
      cases he

/-- Dropping properties changes statements only. -/
theorem eraseForeign_mapped {unowned : List (Component × Text)} (h : eraseForeign unowned tree = .ok out) :
    tree.Mapped (fun leaf k => ∃ f, onStatement f leaf = .ok k) out := by
  have hpure : ∀ e m p, onStatement pure (.leaf e m p) = .ok (.leaf e m p) := by
    intro e m p
    cases e <;> rfl
  unfold eraseForeign at h
  simp only at h
  split at h
  · obtain rfl : tree = out := Except.ok.inj h
    exact .refl (fun e m p => ⟨pure, hpure e m p⟩) tree
  · exact (mapLeavesM_ok h).imp fun leaf k hk => ⟨_, hk⟩

theorem inheritOuter_union (hlinks : options.linksProperties = false) (h : inheritOuter options outer raw s = .ok t) :
    t = s.union outer := by
  unfold inheritOuter at h
  by_cases hagree : s.Agree outer
  · rw [inherit_agree hagree] at h
    simp only [ok_bind, hlinks] at h
    cases h
    rfl
  · obtain ⟨u, c, hu⟩ := inherit_conflict raw hagree
    rw [hu] at h
    cases h

/-- Where a statement of a pair comes from: one that an element is read as takes over the outer slots,
    and with linking some of its properties are dropped. -/
theorem pairOutput_origin {read : Text → Report Node} (h : (pairOutput options read outer raw tree).result = .ok out)
    (hget : out.get? path = some (.leaf (.nested t) m p)) :
    ∃ at' leaf elements place e v, path = at' ++ place ∧ (tree.spreadShared [] []).get? at' = some leaf ∧
      leaf.isLeaf = true ∧ (read (leaf.text?.getD [])).result = .ok elements ∧
      elements.get? place = some (.leaf (.nested e) m p) ∧ inheritOuter options outer raw e = .ok v ∧
      (options.linksProperties = false → v = t) ∧ (v.Keyed → ∃ erased, Erasing erased v t) := by
  obtain ⟨expanded, hexpanded, hdropped⟩ := pairOutput_expanded h
  obtain ⟨v, hv, hoff, herase⟩ : ∃ v, expanded.get? path = some (.leaf (.nested v) m p) ∧
      (options.linksProperties = false → v = t) ∧ (v.Keyed → ∃ erased, Erasing erased v t) := by
    by_cases hlinks : options.linksProperties = true
    · rw [if_pos hlinks] at hdropped
      obtain ⟨at', leaf, new, place, rfl, hat, hleaf, ⟨f, hf⟩, hplace⟩ :=
        (eraseForeign_mapped hdropped).of_get? hget rfl
      obtain ⟨rfl, v, rfl, -⟩ := onStatement_get? hleaf hf hplace
      rw [List.append_nil] at hget ⊢
      refine ⟨v, hat, fun hoff => absurd (hoff.symm.trans hlinks) Bool.false_ne_true, fun hkeyed => ?_⟩
      obtain ⟨k, hk, hforeign⟩ := (eraseForeign_erasing hdropped).get? hat rfl
      obtain ⟨t', rfl, herasing⟩ := hforeign v m p rfl hkeyed
      rw [hget] at hk
      cases hk
      exact ⟨_, herasing⟩
    · rw [if_neg hlinks] at hdropped
      cases hdropped
      exact ⟨t, hget, fun _ => rfl, fun _ => ⟨fun _ _ _ => False, .refl (fun _ _ _ _ => not_false) t⟩⟩
  obtain ⟨at', leaf, new, rest, rfl, hat, hleaf, helement, hrest⟩ := hexpanded.of_get? hv rfl
  obtain ⟨elements, helements, hmapped⟩ := elementOutput_mapped helement
  obtain ⟨place, leaf', new', rest', rfl, hplace, hleaf', hinherit, hrest'⟩ := hmapped.of_get? hrest rfl
  obtain ⟨rfl, e, rfl, he⟩ := onStatement_get? hleaf' hinherit hrest'
  rw [List.append_nil]
  exact ⟨at', leaf, elements, place, e, v, rfl, hat, hleaf, helements, hplace, he, hoff, herase⟩

end InstitutionalGrammar
