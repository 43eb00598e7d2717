/-
  InstitutionalGrammar.Proofs.Removal.Subtrees — what taking a subtree out leaves of a tree.

  The sibling moves up. It takes what it lacks from its parent, so whatever applied below it applies
  there still; addresses below it lose a step, and all others stay what they were.
  - `paths_without`, `leafAt?_without`: the leaves that stay, where they stand then, and what they say.
  - `remove_subtree`: what a removal at any address does.
-/

import InstitutionalGrammar.Proofs.Ownership.Tips

namespace InstitutionalGrammar

/-- A leaf as it counts in its tree: its entry, and the component and the suffix that apply to it. -/
structure Leaf where
  entry : Entry
  component : Option Component
  suffix : Option Text

namespace Node

variable {α : Type} {n m : Node} {path p q : Path}

def leafAt? (path : Path) (n : Node) : Option Leaf :=
  ((n.get? path).bind entry?).map fun e => ⟨e, n.componentAt? path, n.suffixAt? path⟩

/-! ## The sibling -/

theorem paths_moveUp (marks : Marks) (ps : List Node) (n : Node) : (n.moveUp marks ps).paths = n.paths := by
  cases n <;> rfl

theorem child?_moveUp (s : Side) (marks : Marks) (ps : List Node) (n : Node) :
    (n.moveUp marks ps).child? s = n.child? s := by
  cases n <;> cases s <;> rfl

theorem entry?_moveUp (path : Path) (marks : Marks) (ps : List Node) (n : Node) :
    ((n.moveUp marks ps).get? path).bind entry? = (n.get? path).bind entry? := by
  cases path with
  | nil => cases n <;> rfl
  | cons s path => rw [Node.get?, Node.get?, child?_moveUp]

/-- A mark that a node which moves up has from its parent where it has none of its own. -/
def TakenOver (g : Marks → Option α) : Prop := ∀ parent own : Marks, g (parent.moveUp own) = (g own).or (g parent)

theorem takenOver_component : TakenOver Marks.component := fun _ _ => rfl

theorem takenOver_suffix : TakenOver Marks.suffix := fun _ _ => rfl

theorem nearestFrom_moveUp {g : Marks → Option α} (hg : TakenOver g) (above : Option α) (path : Path) (marks : Marks)
    (ps : List Node) (n : Node) :
    nearestFrom (fun k => g k.marks) above path (n.moveUp marks ps) =
      nearestFrom (fun k => g k.marks) ((g marks).or above) path n := by
  have hown : (g (n.moveUp marks ps).marks).or above = (g n.marks).or ((g marks).or above) := by
    rw [← Option.or_assoc, ← hg]
    cases n <;> rfl
  cases path with
  | nil => exact hown
  | cons s path => rw [nearestFrom, nearestFrom, child?_moveUp, hown]

/-! ## The leaves that stay -/

end Node

namespace Path

/-- The addresses that stay when the node at `removed` goes, as they are then. -/
def without (removed : Path) (ps : List Path) : List Path := (ps.filter (¬ removed <+: ·)).map (rebase removed)

theorem without_append (removed : Path) (ps qs : List Path) :
    without removed (ps ++ qs) = without removed ps ++ without removed qs := by
  simp [without]

theorem without_self (s : Side) (ps : List Path) : without [s] (ps.map (s :: ·)) = [] := by
  rw [without, List.map_eq_nil_iff, List.filter_eq_nil_iff]
  intro q hq
  obtain ⟨x, -, rfl⟩ := List.mem_map.1 hq
  simp

theorem without_sibling (s : Side) (ps : List Path) : without [s] (ps.map (s.opposite :: ·)) = ps := by
  have hstay : ∀ q ∈ ps.map (s.opposite :: ·), ¬ [s] <+: q := by
    intro q hq
    obtain ⟨x, -, rfl⟩ := List.mem_map.1 hq
    simp [(opposite_ne s).symm]
  rw [without, List.filter_eq_self.2 fun q hq => decide_eq_true (hstay q hq), List.map_map]
  refine (List.map_congr_left fun q _ => rebase_sibling s q).trans (List.map_id ps)

theorem without_below (s : Side) {p : Path} (hp : p ≠ []) (ps : List Path) :
    without (s :: p) (ps.map (s :: ·)) = (without p ps).map (s :: ·) := by
  rw [without, without, List.filter_map, List.map_map, List.map_map]
  have hstay : ((fun q => decide (¬ s :: p <+: q)) ∘ fun q => s :: q) = fun q => decide (¬ p <+: q) := by
    funext q
    simp
  rw [hstay]
  exact List.map_congr_left fun q _ => rebase_below s hp q

theorem without_beside (s : Side) {p : Path} (hp : p ≠ []) (ps : List Path) :
    without (s :: p) (ps.map (s.opposite :: ·)) = ps.map (s.opposite :: ·) := by
  have hstay : ∀ q ∈ ps.map (s.opposite :: ·), ¬ s :: p <+: q := by
    intro q hq
    obtain ⟨x, -, rfl⟩ := List.mem_map.1 hq
    simp [(opposite_ne s).symm]
  rw [without, List.filter_eq_self.2 fun q hq => decide_eq_true (hstay q hq), List.map_map]
  exact List.map_congr_left fun q _ => rebase_beside s hp q

end Path

namespace Node

variable {α : Type} {n m : Node} {path p q : Path}

theorem paths_without (h : Without path n m) : m.paths = Path.without path n.paths := by
  induction h with
  | left o l r marks ps =>
    rw [paths_moveUp, paths, Path.without_append, Path.without_self .left]
    exact (Path.without_sibling .left r.paths).symm
  | right o l r marks ps =>
    rw [paths_moveUp, paths, Path.without_append, Path.without_self .right, List.append_nil]
    exact (Path.without_sibling .right l.paths).symm
  | inLeft o r marks ps hl ih =>
    rw [paths, paths, Path.without_append, Path.without_below .left hl.ne_nil, ih]
    exact congrArg (_ ++ ·) (Path.without_beside .left hl.ne_nil r.paths).symm
  | inRight o l marks ps hr ih =>
    rw [paths, paths, Path.without_append, Path.without_below .right hr.ne_nil, ih]
    exact congrArg (· ++ _) (Path.without_beside .right hr.ne_nil l.paths).symm

/-- The leaf that stood at an address keeps its entry. -/
theorem entry?_without (h : Without path n m) (hq : q ∈ n.paths) (hstays : ¬ path <+: q) :
    (m.get? (Path.rebase path q)).bind entry? = (n.get? q).bind entry? := by
  induction h generalizing q with
  | left o l r marks ps =>
    rcases mem_paths_combination.1 hq with ⟨x, -, rfl⟩ | ⟨x, -, rfl⟩
    · simp at hstays
    · exact entry?_moveUp x marks ps r
  | right o l r marks ps =>
    rcases mem_paths_combination.1 hq with ⟨x, -, rfl⟩ | ⟨x, -, rfl⟩
    · exact entry?_moveUp x marks ps l
    · simp at hstays
  | inLeft o r marks ps hl ih =>
    rcases mem_paths_combination.1 hq with ⟨x, hx, rfl⟩ | ⟨x, -, rfl⟩
    · rw [Path.rebase_below .left hl.ne_nil]
      exact ih hx (by simpa using hstays)
    · rw [Path.rebase_apart .left .right nofun hl.ne_nil]
      rfl
  | inRight o l marks ps hr ih =>
    rcases mem_paths_combination.1 hq with ⟨x, -, rfl⟩ | ⟨x, hx, rfl⟩
    · rw [Path.rebase_apart .right .left nofun hr.ne_nil]
      rfl
    · rw [Path.rebase_below .right hr.ne_nil]
      exact ih hx (by simpa using hstays)

/-- A mark that applied to the leaf still does. -/
theorem nearestFrom_without {g : Marks → Option α} (hg : TakenOver g) (h : Without path n m) (above : Option α)
    (hq : q ∈ n.paths) (hstays : ¬ path <+: q) :
    nearestFrom (fun k => g k.marks) above (Path.rebase path q) m = nearestFrom (fun k => g k.marks) above q n := by
  induction h generalizing q above with
  | left o l r marks ps =>
    rcases mem_paths_combination.1 hq with ⟨x, -, rfl⟩ | ⟨x, -, rfl⟩
    · simp at hstays
    · exact nearestFrom_moveUp hg above x marks ps r
  | right o l r marks ps =>
    rcases mem_paths_combination.1 hq with ⟨x, -, rfl⟩ | ⟨x, -, rfl⟩
    · exact nearestFrom_moveUp hg above x marks ps l
    · simp at hstays
  | inLeft o r marks ps hl ih =>
    rcases mem_paths_combination.1 hq with ⟨x, hx, rfl⟩ | ⟨x, -, rfl⟩
    · rw [Path.rebase_below .left hl.ne_nil]
      exact ih _ hx (by simpa using hstays)
    · rw [Path.rebase_apart .left .right nofun hl.ne_nil]
      rfl
  | inRight o l marks ps hr ih =>
    rcases mem_paths_combination.1 hq with ⟨x, -, rfl⟩ | ⟨x, hx, rfl⟩
    · rw [Path.rebase_apart .right .left nofun hr.ne_nil]
      rfl
    · rw [Path.rebase_below .right hr.ne_nil]
      exact ih _ hx (by simpa using hstays)

theorem leafAt?_without (h : Without path n m) (hq : q ∈ n.paths) (hstays : ¬ path <+: q) :
    m.leafAt? (Path.rebase path q) = n.leafAt? q := by
  have hcomponent : m.componentAt? (Path.rebase path q) = n.componentAt? q :=
    nearestFrom_without takenOver_component h none hq hstays
  have hsuffix : m.suffixAt? (Path.rebase path q) = n.suffixAt? q :=
    nearestFrom_without takenOver_suffix h none hq hstays
  rw [leafAt?, leafAt?, entry?_without h hq hstays, hcomponent, hsuffix]

theorem exists_leafAt? (h : path ∈ n.paths) : ∃ leaf, n.leafAt? path = some leaf := by
  have hentry : ∃ e, (n.get? path).bind entry? = some e := by
    induction n generalizing path with
    | leaf e marks ps =>
      rw [List.mem_singleton.1 h]
      exact ⟨e, rfl⟩
    | combination o l r marks ps ihl ihr =>
      rcases mem_paths_combination.1 h with ⟨x, hx, rfl⟩ | ⟨x, hx, rfl⟩
      · exact ihl hx
      · exact ihr hx
  obtain ⟨e, he⟩ := hentry
  exact ⟨_, by rw [leafAt?, he]; rfl⟩

/-! ## Keys -/

theorem keyAt?_without (hkeyed : n.Keyed) (h : Without path n m) (hq : q ∈ n.paths) (hstays : ¬ path <+: q) :
    m.keyAt? (Path.rebase path q) = n.keyAt? q := by
  have hsuffix : m.suffixAt? (Path.rebase path q) = n.suffixAt? q :=
    nearestFrom_without takenOver_suffix h none hq hstays
  rw [keyAt?_eq (hkeyed.without h), keyAt?_eq hkeyed, hsuffix]

/-! ## Removal -/

theorem remove_without (h : Without path n m) : n.remove path = .ok (m, false) := by
  obtain ⟨s, p, rfl⟩ := List.exists_cons_of_ne_nil h.ne_nil
  simp only [remove, h.eq_some]

theorem remove_absent (h : n.get? path = none) : n.remove path = .error (.invalidNodePath path.render) := by
  cases path with
  | nil =>
    rw [get?_nil] at h
    cases h
  | cons s p =>
    cases hm : n.without? (s :: p) with
    | none => simp only [remove, hm]
    | some m =>
      obtain ⟨k, hk⟩ := (without_of_eq hm).get?
      rw [h] at hk
      cases hk

/-- A removal is refused exactly where no node stands, and then leaves the tree as it was. Taking the
    root out leaves the empty leaf. Taking any other node out leaves exactly the leaves that are not
    below it, in their order and at their rebased addresses, and each with the entry, the component
    and the suffix that it had; with the key, too, if every suffix of the tree has one. -/
theorem remove_subtree (n : Node) (path : Path) :
    ((∃ e, n.remove path = .error e) ↔ n.get? path = none) ∧
    (∀ e, n.remove path = .error e → n.removeEach [path] = (n, .error e)) ∧
    n.remove [] = .ok (empty, true) ∧
    ((n.get? path).isSome → path ≠ [] → ∃ m, n.remove path = .ok (m, false) ∧
      m.paths = (n.paths.filter (¬ path <+: ·)).map (Path.rebase path) ∧
      ∀ q ∈ n.paths, ¬ path <+: q → ∃ leaf, n.leafAt? q = some leaf ∧ m.leafAt? (Path.rebase path q) = some leaf ∧
        (n.Keyed → m.keyAt? (Path.rebase path q) = n.keyAt? q)) := by
  refine ⟨⟨?_, fun h => ⟨_, remove_absent h⟩⟩, ?_, rfl, ?_⟩
  · rintro ⟨e, he⟩
    cases hget : n.get? path with
    | none => rfl
    | some k =>
      by_cases hnil : path = []
      · subst hnil
        cases he
      · obtain ⟨m, hm⟩ := exists_without hget hnil
        rw [remove_without hm] at he
        cases he
  · intro e he
    rw [removeEach, he]
  · intro hsome hne
    obtain ⟨k, hk⟩ := Option.isSome_iff_exists.1 hsome
    obtain ⟨m, hm⟩ := exists_without hk hne
    refine ⟨m, remove_without hm, paths_without hm, fun q hq hstays => ?_⟩
    obtain ⟨leaf, hleaf⟩ := exists_leafAt? hq
    exact ⟨leaf, hleaf, (leafAt?_without hm hq hstays).trans hleaf, fun hkeyed => keyAt?_without hkeyed hm hq hstays⟩

/-- Three texts, the two on the right under a suffix of their own. -/
def markedInside : Node :=
  combination .or (text "certified".toList)
    (combination .and (text "trained".toList) (text "approved".toList) { suffix := some ['2'] } [])
    { component := some .attributesProperty, suffix := some ['1'] } []

/-- The text on the left goes. Both others lose a step, and the pair keeps its own suffix. -/
theorem remove_subtree_outerLeaf : ∃ m, markedInside.remove [.left] = .ok (m, false) ∧
    m.paths = [[.left], [.right]] ∧
    m.leafAt? [.left] = some ⟨.text "trained".toList, some .attributesProperty, some ['2']⟩ ∧
    m.keyAt? [.left] = some ['2'] := by
  obtain ⟨-, -, -, hvalid⟩ := remove_subtree markedInside [.left]
  obtain ⟨m, hm, hpaths, hleaves⟩ := hvalid rfl (by decide)
  obtain ⟨leaf, hleaf, hmoved, hkey⟩ := hleaves [.right, .left] (by decide) (by decide)
  have hkeyed : markedInside.Keyed := by
    refine ⟨?_, nofun, ?_, nofun, nofun⟩
    all_goals
      rintro t ⟨⟩
      decide
  exact ⟨m, hm, hpaths.trans (by decide), hmoved.trans (hleaf.symm.trans rfl), (hkey hkeyed).trans (by decide)⟩

end Node

end InstitutionalGrammar
