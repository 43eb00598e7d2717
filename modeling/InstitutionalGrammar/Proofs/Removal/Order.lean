/-
  InstitutionalGrammar.Proofs.Removal.Order — leaves taken out one after another, in any order.

  What a node takes over when it moves up twice is what it takes over when it moves up once to the place
  of a node that moved up before. So the tree that is left is a function of the set of leaves that go.
  - `prune`: the tree without a set of leaves, in one walk.
  - `prune_without`: one removal, and the rest of the set behind it.
  - `removals_induction`, `removeEach_run`: a run of removals.
  - `removeEach_order`: no order of the removals makes a difference.
-/

import InstitutionalGrammar.Proofs.Removal.Subtrees

namespace InstitutionalGrammar

theorem Marks.moveUp_assoc (a b c : Marks) : a.moveUp (b.moveUp c) = (a.moveUp b).moveUp c := by
  simp [Marks.moveUp, Option.or_assoc]

namespace Node

variable {n m : Node} {path p q : Path} {ps : List Path}

theorem moveUp_moveUp (n : Node) (a b : Marks) (ps qs : List Node) :
    (n.moveUp a ps).moveUp b qs = n.moveUp (b.moveUp a) (ps ++ qs) := by
  cases n <;> simp [moveUp, withMarks, withPrivates, Node.marks, privates, Marks.moveUp_assoc]

/-! ## A set of leaves -/

/-- What is left of a combination: where one side is gone, the other moves up. -/
def rejoin (o : Operator) (marks : Marks) (ps : List Node) : Option Node → Option Node → Option Node
  | some l, some r => some (combination o l r marks ps)
  | some l, none => some (l.moveUp marks ps)
  | none, some r => some (r.moveUp marks ps)
  | none, none => none

/-- The tree without the leaves that are gone; none if all are. -/
def prune (gone : Path → Bool) : Node → Option Node
  | leaf e marks ps => if gone [] then none else some (leaf e marks ps)
  | combination o l r marks ps =>
    rejoin o marks ps (l.prune fun q => gone (.left :: q)) (r.prune fun q => gone (.right :: q))

theorem rejoin_none_left (o : Operator) (marks : Marks) (ps : List Node) (r : Option Node) :
    rejoin o marks ps none r = r.map (moveUp marks ps) := by cases r <;> rfl

theorem rejoin_none_right (o : Operator) (marks : Marks) (ps : List Node) (l : Option Node) :
    rejoin o marks ps l none = l.map (moveUp marks ps) := by cases l <;> rfl

/-- It does not matter whether a combination moves up before it loses a side or after. -/
theorem rejoin_moveUp (o : Operator) (own marks : Marks) (qs ps : List Node) (l r : Option Node) :
    rejoin o (marks.moveUp own) (qs ++ ps) l r = (rejoin o own qs l r).map (moveUp marks ps) := by
  cases l <;> cases r <;> simp [rejoin, moveUp_moveUp]
  rfl

theorem rejoin_eq_none_iff {o : Operator} {marks : Marks} {ps : List Node} {l r : Option Node} :
    rejoin o marks ps l r = none ↔ l = none ∧ r = none := by
  cases l <;> cases r <;> simp [rejoin]

variable {gone gone' : Path → Bool}

theorem prune_congr (h : ∀ q ∈ n.paths, gone q = gone' q) : n.prune gone = n.prune gone' := by
  induction n generalizing gone gone' with
  | leaf e marks ps => rw [prune, prune, h [] (List.mem_singleton_self _)]
  | combination o l r marks ps ihl ihr =>
    rw [prune, prune, ihl fun q hq => h _ (mem_paths_left.2 hq), ihr fun q hq => h _ (mem_paths_right.2 hq)]

theorem prune_moveUp (gone : Path → Bool) (marks : Marks) (ps : List Node) (n : Node) :
    (n.moveUp marks ps).prune gone = (n.prune gone).map (moveUp marks ps) := by
  cases n with
  | leaf e own qs =>
    by_cases h : gone [] = true
    · simp [moveUp, withMarks, withPrivates, prune, h]
    · simp [moveUp, withMarks, withPrivates, prune, h]
  | combination o l r own qs => exact rejoin_moveUp o own marks qs ps _ _

theorem prune_eq_none_iff : n.prune gone = none ↔ ∀ q ∈ n.paths, gone q = true := by
  induction n generalizing gone with
  | leaf e marks ps => simp [prune, paths]
  | combination o l r marks ps ihl ihr =>
    rw [prune, rejoin_eq_none_iff, ihl, ihr, paths]
    simp only [List.mem_append, List.mem_map, or_imp, forall_and, forall_exists_index, and_imp,
      forall_apply_eq_imp_iff₂]

theorem prune_nothing (h : ∀ q ∈ n.paths, gone q = false) : n.prune gone = some n := by
  induction n generalizing gone with
  | leaf e marks ps => simp [prune, h [] (List.mem_singleton_self _)]
  | combination o l r marks ps ihl ihr =>
    rw [prune, ihl fun q hq => h _ (mem_paths_left.2 hq), ihr fun q hq => h _ (mem_paths_right.2 hq), rejoin]

/-- Only a leaf has a leaf at its root. -/
theorem nil_mem_paths {n : Node} (h : [] ∈ n.paths) : n.isLeaf = true := by
  cases n with
  | leaf => rfl
  | combination o l r m p => simp [paths] at h

/-- The side that is the one leaf to go. -/
theorem prune_leaf (h : [] ∈ n.paths) (hgone : gone [] = true) : n.prune gone = none := by
  obtain ⟨e, marks, ps, rfl⟩ : ∃ e marks ps, n = leaf e marks ps := by
    cases n with
    | leaf e marks ps => exact ⟨e, marks, ps, rfl⟩
    | combination => cases nil_mem_paths h
  rw [prune, if_pos hgone]

/-- One leaf goes first, and the others of the set from where they are then. -/
theorem prune_without (h : Without p n m) (hp : p ∈ n.paths) (hgone : gone p = true)
    (hrest : ∀ q ∈ n.paths, q ≠ p → gone' (Path.rebase p q) = gone q) : m.prune gone' = n.prune gone := by
  induction h generalizing gone gone' with
  | left o l r marks ps =>
    rw [prune_moveUp, prune, prune_leaf (mem_paths_left.1 hp) hgone, rejoin_none_left]
    exact congrArg _ (prune_congr fun q hq => hrest (.right :: q) (mem_paths_right.2 hq) nofun)
  | right o l r marks ps =>
    rw [prune_moveUp, prune, prune_leaf (mem_paths_right.1 hp) hgone, rejoin_none_right]
    exact congrArg _ (prune_congr fun q hq => hrest (.left :: q) (mem_paths_left.2 hq) nofun)
  | @inLeft p l l' o r marks ps hl ih =>
    have hchanged : l'.prune (fun q => gone' (.left :: q)) = l.prune (fun q => gone (.left :: q)) := by
      refine ih (mem_paths_left.1 hp) hgone fun q hq hne => ?_
      have hq := hrest (.left :: q) (mem_paths_left.2 hq) fun e => hne (List.cons.inj e).2
      rwa [Path.rebase_below .left hl.ne_nil] at hq
    have hsame : r.prune (fun q => gone' (.right :: q)) = r.prune (fun q => gone (.right :: q)) := by
      refine prune_congr fun q hq => ?_
      have hq := hrest (.right :: q) (mem_paths_right.2 hq) nofun
      rwa [Path.rebase_apart .left .right nofun hl.ne_nil] at hq
    rw [prune, prune, hchanged, hsame]
  | @inRight p r r' o l marks ps hr ih =>
    have hchanged : r'.prune (fun q => gone' (.right :: q)) = r.prune (fun q => gone (.right :: q)) := by
      refine ih (mem_paths_right.1 hp) hgone fun q hq hne => ?_
      have hq := hrest (.right :: q) (mem_paths_right.2 hq) fun e => hne (List.cons.inj e).2
      rwa [Path.rebase_below .right hr.ne_nil] at hq
    have hsame : l.prune (fun q => gone' (.left :: q)) = l.prune (fun q => gone (.left :: q)) := by
      refine prune_congr fun q hq => ?_
      have hq := hrest (.left :: q) (mem_paths_left.2 hq) nofun
      rwa [Path.rebase_apart .right .left nofun hr.ne_nil] at hq
    rw [prune, prune, hchanged, hsame]

/-! ## Runs -/

/-- Leaves do not stand below one another. -/
theorem prefix_iff_eq (hp : p ∈ n.paths) (hq : q ∈ n.paths) : p <+: q ↔ p = q := by
  refine ⟨fun h => ?_, fun h => h ▸ List.prefix_refl p⟩
  induction n generalizing p q with
  | leaf =>
    rw [List.mem_singleton.1 hp, List.mem_singleton.1 hq]
  | combination o l r marks ps ihl ihr =>
    rcases mem_paths_combination.1 hp with ⟨x, hx, rfl⟩ | ⟨x, hx, rfl⟩
    · rcases mem_paths_combination.1 hq with ⟨y, hy, rfl⟩ | ⟨y, -, rfl⟩
      · exact congrArg _ (ihl hx hy (List.cons_prefix_cons.1 h).2)
      · cases (List.cons_prefix_cons.1 h).1
    · rcases mem_paths_combination.1 hq with ⟨y, -, rfl⟩ | ⟨y, hy, rfl⟩
      · cases (List.cons_prefix_cons.1 h).1
      · exact congrArg _ (ihr hx hy (List.cons_prefix_cons.1 h).2)

/-- Distinct leaves, the first of them the root, are the root alone. -/
theorem root_alone (hps : ∀ q ∈ [] :: ps, q ∈ n.paths) (hnodup : ([] :: ps).Nodup) : ps = [] ∧ n.paths = [[]] := by
  have hpaths : n.paths = [[]] := by
    cases n with
    | leaf => rfl
    | combination => cases nil_mem_paths (hps [] List.mem_cons_self)
  refine ⟨List.eq_nil_iff_forall_not_mem.2 fun q hq => ?_, hpaths⟩
  have hroot := hps q (List.mem_cons_of_mem _ hq)
  rw [hpaths, List.mem_singleton] at hroot
  exact (List.nodup_cons.1 hnodup).1 (hroot ▸ hq)

/-- Behind the first removal the others are distinct leaves still, and no further ones. -/
structure Pending (p : Path) (ps : List Path) (n m : Node) : Prop where
  step : Without p n m
  mem : ∀ q ∈ ps.map (Path.rebase p), q ∈ m.paths
  nodup : (ps.map (Path.rebase p)).Nodup
  same : ∀ q ∈ n.paths, q ≠ p → (Path.rebase p q ∈ ps.map (Path.rebase p) ↔ q ∈ ps)
  paths : m.paths = (n.paths.filter (· ≠ p)).map (Path.rebase p)

theorem exists_pending (hps : ∀ q ∈ p :: ps, q ∈ n.paths) (hnodup : (p :: ps).Nodup) (hne : p ≠ []) :
    ∃ m, Pending p ps n m := by
  obtain ⟨hp, hnodup⟩ := List.nodup_cons.1 hnodup
  have hleaf := hps p List.mem_cons_self
  have hmem : ∀ q ∈ ps, q ∈ n.paths ∧ q ≠ p := fun q hq => ⟨hps q (List.mem_cons_of_mem _ hq), fun e => hp (e ▸ hq)⟩
  obtain ⟨k, hk⟩ : ∃ k, n.get? p = some k := by
    obtain ⟨leaf, hl⟩ := exists_leafAt? hleaf
    obtain ⟨e, he, -⟩ := Option.map_eq_some_iff.1 hl
    obtain ⟨k, hk, -⟩ := Option.bind_eq_some_iff.1 he
    exact ⟨k, hk⟩
  obtain ⟨m, hm⟩ := exists_without hk hne
  have hpaths : m.paths = (n.paths.filter (· ≠ p)).map (Path.rebase p) := by
    rw [paths_without hm, Path.without]
    refine congrArg _ (List.filter_congr fun q hq => ?_)
    simp [prefix_iff_eq hleaf hq, eq_comm]
  -- the leaves that stay do not meet, since those of the new tree do not
  have hinj : ∀ q ∈ n.paths, q ≠ p → ∀ r ∈ n.paths, r ≠ p → Path.rebase p q = Path.rebase p r → q = r := by
    intro q hq hqp r hr hrp h
    exact List.inj_on_of_nodup_map (hpaths ▸ m.nodup_paths) (by simp [hq, hqp]) (by simp [hr, hrp]) h
  refine ⟨m, hm, ?_, ?_, ?_, hpaths⟩
  · intro q hq
    obtain ⟨x, hx, rfl⟩ := List.mem_map.1 hq
    rw [hpaths]
    exact List.mem_map_of_mem (List.mem_filter.2 ⟨(hmem x hx).1, by simpa using (hmem x hx).2⟩)
  · refine List.Nodup.map_on (fun q hq r hr h => ?_) hnodup
    exact hinj q (hmem q hq).1 (hmem q hq).2 r (hmem r hr).1 (hmem r hr).2 h
  · intro q hq hqp
    refine ⟨fun h => ?_, List.mem_map_of_mem⟩
    obtain ⟨r, hr, he⟩ := List.mem_map.1 h
    rw [← hinj r (hmem r hr).1 (hmem r hr).2 q hq hqp he]
    exact hr

theorem Pending.prune (h : Pending p ps n m) (hp : p ∈ n.paths) :
    m.prune (· ∈ ps.map (Path.rebase p)) = n.prune (· ∈ p :: ps) := by
  refine prune_without h.step hp (by simp) fun q hq hne => ?_
  simp [h.same q hq hne, hne]

/-- What holds of no removals, of the removal of a root that is a leaf, and of a removal if it holds of those behind
    it, holds of distinct leaves in any order. -/
@[elab_as_elim]
theorem removals_induction {motive : Node → List Path → Prop} (hps : ∀ p ∈ ps, p ∈ n.paths) (hnodup : ps.Nodup)
    (nil : ∀ n, motive n []) (root : ∀ n, n.paths = [[]] → motive n [[]])
    (step : ∀ {n m p ps}, p ∈ n.paths → Pending p ps n m → motive m (ps.map (Path.rebase p)) → motive n (p :: ps)) :
    motive n ps := by
  -- the others are rebased, so the induction is on how many there are
  induction hlen : ps.length generalizing ps n with
  | zero =>
    obtain rfl := List.eq_nil_of_length_eq_zero hlen
    exact nil n
  | succ k ih =>
    obtain ⟨p, ps, rfl⟩ := List.exists_cons_of_length_eq_add_one hlen
    by_cases hnil : p = []
    · subst hnil
      obtain ⟨rfl, hpaths⟩ := root_alone hps hnodup
      exact root n hpaths
    · obtain ⟨m, hm⟩ := exists_pending hps hnodup hnil
      exact step (hps p List.mem_cons_self) hm (ih hm.mem hm.nodup (by simpa using hlen))

theorem prune_root (hpaths : n.paths = [[]]) : n.prune (· ∈ [[]]) = none :=
  prune_leaf (by simp [hpaths]) (by simp)

/-- Removing distinct leaves one after another never fails, and leaves the tree without all of them. It
    is empty as soon as the last leaf of the tree is gone, and not before. -/
theorem removeEach_run (hps : ∀ p ∈ ps, p ∈ n.paths) (hnodup : ps.Nodup) :
    ∃ log, n.removeEach ps = ((n.prune (· ∈ ps)).getD empty, .ok log) ∧ log.length = ps.length ∧
      ∀ i (h : i < log.length), log[i].2 = true ↔ i + 1 = ps.length ∧ n.prune (· ∈ ps) = none := by
  refine removals_induction hps hnodup ?nil ?root ?step
  case nil =>
    intro n
    refine ⟨[], ?_, rfl, nofun⟩
    rw [removeEach, prune_nothing fun q _ => by simp]
    rfl
  case root =>
    intro n hpaths
    refine ⟨[([], true)], ?_, rfl, ?_⟩
    · rw [prune_root hpaths, removeEach]
      simp [remove, removeEach, Except.map]
    · intro i hi
      obtain rfl : i = 0 := by simpa using hi
      exact iff_of_true rfl ⟨rfl, prune_root hpaths⟩
  case step =>
    rintro n m p ps hp hm ⟨log, hrun, hlog, hflags⟩
    rw [hm.prune hp] at hrun hflags
    rw [List.length_map] at hlog hflags
    refine ⟨(p, false) :: log, ?_, by rw [List.length_cons, List.length_cons, hlog], ?_⟩
    · rw [removeEach, remove_without hm.step]
      simp only [hrun]
      rfl
    · intro i hi
      cases i with
      | zero =>
        simp only [List.getElem_cons_zero, Bool.false_eq_true, false_iff, not_and]
        intro hlast hnone
        obtain rfl : ps = [] := List.eq_nil_of_length_eq_zero (by simpa using hlast.symm)
        rw [← hm.prune hp, prune_nothing fun q _ => by simp] at hnone
        cases hnone
      | succ i =>
        have hflag := hflags i (by simpa using hi)
        simpa using hflag

theorem removeAll_run (hps : ∀ p ∈ ps, p ∈ n.paths) (hnodup : ps.Nodup) :
    n.removeAll ps = .ok (n.prune (· ∈ ps)) := by
  refine removals_induction hps hnodup ?nil ?root ?step
  case nil =>
    intro n
    rw [removeAll, prune_nothing fun q _ => by simp]
  case root =>
    intro n hpaths
    rw [prune_root hpaths, removeAll]
    rfl
  case step =>
    intro n m p ps hp hm ih
    rw [removeAll, remove_without hm.step, ← hm.prune hp]
    exact ih

theorem removeAll_filter (gone : Path → Bool) (n : Node) : n.removeAll (n.paths.filter gone) = .ok (n.prune gone) := by
  rw [removeAll_run (fun p hp => (List.mem_filter.1 hp).1) (n.nodup_paths.filter _)]
  exact congrArg _ (prune_congr fun q hq => by simp [hq])

/-! ## The leaves that stay -/

end Node

/-- An address adjusted to removals at all of these, one after another. -/
def Path.rebaseEach : List Path → Path → Path
  | [], q => q
  | p :: ps, q => rebaseEach (ps.map (rebase p)) (rebase p q)
termination_by ps => ps.length

namespace Node

variable {n m : Node} {path p q : Path} {ps : List Path}

theorem prune_leaves (hps : ∀ p ∈ ps, p ∈ n.paths) (hnodup : ps.Nodup) (h : n.prune (· ∈ ps) = some m) :
    m.paths = (n.paths.filter (· ∉ ps)).map (Path.rebaseEach ps) ∧
      ∀ q ∈ n.paths, q ∉ ps → m.leafAt? (Path.rebaseEach ps q) = n.leafAt? q := by
  revert h
  refine removals_induction hps hnodup ?nil ?root ?step
  case nil =>
    intro n h
    rw [prune_nothing fun q _ => by simp] at h
    cases h
    have hsame : Path.rebaseEach [] = id := funext fun q => by rw [Path.rebaseEach]; rfl
    simp [hsame]
  case root =>
    intro n hpaths h
    rw [prune_root hpaths] at h
    cases h
  case step =>
    intro n m₁ p ps hp hm ih h
    rw [← hm.prune hp] at h
    obtain ⟨hpaths, hleaves⟩ := ih h
    have hrebase : Path.rebaseEach (p :: ps) = fun q => Path.rebaseEach (ps.map (Path.rebase p)) (Path.rebase p q) :=
      funext fun q => by rw [Path.rebaseEach]
    rw [hrebase]
    constructor
    · rw [hpaths, hm.paths, List.filter_map, List.map_map, List.filter_filter]
      refine congrArg _ (List.filter_congr fun q hq => ?_)
      by_cases hqp : q = p
      · simp [hqp]
      · simp only [Function.comp_apply, hm.same q hq hqp, List.mem_cons, hqp, false_or, ne_eq, not_false_eq_true,
          decide_true, Bool.and_true]
    · intro q hq hstays
      obtain ⟨hqp, hqps⟩ := not_or.1 (mt List.mem_cons.2 hstays)
      have hbelow : ¬ p <+: q := fun h => hqp ((prefix_iff_eq hp hq).1 h).symm
      rw [← leafAt?_without hm.step hq hbelow]
      refine hleaves (Path.rebase p q) ?_ fun hin => hqps ((hm.same q hq hqp).1 hin)
      rw [hm.paths]
      exact List.mem_map_of_mem (List.mem_filter.2 ⟨hq, by simpa using hqp⟩)

/-- The leaves that stay are the others, each saying what it said. -/
theorem leafAt?_prune {gone : Path → Bool} (h : n.prune gone = some m) :
    m.paths.map (m.leafAt? ·) = (n.paths.filter fun q => !gone q).map (n.leafAt? ·) := by
  have hgone : ∀ q ∈ n.paths, gone q = decide (q ∈ n.paths.filter gone) := fun q hq => by simp [hq]
  rw [prune_congr hgone] at h
  obtain ⟨hpaths, hleaves⟩ := prune_leaves (fun p hp => (List.mem_filter.1 hp).1) (n.nodup_paths.filter _) h
  have hstay : (n.paths.filter fun q => !gone q) = n.paths.filter (· ∉ n.paths.filter gone) :=
    List.filter_congr fun q hq => by simp [hq]
  rw [hpaths, List.map_map, hstay]
  refine List.map_congr_left fun q hq => ?_
  obtain ⟨hq, hstays⟩ := List.mem_filter.1 hq
  exact hleaves q hq (of_decide_eq_true hstays)

/-- Distinct leaves taken out in any order: no removal is refused, the tree that is left is the same, it
    holds exactly the other leaves in their order, and it becomes empty only with the last removal, and
    only if no other leaf is left. -/
theorem removeEach_order (n : Node) {ps : List Path} (hps : ∀ p ∈ ps, p ∈ n.paths) (hnodup : ps.Nodup) :
    ∃ m log, n.removeEach ps = (m, .ok log) ∧
      (∀ qs, qs.Perm ps → ∃ log', n.removeEach qs = (m, .ok log')) ∧
      ((∀ q ∈ n.paths, q ∈ ps) → m = empty) ∧
      ((∃ q ∈ n.paths, q ∉ ps) → m.paths = (n.paths.filter (· ∉ ps)).map (Path.rebaseEach ps) ∧
        ∀ q ∈ n.paths, q ∉ ps → ∃ leaf, n.leafAt? q = some leaf ∧ m.leafAt? (Path.rebaseEach ps q) = some leaf) ∧
      log.length = ps.length ∧
      ∀ i (h : i < log.length), log[i].2 = true ↔ i + 1 = ps.length ∧ ∀ q ∈ n.paths, q ∈ ps := by
  have hempty : n.prune (· ∈ ps) = none ↔ ∀ q ∈ n.paths, decide (q ∈ ps) = true := prune_eq_none_iff
  have hall : n.prune (· ∈ ps) = none ↔ ∀ q ∈ n.paths, q ∈ ps := by simpa using hempty
  obtain ⟨log, hrun, hlog, hflags⟩ := removeEach_run hps hnodup
  refine ⟨_, log, hrun, ?_, ?_, ?_, hlog, fun i hi => (hflags i hi).trans (and_congr_right fun _ => hall)⟩
  · intro qs hperm
    obtain ⟨log', hrun', -⟩ := removeEach_run (fun p hp => hps p (hperm.mem_iff.1 hp)) (hperm.nodup_iff.2 hnodup)
    have hsame : n.prune (· ∈ qs) = n.prune (· ∈ ps) := prune_congr fun q _ => by simp [hperm.mem_iff]
    exact ⟨log', by rw [hrun', hsame]⟩
  · intro hgone
    rw [hall.2 hgone, Option.getD_none]
  · rintro ⟨q, hq, hstays⟩
    obtain ⟨m, hm⟩ : ∃ m, n.prune (· ∈ ps) = some m :=
      Option.ne_none_iff_exists'.1 fun hnone => hstays (hall.1 hnone q hq)
    obtain ⟨hpaths, hleaves⟩ := prune_leaves hps hnodup hm
    rw [hm, Option.getD_some]
    refine ⟨hpaths, fun q hq hstays => ?_⟩
    obtain ⟨leaf, hleaf⟩ := exists_leafAt? hq
    exact ⟨leaf, hleaf, (hleaves q hq hstays).trans hleaf⟩

/-- One leaf of the inner pair and the one outside go, in either order; what stays has moved up twice. -/
theorem removeEach_order_innerAndOuter :
    ∃ m log log', markedInside.removeEach [[.right, .left], [.left]] = (m, .ok log) ∧
      markedInside.removeEach [[.left], [.right, .left]] = (m, .ok log') ∧
      m.paths = [[]] ∧ m.leafAt? [] = some ⟨.text "approved".toList, some .attributesProperty, some ['2']⟩ := by
  have hps : ∀ p ∈ [[Side.right, .left], [.left]], p ∈ markedInside.paths := by decide
  obtain ⟨m, log, hrun, horders, -, hothers, -⟩ := removeEach_order markedInside hps (by decide)
  obtain ⟨log', hrun'⟩ := horders [[.left], [.right, .left]] (by decide)
  obtain ⟨hpaths, hleaves⟩ := hothers ⟨[.right, .right], by decide, by decide⟩
  obtain ⟨leaf, hleaf, hmoved⟩ := hleaves [.right, .right] (by decide) (by decide)
  have hrebase : Path.rebaseEach [[.right, .left], [.left]] [.right, .right] = [] := by
    simp [Path.rebaseEach, Path.rebase, Side.opposite]
  refine ⟨m, log, log', hrun, hrun', ?_, ?_⟩
  · rw [hpaths, show markedInside.paths.filter (· ∉ [[.right, .left], [.left]]) = [[.right, .right]] from by decide,
      List.map_singleton, hrebase]
  · rw [← hrebase, hmoved, ← hleaf]
    rfl

end Node

end InstitutionalGrammar
