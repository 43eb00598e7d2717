/-
  InstitutionalGrammar.Proofs.Leaves — the leaves of a tree from left to right, and their groups.

  A walk to a leaf stays in the trees that the synthetic conjunction joins for some steps. Two leaves are in one group
  if their walks part behind the last of these steps.
  - `mem_paths_iff`, `pairwise_paths`: all leaves, and their order.
  - `Path.prefix_meet_iff`: the lowest common ancestor of two nodes.
  - `together_iff`: when two leaves are in one group.
  - `groups_agree`: the groups, with both ways to make them.
-/

import Mathlib.Data.List.Nodup
import InstitutionalGrammar.Node.Path

namespace InstitutionalGrammar

namespace Path

variable {a p q : Path} {s : Side}

/-- The address of the lowest common ancestor. -/
def meet : Path → Path → Path
  | s :: p, t :: q => if s = t then s :: meet p q else []
  | _, _ => []

/-- The ancestors of the lowest common ancestor, with itself, are the common ancestors. -/
theorem prefix_meet_iff : a <+: p.meet q ↔ a <+: p ∧ a <+: q := by
  induction a generalizing p q with
  | nil => simp
  | cons s a ih =>
    cases p with
    | nil => simp [meet]
    | cons t p =>
      cases q with
      | nil => simp [meet]
      | cons u q =>
        rw [meet, List.cons_prefix_cons, List.cons_prefix_cons]
        by_cases htu : t = u
        · subst htu
          rw [if_pos rfl, List.cons_prefix_cons, ih]
          exact and_and_left
        · rw [if_neg htu, List.prefix_nil]
          refine ⟨nofun, fun h => absurd (h.1.1.symm.trans h.2.1) htu⟩

/-- Where the walks to two nodes part, the one to the first goes left. -/
def Before (p q : Path) : Prop := ∃ a p' q', p = a ++ Side.left :: p' ∧ q = a ++ Side.right :: q'

theorem Before.below (s : Side) (h : Before p q) : Before (s :: p) (s :: q) := by
  obtain ⟨a, p', q', rfl, rfl⟩ := h
  exact ⟨s :: a, p', q', rfl, rfl⟩

theorem Before.ne (h : Before p q) : p ≠ q := by
  obtain ⟨a, p', q', rfl, rfl⟩ := h
  simp

/-- The one node is in another group than the other. -/
def Separated (groups : List (List Path)) (p q : Path) : Prop :=
  ∃ (i j : Nat) (g h : List Path), i ≠ j ∧ groups[i]? = some g ∧ groups[j]? = some h ∧ p ∈ g ∧ q ∈ h

/-- Of groups that have no node twice, two nodes share one or are in two of them. -/
theorem separated_iff {groups : List (List Path)} (hnodup : groups.flatten.Nodup) (hp : p ∈ groups.flatten)
    (hq : q ∈ groups.flatten) : Separated groups p q ↔ ¬ ∃ g ∈ groups, p ∈ g ∧ q ∈ g := by
  have hdisjoint := (List.nodup_flatten.1 hnodup).2
  have hshared : ∀ {i j : Nat} {g h : List Path} {x : Path}, groups[i]? = some g → groups[j]? = some h →
      x ∈ g → x ∈ h → ¬ i < j := by
    intro i j g h x hi hj hg hh hij
    obtain ⟨hilt, rfl⟩ := List.getElem?_eq_some_iff.1 hi
    obtain ⟨hjlt, rfl⟩ := List.getElem?_eq_some_iff.1 hj
    exact List.pairwise_iff_getElem.1 hdisjoint i j hilt hjlt hij hg hh
  constructor
  · rintro ⟨i, j, g, h, hne, hi, hj, hpg, hqh⟩ ⟨k, hk, hpk, hqk⟩
    obtain ⟨m, hm⟩ := List.mem_iff_getElem?.1 hk
    have him := hshared hi hm hpg hpk
    have hmi := hshared hm hi hpk hpg
    have hjm := hshared hj hm hqh hqk
    have hmj := hshared hm hj hqk hqh
    omega
  · intro hnone
    obtain ⟨g, hg, hpg⟩ := List.mem_flatten.1 hp
    obtain ⟨h, hh, hqh⟩ := List.mem_flatten.1 hq
    obtain ⟨i, hi⟩ := List.mem_iff_getElem?.1 hg
    obtain ⟨j, hj⟩ := List.mem_iff_getElem?.1 hh
    refine ⟨i, j, g, h, fun hij => hnone ⟨g, hg, hpg, ?_⟩, hi, hj, hpg, hqh⟩
    subst hij
    rwa [Option.some.inj (hi.symm.trans hj)]

end Path

namespace Node

variable {n m : Node} {p q : Path}

/-! ## All leaves -/

section Sides

variable {o : Operator} {l r : Node} {marks : Marks} {ps : List Node}

theorem mem_paths_left : .left :: q ∈ (combination o l r marks ps).paths ↔ q ∈ l.paths := by simp [paths]

theorem mem_paths_right : .right :: q ∈ (combination o l r marks ps).paths ↔ q ∈ r.paths := by simp [paths]

theorem mem_paths_combination : q ∈ (combination o l r marks ps).paths ↔
    (∃ x ∈ l.paths, q = .left :: x) ∨ ∃ x ∈ r.paths, q = .right :: x := by
  simp only [paths, List.mem_append, List.mem_map, eq_comm]

end Sides

theorem mem_paths_iff : p ∈ n.paths ↔ ∃ leaf, n.get? p = some leaf ∧ leaf.isLeaf = true := by
  induction n generalizing p with
  | leaf e m ps =>
    cases p with
    | nil => simp [paths, isLeaf]
    | cons s p => cases s <;> simp [paths, get?, child?]
  | combination o l r m ps ihl ihr =>
    cases p with
    | nil => simp [paths, isLeaf]
    | cons s p =>
      cases s with
      | left => exact mem_paths_left.trans ihl
      | right => exact mem_paths_right.trans ihr

theorem paths_ne_nil (n : Node) : n.paths ≠ [] := by
  induction n with
  | leaf => exact List.cons_ne_nil _ _
  | combination o l r m ps ihl ihr => simp [paths, ihl]

theorem pairwise_paths (n : Node) : n.paths.Pairwise Path.Before := by
  have hbelow : ∀ {ps : List Path} (s : Side), ps.Pairwise Path.Before → (ps.map (s :: ·)).Pairwise Path.Before := by
    intro ps s hps
    exact hps.map _ fun p q hpq => hpq.below s
  induction n with
  | leaf => exact List.pairwise_singleton _ _
  | combination o l r m ps ihl ihr =>
    rw [paths, List.pairwise_append]
    refine ⟨hbelow .left ihl, hbelow .right ihr, ?_⟩
    intro p hp q hq
    obtain ⟨x, -, rfl⟩ := List.mem_map.1 hp
    obtain ⟨y, -, rfl⟩ := List.mem_map.1 hq
    exact ⟨[], x, y, rfl, rfl⟩

theorem nodup_paths (n : Node) : n.paths.Nodup := n.pairwise_paths.imp Path.Before.ne

/-! ## Groups -/

theorem flatten_groups (aggregate : Bool) (n : Node) : (n.groups aggregate).flatten = n.paths := by
  cases aggregate with
  | true => exact List.append_nil _
  | false => exact flatten_separateGroups n

theorem separateGroups_ne_nil {g : List Path} (hg : g ∈ n.separateGroups) : g ≠ [] := by
  induction n using separateGroups.induct generalizing g with
  | case1 l r m ps ihl ihr =>
    rw [separateGroups, List.mem_append, List.mem_map, List.mem_map] at hg
    rcases hg with ⟨h, hh, rfl⟩ | ⟨h, hh, rfl⟩
    · exact mt List.map_eq_nil_iff.1 (ihl hh)
    · exact mt List.map_eq_nil_iff.1 (ihr hh)
  | case2 n hn =>
    rw [separateGroups.eq_2 n hn, List.mem_singleton] at hg
    rw [hg]
    exact n.paths_ne_nil

theorem groups_ne_nil {aggregate : Bool} {g : List Path} (hg : g ∈ n.groups aggregate) : g ≠ [] := by
  cases aggregate with
  | true =>
    rw [List.mem_singleton.1 hg]
    exact n.paths_ne_nil
  | false => exact separateGroups_ne_nil hg

theorem exists_group_combination {l r : Node} {marks : Marks} {ps : List Node} {P : List Path → Prop} :
    (∃ g ∈ (combination .syntheticAnd l r marks ps).separateGroups, P g) ↔
      (∃ g ∈ l.separateGroups, P (g.map (Side.left :: ·))) ∨ ∃ g ∈ r.separateGroups, P (g.map (Side.right :: ·)) := by
  rw [separateGroups]
  simp only [List.mem_append, List.mem_map, or_and_right, exists_or, exists_exists_and_eq_and]

/-- The node at the address is a synthetic conjunction. -/
def JoinsAt (n : Node) (a : Path) : Prop := (n.get? a).bind operator? = some .syntheticAnd

theorem joinsAt_below {s : Side} {a : Path} (hchild : n.child? s = some m) : n.JoinsAt (s :: a) ↔ m.JoinsAt a := by
  rw [JoinsAt, get?, hchild]
  rfl

/-- Below a synthetic conjunction, only the nodes of the one side matter. -/
theorem exists_common_below {s : Side} (hroot : n.JoinsAt []) (hchild : n.child? s = some m) :
    (∃ a, a <+: s :: p ∧ a <+: s :: q ∧ ¬ n.JoinsAt a) ↔ ∃ a, a <+: p ∧ a <+: q ∧ ¬ m.JoinsAt a := by
  constructor
  · rintro ⟨a, hp, hq, ha⟩
    cases a with
    | nil => exact absurd hroot ha
    | cons t a =>
      obtain ⟨rfl, hap⟩ := List.cons_prefix_cons.1 hp
      exact ⟨a, hap, (List.cons_prefix_cons.1 hq).2, mt (joinsAt_below hchild).2 ha⟩
  · rintro ⟨a, hp, hq, ha⟩
    exact ⟨s :: a, List.cons_prefix_cons.2 ⟨rfl, hp⟩, List.cons_prefix_cons.2 ⟨rfl, hq⟩, mt (joinsAt_below hchild).1 ha⟩

/-- Two leaves are in one group if one of their common ancestors is no synthetic conjunction. -/
theorem together_iff (hp : p ∈ n.paths) (hq : q ∈ n.paths) :
    (∃ g ∈ n.separateGroups, p ∈ g ∧ q ∈ g) ↔ ∃ a, a <+: p ∧ a <+: q ∧ ¬ n.JoinsAt a := by
  induction n using separateGroups.induct generalizing p q with
  | case1 l r m ps ihl ihr =>
    have hroot : (combination .syntheticAnd l r m ps).JoinsAt [] := rfl
    -- leaves on two sides have the root alone in common
    have hbeside : ∀ {s t : Side} {x y : Path}, s ≠ t →
        ¬ ∃ a, a <+: s :: x ∧ a <+: t :: y ∧ ¬ (combination .syntheticAnd l r m ps).JoinsAt a := by
      rintro s t x y hst ⟨a, hx, hy, ha⟩
      have hmeet := Path.prefix_meet_iff.2 ⟨hx, hy⟩
      rw [Path.meet, if_neg hst, List.prefix_nil] at hmeet
      rw [hmeet] at ha
      exact ha hroot
    rw [exists_group_combination]
    rcases mem_paths_combination.1 hp with ⟨x, hx, rfl⟩ | ⟨x, hx, rfl⟩ <;>
      rcases mem_paths_combination.1 hq with ⟨y, hy, rfl⟩ | ⟨y, hy, rfl⟩
    · rw [exists_common_below hroot rfl, ← ihl hx hy]
      simp
    · refine iff_of_false ?_ (hbeside nofun)
      simp
    · refine iff_of_false ?_ (hbeside nofun)
      simp
    · rw [exists_common_below hroot rfl, ← ihr hx hy]
      simp
  | case2 n hn =>
    rw [separateGroups.eq_2 n hn]
    refine iff_of_true ⟨n.paths, List.mem_singleton_self _, hp, hq⟩ ⟨[], List.nil_prefix, List.nil_prefix, ?_⟩
    intro hroot
    cases n with
    | leaf => cases hroot
    | combination o l r m ps =>
      obtain rfl : o = .syntheticAnd := Option.some.inj hroot
      exact hn l r m ps rfl

/-- The leaves of a tree from left to right, each once, are what the groups hold, whichever way they are made, and no
    group is empty. Where the synthetic conjunction separates them, two leaves are in different groups if their lowest
    common ancestor and all nodes above it are synthetic conjunctions. -/
theorem groups_agree (n : Node) :
    (n.groups false).flatten = n.paths ∧ (n.groups true).flatten = n.paths ∧
    (∀ p, p ∈ n.paths ↔ ∃ leaf, n.get? p = some leaf ∧ leaf.isLeaf = true) ∧ n.paths.Nodup ∧
    n.paths.Pairwise Path.Before ∧ (∀ aggregate, ∀ g ∈ n.groups aggregate, g ≠ []) ∧
    ∀ p ∈ n.paths, ∀ q ∈ n.paths,
      (Path.Separated (n.groups false) p q ↔ ∀ a, a <+: p.meet q → (n.get? a).bind operator? = some .syntheticAnd) := by
  refine ⟨n.flatten_groups false, n.flatten_groups true, fun p => mem_paths_iff, n.nodup_paths, n.pairwise_paths,
    fun aggregate g => groups_ne_nil, ?_⟩
  intro p hp q hq
  have hflatten := n.flatten_groups false
  rw [Path.separated_iff (hflatten ▸ n.nodup_paths) (hflatten ▸ hp) (hflatten ▸ hq)]
  refine (not_congr (together_iff hp hq)).trans ?_
  constructor
  · intro hnone a ha
    by_contra hjoins
    obtain ⟨hap, haq⟩ := Path.prefix_meet_iff.1 ha
    exact hnone ⟨a, hap, haq, hjoins⟩
  · rintro hall ⟨a, hap, haq, hjoins⟩
    exact hjoins (hall a (Path.prefix_meet_iff.2 ⟨hap, haq⟩))

/-- An explicit conjunction and a leaf, joined by the synthetic one. -/
example : (combination .syntheticAnd (combination .and empty empty {} []) empty {} []).groups false =
    [[[.left, .left], [.left, .right]], [[.right]]] := rfl

end Node

end InstitutionalGrammar
