/-
  InstitutionalGrammar.Proofs.Depth.Bounds — the limit bounds the result.

  Two budgets start from the limit: each statement is read with one less than the one around it, and
  each operand is built with one less than its combination. Neither is spent on the synthetic
  conjunction, and no pass over a statement adds to a depth: taking over slots, linking and dropping
  put nothing deeper than it was.
  - `within_nesting`: statements inside one another.
  - `treeWithin_low`, `within_low`: written combinations inside one another.
  - `parse_nesting`: both, in every result.
-/

import Mathlib.Data.List.MinMax
import Mathlib.Order.Nat
import InstitutionalGrammar.Proofs.Ownership.Pairs

namespace InstitutionalGrammar

open Statement Node

variable {options : Options} {s t outer : Statement} {text raw : Text} {out n m : Node} {bound : Nat}

/-! ## Statements inside one another -/

mutual

/-- A tree is one level deeper than the statements in it. -/
theorem Node.nesting_le_of : ∀ n : Node, (∀ u ∈ n.statements, u.nesting < bound) → n.nesting ≤ bound
  | .leaf e _ ps, h => by
    simp only [Node.statements, List.mem_append] at h
    exact Nat.max_le.2 ⟨Entry.nesting_le_of e fun u hu => h u (Or.inl hu), nestingAll_le_of ps fun u hu => h u (Or.inr hu)⟩
  | .combination _ l r _ ps, h => by
    simp only [Node.statements, List.mem_append] at h
    refine Nat.max_le.2 ⟨Nat.max_le.2 ⟨?_, ?_⟩, ?_⟩
    · exact Node.nesting_le_of l fun u hu => h u (Or.inl (Or.inl hu))
    · exact Node.nesting_le_of r fun u hu => h u (Or.inl (Or.inr hu))
    · exact nestingAll_le_of ps fun u hu => h u (Or.inr hu)
termination_by structural n => n

theorem Entry.nesting_le_of : ∀ e : Entry, (∀ u ∈ e.statements, u.nesting < bound) → e.nesting ≤ bound
  | .empty, _ => Nat.zero_le _
  | .text _, _ => Nat.zero_le _
  | .nested s, h => h s (mem_statements_self s)
  | .group ns, h => nestingAll_le_of ns h
termination_by structural e => e

theorem nestingAll_le_of : ∀ ns : List Node, (∀ u ∈ statementsAll ns, u.nesting < bound) → nestingAll ns ≤ bound
  | [], _ => Nat.zero_le _
  | n :: ns, h => by
    simp only [statementsAll, List.mem_append] at h
    exact Nat.max_le.2 ⟨Node.nesting_le_of n fun u hu => h u (Or.inl hu), nestingAll_le_of ns fun u hu => h u (Or.inr hu)⟩
termination_by structural ns => ns

end

/-- A statement is as deep as its deepest slot. -/
theorem Statement.nesting_le_of (h : ∀ slot n, s.get slot = some n → n.nesting ≤ bound) : s.nesting ≤ bound := by
  obtain ⟨slots⟩ := s
  rw [Statement.nesting]
  refine List.max_le_of_forall_le _ bound fun k hk => ?_
  obtain ⟨slot, -, rfl⟩ := List.mem_map.1 hk
  cases hn : slots slot with
  | none => exact Nat.zero_le _
  | some n => exact h slot n hn

theorem Statement.Formed.nesting_le (hs : s.Formed (·.nesting < bound)) : s.nesting ≤ bound :=
  Statement.nesting_le_of fun slot n hn => n.nesting_le_of (hs slot n hn).inside

namespace Reading

/-- What is read with a budget nests less deep than that. -/
theorem within_nesting (options : Options) (budget : Nat) :
    Reads (Entry.Read (·.nesting < budget)) (within options budget) := by
  refine within_meets (P := fun budget _ s => s.nesting < budget) (fun _ _ _ _ _ hs => Nat.lt_succ_of_lt hs)
    (fun budget text out hread hout s hs _ => ?_) budget
  obtain ⟨s', he, hs'⟩ := ((step_meets fun inner _ => hread inner).value hout).built.leaf hs
  cases he
  exact Nat.lt_succ_of_le hs'.nesting_le

end Reading

/-! ## Written combinations inside one another -/

/-- The most combinations under written operators on a way from the root to a leaf. -/
def Node.writtenHeight : Node → Nat
  | .leaf .. => 0
  | .combination o l r _ _ => max l.writtenHeight r.writtenHeight + if o.isSynthetic then 0 else 1

namespace Node

theorem writtenHeight_withMarks (marks : Marks) (n : Node) : (n.withMarks marks).writtenHeight = n.writtenHeight := by
  cases n <;> rfl

theorem writtenHeight_grow (more : Path → List Node) (n : Node) : (n.grow more).writtenHeight = n.writtenHeight := by
  induction n generalizing more with
  | leaf => rfl
  | combination o l r m p ihl ihr => rw [grow, writtenHeight, writtenHeight, ihl, ihr]

theorem writtenHeight_moveUp (marks : Marks) (privates : List Node) (n : Node) :
    (n.moveUp marks privates).writtenHeight = n.writtenHeight := by
  cases n <;> rfl

theorem writtenHeight_without {path : Path} (h : Without path n m) : m.writtenHeight ≤ n.writtenHeight := by
  induction h with
  | left o l r marks ps =>
    rw [writtenHeight_moveUp, writtenHeight]
    omega
  | right o l r marks ps =>
    rw [writtenHeight_moveUp, writtenHeight]
    omega
  | inLeft o r marks ps hl ih =>
    rw [writtenHeight, writtenHeight]
    omega
  | inRight o l marks ps hr ih =>
    rw [writtenHeight, writtenHeight]
    omega

theorem Pruned.writtenHeight_le (h : n.Pruned m) : m.writtenHeight ≤ n.writtenHeight := by
  induction h with
  | refl => exact Nat.le_refl _
  | tail _ hstep ih =>
    obtain ⟨path, hpath⟩ := hstep
    exact Nat.le_trans (writtenHeight_without (without_of_eq hpath)) ih

theorem combine_writtenHeight {o : Operator} {l r : Node} (h : combine o l r = .ok n) :
    n.writtenHeight = max l.writtenHeight r.writtenHeight + if o.isSynthetic then 0 else 1 := by
  obtain ⟨component, rfl⟩ := combine_eq h
  rfl

/-- The synthetic conjunction adds nothing. -/
theorem combine_low {l r : Node} (hl : l.writtenHeight ≤ bound) (hr : r.writtenHeight ≤ bound) :
    Meets (fun _ => True) (·.writtenHeight ≤ bound) (combine .syntheticAnd l r) := by
  refine .of_ok fun n hn => ?_
  rw [combine_writtenHeight hn]
  exact Nat.max_le.2 ⟨hl, hr⟩

end Node

/-! ### Building -/

section Building

variable {d : Delimiters} {build : Text → Outcome Node} (hbuild : ∀ t n, build t = .ok n → n.writtenHeight < bound)
include hbuild

theorem combinationOf_low {table : SpanTable} {earlier later : List Span} {span : Span} {o : PlacedOperator}
    (h : combinationOf build table earlier span o later = .ok n) : n.writtenHeight ≤ bound := by
  obtain ⟨left, right, -, -, l, r, component, -, -, hl, hr, -, -, rfl⟩ := combinationOf_eq_ok h
  have hleft := hbuild left l hl
  have hright := hbuild right r hr
  rw [writtenHeight]
  split <;> omega

omit hbuild in
theorem leafOf_low (h : leafOf d text = .ok n) : n.writtenHeight ≤ bound := by
  obtain ⟨v, rfl, -⟩ := (leafOf_meets d text).value h
  exact Nat.zero_le bound

theorem treeStep_low (h : treeStep d build text = .ok n) : n.writtenHeight ≤ bound := by
  have htree : Meets (fun _ => True) (·.writtenHeight ≤ bound) (treeStep d build text) := by
    refine Meets.tree (T := fun _ => True) (.of_ok fun _ _ => trivial) ?_ ?_ ?_ fun n (hn : n.writtenHeight ≤ bound) => hn
    · exact fun table _ _ => .of_ok fun n hn => leafOf_low hn
    · exact fun table _ _ earlier s o later _ _ => .of_ok fun n hn => combinationOf_low hbuild hn
    · exact fun l r hl hr => combine_low hl hr
  exact htree.value h

end Building

/-- A tree built with a budget is lower than that. -/
theorem treeWithin_low {d : Delimiters} {limit budget : Nat} (h : treeWithin d limit budget text = .ok n) :
    n.writtenHeight < budget := by
  induction budget generalizing text n with
  | zero => cases h
  | succ budget ih => exact Nat.lt_succ_of_le (treeStep_low (fun t n hn => ih hn) h)

theorem occurrenceTrees_low {limit : Nat} {seen : List Text} {os : List Occurrence} {ns : List Node}
    (h : occurrenceTrees limit seen os = .ok ns) : ∀ n ∈ ns, n.writtenHeight ≤ limit := by
  induction os generalizing seen ns with
  | nil =>
    cases h
    exact nofun
  | cons o os ih =>
    rw [occurrenceTrees] at h
    split at h
    · cases h
    · obtain ⟨n, hn, h⟩ := bind_eq_ok.1 h
      obtain ⟨rest, hrest, h⟩ := bind_eq_ok.1 h
      cases h
      intro x hx
      rcases List.mem_cons.1 hx with rfl | hx
      · obtain ⟨tree, htree, he⟩ := bind_eq_ok.1 hn
        cases he
        show (tree.withMarks _).writtenHeight ≤ limit
        rw [writtenHeight_withMarks]
        exact Nat.le_of_lt_succ (treeWithin_low htree)
      · exact ih hrest x hx

theorem componentTree_low {limit : Nat} {c : Component} (h : componentTree limit c text = .ok n) :
    n.writtenHeight ≤ limit := by
  unfold componentTree at h
  obtain ⟨os, -, h⟩ := bind_eq_ok.1 h
  obtain ⟨ns, hns, h⟩ := bind_eq_ok.1 h
  obtain ⟨found, hfound, h⟩ := bind_eq_ok.1 h
  split at h
  · cases h
  · cases h
    rw [withComponent, writtenHeight_withMarks]
    exact ((Meets.fold? (fun _ _ => combine_low) (occurrenceTrees_low hns)).value (liftM_eq_ok.1 hfound)).1 _ rfl

/-! ### Statements -/

/-- No simple slot holds a tree with more written combinations inside one another. -/
def Statement.Low (bound : Nat) (s : Statement) : Prop :=
  ∀ c n, s.get (.simple c) = some n → n.writtenHeight ≤ bound

namespace Statement.Low

theorem linking {kind : SlotKind} (hs : s.Low bound) (h : Linking kind s t) : t.Low bound := by
  intro c n hn
  rcases h.slot_cases (.simple c) with ⟨property, hp⟩ | ⟨d, hd, hk⟩ | hsame
  · obtain ⟨m, more, hm, rfl, -⟩ := h.grown hp hn
    rw [writtenHeight_grow]
    exact hs c m hm
  · obtain ⟨m, hm, hpruned⟩ := h.rest hd hk hn
    exact Nat.le_trans hpruned.writtenHeight_le (hs c m hm)
  · exact hs c n (hsame ▸ hn)

theorem erasing {erased : Component → SlotKind → Text → Prop} (hs : s.Low bound) (h : Erasing erased s t) :
    t.Low bound := by
  intro c n hn
  obtain ⟨m, hm, hpruned⟩ := h.pruned _ n hn
  exact Nat.le_trans hpruned.writtenHeight_le (hs c m hm)

theorem union (hs : s.Low bound) (ho : outer.Low bound) : (s.union outer).Low bound := by
  intro c n hn
  rcases get_union hn with hn | hn
  · exact hs c n hn
  · exact ho c n hn

theorem linked {kind : SlotKind} (hs : s.Low bound) (hkeyed : s.Keyed) (h : Reading.linked options kind s = .ok t) :
    t.Low bound := by
  by_cases hlinks : options.linksProperties = true
  · exact hs.linking (Reading.linked_linking hlinks hkeyed h)
  · unfold Reading.linked at h
    rw [if_neg hlinks] at h
    cases h
    exact hs

theorem inheritOuter (hs : s.Low bound) (ho : outer.Low bound) (hsound : s.Sound) (hosound : outer.Sound)
    (h : inheritOuter options outer raw s = .ok t) : t.Low bound ∧ t.Keyed := by
  have hkeyed := (hsound.union hosound).keyed
  by_cases hlinks : options.linksProperties = true
  · obtain ⟨u, hu, ht⟩ := inheritOuter_linking hlinks hsound hosound h
    exact ⟨((hs.union ho).linking hu).linking ht, ht.keyed (hu.keyed hkeyed)⟩
  · rw [inheritOuter_union (by simpa using hlinks) h]
    exact ⟨hs.union ho, hkeyed⟩

end Statement.Low

namespace Reading

theorem atomicStatement_low {limit : Nat} {atomic : Text} (h : atomicStatement limit atomic = .ok s) : s.Low limit := by
  unfold atomicStatement at h
  have hempty : Statement.empty.Low limit := by
    intro c n hn
    cases hn
  refine foldlM_keeps (P := Statement.Low limit) (fun c _ s t hs ht => ?_) hempty h
  obtain ⟨found, hfound, ht⟩ := bind_eq_ok.1 ht
  cases found with
  | none =>
    cases ht
    exact hs
  | some tree =>
    cases ht
    intro d n hn
    rw [Statement.get_put] at hn
    split at hn
    · cases hn
      unfold componentTree? at hfound
      split at hfound
      · rename_i hfound'
        cases hfound
        exact componentTree_low hfound'
      · cases hfound
      · cases hfound
    · exact hs d n hn

/-- What a text yields is low, if what the texts inside it yield is: elements of a pair take over slots
    that are low. -/
theorem step_low {budget : Nat} (hread : Reads (Entry.Read (Statement.Low options.depthLimit)) (within options budget))
    (h : (step options (within options budget) text).result = .ok out) :
    ∀ s ∈ out.leaves.filterMap statement?, s.Low options.depthLimit := by
  intro s hs
  obtain ⟨outline, a, d, u, outer, -, hpasses, -, hout⟩ := step_passes h
  have hdrafted : d.Low options.depthLimit :=
    (atomicStatement_low hpasses.atomic).linked hpasses.formed.sound.keyed hpasses.simplePass
  have hnested : u.Low options.depthLimit := fun c n hn => hdrafted c n (hpasses.nested.simple c ▸ hn)
  have houter : outer.Low options.depthLimit := hnested.linked hpasses.filled.sound.keyed hpasses.complexPass
  rcases output_cases hout with ⟨-, rfl⟩ | ⟨raw, tree, -, hpair⟩
  · obtain rfl := mem_leaves_nested.1 hs
    exact houter
  · obtain ⟨path, m, p, hget⟩ := get?_of_mem_leaves hs
    obtain ⟨_, leaf, elements, place, e, v, -, -, -, helements, hplace, hinherit, -, herase⟩ :=
      pairOutput_origin hpair hget
    obtain ⟨heformed, helow⟩ := (((hread _).value helements).built.get? hplace).nested
    obtain ⟨hvlow, hvkeyed⟩ := helow.inheritOuter houter heformed.sound hpasses.sound hinherit
    obtain ⟨erased, herasing⟩ := herase hvkeyed
    exact hvlow.erasing herasing

theorem within_low (options : Options) (budget : Nat) :
    Reads (Entry.Read (Statement.Low options.depthLimit)) (within options budget) :=
  within_reads (fun _ _ _ hread hout s hs _ => step_low hread hout s hs) budget

end Reading

/-- No output statement has more statements inside one another than the limit says, and no tree in a
    simple slot, in whatever statement of the result, has more written combinations on any way down. -/
theorem parse_nesting {parsed : Parsed} (h : parse options text = .ok parsed) :
    (∀ s ∈ parsed.statements, s.nesting ≤ options.depthLimit) ∧
    ∀ s ∈ parsed.tree.statements, ∀ c n, s.get (.simple c) = some n → n.writtenHeight ≤ options.depthLimit := by
  have hresult := Reading.step_of_parse h
  constructor
  · intro s hs
    have htree := (Reading.within_nesting options (options.depthLimit + 1) text).value hresult
    exact Nat.le_of_lt_succ (htree.built.leaf hs).nested.2
  · intro s hs
    have htree := (Reading.within_low options (options.depthLimit + 1) text).value hresult
    obtain ⟨e, he, hs⟩ := htree.built.statements hs
    exact he.statements s hs

/-- Two statements inside one another and two combinations inside one another: no smaller limit would do. -/
def twoDeep : Text := "A((a [AND] b) [OR] c) Cac{I(x) Cac{I(y)}}".toList

theorem parse_nesting_twoDeep : ∃ parsed, parse { depthLimit := 2 } twoDeep = .ok parsed ∧
    (∀ s ∈ parsed.statements, s.nesting ≤ 2) ∧
    ∀ s ∈ parsed.tree.statements, ∀ c n, s.get (.simple c) = some n → n.writtenHeight ≤ 2 := by
  obtain ⟨parsed, hparsed, -⟩ := exists_ok (x := parse { depthLimit := 2 } twoDeep) (p := fun _ => true)
    (by decide +kernel)
  exact ⟨parsed, hparsed, parse_nesting hparsed⟩

end InstitutionalGrammar
