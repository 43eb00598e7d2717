/-
  InstitutionalGrammar.Proofs.Combination.InOrder — what is read off a tree from left to right.

  A tree is read in the order of its text: what a node shares to the left, its leaf or its two sides with the
  operator between them, what it shares to the right. A combination gives what the stretch of text gives that it
  accounts for, if its operands do; the combinations of a level account for stretches that stand one behind another.
  - `Node.inOrder`, `Node.operators`: the text and the operators of a tree.
  - `combinationOf_reads`, `combinationsOf_reads`: one combination, and those of a level.
-/

import InstitutionalGrammar.Proofs.Combination.Extents
import InstitutionalGrammar.Proofs.Combination.Scopes

namespace InstitutionalGrammar

variable {α β : Type}

/-! ## Trees in order -/

namespace Node

/-- What `word` reads off the texts of the tree and `sign` off its written operators, from left to right. -/
def read (word : Text → List α) (sign : Operator → List α) : Node → List α
  | .leaf (.text v) m _ => m.sharedLeft.flatMap word ++ (word v ++ m.sharedRight.flatMap word)
  | .leaf _ m _ => m.sharedLeft.flatMap word ++ m.sharedRight.flatMap word
  | .combination o l r m _ =>
    m.sharedLeft.flatMap word ++ ((l.read word sign ++ ((if o.isSynthetic then [] else sign o) ++ r.read word sign)) ++
      m.sharedRight.flatMap word)

/-- The texts and operator tokens of the tree; the synthetic conjunction has no token. -/
def inOrder : Node → Text := read id Operator.token

/-- The written operators of the combinations. -/
def operators : Node → List Operator := read (fun _ => []) ([·])

variable {word : Text → List α} {sign : Operator → List α}

/-- Reading on in what is read. -/
theorem map_read {f : List α → List β} (hnil : f [] = []) (happend : ∀ a b, f (a ++ b) = f a ++ f b)
    (word : Text → List α) (sign : Operator → List α) (n : Node) :
    f (n.read word sign) = n.read (fun t => f (word t)) (fun o => f (sign o)) := by
  have hwords : ∀ ts : List Text, f (ts.flatMap word) = ts.flatMap fun t => f (word t) := by
    intro ts
    induction ts with
    | nil => exact hnil
    | cons t ts ih => rw [List.flatMap_cons, List.flatMap_cons, happend, ih]
  fun_induction read word sign n with
  | case1 v m p => simp only [read, happend, hwords]
  | case2 e m p he => 
    rw [read, happend, hwords, hwords]
    exact he
  | case3 o l r m p ihl ihr =>
    simp only [read, happend, hwords, ihl, ihr]
    split <;> simp [hnil]

/-- Reading what is the same. -/
theorem read_congr {word' : Text → List α} {sign' : Operator → List α} (hword : ∀ t, word t = word' t)
    (hsign : ∀ o : Operator, o.isSynthetic = false → sign o = sign' o) (n : Node) :
    n.read word sign = n.read word' sign' := by
  obtain rfl : word = word' := funext hword
  fun_induction read word sign n with
  | case1 v m p => rfl
  | case2 e m p he =>
    rw [read]
    exact he
  | case3 o l r m p ihl ihr =>
    rw [read, ihl, ihr]
    split
    · rfl
    · rename_i ho
      rw [hsign o (by simpa using ho)]

/-- Synthetic conjunctions add nothing. -/
theorem read_foldlM {first tree : Node} {ns : List Node} (h : ns.foldlM (combine .syntheticAnd) first = .ok tree) :
    tree.read word sign = (first :: ns).flatMap (read word sign) := by
  induction ns generalizing first with
  | nil =>
    cases h
    simp
  | cons n ns ih =>
    rw [List.foldlM_cons] at h
    obtain ⟨both, hboth, h⟩ := bind_eq_ok.1 h
    obtain ⟨component, rfl⟩ := combine_eq hboth
    rw [ih h]
    simp [read, Operator.isSynthetic]

theorem read_fold? {tree : Node} {ns : List Node} (h : fold? .syntheticAnd ns = .ok (some tree)) :
    tree.read word sign = ns.flatMap (read word sign) := by
  cases ns with
  | nil => cases h
  | cons n ns => exact read_foldlM (fold?_cons h)

end Node

/-! ## One combination -/

/-- What is read of a text in a tree: all of it, or nothing if only operators are. -/
def counted (words : Bool) (t : Text) : Text := if words then t else []

/-- The traces of what is read of the tree. -/
def Node.given (μ : Text → List α) (words : Bool) : Node → List α :=
  read (fun t => μ (counted words t)) fun o => μ o.token

namespace SpanTable

/-- Where the stretch starts that a combination accounts for: its share, or only its span if texts are not read. -/
def stretchStart (table : SpanTable) (words : Bool) (earlier : List Span) (s : Span) : Nat :=
  if words then table.shareStart earlier s else s.left

def stretchStop (table : SpanTable) (words : Bool) (s : Span) (later : List Span) : Nat :=
  if words then table.shareStop s later else s.right + 1

/-- The part is an operand of the combination. -/
def Operand (table : SpanTable) (s : Span) (part : Text) : Prop :=
  ∃ o, s.operator = some o ∧
    (table.input.slice (s.left + 1) o.start = .ok part ∨ table.input.slice o.stop s.right = .ok part)

end SpanTable

variable {d : Delimiters} {build : Text → Outcome Node} {table : SpanTable} {s : Span} {o : PlacedOperator}
  {earlier later spans : List Span} {n : Node} {ns : List Node} {μ : Text → List α} {words : Bool} {Q : Text → Prop}
  {p q t text : Text} {i j k : Nat}

namespace Trace

variable (hμ : Trace isGap μ)
include hμ

theorem counted_shared? (words : Bool) (t : Text) :
    (InstitutionalGrammar.shared? t).toList.flatMap (fun u => μ (counted words u)) = μ (counted words t) := by
  cases words with
  | true => exact hμ.shared? (fun c hc => by simp [isGap, hc]) t
  | false =>
    show (InstitutionalGrammar.shared? t).toList.flatMap (fun _ => μ []) = μ []
    simp [hμ.nil]

/-- A span in delimiters, between other text. -/
theorem around_span (d : Delimiters) {o : Operator} (ho : o.isSynthetic = false) (a l r b : Text) :
    μ (a ++ d.opening :: (l ++ (o.token ++ (r ++ d.closing :: b)))) = μ a ++ ((μ l ++ (μ o.token ++ μ r)) ++ μ b) := by
  rw [hμ.around _ _ (isGap_opening d), hμ.operator _ _ ho, hμ.around _ _ (isGap_closing d)]
  simp

end Trace

/-- The text of the stretch that a combination accounts for. -/
theorem Span.Parts.slice_stretch {a l r b before after : Text} (h : s.Parts d table.input o a l r b)
    (hbefore : table.input.slice (table.shareStart earlier s) s.left = .ok before)
    (hafter : table.input.slice (s.right + 1) (table.shareStop s later) = .ok after) (words : Bool) :
    table.input.slice (table.stretchStart words earlier s) (table.stretchStop words s later) =
      .ok (counted words before ++ d.opening :: (l ++ (o.operator.token ++ (r ++ d.closing :: counted words after)))) := by
  have hopening := Delimiters.utf8Size_opening d
  have hclosing := Delimiters.utf8Size_closing d
  have hspan : table.input.At s.left (d.opening :: (l ++ (o.operator.token ++ (r ++ [d.closing])))) :=
    ⟨a, b, by rw [h.stands]; simp, h.opens⟩
  have hsize : s.left + Text.size (d.opening :: (l ++ (o.operator.token ++ (r ++ [d.closing])))) = s.right + 1 := by
    have hreaches := h.reaches
    have hleaves := h.leaves
    have hcloses := h.closes
    simp only [Text.size_append, Text.size_cons, Text.size_nil]
    omega
  cases words with
  | false => exact Text.slice_eq_ok.2 ⟨hspan, hsize⟩
  | true =>
    obtain ⟨hbefore, hstart⟩ := Text.slice_eq_ok.1 hbefore
    obtain ⟨hafter, hstop⟩ := Text.slice_eq_ok.1 hafter
    rw [← hsize] at hafter hstop
    rw [← hstart] at hspan
    have hall := hbefore.append (hspan.append (by rwa [hstart]))
    refine Text.slice_eq_ok.2 ⟨by simpa [counted, SpanTable.stretchStart] using hall, ?_⟩
    simp only [counted, SpanTable.stretchStart, SpanTable.stretchStop, Text.size_append, Text.size_cons, Text.size_nil,
      if_true] at hstop hstart ⊢
    omega

/-- A combination gives no more than its stretch, and all of it if its operands give all of theirs. -/
theorem combinationOf_reads (hμ : Trace isGap μ) (hs : s.Sound d table.input) (ho : s.operator = some o)
    (hbuild : ∀ part n, build part = .ok n →
      (n.given μ words).Sublist (μ part) ∧ (n.given μ words = μ part ↔ Q part))
    (h : combinationOf build table earlier s o later = .ok n) :
    ∃ p, table.input.slice (table.stretchStart words earlier s) (table.stretchStop words s later) = .ok p ∧
      (n.given μ words).Sublist (μ p) ∧ (n.given μ words = μ p ↔ ∀ part, table.Operand s part → Q part) := by
  obtain ⟨a, left, right, b, hparts⟩ := hs.parts ho
  obtain ⟨left', right', before, after, l, r, component, hleft, hright, hl, hr, hbefore, hafter, rfl⟩ :=
    combinationOf_shares hs h
  cases hparts.slice_left.symm.trans hleft
  cases hparts.slice_right.symm.trans hright
  obtain ⟨hlsub, hliff⟩ := hbuild left l hl
  obtain ⟨hrsub, hriff⟩ := hbuild right r hr
  refine ⟨_, hparts.slice_stretch hbefore hafter words, ?_⟩
  have hgiven : Node.given μ words (.combination o.operator l r
      { component, sharedLeft := (shared? before).toList, sharedRight := (shared? after).toList } []) =
      μ (counted words before) ++ ((l.given μ words ++ (μ o.operator.token ++ r.given μ words)) ++ μ (counted words after)) := by
    rw [Node.given, Node.read, hμ.counted_shared?, hμ.counted_shared?, hparts.written]
    rfl
  rw [hgiven, hμ.around_span d hparts.written]
  constructor
  · exact (((hlsub.append (hrsub.append_left _)).append_right _).append_left _)
  · rw [List.append_cancel_left_eq, List.append_cancel_right_eq,
      append_eq_append_iff_of_sublist hlsub (hrsub.append_left _), List.append_cancel_left_eq, hliff, hriff]
    constructor
    · rintro ⟨hql, hqr⟩ part ⟨o', ho', hpart⟩
      cases ho.symm.trans ho'
      rcases hpart with hpart | hpart
      · cases hleft.symm.trans hpart
        exact hql
      · cases hright.symm.trans hpart
        exact hqr
    · exact fun hall => ⟨hall left ⟨o, ho, Or.inl hleft⟩, hall right ⟨o, ho, Or.inr hright⟩⟩

/-! ## One level -/

namespace SpanTable

/-- Traces fall apart at the delimiters of a span, and at both ends of its scope. -/
theorem Sound.joints (hμ : Trace isGap μ) (h : table.Sound d) (hs : s ∈ table.spans) :
    Joint μ table.input s.left ∧ Joint μ table.input (s.right + 1) ∧ Joint μ table.input (table.scope s).1 ∧
      Joint μ table.input (table.scope s).2 := by
  have hbefore : ∀ {x : Span}, x ∈ table.spans →
      Joint μ table.input x.left ∧ Joint μ table.input (x.left + 1) ∧ Joint μ table.input x.right ∧
        Joint μ table.input (x.right + 1) := by
    intro x hx
    have hopens := (h.spans x hx).opens
    have hcloses := (h.spans x hx).closes
    have hopening := hμ.joint_after (isGap_opening d) hopens
    have hclosing := hμ.joint_after (isGap_closing d) hcloses
    rw [Delimiters.utf8Size_opening] at hopening
    rw [Delimiters.utf8Size_closing] at hclosing
    exact ⟨hμ.joint_before (isGap_opening d) hopens, hopening, hμ.joint_before (isGap_closing d) hcloses, hclosing⟩
  obtain ⟨hleft, -, -, hright⟩ := hbefore hs
  refine ⟨hleft, hright, ?_⟩
  unfold SpanTable.scope
  split
  · rename_i outer houter
    obtain ⟨-, hinside, hinside', -⟩ := hbefore (List.mem_filter.1 (List.mem_of_find?_eq_some houter)).1
    exact ⟨hinside, hinside'⟩
  · exact ⟨hμ.joint_zero _, hμ.joint_size _⟩

/-- The stretches of a level. -/
def stretches (table : SpanTable) (words : Bool) (earlier spans : List Span) : List (Nat × Nat) :=
  if words then table.shares earlier spans else spans.map fun s => (s.left, s.right + 1)

theorem stretches_cons : table.stretches words earlier (s :: later) =
    (table.stretchStart words earlier s, table.stretchStop words s later) :: table.stretches words (s :: earlier) later := by
  cases words <;> rfl

theorem Sound.joint_stretch (hμ : Trace isGap μ) (h : table.Sound d) (hs : s ∈ table.spans)
    (hearlier : ∀ e ∈ earlier, e ∈ table.spans) (words : Bool) (later : List Span) :
    Joint μ table.input (table.stretchStart words earlier s) ∧ Joint μ table.input (table.stretchStop words s later) := by
  obtain ⟨hleft, hright, hfirst, hlast⟩ := h.joints hμ hs
  cases words with
  | false => exact ⟨hleft, hright⟩
  | true =>
    constructor
    · show Joint μ table.input (table.shareStart earlier s)
      unfold SpanTable.shareStart
      split
      · rename_i before hfind
        exact (h.joints hμ (hearlier before (List.mem_of_find?_eq_some hfind))).2.1
      · exact hfirst
    · show Joint μ table.input (table.shareStop s later)
      unfold SpanTable.shareStop
      split
      · exact hright
      · exact hlast

theorem Placed.stretch_order (h : table.Placed d) (hs : s ∈ table.spans) {e : Span} (he : e ∈ later) (hmem : e ∈ table.spans)
    (hlevel : s.level = e.level) (hbefore : s.right < e.left)
    (hearlier : ∀ x ∈ earlier, x ∈ table.spans ∧ x.right < e.left) :
    table.stretchStop words s later ≤ table.stretchStart words (s :: earlier) e := by
  cases words with
  | false => exact hbefore
  | true => exact h.share_order hs he hmem hlevel hbefore hearlier

end SpanTable

/-- What the combinations of a level give, each in its stretch. -/
theorem combinationsOf_reads (hμ : Trace isGap μ) (htable : table.Placed d) {level : Nat}
    (hspans : ∀ s ∈ spans, s ∈ table.spans ∧ s.isCombination = true ∧ s.level = level)
    (horder : spans.Pairwise fun before behind => before.right < behind.left)
    (hearlier : ∀ e ∈ earlier, e ∈ table.spans ∧ ∀ s ∈ spans, e.right < s.left)
    (hk : ∀ s ∈ spans, k ≤ table.stretchStart words earlier s)
    (hbuild : ∀ part n, build part = .ok n →
      (n.given μ words).Sublist (μ part) ∧ (n.given μ words = μ part ↔ Q part))
    (h : combinationsOf build table earlier spans = .ok ns) :
    ∃ es : List (Extent α), Extents μ table.input k es ∧ es.flatMap Extent.found = ns.flatMap (Node.given μ words) ∧
      es.map (fun e => (e.start, e.stop)) = table.stretches words earlier spans ∧
      ((∀ e ∈ es, ∀ p, table.input.slice e.start e.stop = .ok p → e.found = μ p) ↔
        ∀ s ∈ spans, ∀ part, table.Operand s part → Q part) := by
  induction spans generalizing earlier k ns with
  | nil =>
    cases h
    exact ⟨[], .nil, rfl, by cases words <;> rfl, by simp⟩
  | cons s later ih =>
    obtain ⟨hfirst, hrest⟩ := List.pairwise_cons.1 horder
    obtain ⟨⟨hs, hc, hlevel⟩, hlater⟩ := List.forall_mem_cons.1 hspans
    obtain ⟨o, ho⟩ := Option.isSome_iff_exists.1 hc
    rw [combinationsOf, ho] at h
    obtain ⟨n, hn, h⟩ := bind_eq_ok.1 h
    obtain ⟨rest, hns, h⟩ := bind_eq_ok.1 h
    cases h
    obtain ⟨p, hslice, hsub, hiff⟩ := combinationOf_reads hμ (htable.sound.spans s hs) ho hbuild hn
    obtain ⟨hstart, hstop⟩ := htable.sound.joint_stretch hμ hs (fun e he => (hearlier e he).1) words later
    have hpassed := SpanTable.passed_cons hs hfirst hearlier
    have hbehind : ∀ x ∈ later, table.stretchStop words s later ≤ table.stretchStart words (s :: earlier) x := by
      intro x hx
      obtain ⟨hmem, -, hlevel'⟩ := hlater x hx
      exact htable.stretch_order hs hx hmem (hlevel.trans hlevel'.symm) (hfirst x hx) fun e he =>
        ⟨(hearlier e he).1, (hearlier e he).2 x (List.mem_cons_of_mem _ hx)⟩
    obtain ⟨es, hes, hfound, hstretches, hall⟩ := ih hlater hrest hpassed hbehind hns
    refine ⟨⟨table.stretchStart words earlier s, table.stretchStop words s later, n.given μ words⟩ :: es,
      .cons (hk s List.mem_cons_self) hstart hstop hslice hsub hes, ?_, ?_, ?_⟩
    · rw [List.flatMap_cons, List.flatMap_cons, hfound]
    · rw [List.map_cons, hstretches, SpanTable.stretches_cons]
    · rw [List.forall_mem_cons, List.forall_mem_cons, hall, ← hiff]
      refine and_congr_left' ⟨fun hsame => hsame p hslice, fun hsame p' hslice' => ?_⟩
      cases hslice.symm.trans hslice'
      exact hsame

end InstitutionalGrammar
