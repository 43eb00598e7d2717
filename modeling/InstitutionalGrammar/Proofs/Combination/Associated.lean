/-
  InstitutionalGrammar.Proofs.Combination.Associated — one operator repeated between any operands.

  The operands of a chain can be put into normal form first. Then the sweep stops at the second operator, and what
  stands before it becomes one operand: the chain is a shorter one, whose first operand is a pair. So a chain is
  built from the left. It has a table only if its operands have, since what is wrong in an operand is wrong in the
  whole.
  - `builds_regrouped`: one round; `builds_strung`: all of them, by induction on the operands.
  - `exists_spanTable_of_chain`: operands of a chain that has a table.
  - `combinationTree_repeated`: the tree of a chain.
-/

import InstitutionalGrammar.Proofs.Combination.Chain
import InstitutionalGrammar.Proofs.Combination.Paired

namespace InstitutionalGrammar

open Delimiters (parentheses)

variable {a b l r v w w' x : Text} {o : Operator} {es xs : List Text} {tree : Node} {table : SpanTable}

/-! ## Chains -/

/-- The operands behind the first one, each directly behind the operator. -/
def strung (o : Operator) (es : List Text) : Text := es.flatMap (o.token ++ ·)

@[simp] theorem strung_nil (o : Operator) : strung o [] = [] := rfl

theorem strung_cons (o : Operator) (x : Text) (es : List Text) : strung o (x :: es) = o.token ++ (x ++ strung o es) := by
  simp [strung]

theorem strung_balanced (o : Operator) (hes : ∀ x ∈ es, ∀ e, Balanced e x) (e : Delimiters) : Balanced e (strung o es) := by
  induction es with
  | nil => exact .nil e
  | cons x es ih =>
    obtain ⟨hx, hes⟩ := List.forall_mem_cons.1 hes
    exact (Balanced.token_iff.2 (hx e)).append (ih hes)

/-- The operand behind the first one can be put into normal form. -/
theorem builds_replaced (ho : o.isSynthetic = false) (hl : Normal l) (h : spanTable parentheses x = .ok table) (hb : Loose b)
    (hbalanced : ∀ e, Balanced e (parentheses.opening :: (l ++ (o.token ++ (x ++ b))))) :
    (∀ e, Balanced e (parentheses.opening :: (l ++ (o.token ++ (table.input ++ b))))) ∧
      ∀ tree, Builds (parentheses.opening :: (l ++ (o.token ++ (x ++ b)))) tree ↔
        Builds (parentheses.opening :: (l ++ (o.token ++ (table.input ++ b)))) tree := by
  obtain ⟨closed, hswept, -⟩ := sweptTo_operator ho hl
  have hparts : ∀ t : Text,
      parentheses.opening :: (l ++ (o.token ++ (t ++ b))) = parentheses.opening :: (l ++ o.token) ++ (t ++ b) := by simp
  rw [hparts, hparts] at *
  obtain ⟨-, hbalanced', hsame⟩ := spanTable_replace h hswept ⟨(spanTable_settles h).1, nofun, hb⟩ hbalanced
  exact ⟨hbalanced', fun tree => Builds.congr hsame⟩

/-- One round: both operands of a repeated operator become the first one. -/
theorem builds_regrouped (ho : o.isSynthetic = false) (hl : Normal l) (hr : Normal r)
    (hbalanced : ∀ e, Balanced e (parentheses.opening :: (l ++ (o.token ++ (r ++ (o.token ++ v)))))) :
    (∀ e, Balanced e (parentheses.opening :: (paired o l r.trimEnd [' '] ++ (o.token ++ v)))) ∧
      (Builds (parentheses.opening :: (l ++ (o.token ++ (r ++ (o.token ++ v))))) tree ↔
        Builds (parentheses.opening :: (paired o l r.trimEnd [' '] ++ (o.token ++ v))) tree) := by
  obtain ⟨closed, hswept, -⟩ := sweptTo_operands ho hl hr
  have hsweep := sweep_repetition ((hswept (o.token ++ v) (loose_token ho v)).trans
    (sweepFrom_repeated (o := placedBehind l o) ho rfl (size_lead l o) hr.trim_ne_nil))
  have hregroup := regroup_parts parentheses [] (l ++ (o.token ++ r)) o v
  have htrim : Text.trimEnd (l ++ (o.token ++ r)) = l ++ (o.token ++ r.trimEnd) := by
    rw [← List.append_assoc, Text.trimEnd, Text.append_stripEnd (l ++ o.token) hr.filled, List.append_assoc]
    rfl
  have htext : [] ++ parentheses.opening :: (l ++ (o.token ++ r) ++ (o.token ++ v)) =
      parentheses.opening :: (l ++ (o.token ++ (r ++ (o.token ++ v)))) := by simp
  have hnext : regrouped parentheses [] (l ++ (o.token ++ r)) o v =
      parentheses.opening :: (paired o l r.trimEnd [' '] ++ (o.token ++ v)) := by
    rw [regrouped, htrim]
    simp [paired]
  have hsize : Text.size [] + 1 + Text.size (l ++ (o.token ++ r)) = Text.size (parentheses.opening :: (l ++ o.token) ++ r) := by
    rw [size_operands]
    simp only [Text.size_nil, Text.size_append, placedBehind]
    omega
  rw [htext, hnext, hsize] at hregroup
  obtain ⟨hbalanced', hsame⟩ := spanTable_again hbalanced hsweep hregroup
  exact ⟨hbalanced', Builds.congr hsame⟩

theorem chain_balanced (hl : ∀ e, Balanced e l) (hes : ∀ x ∈ es, ∀ e, Balanced e x) (o : Operator) (e : Delimiters) :
    Balanced e (parentheses.opening :: (l ++ (strung o es ++ [parentheses.closing]))) := by
  have hoperands := (hl e).append (strung_balanced o hes e)
  rw [← List.append_nil (l ++ strung o es)] at hoperands
  have hwrapped := Balanced.wrap_part (a := []) hoperands parentheses
  rwa [List.append_assoc] at hwrapped

theorem balanced_of_spanTable {d : Delimiters} (h : ∃ table, spanTable d x = .ok table) : ∀ e, Balanced e x := by
  obtain ⟨table, h⟩ := h
  exact (spanTable_settles h).1

/-- A chain behind an operand in normal form is built from its operands. -/
theorem builds_strung (ho : o.isSynthetic = false) (hl : Normal l) {e : Text}
    (hes : ∀ x ∈ e :: es, x.allBlank = false ∧ ∃ table, spanTable parentheses x = .ok table) :
    Builds (parentheses.opening :: (l ++ (strung o (e :: es) ++ [parentheses.closing]))) tree ↔
      ∃ n ns, Builds l n ∧ List.Forall₂ Builds (e :: es) ns ∧ tree = Node.joined o n ns := by
  induction es generalizing l e with
  | nil =>
    obtain ⟨hfilled, table, htable⟩ := hes e List.mem_cons_self
    obtain ⟨hr, hbuilds⟩ := exists_normal hfilled htable
    have hbalanced := chain_balanced hl.balanced (fun x hx => balanced_of_spanTable (hes x hx).2) o
    simp only [strung_cons, strung_nil, List.append_nil, List.append_assoc] at hbalanced ⊢
    rw [(builds_replaced ho hl htable (Sharp.closing parentheses _).loose hbalanced).2]
    show Builds (paired o l table.input []) tree ↔ _
    rw [builds_paired ho hl hr rfl]
    constructor
    · rintro ⟨n, m, hn, hm, rfl⟩
      exact ⟨n, [m], hn, .cons ((hbuilds m).1 hm) .nil, rfl⟩
    · rintro ⟨n, _, hn, hall, rfl⟩
      obtain ⟨m, _, hm, hnone, rfl⟩ := List.forall₂_cons_left_iff.1 hall
      cases hnone
      exact ⟨n, m, hn, (hbuilds m).2 hm, rfl⟩
  | cons f es ih =>
    obtain ⟨⟨hfilled, table, htable⟩, hrest⟩ := List.forall_mem_cons.1 hes
    obtain ⟨hr, hbuilds⟩ := exists_normal hfilled htable
    obtain ⟨hr', hbuilds'⟩ := hr.trimEnd
    have hbalanced := chain_balanced hl.balanced (fun x hx => balanced_of_spanTable (hes x hx).2) o
    have hl' := normal_paired ho hl hr' (w := [' ']) (by decide)
    have hnext := ih hl' hrest
    simp only [strung_cons, List.append_assoc] at hbalanced hnext ⊢
    obtain ⟨hbalanced', hreplaced⟩ := builds_replaced ho hl htable (loose_token ho _) hbalanced
    rw [hreplaced tree, (builds_regrouped ho hl hr hbalanced').2, hnext]
    constructor
    · rintro ⟨_, ns, hpair, hns, rfl⟩
      obtain ⟨n, m, hn, hm, rfl⟩ := (builds_paired ho hl hr' (by decide)).1 hpair
      exact ⟨n, m :: ns, hn, .cons ((hbuilds m).1 ((hbuilds' m).1 hm)) hns, rfl⟩
    · rintro ⟨n, _, hn, hall, rfl⟩
      obtain ⟨m, ns, hm, hns, rfl⟩ := List.forall₂_cons_left_iff.1 hall
      have hpair := (builds_paired ho hl hr' (w := [' ']) (by decide)).2 ⟨n, m, hn, (hbuilds' m).2 ((hbuilds m).2 hm), rfl⟩
      exact ⟨.combination o n m {} [], ns, hpair, hns, rfl⟩

/-! ## Operands -/

/-- A text that can stand as an operand: it is not blank, its delimiters pair up, and each operator in it is inside
    parentheses of its own. -/
structure Operand (x : Text) : Prop where
  filled : x.allBlank = false
  balanced : requireBalanced x = .ok ()
  undivided : Undivided parentheses x

/-- A text with a table can be an operand. -/
theorem Operand.of_spanTable (hfilled : x.allBlank = false) (h : ∃ table, spanTable parentheses x = .ok table) : Operand x := by
  have hbalanced := balanced_of_spanTable h
  rw [exists_spanTable_iff (requireBalanced_iff.2 hbalanced), gauge_iff (hbalanced parentheses)] at h
  exact ⟨hfilled, requireBalanced_iff.2 hbalanced, (undivided_iff (hbalanced parentheses)).2 h.inside⟩

theorem divided_chain (ho : o.isSynthetic = false) (hx : Undivided parentheses x) (hes : ∀ e ∈ es, Undivided parentheses e) :
    Divided parentheses (x ++ strung o es) (es.map fun _ => o) (x :: es) := by
  induction es generalizing x with
  | nil =>
    rw [strung_nil, List.append_nil]
    exact .last hx
  | cons e es ih =>
    obtain ⟨he, hes⟩ := List.forall_mem_cons.1 hes
    rw [strung_cons]
    exact .operator hx ho (ih he hes)

theorem Divided.pairsCombine {os : List Operator} (h : Divided parentheses x os xs) (hx : PairsCombine x) :
    ∀ s ∈ xs, PairsCombine s := by
  induction h with
  | last _ => simpa using hx
  | operator hs _ _ ih =>
    obtain ⟨hfirst, hrest⟩ := (pairsCombine_operator hs.balanced).1 hx
    exact List.forall_mem_cons.2 ⟨hfirst, ih hrest⟩

/-- A chain has a table only if its operands have. -/
theorem exists_spanTable_of_chain (ho : o.isSynthetic = false) (hx : Operand x) (hes : ∀ e ∈ es, Operand e)
    (h : ∃ table, spanTable parentheses (parentheses.opening :: (x ++ (strung o es ++ [parentheses.closing]))) = .ok table) :
    ∀ e ∈ x :: es, ∃ table, spanTable parentheses e = .ok table := by
  have hdivided := divided_chain ho hx.undivided fun e he => (hes e he).undivided
  have hall : ∀ e ∈ x :: es, Operand e := List.forall_mem_cons.2 ⟨hx, hes⟩
  -- the gauge gets over the pair, so the pairs in it combine
  rw [exists_spanTable_iff (requireBalanced_iff.2 (balanced_of_spanTable h)), ← List.append_assoc] at h
  obtain ⟨τ, hτ⟩ := h
  rw [gauge_pair, Option.bind_eq_some_iff] at hτ
  obtain ⟨ρ, hρ, -⟩ := hτ
  obtain ⟨⟨hpairs, -⟩, -⟩ := (hdivided.gauged (fun s hs => (hdivided.undivided s hs).gauged) none _ ρ).1 hρ
  intro e he
  rw [exists_spanTable_iff (hall e he).balanced]
  exact ⟨_, ((hall e he).undivided.gauged [] _).2 ⟨hdivided.pairsCombine hpairs e he, rfl⟩⟩

theorem exists_forall₂_iff {R : Text → Node → Prop} : (∃ ns, List.Forall₂ R xs ns) ↔ ∀ x ∈ xs, ∃ n, R x n := by
  induction xs with
  | nil => exact ⟨fun _ => nofun, fun _ => ⟨[], .nil⟩⟩
  | cons x xs ih =>
    rw [List.forall_mem_cons, ← ih]
    constructor
    · rintro ⟨_, h⟩
      obtain ⟨n, ns, hn, hns, -⟩ := List.forall₂_cons_left_iff.1 h
      exact ⟨⟨n, hn⟩, ns, hns⟩
    · rintro ⟨⟨n, hn⟩, ns, hns⟩
      exact ⟨n :: ns, .cons hn hns⟩

/-- A chain of two and more operands is built from them, joined from the left. -/
theorem builds_chain (ho : o.isSynthetic = false) (hx : Operand x) {f : Text} (hes : ∀ e ∈ f :: es, Operand e) :
    Builds (parentheses.opening :: (x ++ (strung o (f :: es) ++ [parentheses.closing]))) tree ↔
      ∃ n ns, Builds x n ∧ List.Forall₂ Builds (f :: es) ns ∧ tree = Node.joined o n ns := by
  have hall : ∀ e ∈ x :: f :: es, Operand e := List.forall_mem_cons.2 ⟨hx, hes⟩
  -- if the operands have tables, the first one can be put into normal form
  have hbuilds : (∀ e ∈ x :: f :: es, ∃ table, spanTable parentheses e = .ok table) →
      (Builds (parentheses.opening :: (x ++ (strung o (f :: es) ++ [parentheses.closing]))) tree ↔
        ∃ n ns, Builds x n ∧ List.Forall₂ Builds (f :: es) ns ∧ tree = Node.joined o n ns) := by
    intro htables
    obtain ⟨table, htable⟩ := htables x List.mem_cons_self
    obtain ⟨hl, hfirst⟩ := exists_normal hx.filled htable
    have hbalanced := chain_balanced (balanced_of_spanTable ⟨table, htable⟩)
      (fun e he => requireBalanced_iff.1 (hes e he).balanced) o
    have hloose : Loose (strung o (f :: es) ++ [parentheses.closing]) := by
      rw [strung_cons, List.append_assoc]
      exact loose_token ho _
    have hsame := (spanTable_replace htable (sweptTo_opening parentheses)
      ⟨requireBalanced_iff.1 hx.balanced, nofun, hloose⟩ hbalanced).2.2
    have hfilled : ∀ e ∈ f :: es, e.allBlank = false ∧ ∃ table, spanTable parentheses e = .ok table := fun e he =>
      ⟨(hes e he).filled, htables e (List.mem_cons_of_mem _ he)⟩
    refine (Builds.congr hsame).trans ((builds_strung ho hl hfilled).trans ?_)
    simp only [hfirst]
  constructor
  · intro h
    exact (hbuilds (exists_spanTable_of_chain ho hx hes h.spanTable)).1 h
  · rintro ⟨n, ns, hn, hns, htree⟩
    refine (hbuilds fun e he => ?_).2 ⟨n, ns, hn, hns, htree⟩
    obtain ⟨m, hm⟩ := exists_forall₂_iff.1 ⟨n :: ns, .cons hn hns⟩ e he
    exact hm.spanTable

/-! ## Blanks between operands and operators -/

/-- The second text is the first one with blanks at its ends. -/
def Padded (x e : Text) : Prop := ∃ w w' : Text, w.allBlank = true ∧ w'.allBlank = true ∧ e = w ++ (x ++ w')

/-- No token of an operator reaches from an undivided text into one that starts with no part of a token. -/
theorem Undivided.append (ha : Undivided parentheses a) (hb : Undivided parentheses b) (hloose : Loose b) :
    Undivided parentheses (a ++ b) := by
  induction hn : a.length using Nat.strongRecOn generalizing a with
  | ind n ih =>
    subst hn
    obtain rfl | ⟨c, s, rfl, hc, hopening, hclosing, hs⟩ | ⟨y, s, rfl, hy, hs⟩ := ha.pieces
    · exact hb
    · exact .char ((hloose.startsOperator c s).trans hc) hopening hclosing (ih _ (Nat.lt_succ_self _) hs rfl)
    · rw [List.cons_append, List.append_assoc, List.cons_append]
      exact .pair hy (ih s.length (by simp; omega) hs rfl)

theorem Undivided.behind_blank (hx : Undivided parentheses x) (hw : Text.allBlank w = true) :
    Undivided parentheses (w ++ x) := by
  induction w with
  | nil => exact hx
  | cons c w ih =>
    obtain ⟨hc, hw⟩ : isBlank c = true ∧ Text.allBlank w = true := by simpa [Text.allBlank] using hw
    have hplain := isReserved_of_blank hc
    have hdelimiter := isDelimiter_of_reserved hplain
    exact .char (startsOperator_of_ne (ne_bracket hplain).1 _) (ne_opening hdelimiter _) (ne_closing hdelimiter _) (ih hw)

theorem Undivided.pad (hx : Undivided parentheses x) (hw : Text.allBlank w = true) (hw' : Text.allBlank w' = true) :
    Undivided parentheses (w ++ (x ++ w')) := by
  have hblank := (Undivided.nil parentheses).behind_blank hw'
  have hloose := Loose.of_allBlank hw' (b := []) nofun
  rw [List.append_nil] at hblank hloose
  exact (hx.append hblank hloose).behind_blank hw

theorem Operand.padded {e : Text} (h : Operand x) (hpad : Padded x e) : Operand e := by
  obtain ⟨w, w', hw, hw', rfl⟩ := hpad
  refine ⟨?_, ?_, h.undivided.pad hw hw'⟩
  · rw [Text.allBlank_append, Text.allBlank_append, h.filled, Bool.false_and, Bool.and_false]
  · exact requireBalanced_iff.2 fun e => (balanced_pad hw hw').2 (requireBalanced_iff.1 h.balanced e)

/-- Operands with blanks on both sides of the operators between them are a chain of operands with blanks at their ends. -/
theorem join_padded (o : Operator) {gap : Text} (hgap : gap.allBlank = true) (hw : Text.allBlank w = true) (x : Text)
    (xs : List Text) : ∃ e es, List.Forall₂ Padded (x :: xs) (e :: es) ∧
      w ++ Text.join (gap ++ (o.token ++ gap)) (x :: xs) = e ++ strung o es := by
  induction xs generalizing x w with
  | nil => exact ⟨w ++ x, [], .cons ⟨w, [], hw, rfl, by simp⟩ .nil, by simp [Text.join]⟩
  | cons y xs ih =>
    obtain ⟨e, es, hpadded, hjoin⟩ := ih hgap y
    refine ⟨w ++ (x ++ gap), e :: es, .cons ⟨w, gap, hw, hgap, rfl⟩ hpadded, ?_⟩
    have hfirst : Text.join (gap ++ (o.token ++ gap)) (x :: y :: xs) =
        x ++ (gap ++ (o.token ++ gap)) ++ Text.join (gap ++ (o.token ++ gap)) (y :: xs) := rfl
    rw [strung_cons, ← hjoin, hfirst]
    simp

/-! ## Repeated operators -/

/-- Operands in parentheses with one operator between them, and blanks on both sides of the operator. -/
def repeated (o : Operator) (gap : Text) (xs : List Text) : Text :=
  parentheses.opening :: (Text.join (gap ++ (o.token ++ gap)) xs ++ [parentheses.closing])

/-- What is built from operands, with blanks at their ends or without. -/
theorem forall₂_padded (h : List.Forall₂ Padded xs es) (hxs : ∀ x ∈ xs, Operand x) :
    (∀ e ∈ es, Operand e) ∧ ∀ ns, List.Forall₂ Builds es ns ↔ List.Forall₂ Builds xs ns := by
  induction h with
  | nil => exact ⟨nofun, fun _ => List.forall₂_nil_left_iff.trans List.forall₂_nil_left_iff.symm⟩
  | @cons x e xs es hpad _ ih =>
    obtain ⟨hx, hxs⟩ := List.forall_mem_cons.1 hxs
    obtain ⟨hes, hbuilds⟩ := ih hxs
    refine ⟨List.forall_mem_cons.2 ⟨hx.padded hpad, hes⟩, fun ns => ?_⟩
    obtain ⟨w, w', hw, hw', rfl⟩ := hpad
    rw [List.forall₂_cons_left_iff, List.forall₂_cons_left_iff]
    simp only [builds_pad hx.balanced hw hw', hbuilds]

theorem builds_repeated (ho : o.isSynthetic = false) {gap : Text} (hgap : gap.allBlank = true) (hmany : 2 ≤ xs.length)
    (hxs : ∀ x ∈ xs, Operand x) : Builds (repeated o gap xs) tree ↔
      ∃ n ns, List.Forall₂ Builds xs (n :: ns) ∧ tree = Node.joined o n ns := by
  obtain ⟨x, y, ys, rfl⟩ : ∃ x y ys, xs = x :: y :: ys := by
    rcases xs with _ | ⟨x, _ | ⟨y, ys⟩⟩
    · cases hmany
    · simp at hmany
    · exact ⟨x, y, ys, rfl⟩
  obtain ⟨e, es, hpadded, hjoin⟩ := join_padded o hgap (w := []) rfl x (y :: ys)
  obtain ⟨hes, hbuilds⟩ := forall₂_padded hpadded hxs
  rw [List.nil_append] at hjoin
  rw [repeated, hjoin, List.append_assoc]
  cases es with
  | nil => cases (List.forall₂_cons.1 hpadded).2
  | cons f es =>
    obtain ⟨he, hrest⟩ := List.forall_mem_cons.1 hes
    rw [builds_chain ho he hrest]
    simp only [← hbuilds, List.forall₂_cons, and_assoc]

theorem operand_part (o : Operator) (gap : Text) {xs : List Text} (hx : x ∈ xs) : x <:+: repeated o gap xs := by
  have hjoin : ∀ {s : Text} {xs : List Text}, x ∈ xs → x <:+: Text.join s xs := by
    intro s xs hx
    fun_induction Text.join s xs with
    | case1 => cases hx
    | case2 t => exact List.mem_singleton.1 hx ▸ List.infix_rfl
    | case3 t ts _ ih =>
      rcases List.mem_cons.1 hx with rfl | hx
      · exact ⟨[], s ++ Text.join s ts, by simp⟩
      · exact (ih hx).trans (List.suffix_append _ _).isInfix
  exact (hjoin hx).trans ⟨[parentheses.opening], [parentheses.closing], rfl⟩

theorem leaves_joined (o : Operator) (n : Node) (ns : List Node) :
    (Node.joined o n ns).leaves = (n :: ns).flatMap Node.leaves := by
  unfold Node.joined
  induction ns generalizing n with
  | nil => simp
  | cons m ns ih =>
    rw [List.foldl_cons, ih]
    simp [Node.leaves]

/-- One operator between operands, whatever they are, associates to the left: the text is built if its operands are, and
    then from their trees, in order. -/
theorem combinationTree_repeated (ho : o.isSynthetic = false) {gap : Text} (hgap : gap.allBlank = true)
    (hmany : 2 ≤ xs.length) (hxs : ∀ x ∈ xs, Operand x) {limit : Nat} (hlimit : operatorCount (repeated o gap xs) ≤ limit) :
    ((∃ tree, combinationTree parentheses limit (repeated o gap xs) = .ok tree) ↔
        ∀ x ∈ xs, ∃ n, combinationTree parentheses limit x = .ok n) ∧
      ∀ n ns, List.Forall₂ (fun x n => combinationTree parentheses limit x = .ok n) xs (n :: ns) →
        combinationTree parentheses limit (repeated o gap xs) = .ok (Node.joined o n ns) ∧
          (Node.joined o n ns).leaves = (n :: ns).flatMap Node.leaves := by
  have hwhole : ∀ tree, combinationTree parentheses limit (repeated o gap xs) = .ok tree ↔
      ∃ n ns, List.Forall₂ Builds xs (n :: ns) ∧ tree = Node.joined o n ns := fun tree => by
    rw [← builds_repeated ho hgap hmany hxs]
    exact (builds_iff (Nat.lt_succ_of_le hlimit) limit).symm
  have hoperand : ∀ x ∈ xs, ∀ n, Builds x n ↔ combinationTree parentheses limit x = .ok n := fun x hx n =>
    builds_iff (Nat.lt_succ_of_le ((operatorCount_part (operand_part o gap hx)).trans hlimit)) limit
  refine ⟨⟨?_, fun hall => ?_⟩, fun n ns hns => ⟨?_, leaves_joined o n ns⟩⟩
  · rintro ⟨tree, htree⟩ x hx
    obtain ⟨n, ns, hns, -⟩ := (hwhole tree).1 htree
    obtain ⟨m, hm⟩ := exists_forall₂_iff.1 ⟨n :: ns, hns⟩ x hx
    exact ⟨m, (hoperand x hx m).1 hm⟩
  · obtain ⟨ns, hns⟩ := exists_forall₂_iff.2 fun x hx => (hall x hx).imp fun n hn => Builds.within hn
    cases hns with
    | nil => cases hmany
    | @cons _ n _ ns hn hns => exact ⟨_, (hwhole _).2 ⟨n, ns, .cons hn hns, rfl⟩⟩
  · exact (hwhole _).2 ⟨n, ns, hns.imp fun _ _ h => Builds.within h, rfl⟩

/-- A chain with shared text, a word, and a combination with a word behind it. -/
def mixedOperands : List Text := ["all (a [OR] b [OR] c)".toList, "d".toList, "(e [XOR] f) alone".toList]

theorem combinationTree_repeated_mixedOperands : (∀ x ∈ mixedOperands, Operand x) ∧
    operatorCount (repeated .and [' '] mixedOperands) ≤ 5 ∧ ∃ k n m,
      List.Forall₂ (fun x n => combinationTree parentheses 5 x = .ok n) mixedOperands [k, n, m] ∧
        combinationTree parentheses 5 (repeated .and [' '] mixedOperands) =
          .ok (.combination .and (.combination .and k n {} []) m {} []) := by
  have hfilled : ∀ x ∈ mixedOperands, x.allBlank = false := by decide +kernel
  have htables : ∀ x ∈ mixedOperands, (spanTable parentheses x).toOption.any (fun _ => true) = true := by decide +kernel
  have hoperand : ∀ x ∈ mixedOperands, Operand x := fun x hx =>
    .of_spanTable (hfilled x hx) ((exists_ok (htables x hx)).imp fun _ h => h.1)
  have hcount : operatorCount (repeated .and [' '] mixedOperands) ≤ 5 := by decide +kernel
  obtain ⟨k, hk, -⟩ := exists_ok (x := combinationTree parentheses 5 "all (a [OR] b [OR] c)".toList) (p := fun _ => true)
    (by decide +kernel)
  obtain ⟨n, hn, -⟩ := exists_ok (x := combinationTree parentheses 5 "d".toList) (p := fun _ => true) (by decide +kernel)
  obtain ⟨m, hm, -⟩ := exists_ok (x := combinationTree parentheses 5 "(e [XOR] f) alone".toList) (p := fun _ => true)
    (by decide +kernel)
  have hbuilt : List.Forall₂ (fun x n => combinationTree parentheses 5 x = .ok n) mixedOperands [k, n, m] :=
    .cons hk (.cons hn (.cons hm .nil))
  exact ⟨hoperand, hcount, k, n, m, hbuilt,
    ((combinationTree_repeated rfl (by decide) (by decide) hoperand hcount).2 k [n, m] hbuilt).1⟩

end InstitutionalGrammar
