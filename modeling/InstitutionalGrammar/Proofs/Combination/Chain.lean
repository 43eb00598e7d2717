/-
  InstitutionalGrammar.Proofs.Combination.Chain — one operator repeated in one pair of delimiters.

  A sweep stops at the second operator, and what stands before it is put into delimiters of its
  own, so a chain of operands associates to the left.
  - `settle_chain`: regrouping ends with the text of the left fold.
  - `treeWithin_chain`: the tree of a chain is the left fold of its operands.
-/

import InstitutionalGrammar.Proofs.Combination.Building

namespace InstitutionalGrammar

/-- The nodes joined from the left by one operator. -/
def Node.joined (o : Operator) (n : Node) (ns : List Node) : Node :=
  ns.foldl (fun l r => .combination o l r {} []) n

/-- The operands behind the first one, each behind the operator. -/
def chain (o : Operator) (es : List Text) : Text := es.flatMap fun e => ' ' :: (o.token ++ ' ' :: e)

/-- A leaf that codes the text. -/
def Node.coded (e : Text) : Node := .leaf (.text e) {} []

namespace Node

theorem write_coded (d : Delimiters) (e : Text) : (coded e).write d = e := write_leaf d e

theorem height_joined (o : Operator) (n : Node) {ns : List Node} (h : ∀ m ∈ ns, m.height = 0) :
    (joined o n ns).height = n.height + ns.length := by
  unfold joined
  induction ns generalizing n with
  | nil => rfl
  | cons m ns ih =>
    rw [List.foldl_cons, ih _ fun x hx => h x (by simp [hx]), height, h m (by simp), List.length_cons]
    omega

theorem Coded.join {atom : Text → Prop} {o : Operator} (ho : o.isSynthetic = false) {t : Node} (ht : t.Coded atom)
    {e : Text} (he : atom e) : (Node.combination o t (coded e) {} []).Coded atom :=
  @combination atom o t (coded e) none none ho ht (.leaf he) nofun nofun

theorem Coded.joined {atom : Text → Prop} {o : Operator} (ho : o.isSynthetic = false) {t : Node} (ht : t.Coded atom)
    {es : List Text} (hes : ∀ e ∈ es, atom e) : (Node.joined o t (es.map Node.coded)).Coded atom := by
  unfold Node.joined
  induction es generalizing t with
  | nil => exact ht
  | cons e es ih =>
    exact ih (ht.join ho (hes e (by simp))) fun x hx => hes x (by simp [hx])

/-- Joining one more operand puts delimiters around the tree so far. -/
theorem write_join (d : Delimiters) (o : Operator) (t : Node) (e : Text) :
    (combination o t (coded e) {} []).write d =
      d.opening :: (t.write d ++ (' ' :: (o.token ++ ' ' :: e) ++ [d.closing])) := by
  rw [write_combination, write_coded]
  simp [Marks.lead, Marks.trail]

end Node

variable {d : Delimiters} {o : Operator}

theorem tidy_chain (ho : o.isSynthetic = false) {es : List Text} (hes : ∀ e ∈ es, Tidy e) : Tidy (chain o es) := by
  induction es with
  | nil => exact .nil
  | cons e es ih =>
    have he : Tidy (' ' :: (o.token ++ ' ' :: e)) :=
      .char (by decide) (.operator ho (.char (by decide) (hes e (by simp))))
    exact he.append (ih fun x hx => hes x (by simp [hx]))

/-! ## One regrouping -/

theorem trimEnd_operands {a e : Text} (he : Atom d e) : Text.trimEnd (a ++ (e ++ [' '])) = a ++ e := by
  have hlast : ∀ c ∈ (a ++ e).getLast?, isBlank c = false := by
    intro c hc
    rw [List.getLast?_append, List.getLast?_eq_some_getLast he.ne_nil] at hc
    exact (Text.trim_eq_self_iff.1 he.trimmed).2 c (by rw [List.getLast?_eq_some_getLast he.ne_nil]; exact hc)
  unfold Text.trimEnd
  rw [← List.append_assoc, Text.stripEnd_append_of_all rfl, Text.stripEnd_eq_self_iff.2 hlast]

section Regroup

variable {t : Node} {e f : Text} {es : List Text}

/-- The sweep of a chain stops at the second operator. -/
theorem sweep_chain (ho : o.isSynthetic = false) (ht : t.Coded (Atom d)) (he : Atom d e) :
    sweep d (d.opening :: (t.write d ++ (chain o (e :: f :: es) ++ [d.closing]))) =
      .ok (.repetition 0 (Text.size (d.opening :: (t.write d ++ (' ' :: (o.token ++ ' ' :: e) ++ [' ']))))) := by
  have hleft : (t.write d ++ [' ']).trim ≠ [] := by
    simpa using Text.trim_ne_nil ht.trimmed.1 ht.trimmed.2 [] [' ']
  have hright : Text.trim (' ' :: (e ++ [' '])) ≠ [] := by
    simpa using Text.trim_ne_nil he.trimmed he.ne_nil [' '] [' ']
  have htext : d.opening :: (t.write d ++ (chain o (e :: f :: es) ++ [d.closing])) =
      d.opening :: (t.write d ++ ' ' :: (o.token ++ ' ' :: (e ++ ' ' ::
        (o.token ++ (' ' :: f ++ (chain o es ++ [d.closing])))))) := by
    simp [chain]
  refine sweep_repetition ?_
  have hsweep : sweepFrom d [] (d.opening :: (t.write d ++ ' ' :: (o.token ++ ' ' :: (e ++ ' ' ::
      (o.token ++ (' ' :: f ++ (chain o es ++ [d.closing]))))))) .start =
        .error (.repetition 0 (Text.size (d.opening :: (t.write d ++ (' ' :: (o.token ++ ' ' :: e) ++ [' ']))))) := by
    unfold SweepState.start
    rw [sweepFrom_opening .nil, sweepFrom_write ht (.opening [] d), sweepFrom_space,
      sweepFrom_operator ho (a := [d.opening]) (b := t.write d ++ [' ']) (by simp) (by simp) hleft,
      sweepFrom_space, sweepFrom_silent he.toSilent (.space _), sweepFrom_space,
      sweepFrom_repeated (o := ⟨o, _, _⟩) ho (a := d.opening :: (t.write d ++ ' ' :: o.token))
        (b := ' ' :: (e ++ [' '])) (by simp) (by simp; omega) hright]
    simp
  rw [htext]
  exact hsweep

/-- What stands before the second operator gets delimiters of its own. -/
theorem regroup_chain (he : Atom d e) :
    regroup d (d.opening :: (t.write d ++ (chain o (e :: f :: es) ++ [d.closing]))) 0
        (Text.size (d.opening :: (t.write d ++ (' ' :: (o.token ++ ' ' :: e) ++ [' '])))) =
      .ok (d.opening :: ((Node.combination o t (.coded e) {} []).write d ++ (chain o (f :: es) ++ [d.closing]))) := by
  let operands := t.write d ++ (' ' :: (o.token ++ ' ' :: e) ++ [' '])
  let tail := o.token ++ (' ' :: f ++ (chain o es ++ [d.closing]))
  have htext : d.opening :: (t.write d ++ (chain o (e :: f :: es) ++ [d.closing])) =
      d.opening :: (operands ++ tail) := by
    simp [chain, operands, tail]
  have h1 : Text.slice (d.opening :: (operands ++ tail)) 0 (0 + 1) = .ok [d.opening] :=
    Text.slice_parts (a := []) (c := operands ++ tail) (by simp) rfl (by simp)
  have h2 : Text.slice (d.opening :: (operands ++ tail)) (0 + 1) (Text.size (d.opening :: operands)) = .ok operands :=
    Text.slice_parts (a := [d.opening]) (c := tail) (by simp) (by simp) (by simp)
  have h3 : Text.slice (d.opening :: (operands ++ tail)) (Text.size (d.opening :: operands))
      (Text.size (d.opening :: (operands ++ tail))) = .ok tail :=
    Text.slice_parts (a := d.opening :: operands) (c := []) (by simp) rfl (by simp; omega)
  have htrim : Text.trimEnd operands = t.write d ++ ' ' :: (o.token ++ ' ' :: e) := by
    have := trimEnd_operands (a := t.write d ++ ' ' :: (o.token ++ [' '])) he
    simpa [operands] using this
  rw [htext]
  unfold regroup
  rw [h1, ok_bind, h2, ok_bind, h3, ok_bind, htrim, Node.write_join]
  simp [tail, chain]

end Regroup

/-! ## Regrouping to the end -/

/-- Regrouping a chain ends with the table of the left fold. -/
theorem settle_chain (ho : o.isSynthetic = false) {t : Node} (ht : t.Coded (Atom d)) {e : Text} {es : List Text}
    (hes : ∀ x ∈ e :: es, Atom d x) {fuel : Nat} (hfuel : es.length ≤ fuel) :
    ∃ nonShared, settle d fuel (d.opening :: (t.write d ++ (chain o (e :: es) ++ [d.closing]))) =
      .ok ⟨(Node.joined o t ((e :: es).map .coded)).write d, (Node.joined o t ((e :: es).map .coded)).spans d 0 1,
        nonShared⟩ := by
  induction es generalizing t e fuel with
  | nil =>
    have hjoin := ht.join ho (hes e (by simp))
    obtain ⟨nonShared, hs⟩ := sweep_write hjoin [] [] rfl rfl
    have htext : d.opening :: (t.write d ++ (chain o [e] ++ [d.closing])) =
        (Node.combination o t (.coded e) {} []).write d := by
      rw [Node.write_join]
      simp [chain]
    rw [List.nil_append, List.append_nil] at hs
    refine ⟨nonShared, ?_⟩
    rw [htext]
    exact settle_of_sweep hs fuel
  | cons f es ih =>
    obtain ⟨k, rfl⟩ : ∃ k, fuel = k + 1 := ⟨fuel - 1, by simp at hfuel; omega⟩
    have he := hes e (by simp)
    have hjoin := ht.join ho he
    have hk : es.length ≤ k := by simpa using hfuel
    obtain ⟨nonShared, hs⟩ := ih hjoin (e := f) (fun x hx => hes x (by simp [List.mem_cons.1 hx])) hk
    refine ⟨nonShared, ?_⟩
    unfold settle
    rw [sweep_chain ho ht he, ok_bind]
    simp only [regroup_chain he, ok_bind]
    exact hs

/-! ## The number of operators -/

theorem operatorCount_signs (text : Text) :
    operatorCount text = ((signs .start text).filter (·.operator?.isSome)).length := by
  unfold operatorCount signs tokens
  rw [List.filter_filter]
  refine congrArg List.length (List.filter_congr fun x _ => ?_)
  obtain ⟨l, p, stop⟩ := x
  cases l <;> simp [Token.operator?, Token.isSign, Lexeme.isText]

theorem length_le_signs_chain (ho : o.isSynthetic = false) {es : List Text} (hes : ∀ e ∈ es, Tidy e) (p : Position)
    (rest : Text) : es.length ≤ ((signs p (chain o es ++ rest)).filter (·.operator?.isSome)).length := by
  induction es generalizing p with
  | nil => simp
  | cons e es ih =>
    have htext : chain o (e :: es) ++ rest = ' ' :: (o.token ++ (' ' :: e ++ (chain o es ++ rest))) := by simp [chain]
    have he : Tidy (' ' :: e) := .char (by decide) (hes e (by simp))
    have hlater := ih (fun x hx => hes x (by simp [hx])) ((((p.after ' ').past o.token)).past (' ' :: e))
    rw [htext, signs_char (by decide), signs_operator ho, he.signs_append, List.filter_cons_of_pos rfl,
      List.filter_append, List.length_cons, List.length_cons, List.length_append]
    omega

theorem length_le_operatorCount (ho : o.isSynthetic = false) {t : Text} (ht : Tidy t) {es : List Text}
    (hes : ∀ e ∈ es, Tidy e) : es.length ≤ operatorCount (d.opening :: (t ++ (chain o es ++ [d.closing]))) := by
  have hchain := length_le_signs_chain ho hes ((Position.start.after d.opening).past t) [d.closing]
  rw [operatorCount_signs, signs_opening, ht.signs_append, List.filter_cons_of_neg (by simp [Token.operator?]),
    List.filter_append, List.length_append]
  omega

/-! ## Trees -/

/-- The table of a chain is that of the left fold. -/
theorem spanTable_chain (ho : o.isSynthetic = false) {t : Node} (ht : t.Coded (Atom d)) {e : Text} {es : List Text}
    (hes : ∀ x ∈ e :: es, Atom d x) :
    ∃ nonShared, spanTable d (d.opening :: (t.write d ++ (chain o (e :: es) ++ [d.closing]))) =
      .ok ⟨(Node.joined o t ((e :: es).map .coded)).write d, (Node.joined o t ((e :: es).map .coded)).spans d 0 1,
        nonShared⟩ := by
  have htidy : ∀ x ∈ e :: es, Tidy x := fun x hx => (hes x hx).tidy
  have hwhole : Tidy (d.opening :: (t.write d ++ (chain o (e :: es) ++ [d.closing]))) := by
    simpa using (ht.tidy.append (tidy_chain ho htidy)).wrap d
  have hcount := length_le_operatorCount (d := d) ho ht.tidy htidy
  rw [List.length_cons] at hcount
  obtain ⟨nonShared, hsettle⟩ := settle_chain ho ht hes (Nat.le_of_succ_le hcount)
  refine ⟨nonShared, ?_⟩
  unfold spanTable
  rw [hwhole.nested.requireBalanced]
  exact hsettle

/-- The tree of a chain is the left fold of its operands. -/
theorem treeWithin_chain (ho : o.isSynthetic = false) {t : Node} (ht : t.Coded (Atom d)) {e : Text} {es : List Text}
    (hes : ∀ x ∈ e :: es, Atom d x) {limit budget : Nat} (hbudget : t.height + (e :: es).length < budget) :
    treeWithin d limit budget (d.opening :: (t.write d ++ (chain o (e :: es) ++ [d.closing]))) =
      .ok (Node.joined o t ((e :: es).map .coded)) := by
  obtain ⟨n, rfl⟩ : ∃ n, budget = n + 1 := ⟨budget - 1, by omega⟩
  obtain ⟨nonShared, htable⟩ := spanTable_chain ho ht hes
  -- the last operand is joined to the fold of all others
  obtain ⟨init, last, hsplit⟩ : ∃ init last, e :: es = init ++ [last] :=
    ⟨_, _, (List.dropLast_concat_getLast (List.cons_ne_nil e es)).symm⟩
  have hinit : ∀ x ∈ init, Atom d x := fun x hx => hes x (by rw [hsplit]; simp [hx])
  have hlast : Atom d last := hes last (by rw [hsplit]; simp)
  have hfold : Node.joined o t ((e :: es).map .coded) =
      .combination o (Node.joined o t (init.map .coded)) (.coded last) {} [] := by
    rw [hsplit, Node.joined, List.map_append, List.foldl_append]
    rfl
  have hleft := ht.joined ho hinit
  have hheight : (Node.joined o t (init.map .coded)).height < n := by
    rw [Node.height_joined o t (by intro m hm; obtain ⟨x, -, rfl⟩ := List.mem_map.1 hm; rfl), List.length_map]
    rw [hsplit, List.length_append, List.length_singleton] at hbudget
    omega
  have hbl : treeWithin d limit n ([] ++ ((Node.joined o t (init.map .coded)).write d ++ [' '])) = .ok _ :=
    treeWithin_write hleft hheight rfl rfl
  have hbr : treeWithin d limit n ([' '] ++ ((Node.coded last).write d ++ [])) = .ok (.coded last) :=
    treeWithin_write (.leaf hlast) (Nat.lt_of_le_of_lt (Nat.zero_le _) hheight) rfl rfl
  rw [List.append_nil] at hbr
  rw [hfold] at htable ⊢
  have hnone : ∀ x ∈ (none : Option Text), Atom d x := nofun
  refine treeStep_combination [] [] [] [] [] hleft (.leaf hlast) hnone hnone hbl hbr htable rfl rfl rfl (k := 1)
    (by simp) (by simp) nofun ?_
  intro s hs _ _
  rw [SpanTable.scope_outermost rfl hs]
  simp

end InstitutionalGrammar
