/-
  InstitutionalGrammar.Proofs.Plain.Joining — how the nested statements of one component are joined.

  The operator is the only one written in the atomic text between the first of the statements and
  the last; operators in front of them or behind them play no part.
  - `outerOperators_between`: the operators between two offsets of a text without delimiters.
  - `joiningOperator_uniform`, `joiningOperator_mixed`: the operator that they determine, if any.
  - `attachGroup_joined`, `attachGroup_mixed`: the statements are attached as one left fold under
    that operator, or refused.
-/

import InstitutionalGrammar.Proofs.Plain.Blocks

namespace InstitutionalGrammar

/-! ## Operators between two offsets -/

namespace Gap

theorem nil : Gap [] := of_allBlank rfl

theorem append {a b : Text} (ha : Gap a) (hb : Gap b) : Gap (a ++ b) where
  tidy := ha.tidy.append hb.tidy
  quiet := ha.quiet.append hb.quiet
  clear := ha.clear.append hb.clear
  bare := by
    intro c hc
    rcases List.mem_append.1 hc with hc | hc
    · exact ha.bare c hc
    · exact hb.bare c hc

variable {t : Text}

/-- What holds for characters and operators on their own holds for all of a text without delimiters. -/
theorem induction {motive : Text → Prop} (h : Gap t) (nil : motive [])
    (char : ∀ c u, isReserved c = false → motive u → motive (c :: u))
    (operator : ∀ o u, Operator.isSynthetic o = false → motive u → motive (o.token ++ u)) : motive t := by
  obtain ⟨htidy, -, -, hbare⟩ := h
  induction htidy with
  | nil => exact nil
  | char hc _ ih => exact char _ _ hc (ih fun e he => hbare e (by simp [he]))
  | operator ho _ ih => exact operator _ _ ho (ih fun e he => hbare e (by simp [he]))
  | @enclosed d a t _ _ _ _ =>
    have := (hbare d.opening (by simp)).1
    cases d <;> exact absurd this (by decide)

/-- The operators of a text without delimiters come in front of those behind it. -/
theorem outerFrom_append (h : Gap t) (p : Position) (ts : List Token) :
    outerFrom 0 (signs p t ++ ts) = outerFrom 0 (signs p t) ++ outerFrom 0 ts := by
  refine h.induction (motive := fun t => ∀ p, outerFrom 0 (signs p t ++ ts) = outerFrom 0 (signs p t) ++ outerFrom 0 ts)
    (fun _ => rfl) ?_ ?_ p
  · intro c u hc ih p
    rw [signs_char hc, ih]
  · intro o u ho ih p
    rw [signs_operator ho, List.cons_append]
    simp only [outerFrom, if_true, ih, List.cons_append]

/-- Its operators stand in it. -/
theorem offset_outerFrom (h : Gap t) (p : Position) :
    ∀ o ∈ outerFrom 0 (signs p t), p.offset ≤ o.2.offset ∧ o.2.offset < p.offset + t.size := by
  refine h.induction (motive := fun t => ∀ p, ∀ o ∈ outerFrom 0 (signs p t),
    p.offset ≤ o.2.offset ∧ o.2.offset < p.offset + t.size) nofun ?_ ?_ p
  · intro c u hc ih p o ho
    rw [signs_char hc] at ho
    have := ih _ o ho
    rw [Position.offset_after] at this
    rw [Text.size_cons]
    omega
  · intro x u hx ih p o ho
    rw [signs_operator hx] at ho
    have hpos : 0 < x.token.size := by cases x <;> decide
    rw [Text.size_append]
    rcases List.mem_cons.1 ho with ho | ho
    · rw [ho]
      simp only
      omega
    · have := ih _ o ho
      rw [Position.offset_past] at this
      omega

end Gap

section Between

variable {a m b : Text}

/-- Of all operators of a text, those between two offsets are the operators of the part between them. -/
theorem outerOperators_between (ha : Gap a) (hm : Gap m) (hb : Gap b) :
    (outerOperators (a ++ (m ++ b))).filter (fun o => a.size ≤ o.2.offset && o.2.offset < a.size + m.size) =
      outerFrom 0 (signs (Position.start.past a) m) := by
  have hall : outerOperators (a ++ (m ++ b)) = outerFrom 0 (signs .start a) ++
      (outerFrom 0 (signs (Position.start.past a) m) ++ outerFrom 0 (signs ((Position.start.past a).past m) b)) := by
    unfold outerOperators
    rw [← outerFrom_signs, ← hm.outerFrom_append, ← ha.outerFrom_append, ← hm.tidy.signs_append,
      ← ha.tidy.signs_append]
    rfl
  have hstart : (Position.start.past a).offset = a.size := by
    rw [Position.offset_past]
    exact Nat.zero_add _
  have hbefore : (outerFrom 0 (signs .start a)).filter
      (fun o => a.size ≤ o.2.offset && o.2.offset < a.size + m.size) = [] := by
    rw [List.filter_eq_nil_iff]
    intro o ho
    have hlt : o.2.offset < 0 + a.size := (ha.offset_outerFrom .start o ho).2
    simp only [Bool.and_eq_true, decide_eq_true_eq]
    omega
  have hinside : (outerFrom 0 (signs (Position.start.past a) m)).filter
      (fun o => a.size ≤ o.2.offset && o.2.offset < a.size + m.size) =
        outerFrom 0 (signs (Position.start.past a) m) := by
    rw [List.filter_eq_self]
    intro o ho
    have := hm.offset_outerFrom _ o ho
    rw [hstart] at this
    simpa using this
  have hbehind : (outerFrom 0 (signs ((Position.start.past a).past m) b)).filter
      (fun o => a.size ≤ o.2.offset && o.2.offset < a.size + m.size) = [] := by
    rw [List.filter_eq_nil_iff]
    intro o ho
    have := hb.offset_outerFrom _ o ho
    rw [Position.offset_past, hstart] at this
    simp only [Bool.and_eq_true, decide_eq_true_eq]
    omega
  rw [hall, List.filter_append, List.filter_append, hbefore, hinside, hbehind, List.nil_append, List.append_nil]

variable {options : Options} {os : List Operator}

/-- The operator that the options name, or else the one that is written in between. -/
theorem joiningOperator_uniform (ha : Gap a) (hm : Gap m) (hb : Gap b)
    (hos : ∀ p, (outerFrom 0 (signs p m)).map Prod.fst = os)
    (hsame : options.nestedOperator = none → ∀ x ∈ os, ∀ y ∈ os, x = y) :
    joiningOperator options (a ++ (m ++ b)) a.size (a.size + m.size) =
      .ok (options.nestedOperator.getD (os.headD .syntheticAnd)) := by
  have hbetween := outerOperators_between ha hm hb
  have hmap := hos (Position.start.past a)
  unfold joiningOperator
  rw [hbetween]
  cases hnested : options.nestedOperator with
  | some o => rfl
  | none =>
    cases hin : outerFrom 0 (signs (Position.start.past a) m) with
    | nil =>
      rw [hin] at hmap
      rw [← hmap]
      rfl
    | cons o later =>
      rw [hin] at hmap
      have hnone : later.find? (·.1 ≠ o.1) = none := by
        rw [List.find?_eq_none]
        intro x hx
        have hmem : ∀ y ∈ o :: later, y.1 ∈ os := by
          intro y hy
          rw [← hmap]
          exact List.mem_map_of_mem hy
        have : x.1 = o.1 := hsame hnested _ (hmem x (by simp [hx])) _ (hmem o (by simp))
        simp [this]
      simp only [hnone]
      rw [← hmap]
      rfl

/-- Two different operators in between determine none. -/
theorem joiningOperator_mixed (ha : Gap a) (hm : Gap m) (hb : Gap b)
    (hos : ∀ p, (outerFrom 0 (signs p m)).map Prod.fst = os) (hnested : options.nestedOperator = none)
    (hmixed : ∃ x ∈ os, ∃ y ∈ os, x ≠ y) :
    ∃ e, joiningOperator options (a ++ (m ++ b)) a.size (a.size + m.size) = .error e ∧
      e.code = "MIXED_OPERATORS" := by
  have hbetween := outerOperators_between ha hm hb
  have hmap := hos (Position.start.past a)
  unfold joiningOperator
  rw [hbetween, hnested]
  cases hin : outerFrom 0 (signs (Position.start.past a) m) with
  | nil =>
    rw [hin] at hmap
    obtain ⟨x, hx, -⟩ := hmixed
    rw [← hmap] at hx
    cases hx
  | cons o later =>
    rw [hin] at hmap
    cases hfind : later.find? (·.1 ≠ o.1) with
    | some x =>
      simp only [hfind]
      exact ⟨_, rfl, rfl⟩
    | none =>
      have hall : ∀ x ∈ os, x = o.1 := by
        intro x hx
        rw [← hmap] at hx
        obtain ⟨y, hy, rfl⟩ := List.mem_map.1 hx
        rcases List.mem_cons.1 hy with hy | hy
        · rw [hy]
        · simpa using List.find?_eq_none.1 hfind y hy
      obtain ⟨x, hx, y, hy, hne⟩ := hmixed
      exact absurd ((hall x hx).trans (hall y hy).symm) hne

end Between

/-! ## One group -/

/-- The nodes of a component joined from the left by one operator. -/
def Node.joinedUnder (c : Component) (o : Operator) (n : Node) (ns : List Node) : Node :=
  ns.foldl (fun l r => .combination o l r { component := some c } []) n

section Group

variable {c : Component} {o : Operator} {n : Node} {ns : List Node}

theorem Node.combine_same {l r : Node} (hl : l.component? = some c) (hr : r.component? = some c) :
    combine o l r = .ok (.combination o l r { component := some c } []) := by
  unfold combine
  rw [hl, hr]
  simp

theorem Node.fold?_joinedUnder (h : ∀ x ∈ n :: ns, x.component? = some c) :
    fold? o (n :: ns) = .ok (some (joinedUnder c o n ns)) := by
  have hfold : ∀ n : Node, n.component? = some c → ns.foldlM (combine o) n = .ok (joinedUnder c o n ns) := by
    have hns : ∀ x ∈ ns, x.component? = some c := fun x hx => h x (by simp [hx])
    clear h
    induction ns with
    | nil => intro n _; rfl
    | cons m ns ih =>
      intro n hn
      rw [List.foldlM_cons, combine_same hn (hns m (by simp)), ok_bind]
      exact ih (fun x hx => hns x (by simp [hx])) _ rfl
  rw [fold?, hfold n (h n (by simp))]
  rfl

theorem Node.component?_joinedUnder (h : n.component? = some c) : (joinedUnder c o n ns).component? = some c := by
  induction ns generalizing n with
  | nil => exact h
  | cons m ns ih => exact ih (n := .combination o n m { component := some c } []) rfl

theorem Node.unsuffixed_joinedUnder (h : ∀ x ∈ n :: ns, x.Unsuffixed) : (joinedUnder c o n ns).Unsuffixed := by
  induction ns generalizing n with
  | nil => exact h n (by simp)
  | cons m ns ih =>
    refine ih (n := .combination o n m { component := some c } []) fun x hx => ?_
    rcases List.mem_cons.1 hx with hx | hx
    · rw [hx]
      exact ⟨rfl, h n (by simp), h m (by simp)⟩
    · exact h x (by simp [hx])

variable {options : Options} {atomic : Text} {s : Statement} {start stop : Nat}

/-- The trees of a group are attached as one. -/
theorem attachGroup_joined (h : ∀ x ∈ n :: ns, x.component? = some c)
    (ho : joiningOperator options atomic start stop = .ok o) :
    attachGroup options atomic s ⟨c, n :: ns, start, stop⟩ = s.nest c (Node.joinedUnder c o n ns) := by
  unfold attachGroup
  cases ns with
  | nil =>
    have hfold := Node.fold?_joinedUnder (o := .syntheticAnd) h
    simp only [List.length_singleton, Nat.lt_irrefl, if_false, pure_eq_ok, ok_bind, hfold]
    rfl
  | cons m ns =>
    have hlength : (n :: m :: ns).length > 1 := by simp
    simp only [hlength, if_true, ho, ok_bind, Node.fold?_joinedUnder h]

/-- A group of several trees without an operator to join them is refused. -/
theorem attachGroup_mixed {e : ParseError} (hns : ns ≠ []) (he : joiningOperator options atomic start stop = .error e) :
    attachGroup options atomic s ⟨c, n :: ns, start, stop⟩ = .error e := by
  obtain ⟨m, later, rfl⟩ := List.exists_cons_of_ne_nil hns
  have hlength : (n :: m :: later).length > 1 := by simp
  unfold attachGroup
  simp only [hlength, if_true, he, error_bind]

end Group

end InstitutionalGrammar
