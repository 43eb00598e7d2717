/-
  InstitutionalGrammar.Proofs.Outcome — computations that may fail, opened step by step.

  - `ok_bind`, `bind_eq_ok`: a sequence succeeds when each of its steps does.
  - `Report.bind_result_ok`, `Report.mapM_done`: the same for results with ignored blocks.
-/

import InstitutionalGrammar.Error

namespace InstitutionalGrammar

section Except

variable {ε α β : Type}

@[simp] theorem ok_bind (a : α) (f : α → Except ε β) : (Except.ok a >>= f) = f a := rfl

@[simp] theorem error_bind (e : ε) (f : α → Except ε β) : (Except.error e >>= f) = .error e := rfl

@[simp] theorem pure_eq_ok (a : α) : (pure a : Except ε α) = .ok a := rfl

@[simp] theorem mapError_ok {ε' : Type} (f : ε → ε') (a : α) : (Except.ok a : Except ε α).mapError f = .ok a := rfl

theorem bind_eq_ok {x : Except ε α} {f : α → Except ε β} {b : β} :
    (x >>= f) = .ok b ↔ ∃ a, x = .ok a ∧ f a = .ok b := by
  cases x with
  | error e => simp
  | ok a => simp

/-- A run that is seen to end well. -/
theorem exists_ok {x : Except ε α} {p : α → Bool} (h : x.toOption.any p = true) : ∃ a, x = .ok a ∧ p a = true := by
  cases x with
  | error e => cases h
  | ok a => exact ⟨a, rfl, h⟩

/-- A run that is seen to fail. -/
theorem exists_error {x : Except ε α} {p : ε → Bool} (h : (match x with | .error e => p e | .ok _ => false) = true) :
    ∃ e, x = .error e ∧ p e = true := by
  cases x with
  | error e => exact ⟨e, rfl, h⟩
  | ok a => cases h

end Except

section Lift

variable {α : Type}

@[simp] theorem liftM_ok (a : α) : (liftM (Except.ok a : Except ParseError α) : Outcome α) = .ok a := rfl

@[simp] theorem liftM_error (e : ParseError) :
    (liftM (Except.error e : Except ParseError α) : Outcome α) = reject e := rfl

theorem liftM_eq_ok {x : Except ParseError α} {a : α} : (liftM x : Outcome α) = .ok a ↔ x = .ok a := by
  cases x with
  | error e => simp [reject]
  | ok b => simp

end Lift

/-! ## Reports -/

namespace Report

variable {α β : Type}

theorem bind_eq (r : Report α) (f : α → Report β) : (r >>= f) = r.bind f := rfl

/-- A report without ignored blocks. -/
def done (a : α) : Report α := ⟨[], .ok a⟩

@[simp] theorem pure_eq_done (a : α) : (pure a : Report α) = done a := rfl

@[simp] theorem done_bind (a : α) (f : α → Report β) : (done a >>= f) = f a := by
  rw [bind_eq]
  simp [Report.bind, done]

theorem bind_result_ok {r : Report α} {f : α → Report β} {b : β} :
    (r >>= f).result = .ok b ↔ ∃ a, r.result = .ok a ∧ (f a).result = .ok b := by
  obtain ⟨ignored, result⟩ := r
  rw [bind_eq]
  cases result with
  | error e => simp [Report.bind]
  | ok a => simp [Report.bind]

instance : LawfulMonad Report := LawfulMonad.mk' Report
  (by
    intro α r
    obtain ⟨ignored, result⟩ := r
    cases result with
    | error e => rfl
    | ok a => exact congrArg (Report.mk · (.ok a)) (List.append_nil ignored))
  (fun a f => done_bind a f)
  (by
    intro α β γ r f g
    obtain ⟨ignored, result⟩ := r
    cases result with
    | error e => rfl
    | ok a =>
      simp only [bind_eq, Report.bind]
      cases (f a).result with
      | error e => rfl
      | ok b => simp)

@[simp] theorem liftM_ok (a : α) : (liftM (Except.ok a : Outcome α) : Report α) = done a := rfl

/-- What fails without ignoring a block. -/
def failed (e : ParseError) : Report α := ⟨[], reject e⟩

@[simp] theorem failed_bind (e : ParseError) (f : α → Report β) : ((failed e : Report α) >>= f) = failed e := rfl

theorem mapM_done {f : α → Report β} {g : α → β} {l : List α} (h : ∀ x ∈ l, f x = done (g x)) :
    l.mapM f = done (l.map g) := by
  induction l with
  | nil => rfl
  | cons x l ih =>
    rw [List.mapM_cons, h x (by simp), done_bind, ih fun y hy => h y (by simp [hy])]
    rfl

/-- One failing element makes the whole fail, with what some element fails with. -/
theorem mapM_failed {f : α → Report β} {p : ParseError → Prop} {l : List α}
    (h : ∀ x ∈ l, (∃ b, f x = done b) ∨ ∃ e, p e ∧ f x = failed e) (hfail : ∃ x ∈ l, ∃ e, p e ∧ f x = failed e) :
    ∃ e, p e ∧ l.mapM f = failed e := by
  induction l with
  | nil =>
    obtain ⟨x, hx, -⟩ := hfail
    cases hx
  | cons x l ih =>
    rw [List.mapM_cons]
    rcases h x (by simp) with hdone | hx
    · obtain ⟨b, hb⟩ := hdone
      obtain ⟨y, hy, e, he, hye⟩ := hfail
      rcases List.mem_cons.1 hy with hyx | hy
      · rw [hyx, hb] at hye
        cases hye
      · obtain ⟨e, he, hl⟩ := ih (fun z hz => h z (by simp [hz])) ⟨y, hy, e, he, hye⟩
        exact ⟨e, he, by rw [hb, done_bind, hl, failed_bind]⟩
    · obtain ⟨e, he, hxe⟩ := hx
      exact ⟨e, he, by rw [hxe, failed_bind]⟩

theorem liftM_result_ok {x : Except ParseError α} {a : α} : (liftM x : Report α).result = .ok a ↔ x = .ok a := by
  cases x with
  | error e => exact ⟨nofun, nofun⟩
  | ok b => exact ⟨fun h => congrArg _ (Except.ok.inj h), fun h => congrArg _ (Except.ok.inj h)⟩

@[simp] theorem liftM_except_ok (a : α) : (liftM (Except.ok a : Except ParseError α) : Report α) = done a := rfl

end Report

end InstitutionalGrammar
