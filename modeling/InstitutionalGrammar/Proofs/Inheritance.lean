/-
  InstitutionalGrammar.Proofs.Inheritance — what a statement takes over from the one around it.

  - `unionOn`, `inheritSlots_agree`: what some of the slots take over.
  - `inherit_agree`: where both statements agree on the slots that both populate, the result is
    their union.
  - `inherit_stops`: otherwise the first such slot that differs is refused, and those before it have been
    taken over.
  - `inherit_checked`: both together, and that it does not matter which of the two takes over the other.
-/

import InstitutionalGrammar.Reading.Pair

namespace InstitutionalGrammar.Statement

/-- The slots of `s`, and those of `t` that `s` leaves empty. -/
def union (s t : Statement) : Statement := .of fun slot => (s.get slot).or (t.get slot)

/-- The slots that both populate hold equal trees. -/
def Agree (s t : Statement) : Prop := ∀ slot a b, s.get slot = some a → t.get slot = some b → a = b

variable {context : Text}

/-- The slots of `s`, and those among `slots` that `t` populates and `s` leaves empty. -/
def unionOn (slots : List Slot) (s t : Statement) : Statement :=
  .of fun slot => if slot ∈ slots then (s.get slot).or (t.get slot) else s.get slot

variable {s outer : Statement} {slot : Slot} {tree : Node} {slots : List Slot}

theorem get_union (h : (s.union outer).get slot = some tree) : s.get slot = some tree ∨ outer.get slot = some tree := by
  rw [union, get_of] at h
  cases hs : s.get slot with
  | none => exact Or.inr (by simpa [hs] using h)
  | some m => exact Or.inl (by simpa [hs] using h)

theorem get_unionOn (slots : List Slot) (s outer : Statement) (slot : Slot) :
    (unionOn slots s outer).get slot = if slot ∈ slots then (s.get slot).or (outer.get slot) else s.get slot :=
  get_of _ slot

theorem unionOn_nil (s outer : Statement) : unionOn [] s outer = s := by
  refine ext_get fun slot => ?_
  rw [get_unionOn, if_neg (List.not_mem_nil)]

theorem unionOn_all (s outer : Statement) : unionOn Slot.all s outer = s.union outer := by
  refine ext_get fun slot => ?_
  rw [get_unionOn, if_pos slot.mem_all, union, get_of]

/-- A slot that takes nothing over. -/
theorem unionOn_cons (h : (s.get slot).or (outer.get slot) = s.get slot) (slots : List Slot) :
    unionOn (slot :: slots) s outer = unionOn slots s outer := by
  refine ext_get fun other => ?_
  rw [get_unionOn, get_unionOn]
  by_cases e : other = slot
  · subst e
    simp [h]
  · simp [e]

/-- A slot that takes a tree over. -/
theorem unionOn_put (h : s.get slot = none) (htree : outer.get slot = some tree) (slots : List Slot) :
    unionOn slots (s.put slot (some tree)) outer = unionOn (slot :: slots) s outer := by
  refine ext_get fun other => ?_
  rw [get_unionOn, get_unionOn, get_put]
  by_cases e : other = slot
  · subst e
    simp [h, htree]
  · simp [e]

/-- Without a conflict every slot is taken over that was empty. -/
theorem inheritSlots_agree (context : Text)
    (h : ∀ slot ∈ slots, ∀ a b, s.get slot = some a → outer.get slot = some b → a = b) :
    inheritSlots context (slots.filterMap fun slot => (outer.get slot).map (slot, ·)) s =
      (unionOn slots s outer, .ok ()) := by
  induction slots generalizing s with
  | nil => rw [unionOn_nil]; rfl
  | cons slot slots ih =>
    have hlater := fun t ht => h t (List.mem_cons_of_mem slot ht)
    rw [List.filterMap_cons]
    cases htree : outer.get slot with
    | none =>
      rw [unionOn_cons (by rw [htree, Option.or_none])]
      exact ih hlater
    | some tree =>
      simp only [Option.map_some, inheritSlots]
      cases hown : s.get slot with
      | none =>
        rw [← unionOn_put hown htree]
        refine ih fun t ht a b ha hb => ?_
        rw [get_put] at ha
        split at ha
        · rename_i e
          subst e
          exact Option.some.inj (ha.symm.trans (htree.symm.trans hb))
        · exact hlater t ht a b ha hb
      | some own =>
        have hsame : own = tree := h slot (by simp) own tree hown htree
        rw [unionOn_cons (by rw [hown]; rfl)]
        simp only [hsame, if_true]
        exact ih hlater

theorem inherit_agree (h : s.Agree outer) : s.inherit outer context = (s.union outer, .ok ()) := by
  rw [inherit, populated, inheritSlots_agree context fun slot _ => h slot, unionOn_all]

/-! ## The first conflict -/

/-- What is taken over first does not change how the rest is. -/
theorem inheritSlots_append {ps : List (Slot × Node)} (qs : List (Slot × Node)) {t : Statement}
    (h : inheritSlots context ps s = (t, .ok ())) : inheritSlots context (ps ++ qs) s = inheritSlots context qs t := by
  induction ps generalizing s with
  | nil =>
    cases h
    rfl
  | cons p ps ih =>
    obtain ⟨slot, tree⟩ := p
    rw [List.cons_append, inheritSlots]
    rw [inheritSlots] at h
    cases hown : s.get slot with
    | none =>
      rw [hown] at h
      exact ih h
    | some own =>
      simp only [hown] at h ⊢
      split at h
      · rename_i he
        rw [if_pos he]
        exact ih h
      · cases h

/-- Of the slots on which two statements differ, one comes first. -/
theorem exists_first_conflict (h : ¬ s.Agree outer) :
    ∃ before slot after own tree, Slot.all = before ++ slot :: after ∧ s.get slot = some own ∧
      outer.get slot = some tree ∧ own ≠ tree ∧
      ∀ t ∈ before, ∀ a b, s.get t = some a → outer.get t = some b → a = b := by
  classical
  have hsome : ((Slot.all.find? fun t => ∃ a b, s.get t = some a ∧ outer.get t = some b ∧ a ≠ b)).isSome := by
    simp only [Agree, Classical.not_forall] at h
    obtain ⟨slot, a, b, ha, hb, hne⟩ := h
    exact List.find?_isSome.2 ⟨slot, slot.mem_all, by simpa using ⟨a, ha, b, hb, hne⟩⟩
  obtain ⟨slot, hslot⟩ := Option.isSome_iff_exists.1 hsome
  obtain ⟨hconflict, before, after, hall, hbefore⟩ := List.find?_eq_some_iff_append.1 hslot
  obtain ⟨own, tree, hown, htree, hne⟩ := of_decide_eq_true hconflict
  have hagree : ∀ t ∈ before, ∀ a, s.get t = some a → ∀ b, outer.get t = some b → a = b := by simpa using hbefore
  exact ⟨before, slot, after, own, tree, hall, hown, htree, hne, fun t ht a b ha hb => hagree t ht a ha b hb⟩

/-- Up to the first conflict slots are taken over, and from there on none is. -/
theorem inherit_stops {before after : List Slot} {own : Node} (hall : Slot.all = before ++ slot :: after)
    (hown : s.get slot = some own) (htree : outer.get slot = some tree) (hne : own ≠ tree)
    (hbefore : ∀ t ∈ before, ∀ a b, s.get t = some a → outer.get t = some b → a = b) :
    s.inherit outer context =
      (unionOn before s outer, .error (.conflictingPairField slot.component.symbol context)) := by
  have hslot : (unionOn before s outer).get slot = some own := by
    rw [get_unionOn, if_neg fun hmem => hne (hbefore slot hmem own tree hown htree), hown]
  rw [inherit, populated, hall, List.filterMap_append, inheritSlots_append _ (inheritSlots_agree context hbefore),
    List.filterMap_cons, htree]
  simp only [Option.map_some, inheritSlots, hslot, hne, if_false]

theorem inherit_conflict (context : Text) (h : ¬ s.Agree outer) :
    ∃ t at', s.inherit outer context = (t, .error (.conflictingPairField at' context)) := by
  obtain ⟨before, slot, after, own, tree, hall, hown, htree, hne, hbefore⟩ := exists_first_conflict h
  exact ⟨_, _, inherit_stops hall hown htree hne hbefore⟩

theorem Agree.symm (h : s.Agree outer) : outer.Agree s :=
  fun slot a b ha hb => (h slot b a hb ha).symm

theorem union_comm (h : s.Agree outer) : s.union outer = outer.union s := by
  refine ext_get fun slot => ?_
  rw [union, union, get_of, get_of]
  cases hs : s.get slot with
  | none => rw [Option.none_or, Option.or_none]
  | some a =>
    cases ho : outer.get slot with
    | none => rfl
    | some b => rw [h slot a b hs ho]

theorem agree_union (h : s.Agree outer) : (s.union outer).Agree outer := by
  intro slot a b ha hb
  rw [union, get_of] at ha
  cases hs : s.get slot with
  | none =>
    rw [hs, Option.none_or, hb] at ha
    exact (Option.some.inj ha).symm
  | some own =>
    rw [hs, Option.some_or] at ha
    exact h slot a b (hs.trans ha) hb

theorem union_union (s outer : Statement) : (s.union outer).union outer = s.union outer := by
  refine ext_get fun slot => ?_
  simp only [union, get_of, Option.or_assoc, Option.or_self]

/-- A statement takes over another one exactly if they agree on the slots that both populate. It is then the union
    of both, a second time changes nothing, and the other way round gives the same. Else the first slot in which
    they differ is refused by its component: the slots before it were taken over, and no other slot changed. -/
theorem inherit_checked (s outer : Statement) (context : Text) :
    ((s.inherit outer context).2 = .ok () ↔ s.Agree outer) ∧
    (s.Agree outer → ∃ t, s.inherit outer context = (t, .ok ()) ∧
      (∀ slot, t.get slot = (s.get slot).or (outer.get slot)) ∧
      ∀ again, t.inherit outer again = (t, .ok ()) ∧ outer.inherit s again = (t, .ok ())) ∧
    (¬ s.Agree outer → ∃ t before slot after own tree,
      s.inherit outer context = (t, .error (.conflictingPairField slot.component.symbol context)) ∧
      Slot.all = before ++ slot :: after ∧
      (s.get slot = some own ∧ outer.get slot = some tree ∧ own ≠ tree) ∧
      (∀ u ∈ before, ∀ a b, s.get u = some a → outer.get u = some b → a = b) ∧
      (∀ u ∈ before, t.get u = (s.get u).or (outer.get u)) ∧ ∀ u ∉ before, t.get u = s.get u) := by
  refine ⟨⟨fun hok => ?_, fun h => by rw [inherit_agree h]⟩, fun h => ?_, fun h => ?_⟩
  · refine Classical.byContradiction fun h => ?_
    obtain ⟨t, at', herror⟩ := inherit_conflict context h
    rw [herror] at hok
    cases hok
  · refine ⟨s.union outer, inherit_agree h, fun _ => rfl, fun again => ⟨?_, ?_⟩⟩
    · rw [inherit_agree (agree_union h), union_union]
    · rw [inherit_agree h.symm, union_comm h]
  · obtain ⟨before, slot, after, own, tree, hall, hown, htree, hne, hbefore⟩ := exists_first_conflict h
    refine ⟨_, before, slot, after, own, tree, inherit_stops hall hown htree hne hbefore, hall, ⟨hown, htree, hne⟩,
      hbefore, fun u hu => ?_, fun u hu => ?_⟩
    · rw [get_unionOn, if_pos hu]
    · rw [get_unionOn, if_neg hu]

def inspection : Statement :=
  (empty.put (.simple .aim) (some (.text "inspect".toList))).put (.simple .modal) (some (.text "must".toList))

/-- Another aim, between two components that an inspection leaves open. -/
def review : Statement :=
  ((empty.put (.simple .attributes) (some (.text "officer".toList))).put (.simple .aim)
    (some (.text "review".toList))).put (.simple .orElse) (some (.text "fine".toList))

/-- The attributes stand before the aim and are taken over, the sanction behind it is not. -/
theorem inherit_checked_review : ¬ inspection.Agree review ∧ ∃ t,
    inspection.inherit review ['x'] = (t, .error (.conflictingPairField ['I'] ['x'])) ∧
    t.get (.simple .attributes) = some (.text "officer".toList) ∧ t.get (.simple .orElse) = none := by
  have hdiffer : ¬ inspection.Agree review := fun h => absurd (h (.simple .aim) _ _ rfl rfl) (by decide)
  obtain ⟨t, before, slot, after, own, tree, ht, hall, ⟨hown, htree, hne⟩, hagree, hfilled, hothers⟩ :=
    (inherit_checked inspection review ['x']).2.2 hdiffer
  obtain rfl : slot = .simple .aim := by
    have honly : ∀ u ∈ Slot.all, (inspection.get u).isSome = true → (review.get u).isSome = true → u = .simple .aim := by
      decide
    exact honly slot slot.mem_all (by rw [hown]; rfl) (by rw [htree]; rfl)
  have hnot : .simple .aim ∉ before := fun hmem => hne (hagree _ hmem own tree hown htree)
  have hbefore : before = Slot.all.takeWhile (· ≠ .simple .aim) := by
    have hne : ∀ u ∈ before, decide (u ≠ .simple .aim) = true := by
      intro u hu
      exact decide_eq_true fun e => hnot (e ▸ hu)
    rw [hall, List.takeWhile_append_of_pos hne]
    simp
  refine ⟨hdiffer, t, ht, ?_, ?_⟩
  · rw [hfilled _ (by rw [hbefore]; decide)]
    rfl
  · rw [hothers _ (by rw [hbefore]; decide)]
    rfl

end InstitutionalGrammar.Statement
